import Pacon.Commit.Agreement

set_option linter.unusedSectionVars false

namespace Pacon.Commit
open Function Lib

variable {ι κ : Type} [DecidableEq ι] [DecidableEq κ] {cfg : Config ι κ} {s t : State ι κ}

structure Acknowledged (s : State ι κ) : Prop where
  returning : ∀ c call result, s.client c = .returning call result → result = -1 ∨ call.msg ∈ s.out c
  returned : ∀ c call result, (call, result) ∈ s.returned c → result = -1 ∨ call.msg ∈ s.out c

theorem Acknowledged.initial (h : Initial cfg s) : Acknowledged s where
  returning c call result at_pc := by
    rw [h.client c] at at_pc
    cases at_pc
  returned c call result member := by
    rw [h.returned c] at member
    cases member

theorem Acknowledged.goOn {u : State ι κ} {c : κ} {pc : ClientPc} (a : Acknowledged s) (client : u.client = s.client)
    (out : u.out = s.out) (returned : u.returned = s.returned) (fails : ∀ call result, pc = .returning call result → result = -1) :
    Acknowledged (setPc u c pc) where
  returning d call result at_pc := by
    change update u.client c pc d = _ at at_pc
    change _ ∨ _ ∈ u.out d
    rw [out]
    by_cases here : d = c
    · subst here
      rw [update_self] at at_pc
      exact .inl (fails call result at_pc)
    · rw [update_of_ne here, client] at at_pc
      exact a.returning d call result at_pc
  returned d call result member := by
    change _ ∈ u.returned d at member
    change _ ∨ _ ∈ u.out d
    rw [returned] at member
    rw [out]
    exact a.returned d call result member

theorem Acknowledged.congr (a : Acknowledged s) (client : t.client = s.client) (out : t.out = s.out)
    (returned : t.returned = s.returned) : Acknowledged t where
  returning := by rw [client, out]; exact a.returning
  returned := by rw [returned, out]; exact a.returned

theorem Acknowledged.send (a : Acknowledged s) {c : κ} {call : Call} : Acknowledged (setPc
    { s with out := update s.out c (s.out c ++ [call.msg]) } c (.returning call call.result)) := by
  have grows {d : κ} {m : Msg} (member : m ∈ s.out d) : m ∈ update s.out c (s.out c ++ [call.msg]) d := by
    by_cases here : d = c
    · subst here
      rw [update_self]
      exact List.mem_append_left _ member
    · rwa [update_of_ne here]
  constructor
  · intro d call' result at_pc
    change update s.client c _ d = _ at at_pc
    by_cases here : d = c
    · subst here
      rw [update_self] at at_pc
      cases at_pc
      refine .inr ?_
      change call.msg ∈ update s.out d (s.out d ++ [call.msg]) d
      simp
    · rw [update_of_ne here] at at_pc
      exact (a.returning d call' result at_pc).imp_right grows
  · intro d call' result member
    exact (a.returned d call' result member).imp_right grows

theorem Acknowledged.ret (a : Acknowledged s) {c : κ} {call : Call} {result : Int}
    (at_pc : s.client c = .returning call result) : Acknowledged (setPc
      { s with returned := update s.returned c (s.returned c ++ [(call, result)]) } c .idle) := by
  constructor
  · intro d call' result' at_pc'
    change update s.client c _ d = _ at at_pc'
    by_cases here : d = c
    · subst here
      rw [update_self] at at_pc'
      cases at_pc'
    · rw [update_of_ne here] at at_pc'
      exact a.returning d call' result' at_pc'
  · intro d call' result' member
    change _ ∈ update s.returned c (s.returned c ++ [(call, result)]) d at member
    by_cases here : d = c
    · subst here
      rw [update_self, List.mem_append, List.mem_singleton] at member
      rcases member with old | new
      · exact a.returned d call' result' old
      · cases new
        exact a.returning d call result at_pc
    · rw [update_of_ne here] at member
      exact a.returned d call' result' member

theorem Acknowledged.move {e : Event κ ι} (a : Acknowledged s) (g : Grown cfg s) (move : Move cfg s e t) :
    Acknowledged t := by
  have at_client {c pc} (at_pc : s.client c = pc) : ClientOk cfg s.cache s.clock pc := at_pc ▸ g.client c
  have failed {pc : ClientPc} (h : ∀ x, pc.outcome = some x → x.2 = -1) :
      ∀ call result, pc = .returning call result → result = -1 := by
    intro call result is
    exact h (call, result) (by rw [is]; rfl)
  have sending {msg : Call} : ∀ call result, ClientPc.send msg = .returning call result → result = -1 := by
    intro call result is
    cases is
  cases move with
  | start => exact a.goOn rfl rfl rfl (failed fun x => beginCall_outcome)
  | goOn at_pc goes => exact a.goOn rfl rfl rfl (failed goes.outcome.2)
  | parentAdd => exact a.goOn rfl rfl rfl (failed fun x => afterParent_outcome)
  | @loadAdd c env l =>
      refine a.goOn rfl rfl rfl fun call result is => ?_
      cases l <;> cases is
  | childCas =>
      refine a.goOn rfl rfl rfl fun call result is => ?_
      cases is
  | add => exact a.goOn rfl rfl rfl sending
  | addAgain => exact a.goOn rfl rfl rfl sending
  | addSet at_pc => exact (at_client at_pc).elim
  | rmCas => exact a.goOn rfl rfl rfl sending
  | rmLate => exact a.goOn rfl rfl rfl sending
  | writeCas => exact a.goOn rfl rfl rfl sending
  | send => exact a.send
  | ret at_pc => exact a.ret at_pc
  | succeed =>
      unfold succeed
      split <;> exact a.congr rfl rfl rfl
  | writeBack =>
      unfold writeBack
      split <;> exact a.congr rfl rfl rfl
  | _ => exact a.congr rfl rfl rfl

theorem acknowledged_of_reachable (h : (system cfg).Reachable (Calls Makes) s) : Acknowledged s :=
  h.invariant (fun _ => .initial) fun _ _ _ reach a _ step =>
    a.move (grown_of_reachable (fun _ _ => Makes.calls) reach) (move_of_step step)

def Finished (s : State ι κ) : Prop :=
  ∀ c n m, (issued s c)[n]? = some m → n < s.done c → ∃ node, s.dfs m.path = some node ∧ m.opt.kind = some node.kind

theorem DfsEffect.kinds {dfs dfs' : Path → Option Node} {m : Msg} (effect : DfsEffect dfs m dfs')
    (makes : m.opt = .mkdir ∨ m.opt = .create) :
    (∃ node, dfs' m.path = some node ∧ m.opt.kind = some node.kind) ∧
    ∀ p node, dfs p = some node → ∃ node', dfs' p = some node' ∧ node'.kind = node.kind := by
  have others {new : Node} (free : dfs m.path = none ∨ ∃ old, dfs m.path = some old ∧ old.kind = new.kind) :
      ∀ p node, dfs p = some node → ∃ node', update dfs m.path (some new) p = some node' ∧ node'.kind = node.kind := by
    intro p node there
    by_cases here : p = m.path
    · subst here
      rw [there] at free
      rcases free with absent | ⟨old, same, kind⟩
      · cases absent
      · cases same
        exact ⟨new, update_self .., kind.symm⟩
    · exact ⟨node, by rw [update_of_ne here, there], rfl⟩
  cases effect with
  | mkdir opt notRoot free => exact ⟨⟨.dir, update_self .., by rw [opt]; rfl⟩, others (.inl free)⟩
  | create opt notRoot free => exact ⟨⟨.file [], update_self .., by rw [opt]; rfl⟩, others (.inl free)⟩
  | truncate opt file => exact ⟨⟨.file [], update_self .., by rw [opt]; rfl⟩, others (.inr ⟨_, file, rfl⟩)⟩
  | remove opt => rcases makes with makes | makes <;> cases makes.symm.trans opt

theorem Finished.move {e : Event κ ι} (f : Finished s) (w : Within cfg Makes s) (move : MakeMove cfg s e t) :
    Finished t := by
  cases move with
  | quiet cache dfs committed same done =>
      intro c n m
      rw [same, done, dfs]
      exact f c n m
  | @add c' env m' p t parent below absent cache dfs committed more done =>
      intro c n m message finished
      rw [done] at finished
      rw [dfs]
      apply f c n m _ finished
      have sent := finished.trans_le (w.queued.done_le c)
      rw [more] at message
      by_cases here : c = c'
      · subst here
        rwa [update_self, List.getElem?_append_left sent] at message
      · rwa [update_of_ne here] at message
  | take => exact f
  | fail => exact f
  | @succeed i env c' m' dfs pc effect makes =>
      obtain ⟨made, kept⟩ := effect.kinds makes
      intro c n m message finished
      change n < update s.done c' (s.done c' + 1) c at finished
      have before (old : n < s.done c) : ∃ node, dfs m.path = some node ∧ m.opt.kind = some node.kind := by
        obtain ⟨node, there, kind⟩ := f c n m message old
        obtain ⟨node', there', same⟩ := kept _ node there
        exact ⟨node', there', by rw [same, kind]⟩
      by_cases here : c = c'
      · subst here
        rw [update_self] at finished
        by_cases last : n = s.done c
        · subst last
          cases Option.some.inj (message.symm.trans (w.head (serving_of_attempt pc)).message)
          exact made
        · exact before (by omega)
      · rw [update_of_ne here] at finished
        exact before finished

theorem finished_of_reachable (h : (system cfg).Reachable (Calls Makes) s) : Finished s := by
  apply h.invariant
  · intro s initial c n m message
    simp [issued, initial.out c, initial.client c, ClientPc.unsent] at message
  · intro s e t reach f guard step
    have w := within_of_reachable (fun _ _ => id) reach
    exact f.move w (makeMove_of_move (grown_of_reachable (fun _ _ => Makes.calls) reach) w (move_of_step step))

theorem MakeMove.server_cases {i : ι} {env : Env} (move : MakeMove cfg s (.server i env) t) :
    (t.done = s.done ∧ ∀ j, (t.server j).serving = (s.server j).serving) ∨
    ∃ c m, (s.server i).serving = some (c, m) ∧ t.done = update s.done c (s.done c + 1) ∧
      t.server = update s.server i .recv := by
  cases move with
  | quiet cache dfs committed same done server => exact .inl ⟨done, fun j => by rw [server]⟩
  | @fail _ _ c m pc call =>
      refine .inl ⟨rfl, fun j => ?_⟩
      change (update s.server i (.retry c m) j).serving = _
      by_cases here : j = i
      · subst here
        rw [update_self, serving_of_attempt pc]
        rfl
      · rw [update_of_ne here]
  | @succeed _ _ c m dfs pc effect makes => exact .inr ⟨c, m, serving_of_attempt pc, rfl, rfl⟩

end Pacon.Commit
