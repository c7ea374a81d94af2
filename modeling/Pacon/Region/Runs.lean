import Pacon.Region.Confinement

/-!
# Runs of a region

What the calls and the servers keep, and from it what every run keeps whose calls meet the guard. A
rename onto a path outside and a directory made in a joined region both get out.
-/

set_option linter.unusedSectionVars false

namespace Pacon.Region
open Lib Function Commit Calls Server

variable {ι κ : Type} [DecidableEq ι] [DecidableEq κ] {cfg : Config ι κ}
  {joined : κ → List Path} {s t u : Commit.State ι κ} {c : κ} {w : World} {d : Disk} {p q : Path}

theorem Confined.mono {joined' : κ → List Path} (h : Confined cfg joined s)
    (more : ∀ c, ∀ q ∈ joined c, q ∈ joined' c) : Confined cfg joined' s where
  cache := h.cache
  out := h.out
  table c q checked := (h.table c q checked).imp_right (more c q)
  server := h.server

theorem Confined.initRemotes {mounts : List Path} (h : Confined cfg joined s) (member : ∀ q ∈ mounts, q ∈ joined c) :
    Confined cfg joined (initRemotes s c mounts).2 := by
  induction mounts generalizing s with
  | nil => exact h
  | cons mount mounts ih =>
      unfold Calls.initRemotes
      split
      · exact h
      · refine ih ⟨h.cache, h.out, fun c' q checked => ?_, h.server⟩ fun q later =>
          member q (List.mem_cons_of_mem _ later)
        rcases (checked_iff s c c' mount q).mp checked with before | ⟨rfl, rfl⟩
        · exact h.table c' q before
        · exact .inr (member q List.mem_cons_self)

theorem Confined.joint {roots : List Path} {memory : Nat → CString} (h : Confined cfg joined s)
    (member : ∀ q ∈ remoteMounts roots memory, q ∈ joined c) :
    Confined cfg joined (cregionJoint s c roots memory).2 := by
  unfold cregionJoint
  split
  · exact h
  · exact h.initRemotes member

theorem readMessage_text (cwd : Path) {m : Msg} (sendable : Sendable cfg m.path) (timestamp : BitVec 32) :
    readMessage cwd (text m.path ++ (messageType m.opt).text ++ Message.timestampText timestamp) = some m := by
  have cut : Message.commitToFs (text m.path ++ (messageType m.opt).text ++ Message.timestampText timestamp) =
      (text m.path, some (messageType m.opt).code) := by
    have path : (text m.path ++ (messageType m.opt).text ++ Message.timestampText timestamp).takeWhile (· ≠ ':') =
        text m.path := by
      rw [Message.OptType.text, List.append_assoc]
      exact takeWhile_sep sendable.noColon _
    unfold Message.commitToFs
    rw [path]
    dsimp only
    rw [Message.charAt_code]
  unfold readMessage
  rw [cut, resolve_text sendable.named]
  obtain ⟨opt, p⟩ := m
  cases opt <;> rfl

theorem Confined.serverAt (h : Confined cfg joined s) (i : ι) {pc : ServerPc κ}
    (inside : ∀ p ∈ target pc, cfg.root <:+ p) : Confined cfg joined { s with server := update s.server i pc } where
  cache := h.cache
  out := h.out
  table := h.table
  server j p member := by
    dsimp only at member
    by_cases same : j = i
    · subst same
      rw [update_self] at member
      exact inside p member
    · rw [update_of_ne same] at member
      exact h.server j p member

theorem Confined.finish (h : Confined cfg joined s) (i : ι) (c : κ) : Confined cfg joined (Commit.finish s i c) :=
  (h.serverAt i fun p none => (by cases none)).frame (fun p there => .inl there) rfl rfl rfl

theorem target_dispatch {m : Msg} (member : p ∈ target (dispatch c m)) : p = m.path := by
  unfold dispatch at member
  split at member <;> exact (Option.some.inj member).symm

theorem Confined.takeStep (h : Confined cfg joined s) {cwd : Path} {timestamp : BitVec 32}
    (take : Region.takeStep cfg s c cwd timestamp = some t) : Confined cfg joined t := by
  unfold Region.takeStep at take
  split at take
  · rename_i m pc head
    have sendable := h.out c m (List.mem_of_getElem? head)
    rw [readMessage_text cwd sendable] at take
    cases take
    refine h.serverAt _ fun p member => ?_
    rw [target_dispatch member]
    exact sendable.inside
  · cases take

theorem dfsCall_other {dfs dfs' : Path → Option Node} {vacant : Bool} {m : Msg}
    (call : dfsCall dfs vacant m = some dfs') (other : p ≠ m.path) : dfs' p = dfs p := by
  cases dfsCall_effect call with
  | mkdir | create | truncate | remove => exact update_of_ne other ..

theorem Confined.succeed (h : Confined cfg joined s) (i : ι) (c : κ) {m : Msg} (dfs : Path → Option Node)
    (inside : cfg.root <:+ m.path) : Confined cfg joined (Commit.succeed s i c m dfs) := by
  unfold Commit.succeed
  split
  · exact (h.unlinked _ dfs).serverAt i fun p here => Option.some.inj here ▸ inside
  all_goals
    refine Confined.finish ?_ i c
    exact h.frame (fun p there => .inl there) rfl rfl rfl

theorem Confined.writeBack (h : Confined cfg joined s) (p : Path) (n : Nat) (data : List UInt8) :
    Confined cfg joined (Commit.writeBack s p n data) := by
  unfold Commit.writeBack
  split
  · exact h.frame (fun p there => .inl there) rfl rfl rfl
  · exact h

theorem writeBack_other {n : Nat} {data : List UInt8} (other : q ≠ p) :
    (Commit.writeBack s p n data).dfs q = s.dfs q := by
  unfold Commit.writeBack
  split
  · exact update_of_ne other ..
  · rfl

theorem target_writeRead {env : Env} {n : Nat} {v : Value} : target (writeRead env c p n v) = some p := by
  unfold writeRead
  split <;> rfl

theorem Confined.serverStep (h : Confined cfg joined s) {i : ι} {env : Env}
    (step : Commit.serverStep s i env = some t) : Confined cfg joined t ∧ ChangesInside cfg s t := by
  have move : Move cfg s (.server i env) t := serverStep_move step
  have inside : ∀ {pc p}, s.server i = pc → target pc = some p → cfg.root <:+ p := fun at_pc here =>
    h.server i _ (by rw [at_pc]; exact here)
  cases move with
  | rmVoid pc => exact ⟨h.finish i _, .of_eq rfl⟩
  | rmFound pc => exact ⟨h.serverAt i fun p here => inside pc here, .of_eq rfl⟩
  | succeed pc call =>
      rename_i c m dfs
      have here : cfg.root <:+ m.path := pc.elim (fun pc => inside pc rfl) fun pc => inside pc rfl
      refine ⟨h.succeed i c dfs here, fun p changed => ?_⟩
      rw [(succeed_frame s i c m dfs).2.2.2] at changed
      by_contra outside
      exact changed (dfsCall_other call fun same => outside (same ▸ here))
  | fail pc =>
      rename_i c m call
      have here : cfg.root <:+ m.path := pc.elim (fun pc => inside pc rfl) fun pc => inside pc rfl
      exact ⟨h.serverAt i fun p same => Option.some.inj same ▸ here, .of_eq rfl⟩
  | rmDel pc => exact ⟨(h.del _).finish i _, .of_eq rfl⟩
  | dropWrite => exact ⟨h.finish i _, .of_eq rfl⟩
  | openWrite pc => exact ⟨h.serverAt i fun p here => inside pc here, .of_eq rfl⟩
  | writeVoid => exact ⟨h.finish i _, .of_eq rfl⟩
  | writeRead pc =>
      refine ⟨h.serverAt i fun p here => ?_, .of_eq rfl⟩
      rw [target_writeRead] at here
      exact inside pc here
  | writeBack pc =>
      refine ⟨(h.writeBack _ _ _).finish i _, fun p changed => ?_⟩
      by_contra outside
      exact changed (writeBack_other fun same => outside (same ▸ inside pc rfl))

structure Inside (cfg : Config ι κ) (s : State ι κ) : Prop where
  cache : ∀ p, s.base.cache p ≠ none → cfg.root <:+ p
  out : ∀ c, ∀ m ∈ s.base.out c, cfg.root <:+ m.path
  changed : ∀ p, s.changed p = true → cfg.root <:+ p

def Interface.paths : Interface → List Path
  | .make _ p | .rm p | .getattr p | .openFile p _ _ | .opendir p | .rmdir p => [p]
  | .rename p newp => [p, newp]
  | .joint roots _ => roots
  | .split => []

def Normalised (_ : State ι κ) : Event κ ι → Prop
  | .call _ w _ call => (∀ p ∈ call.paths, Named p) ∧ ∀ name ∈ w.entries, IsName name
  | .take _ _ _ | .server _ _ => True

def StaysInside (cfg : Config ι κ) (joined : List Path) : Interface → Prop
  | .make _ p => ':' ∉ text p ∧ (p.tail ∈ joined → cfg.root <:+ p.tail)
  | .rm p | .opendir p | .rmdir p => ':' ∉ text p
  | .rename p newp => (∀ q ∈ [p, newp], '-' ∉ text q ∧ ':' ∉ text q) ∧ cfg.root <:+ newp
  | .getattr _ | .openFile _ _ _ | .joint _ _ | .split => True

def Guarded (cfg : Config ι κ) (s : State ι κ) : Event κ ι → Prop
  | .call c w d call => Normalised s (.call c w d call : Event κ ι) ∧ StaysInside cfg (s.joined c) call
  | .take _ _ _ | .server _ _ => True

instance (s : State ι κ) (e : Event κ ι) : Decidable (Normalised s e) := by
  unfold Normalised
  split <;> infer_instance

instance (call : Interface) (roots : List Path) : Decidable (StaysInside cfg roots call) := by
  unfold StaysInside
  split <;> infer_instance

instance (s : State ι κ) (e : Event κ ι) : Decidable (Guarded cfg s e) := by
  unfold Guarded
  split <;> infer_instance

theorem Confined.run {call : Interface} (h : Confined cfg joined s) (namedRoot : Named cfg.root)
    (named : ∀ p ∈ call.paths, Named p) (areNames : ∀ name ∈ w.entries, IsName name)
    (stays : StaysInside cfg (joined c) call) (mounts : ∀ q ∈ call.mounts, q ∈ joined c) {x : Int × Commit.State ι κ}
    (run : Region.run cfg s c w d call = some x) :
    Confined cfg joined x.2 ∧ (call.requests = true → ChangesInside cfg s x.2) := by
  have silent : ∀ {call : Interface}, call.requests = false → call.requests = true → ChangesInside cfg s x.2 :=
    fun no yes => absurd (no.symm.trans yes) Bool.false_ne_true
  cases call with
  | make m p =>
      exact ⟨h.create namedRoot (named p List.mem_cons_self) stays.1 areNames stays.2 run, silent rfl⟩
  | rm p => exact ⟨h.rm namedRoot (named p List.mem_cons_self) stays run, silent rfl⟩
  | getattr p =>
      cases run
      exact ⟨h.getattr namedRoot (named p List.mem_cons_self), silent rfl⟩
  | openFile p flags file =>
      obtain ⟨y, opened, rfl⟩ := Option.map_eq_some_iff.mp run
      exact ⟨h.openFile namedRoot (named p List.mem_cons_self) opened, silent rfl⟩
  | opendir p =>
      have both := h.opendir namedRoot (named p List.mem_cons_self) stays run
      exact ⟨both.1, fun _ => .of_eq both.2⟩
  | rmdir p =>
      have both := h.rmdir namedRoot (named p List.mem_cons_self) stays run
      exact ⟨both.1, fun _ => both.2⟩
  | rename p newp =>
      obtain ⟨clear, insideNew⟩ := stays
      have plain : ∀ q ∈ [p, newp], Plain q := fun q member =>
        ⟨named q member, (clear q member).1, (clear q member).2⟩
      have both := h.rename namedRoot (plain p (by simp)) (plain newp (by simp)) insideNew run
      exact ⟨both.1, fun _ => both.2⟩
  | joint roots memory =>
      cases run
      exact ⟨h.joint mounts, silent rfl⟩
  | split =>
      cases run
      exact ⟨h, silent rfl⟩

structure Held (cfg : Config ι κ) (s : State ι κ) : Prop where
  confined : Confined cfg s.joined s.base
  changed : ∀ p, s.changed p = true → cfg.root <:+ p

theorem held_initial {s : State ι κ} (init : Initial cfg s) : Held cfg s where
  confined := {
    cache p there := by
      by_contra outside
      exact there (init.cache p fun root => outside (root ▸ List.suffix_rfl))
    out c m member := by
      rw [init.out] at member
      cases member
    table c q checked := .inl (init.table c q checked ▸ List.suffix_rfl)
    server i p member := by
      rw [init.server] at member
      cases member }
  changed p new := by
    rw [init.changed] at new
    cases new

theorem Held.call {s t : State ι κ} {call : Interface} (h : Held cfg s) (namedRoot : Named cfg.root)
    (ok : Guarded cfg s (.call c w d call)) (step : callStep cfg s c w d call = some t) : Held cfg t := by
  obtain ⟨⟨named, areNames⟩, stays⟩ := ok
  obtain ⟨x, run, rfl⟩ := Option.map_eq_some_iff.mp step
  have stays' : StaysInside cfg (update s.joined c (s.joined c ++ call.mounts) c) call := by
    rw [update_self]
    cases call with
    | make m p =>
        have none : (Interface.make m p).mounts = [] := rfl
        rwa [none, List.append_nil]
    | rm | getattr | openFile | opendir | rmdir | rename | joint | split => exact stays
  have more : ∀ c', ∀ q ∈ s.joined c', q ∈ update s.joined c (s.joined c ++ call.mounts) c' := by
    intro c' q member
    by_cases same : c' = c
    · subst same
      rw [update_self]
      exact List.mem_append_left _ member
    · rwa [update_of_ne same]
  have mounts : ∀ q ∈ call.mounts, q ∈ update s.joined c (s.joined c ++ call.mounts) c := by
    intro q member
    rw [update_self]
    exact List.mem_append_right _ member
  obtain ⟨confined, changes⟩ := (h.confined.mono more).run namedRoot named areNames stays' mounts run
  refine ⟨confined, fun p change => ?_⟩
  rcases Bool.or_eq_true_iff.mp change with before | now
  · exact h.changed p before
  · obtain ⟨requests, differ⟩ := (Bool.and_eq_true _ _).mp now
    exact changes requests p (Ne.symm (of_decide_eq_true differ))

theorem Held.step {s t : State ι κ} {e : Event κ ι} (h : Held cfg s) (namedRoot : Named cfg.root)
    (ok : Guarded cfg s e) (step : Region.step cfg s e = some t) : Held cfg t := by
  cases e with
  | call c w d call => exact h.call namedRoot ok step
  | take c cwd timestamp =>
      obtain ⟨base, take, rfl⟩ := Option.map_eq_some_iff.mp step
      exact ⟨h.confined.takeStep take, h.changed⟩
  | server i env =>
      obtain ⟨base, served, rfl⟩ := Option.map_eq_some_iff.mp step
      obtain ⟨confined, changes⟩ := h.confined.serverStep served
      refine ⟨confined, fun p change => ?_⟩
      rcases Bool.or_eq_true_iff.mp change with before | now
      · exact h.changed p before
      · exact changes p (Ne.symm (of_decide_eq_true now))

/-- Whatever the clients call and however the servers run, nothing outside the workspace is cached,
sent or changed, as long as no call does what the guard excludes. -/
theorem inside_of_guarded {s : State ι κ} (namedRoot : Named cfg.root)
    (reach : (system cfg).Reachable (Guarded cfg) s) : Inside cfg s := by
  have held : Held cfg s := reach.invariant (fun s init => held_initial init)
    fun s e t _ h ok step => h.step namedRoot ok step
  exact ⟨held.confined.cache, fun c m member => (held.confined.out c m member).inside, held.changed⟩

def exampleRegion : State Unit Unit where
  base := { exampleState with dfs := update exampleState.dfs [['r']] (some .dir) }
  changed _ := false
  joined _ := []

theorem initial_exampleRegion : Initial (.oneNode Unit exampleDir.tail) exampleRegion where
  cache := (initial_initialState (.oneNode Unit exampleDir.tail) .zero).cache
  table := (initial_initialState (.oneNode Unit exampleDir.tail) .zero).table
  out _ := rfl
  done _ := rfl
  server _ := rfl
  changed _ := rfl
  joined _ := rfl

def exampleCall (call : Interface) : Event Unit Unit := .call () renameWorld (exampleDisk fun _ => false) call

def outsideRun : List (Event Unit Unit) :=
  [exampleCall (.joint [[['r']]] fun _ => []), exampleCall (.make .mkdir [['x'], ['r']]), exampleCall (.rename exampleDir [['e']])]

def insideRun : List (Event Unit Unit) :=
  [exampleCall (.joint [[['r']]] fun _ => []), exampleCall (.make .mkdir [['x'], ['w']]), .take () [] 0, .server () .zero,
    exampleCall (.rename exampleDir otherDir)]

theorem leaves_workspace : ∃ s, (system (.oneNode Unit exampleDir.tail)).Reachable Normalised s ∧
    (∃ p, s.base.cache p ≠ none ∧ ¬exampleDir.tail <:+ p) ∧
    (∃ c, ∃ m ∈ s.base.out c, ¬exampleDir.tail <:+ m.path) ∧
    ∃ p, s.changed p = true ∧ ¬exampleDir.tail <:+ p := by
  have run := System.exists_reachable (system (.oneNode Unit exampleDir.tail)) Normalised initial_exampleRegion
    outsideRun (fun s => decide (s.base.cache [['x'], ['r']] ≠ none ∧ ⟨.mkdir, [['x'], ['r']]⟩ ∈ s.base.out () ∧
      s.changed [['e']] = true)) (by decide +kernel)
  obtain ⟨s, reach, facts⟩ := run
  obtain ⟨cached, sent, changed⟩ := of_decide_eq_true facts
  exact ⟨s, reach, ⟨_, cached, by decide⟩, ⟨(), _, sent, by decide⟩, _, changed, by decide⟩

theorem inside_of_guarded_rename : ∃ s, (system (.oneNode Unit exampleDir.tail)).Reachable
    (Guarded (.oneNode Unit exampleDir.tail)) s ∧ s.changed otherDir = true ∧
      Inside (.oneNode Unit exampleDir.tail) s := by
  have run := System.exists_reachable (system (.oneNode Unit exampleDir.tail))
    (Guarded (.oneNode Unit exampleDir.tail)) initial_exampleRegion insideRun
    (fun s => s.changed otherDir && s.changed [['x'], ['w']]) (by decide +kernel)
  obtain ⟨s, reach, both⟩ := run
  exact ⟨s, reach, ((Bool.and_eq_true _ _).mp both).1, inside_of_guarded (by decide) reach⟩

end Pacon.Region
