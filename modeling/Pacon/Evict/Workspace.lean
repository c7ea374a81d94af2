import Pacon.Evict.Moves

set_option linter.unusedSectionVars false

namespace Pacon.Commit
open Function Lib

variable {ι κ : Type} [DecidableEq ι] [DecidableEq κ] (cfg : Config ι κ)

def Nested (p : Path) : Prop := p ≠ [] ∧ cfg.root <:+ p.tail

def Load.Inside : Load → Prop
  | .parent _ p => p ≠ []
  | .child _ p _ _ _ => Nested cfg p
  | .rm _ => True

def ClientPc.Inside : ClientPc → Prop
  | .parentGet _ p | .parentReget _ p => p ≠ []
  | .opendir _ p _ _ | .readdir _ p _ _ | .childCas _ p _ _ | .childReget _ p | .parentAdd _ p
  | .addSet _ p _ => Nested cfg p
  | .add _ p | .addGet _ p _ => p = [] ∨ Nested cfg p
  | .loadStat l | .loadAdd l _ => cfg.root <:+ l.target ∧ l.Inside cfg
  | .idle | .rmGet _ | .rmReget _ | .rmCas .. | .writeGet .. | .writeCas .. | .send _ | .returning ..
  | .beyond => True

structure Inside (s : State ι κ) : Prop where
  key : s.cache [] = none
  cached : ∀ {p e}, s.cache p = some e → cfg.root <:+ p
  table : ∀ {c p}, s.table c p = true → cfg.root <:+ p
  client : ∀ c, (s.client c).Inside cfg

variable {cfg} {s t : State ι κ}

theorem Nested.inside {p : Path} (h : Nested cfg p) : cfg.root <:+ p := by
  obtain ⟨notRoot, inside⟩ := h
  cases p with
  | nil => exact absurd rfl notRoot
  | cons name q => exact inside.trans (List.suffix_cons _ _)

theorem Inside.initial (h : Initial cfg s) : Inside cfg s where
  key := by
    by_cases root : cfg.root = []
    · exact root ▸ h.rootKey root
    · exact h.cache [] (Ne.symm root)
  cached {p e} entry := by
    by_cases root : p = cfg.root
    · exact root ▸ List.suffix_rfl
    · rw [h.cache p root] at entry
      cases entry
  table {c p} checked := (h.table c p).mp checked ▸ List.suffix_rfl
  client c := by
    rw [h.client c]
    trivial

theorem afterParent_inside {m : Make} {p : Path} (h : p = [] ∨ Nested cfg p) :
    (afterParent m p).Inside cfg :=
  afterParent_of (P := ClientPc.Inside cfg) (fun _ => h) trivial

theorem Inside.beginCall (h : Inside cfg s) (c : κ) (call : Call) :
    (Commit.beginCall (s.table c) call).Inside cfg := by
  apply beginCall_of (P := ClientPc.Inside cfg)
  · intro m p _ checked
    by_cases root : p = []
    · exact afterParent_inside (.inl root)
    · exact afterParent_inside (.inr ⟨root, h.table (checked.resolve_left root)⟩)
  · exact fun m p _ notRoot _ => notRoot
  all_goals intros; trivial

theorem load_inside {l : Load} (h : l.Inside cfg) : (load cfg l).Inside cfg := by
  unfold load
  split
  · rename_i inside
    exact ⟨inside.1, h⟩
  · trivial

theorem parentFound_inside {m : Make} {p : Path} {e : Entry} (h : Nested cfg p) :
    (parentFound m p e).Inside cfg := by
  unfold parentFound
  split
  · trivial
  · split <;> exact h

theorem writeFound_inside (env : Env) (p : Path) (buf : List UInt8) (offset : Nat) (e : Entry) :
    (writeFound env p buf offset e).Inside cfg := by
  unfold writeFound
  split
  · trivial
  · split <;> trivial

theorem Load.next_inside {l : Load} (h : l.Inside cfg) : l.next.Inside cfg := by
  cases l <;> exact h

theorem Inside.local (h : Inside cfg s) {env : Env} {pc next : ClientPc} (goes : Local cfg s env pc next)
    (before : pc.Inside cfg) : next.Inside cfg := by
  cases goes with
  | parentMiss => exact load_inside before
  | parentHit entry | parentLoaded entry => exact parentFound_inside ⟨before, h.cached entry⟩
  | opendir | readdirEnd | childExists | childReget => exact before
  | readdir => exact load_inside before
  | stat => exact before
  | loadExists => exact Load.next_inside before.2
  | addExists => exact before
  | addRemoved entry =>
      refine before.resolve_left fun root => ?_
      rw [root, h.key] at entry
      cases entry
  | rmMiss => exact load_inside trivial
  | writeHit => exact writeFound_inside _ _ _ _ _
  | _ => trivial

theorem Inside.setPc (h : Inside cfg s) {c : κ} {pc : ClientPc} (after : pc.Inside cfg) :
    Inside cfg (setPc s c pc) where
  key := h.key
  cached := h.cached
  table := h.table
  client d := by
    by_cases here : d = c
    · subst here
      rw [setPc_client, update_self]
      exact after
    · rw [setPc_client, update_of_ne here]
      exact h.client d

theorem Inside.store (h : Inside cfg s) {p : Path} (v : Value) (notRoot : p ≠ []) (inside : cfg.root <:+ p) :
    Inside cfg (store s p v) where
  key := (update_of_ne (Ne.symm notRoot) ..).trans h.key
  cached {q e} entry := by
    by_cases here : q = p
    · exact here ▸ inside
    · exact h.cached ((update_of_ne here ..).symm.trans entry)
  table := h.table
  client := h.client

theorem Inside.fewer (h : Inside cfg s) (cache : ∀ p e, t.cache p = some e → s.cache p = some e)
    (table : t.table = s.table) (client : t.client = s.client) : Inside cfg t where
  key := by
    refine Option.eq_none_iff_forall_ne_some.mpr fun e entry => ?_
    have before := cache [] e entry
    rw [h.key] at before
    cases before
  cached entry := h.cached (cache _ _ entry)
  table := by rw [table]; exact h.table
  client := by rw [client]; exact h.client

theorem Inside.notRoot (h : Inside cfg s) {p : Path} {e : Entry} (entry : s.cache p = some e) : p ≠ [] := by
  rintro rfl
  rw [h.key] at entry
  cases entry

theorem dmkvDel_cache {p q : Path} {e : Entry} (entry : (dmkvDel s p).cache q = some e) : s.cache q = some e := by
  by_cases here : q = p
  · subst here
    simp [dmkvDel] at entry
  · exact (update_of_ne here ..).symm.trans entry

theorem Inside.move (h : Inside cfg s) {e : Event κ ι} (move : Move cfg s e t) : Inside cfg t := by
  have at_client : ∀ {c pc}, s.client c = pc → pc.Inside cfg := fun at_pc => at_pc ▸ h.client _
  cases move with
  | start => exact h.setPc (h.beginCall _ _)
  | goOn at_pc goes => exact h.setPc (h.local goes (at_client at_pc))
  | @parentAdd c env m p at_pc =>
      have nested : Nested cfg p := at_client at_pc
      have added : Inside cfg { s with table := update s.table c (update (s.table c) p.tail true) } := by
        refine ⟨h.key, h.cached, fun {d q} checked => ?_, h.client⟩
        by_cases here : q = p.tail
        · exact here ▸ nested.2
        · refine h.table (c := d) ?_
          by_cases same : d = c
          · subst same
            simpa [here] using checked
          · simpa [same] using checked
      exact added.setPc (afterParent_inside (.inr nested))
  | loadAdd at_pc key absent =>
      have load := at_client at_pc
      exact (h.store _ key load.1).setPc (Load.next_inside load.2)
  | @childCas c env m p v cas e at_pc entry =>
      have nested : Nested cfg p := at_client at_pc
      exact (h.store _ (h.notRoot entry) (h.cached entry)).setPc nested
  | add at_pc key => exact (h.store _ key ((at_client at_pc).resolve_left key).inside).setPc trivial
  | @addSet c env m p v at_pc =>
      have nested : Nested cfg p := at_client at_pc
      refine (h.store _ nested.1 nested.inside).setPc ?_
      cases m <;> trivial
  | rmCas at_pc entry | writeCas at_pc entry =>
      exact (h.store _ (h.notRoot entry) (h.cached entry)).setPc trivial
  | addAgain | rmLate => exact h.setPc trivial
  | @send c env call at_pc =>
      have same : Inside cfg { s with out := update s.out c (s.out c ++ [call.msg]) } :=
        h.fewer (fun _ _ => id) rfl rfl
      exact same.setPc trivial
  | @ret c env call result at_pc =>
      have same : Inside cfg { s with returned := update s.returned c (s.returned c ++ [(call, result)]) } :=
        h.fewer (fun _ _ => id) rfl rfl
      exact same.setPc trivial
  | rmDel => exact h.fewer (fun _ _ => dmkvDel_cache) rfl rfl
  | take | rmVoid | rmFound | fail | dropWrite | openWrite | writeVoid | writeRead =>
      exact h.fewer (fun _ _ => id) rfl rfl
  | @succeed i env c m dfs pc call =>
      unfold Commit.succeed
      split <;> exact h.fewer (fun _ _ => id) rfl rfl
  | @writeBack i env c p n data pc =>
      unfold Commit.writeBack
      split <;> exact h.fewer (fun _ _ => id) rfl rfl

end Pacon.Commit

namespace Pacon.Evict
open Function Lib Commit

variable {ι κ α : Type} [DecidableEq ι] [DecidableEq κ] [DecidableEq α] {cfg : Config ι κ} {s t : State ι κ α}

structure Inside (cfg : Config ι κ) (s : State ι κ α) : Prop where
  base : Commit.Inside cfg s.base
  agent : ∀ a p, (s.agent a).misses = some p → cfg.root <:+ p

theorem records_misses {pc : AgentPc} {p : Path} {v : Value} (h : pc.records = some (p, v)) :
    pc.misses = some p := by
  cases pc <;> cases h <;> rfl

theorem Inside.move (h : Inside cfg s) {e : Event κ ι α} (move : Move cfg s e t) : Inside cfg t := by
  have agents : ∀ {b : Commit.State ι κ} {a : α} {next : AgentPc},
      (∀ p, next.misses = some p → cfg.root <:+ p) →
      ∀ a' p, ((setAgent (setBase s b) a next).agent a').misses = some p → cfg.root <:+ p := by
    intro b a next new a' p misses
    by_cases here : a' = a
    · subst here
      rw [setAgent_agent, update_self] at misses
      exact new p misses
    · rw [setAgent_agent, update_of_ne here] at misses
      exact h.agent a' p misses
  have hit : ∀ {next : AgentPc}, next.misses = none → ∀ p, next.misses = some p → cfg.root <:+ p :=
    fun none p misses => by simp [none] at misses
  cases move with
  | base move => exact ⟨h.base.move move, h.agent⟩
  | @start a task =>
      refine ⟨h.base, agents (b := s.base) (hit ?_)⟩
      cases task <;> rfl
  | look nothing misses =>
      exact ⟨h.base, agents (b := s.base) fun p is => (misses p is).elim id (h.agent _ p)⟩
  | read entry flags copy none => exact ⟨h.base, agents (b := s.base) (hit none)⟩
  | del deletes plain => exact ⟨h.base.fewer (fun _ _ => dmkvDel_cache) rfl rfl, agents (hit plain.2)⟩
  | record records key absent =>
      exact ⟨h.base.store _ key (h.agent _ _ (records_misses records)), agents (hit rfl)⟩
  | opens opens effect copy misses =>
      exact ⟨h.base.fewer (fun _ _ => id) rfl rfl, agents fun p is => h.agent _ p (misses p is)⟩
  | count at_pc entry =>
      exact ⟨h.base.store _ (h.base.notRoot entry) (h.base.cached entry), agents (hit rfl)⟩

theorem inside_of_reachable {ok : State ι κ α → Event κ ι α → Prop} (h : (system cfg).Reachable ok s) :
    Inside cfg s := by
  refine h.invariant (fun s initial => ⟨.initial initial.base, fun a p misses => ?_⟩)
    fun _ _ _ _ h _ step => h.move (move_of_step step)
  rw [initial.agent a] at misses
  cases misses

end Pacon.Evict
