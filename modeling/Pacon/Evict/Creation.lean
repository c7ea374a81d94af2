import Pacon.Evict.Removal
import Pacon.Evict.Workspace

/-!
# Creates that return 0

The add of a create sees the cache alone. It stands for the DFS as long as a directory whose parent
check can be passed without loading has no child that is on the DFS and not cached.
-/

set_option linter.unusedSectionVars false

namespace Pacon.Commit
open Function Lib

variable {ι κ : Type} [DecidableEq ι] [DecidableEq κ]

/-- Cached without STAT_rm, or not cached and on the DFS. -/
def Visible (s : State ι κ) (p : Path) : Prop :=
  (∃ e, s.cache p = some e ∧ getStatFlag e.value.stat .rm = false) ∨ s.cache p = none ∧ s.dfs p ≠ none

def Uncovered (s : State ι κ) (p : Path) : Prop := s.cache p = none ∧ s.dfs p ≠ none

def Bare (s : State ι κ) (q : Path) : Prop := ∃ name, Uncovered s (name :: q)

/-- The parent check goes on without the children for this value of the parent. -/
def Passes (v : Value) : Prop :=
  getStatFlag v.stat .type = false ∧
    ¬(getStatFlag v.stat .existedinDfs = true ∧ getStatFlag v.stat .childCheck = false)

def ClientPc.past : ClientPc → Option Path
  | .parentAdd _ p | .add _ p | .addGet _ p _ | .addSet _ p _ => some p
  | _ => none

def ClientPc.sets : ClientPc → Option Path
  | .addSet _ p _ => some p
  | _ => none

def Blind (s : State ι κ) (q : Path) : Prop :=
  (∃ c, s.table c q = true) ∨ (∃ c name, (s.client c).past = some (name :: q)) ∨
    ∃ e, s.cache q = some e ∧ Passes e.value

structure Exclusive (cfg : Config ι κ) (s : State ι κ) : Prop where
  loaded : ∀ q, cfg.root <:+ q → Blind s q → ¬Bare s q
  marked : ∀ c p, (s.client c).sets = some p → ¬Visible s p
  tree : ∀ name q, cfg.root <:+ q → s.dfs (name :: q) ≠ none → s.dfs q = some .dir

variable {cfg : Config ι κ} {s t : State ι κ}

theorem Exclusive.initial (h : Initial cfg s) : Exclusive cfg s := by
  have below : ∀ {q}, cfg.root <:+ q → ∀ name, s.dfs (name :: q) = none := by
    intro q inside name
    refine h.empty _ ⟨inside.trans (List.suffix_cons _ _), fun same => ?_⟩
    have := inside.length_le
    rw [← same, List.length_cons] at this
    omega
  refine ⟨fun q inside _ bare => ?_, fun c p sets => ?_, fun name q inside there => ?_⟩
  · obtain ⟨name, -, there⟩ := bare
    exact there (below inside name)
  · rw [h.client c] at sets
    cases sets
  · exact absurd (below inside name) there

def ClientPc.writing : ClientPc → Option (Path × Value × Nat)
  | .writeCas p _ _ v cas => some (p, v, cas)
  | _ => none

def SameCheck (s : State ι κ) (p : Path) (v : Value) (cas : Nat) : Prop :=
  cas < s.clock ∧ ∀ e, s.cache p = some e → e.cas = cas →
    getStatFlag v.stat .childCheck = getStatFlag e.value.stat .childCheck

def WriteCopies (s : State ι κ) : Prop :=
  ∀ c p v cas, (s.client c).writing = some (p, v, cas) → SameCheck s p v cas

theorem SameCheck.renews {p : Path} {v : Value} {cas : Nat} (h : SameCheck s p v cas) (renews : Renews s t) :
    SameCheck t p v cas := by
  refine ⟨h.1.trans_le renews.clock, fun e entry same => ?_⟩
  rcases renews.fresh entry with old | new
  · exact h.2 e old same
  · exact absurd h.1 (by omega)

theorem afterParent_writing (m : Make) (p : Path) : (afterParent m p).writing = none := by
  apply afterParent_of (P := fun pc => pc.writing = none) <;> intros <;> rfl

theorem beginCall_writing (table : Path → Bool) (call : Call) : (beginCall table call).writing = none := by
  apply beginCall_of (P := fun pc => pc.writing = none) fun m p _ _ => afterParent_writing m p
  all_goals intros; rfl

theorem Local.writing {env : Env} {pc next : ClientPc} (goes : Local cfg s env pc next) {p : Path} {v : Value}
    {cas : Nat} (writing : next.writing = some (p, v, cas)) : ∃ e, s.cache p = some e ∧ e.cas = cas ∧
      getStatFlag v.stat .childCheck = getStatFlag e.value.stat .childCheck := by
  cases goes with
  | @writeHit p' buf' offset' e entry =>
      unfold writeFound at writing
      split at writing
      · cases writing
      · split at writing
        · cases writing
          refine ⟨e, entry, rfl, ?_⟩
          simp only [writtenValue, getStatFlag_setStatFlag]
          rfl
        · cases writing
  | parentMiss | readdir | rmMiss =>
      unfold load at writing
      split at writing <;> cases writing
  | parentHit | parentLoaded =>
      unfold parentFound at writing
      split at writing
      · cases writing
      · split at writing <;> cases writing
  | @loadExists l => cases l <;> cases writing
  | _ => cases writing

theorem WriteCopies.client (w : WriteCopies s) {u : State ι κ} {c : κ} {pc : ClientPc} (renews : Renews s u)
    (client : u.client = s.client) (new : ∀ p v cas, pc.writing = some (p, v, cas) → SameCheck s p v cas) :
    WriteCopies (setPc u c pc) := by
  have after : Renews s (setPc u c pc) := ⟨renews.clock, renews.fresh⟩
  intro d p v cas writing
  by_cases here : d = c
  · subst here
    rw [setPc_client, update_self] at writing
    exact (new p v cas writing).renews after
  · rw [setPc_client, update_of_ne here, client] at writing
    exact (w d p v cas writing).renews after

theorem WriteCopies.move {e : Event κ ι} (w : WriteCopies s) (v : Versioned s) (move : Move cfg s e t) :
    WriteCopies t := by
  have none : ∀ {pc : ClientPc}, pc.writing = none → ∀ p v cas, pc.writing = some (p, v, cas) →
      SameCheck s p v cas := fun none p v cas writing => by simp [none] at writing
  cases move with
  | start => exact w.client (.same rfl rfl) rfl (none (beginCall_writing _ _))
  | goOn at_pc goes =>
      refine w.client (.same rfl rfl) rfl fun p val cas writing => ?_
      obtain ⟨e, entry, same, check⟩ := goes.writing writing
      refine ⟨same ▸ v.entry entry, fun e' entry' _ => ?_⟩
      cases Option.some.inj (entry.symm.trans entry')
      exact check
  | parentAdd => exact w.client (.same rfl rfl) rfl (none (afterParent_writing _ _))
  | @loadAdd c env l => exact w.client (.store _ _) rfl (none (by cases l <;> rfl))
  | @addSet c env m => exact w.client (.store _ _) rfl (none (by cases m <;> rfl))
  | childCas | add | rmCas | writeCas => exact w.client (.store _ _) rfl (none rfl)
  | addAgain | rmLate | send | ret => exact w.client (.same rfl rfl) rfl (none rfl)
  | @rmDel i env c p pc =>
      have renews : Renews s (dmkvDel s p) := .del p
      exact fun d p v cas writing => (w d p v cas writing).renews ⟨renews.clock, renews.fresh⟩
  | take | rmVoid | rmFound | fail | dropWrite | openWrite | writeVoid | writeRead =>
      exact fun d p v cas writing => (w d p v cas writing).renews (.same rfl rfl)
  | @succeed i env c m dfs pc call =>
      unfold Commit.succeed
      split <;> exact fun d p v cas writing => (w d p v cas writing).renews (.same rfl rfl)
  | @writeBack i env c p n data pc =>
      unfold Commit.writeBack
      split <;> exact fun d p v cas writing => (w d p v cas writing).renews (.same rfl rfl)

theorem Exclusive.step (x : Exclusive cfg s)
    (table : ∀ c q, t.table c q = true → Blind s q)
    (past : ∀ c name q, cfg.root <:+ q → (t.client c).past = some (name :: q) → Blind s q ∨ ¬Bare s q)
    (passes : ∀ q e, cfg.root <:+ q → t.cache q = some e → Passes e.value → Blind s q ∨ ¬Bare s q)
    (uncovered : ∀ p, Uncovered t p → Uncovered s p ∨ ¬Blind t p.tail)
    (marked : ∀ c p, (t.client c).sets = some p → ¬Visible t p)
    (tree : ∀ name q, cfg.root <:+ q → t.dfs (name :: q) ≠ none → t.dfs q = some .dir) : Exclusive cfg t where
  loaded q inside now := by
    rintro ⟨name, bare⟩
    have before : Bare s q := ⟨name, (uncovered _ bare).resolve_right fun h => h now⟩
    have blind : Blind s q ∨ ¬Bare s q := by
      rcases now with ⟨c, checked⟩ | ⟨c, name, is⟩ | ⟨e, entry, free⟩
      · exact .inl (table c q checked)
      · exact past c name q inside is
      · exact passes q e inside entry free
    exact blind.elim (fun was => x.loaded q inside was before) fun covered => covered before
  marked := marked
  tree := tree

theorem Exclusive.goOn (x : Exclusive cfg s) {u : State ι κ} {c : κ} {pc : ClientPc} (cache : u.cache = s.cache)
    (dfs : u.dfs = s.dfs) (client : u.client = s.client) (table : ∀ c q, u.table c q = true → Blind s q)
    (past : ∀ name q, pc.past = some (name :: q) → Blind s q) (sets : ∀ p, pc.sets = some p → ¬Visible s p) :
    Exclusive cfg (setPc u c pc) := by
  have visible : ∀ {p}, Visible (setPc u c pc) p ↔ Visible s p := by
    intro p
    unfold Visible setPc
    rw [cache, dfs]
  refine x.step table (fun d name q inside is => .inl ?_) (fun q e inside entry free => .inl ?_)
    (fun p bare => .inl ?_) (fun d p is => ?_) fun name q inside there => ?_
  · by_cases here : d = c
    · subst here
      rw [setPc_client, update_self] at is
      exact past name q is
    · rw [setPc_client, update_of_ne here, client] at is
      exact .inr (.inl ⟨d, name, is⟩)
  · exact .inr (.inr ⟨e, (congrFun cache q).symm.trans entry, free⟩)
  · unfold Uncovered setPc at bare
    rwa [cache, dfs] at bare
  · rw [visible]
    by_cases here : d = c
    · subst here
      rw [setPc_client, update_self] at is
      exact sets p is
    · rw [setPc_client, update_of_ne here, client] at is
      exact x.marked d p is
  · have same : (setPc u c pc).dfs = s.dfs := dfs
    rw [same] at there ⊢
    exact x.tree name q inside there

theorem Exclusive.store (x : Exclusive cfg s) {p : Path} {v : Value} {f : κ → ClientPc}
    (passes : Passes v → cfg.root <:+ p → Blind s p ∨ ¬Bare s p)
    (past : ∀ c name q, (f c).past = some (name :: q) →
      (s.client c).past = some (name :: q) ∨ Blind s q ∨ ¬Bare s q)
    (sets : ∀ c q, (f c).sets = some q → (s.client c).sets = some q)
    (visible : ∀ c, (f c).sets = some p → getStatFlag v.stat .rm = false → Visible s p) :
    Exclusive cfg { store s p v with client := f } := by
  refine x.step (fun c q checked => .inl ⟨c, checked⟩) (fun c name q inside is => ?_)
    (fun q e inside entry free => ?_) (fun q bare => .inl ?_) (fun c q is seen => ?_) fun name q inside there =>
      x.tree name q inside there
  · exact (past c name q is).elim (fun was => .inl (.inr (.inl ⟨c, name, was⟩))) id
  · by_cases here : q = p
    · subst here
      rw [show ({ Commit.store s q v with client := f } : State ι κ).cache q = some ⟨s.clock, v⟩ from
        update_self ..] at entry
      cases entry
      exact passes free inside
    · exact .inl (.inr (.inr ⟨e, (update_of_ne here ..).symm.trans entry, free⟩))
  · by_cases here : q = p
    · subst here
      exact absurd bare.1 (by simp [Commit.store])
    · exact ⟨(update_of_ne here ..).symm.trans bare.1, bare.2⟩
  · refine x.marked c q (sets c q is) ?_
    by_cases here : q = p
    · subst here
      rcases seen with ⟨e, entry, live⟩ | ⟨absent, -⟩
      · rw [show ({ Commit.store s q v with client := f } : State ι κ).cache q = some ⟨s.clock, v⟩ from
          update_self ..] at entry
        cases entry
        exact visible c is live
      · exact absurd absent (by simp [Commit.store])
    · rcases seen with ⟨e, entry, live⟩ | ⟨absent, there⟩
      · exact .inl ⟨e, (update_of_ne here ..).symm.trans entry, live⟩
      · exact .inr ⟨(update_of_ne here ..).symm.trans absent, there⟩

theorem Exclusive.clientStore (x : Exclusive cfg s) {p : Path} {v : Value} {c : κ} {pc : ClientPc}
    (passes : Passes v → cfg.root <:+ p → Blind s p ∨ ¬Bare s p)
    (past : ∀ name q, pc.past = some (name :: q) → Blind s q ∨ ¬Bare s q) (sets : pc.sets = none)
    (visible : ∀ d, d ≠ c → (s.client d).sets = some p → getStatFlag v.stat .rm = false → Visible s p) :
    Exclusive cfg (setPc (Commit.store s p v) c pc) := by
  have of_sets : ∀ {d q}, (update s.client c pc d).sets = some q → d ≠ c ∧ (s.client d).sets = some q := by
    intro d q is
    by_cases here : d = c
    · subst here
      rw [update_self, sets] at is
      cases is
    · rw [update_of_ne here] at is
      exact ⟨here, is⟩
  refine x.store passes (fun d name q is => ?_) (fun d q is => (of_sets is).2) fun d is =>
    visible d (of_sets is).1 (of_sets is).2
  by_cases here : d = c
  · subst here
    rw [update_self] at is
    exact .inr (past name q is)
  · rw [update_of_ne here] at is
    exact .inl is

theorem parentFound_past {m : Make} {p q : Path} {e : Entry} (past : (parentFound m p e).past = some q) :
    q = p ∧ Passes e.value := by
  unfold parentFound at past
  split at past
  · cases past
  · rename_i dir
    split at past
    · cases past
    · rename_i checked
      cases past
      exact ⟨rfl, Bool.not_eq_true _ ▸ dir, by simpa using checked⟩

theorem Local.past {env : Env} {pc next : ClientPc} (goes : Local cfg s env pc next) {p : Path}
    (past : next.past = some p) : pc.past = some p ∨ ∃ e, s.cache p.tail = some e ∧ Passes e.value := by
  cases goes with
  | parentHit entry | parentLoaded entry =>
      obtain ⟨rfl, free⟩ := parentFound_past past
      exact .inr ⟨_, entry, free⟩
  | addExists | addRemoved => exact .inl past
  | parentMiss | readdir | rmMiss =>
      unfold load at past
      split at past <;> cases past
  | writeHit =>
      unfold writeFound at past
      split at past
      · cases past
      · split at past <;> cases past
  | @loadExists l => cases l <;> cases past
  | _ => cases past

theorem Local.sets {env : Env} {pc next : ClientPc} (goes : Local cfg s env pc next) {p : Path}
    (sets : next.sets = some p) : ¬Visible s p := by
  cases goes with
  | addRemoved entry rm =>
      cases sets
      rintro (⟨e, entry', live⟩ | ⟨absent, -⟩)
      · cases Option.some.inj (entry.symm.trans entry')
        rw [rm] at live
        cases live
      · rw [entry] at absent
        cases absent
  | parentMiss | readdir | rmMiss =>
      unfold load at sets
      split at sets <;> cases sets
  | parentHit | parentLoaded =>
      unfold parentFound at sets
      split at sets
      · cases sets
      · split at sets <;> cases sets
  | writeHit =>
      unfold writeFound at sets
      split at sets
      · cases sets
      · split at sets <;> cases sets
  | @loadExists l => cases l <;> cases sets
  | _ => cases sets

theorem afterParent_past {m : Make} {p q : Path} (past : (afterParent m p).past = some q) : q = p := by
  revert past
  apply afterParent_of (P := fun pc => pc.past = some q → q = p)
  · rintro _ ⟨rfl⟩
    rfl
  · intro past
    cases past

theorem afterParent_sets (m : Make) (p : Path) : (afterParent m p).sets = none := by
  apply afterParent_of (P := fun pc => pc.sets = none) <;> intros <;> rfl

theorem beginCall_past {table : Path → Bool} {call : Call} {name : CString} {q : Path}
    (past : (beginCall table call).past = some (name :: q)) : table q = true := by
  revert past
  apply beginCall_of (P := fun pc => pc.past = some (name :: q) → table q = true)
  · intro m p _ checked past
    cases afterParent_past past
    exact checked.resolve_left (List.cons_ne_nil _ _)
  all_goals intros; rename_i past; cases past

theorem beginCall_sets (table : Path → Bool) (call : Call) : (beginCall table call).sets = none := by
  apply beginCall_of (P := fun pc => pc.sets = none) fun m p _ _ => afterParent_sets m p
  all_goals intros; rfl

theorem loadedValue_not_passes (env : Env) (node : Node) : ¬Passes (loadedValue env node) := by
  cases node with
  | dir =>
      simp only [Passes, loadedValue, getStatFlag_setStatFlag]
      simp [getStatFlag_eq]
  | file content => simp [Passes, loadedValue]

def OrderlyClient (s : State ι κ) (c : κ) : ClientPc → Prop
  | .loadAdd l _ => s.cache l.target = none → s.dfs l.target ≠ none
  | .childCas _ p _ cas => (∃ e ∈ s.cache p.tail, e.cas = cas) → ¬Bare s p.tail
  | .add _ p => s.cache p = none → ∀ d, (s.client d).sets ≠ some p
  | .addSet m p _ => (∀ d, d ≠ c → (s.client d).sets ≠ some p) ∧ (m = .mkdir → ¬Bare s p)
  | _ => True

theorem Exclusive.client {c : κ} {env : Env} (x : Exclusive cfg s) (i : Inside cfg s) (v : Versioned s)
    (w : WriteCopies s) (ok : OrderlyClient s c (s.client c)) (move : Move cfg s (.client c env) t) :
    Exclusive cfg t := by
  have at_client : ∀ {pc}, s.client c = pc → CopyOk s.cache s.clock pc := fun at_pc => at_pc ▸ v.client _
  have at_inside : ∀ {pc}, s.client c = pc → pc.Inside cfg := fun at_pc => at_pc ▸ i.client _
  have checked : ∀ d q, s.table d q = true → Blind s q := fun d q is => .inl ⟨d, is⟩
  cases move with
  | goOn at_pc goes =>
      refine x.goOn rfl rfl rfl checked (fun name q past => ?_) fun p => goes.sets
      rcases goes.past past with was | ⟨e, entry, free⟩
      · exact .inr (.inl ⟨c, name, at_pc ▸ was⟩)
      · exact .inr (.inr ⟨e, entry, free⟩)
  | @parentAdd _ _ m p at_pc =>
      have blind : Blind s p.tail := by
        have nested : Nested cfg p := at_inside at_pc
        obtain ⟨name, q, rfl⟩ := List.exists_cons_of_ne_nil nested.1
        exact .inr (.inl ⟨c, name, by rw [at_pc]; rfl⟩)
      refine x.goOn rfl rfl rfl (fun d q is => ?_) (fun name q past => ?_) fun q sets => ?_
      · by_cases here : q = p.tail
        · exact here ▸ blind
        · refine checked d q ?_
          by_cases same : d = c
          · subst same
            simpa [here] using is
          · simpa [same] using is
      · cases afterParent_past past
        exact blind
      · rw [afterParent_sets] at sets
        cases sets
  | addAgain at_pc | rmLate at_pc | send at_pc | ret at_pc =>
      exact x.goOn rfl rfl rfl checked (fun name q past => by cases past) fun p sets => by cases sets
  | @loadAdd _ _ l val at_pc key absent =>
      obtain ⟨-, env', node, rfl⟩ := at_client at_pc
      rw [at_pc] at ok
      refine x.clientStore (fun free => absurd free (loadedValue_not_passes _ _)) (fun name q past => ?_) ?_
        fun d _ _ _ => .inr ⟨absent, ok absent⟩
      · cases l <;> cases past
      · cases l <;> rfl
  | @childCas _ _ m p val cas e at_pc entry same =>
      rw [at_pc] at ok
      have covered : ¬Bare s p.tail := ok ⟨e, entry, same⟩
      subst same
      refine x.clientStore (fun _ _ => .inr covered) (fun name q past => ?_) rfl fun d _ _ live => ?_
      · cases past
        exact .inr covered
      · exact .inl ⟨e, entry, ((at_client at_pc).2 e entry rfl).rm.symm.trans live⟩
  | @add _ _ m p at_pc key absent =>
      rw [at_pc] at ok
      have nested : Nested cfg p := (at_inside at_pc).resolve_left key
      refine x.clientStore (fun _ inside => .inr ?_) (fun name q past => by cases past) rfl fun d _ sets =>
        absurd sets (ok absent d)
      -- the name is free on the DFS too
      have free : s.dfs p = none := by
        obtain ⟨name, q, rfl⟩ := List.exists_cons_of_ne_nil key
        have blind : Blind s q := .inr (.inl ⟨c, name, by rw [at_pc]; rfl⟩)
        by_contra there
        exact x.loaded q nested.2 blind ⟨name, absent, there⟩
      rintro ⟨name, -, there⟩
      rw [x.tree name p inside there] at free
      cases free
  | @addSet _ _ m p val at_pc =>
      rw [at_pc] at ok
      obtain ⟨env', rfl⟩ := at_client at_pc
      refine x.clientStore (fun free _ => .inr (ok.2 ?_)) (fun name q past => ?_) ?_ fun d other sets =>
        absurd sets (ok.1 d other)
      · have type := newValue_type env' m
        rw [free.1] at type
        simpa using type
      · cases m <;> cases past
      · cases m <;> rfl
  | @rmCas _ _ p val cas e at_pc entry same =>
      subst same
      have stored : val = flagged e.value .rm := (at_client at_pc).2 e entry rfl
      subst stored
      refine x.clientStore (fun free _ => .inl (.inr (.inr ⟨e, entry, ?_⟩))) (fun name q past => by cases past) rfl
        fun d _ _ live => ?_
      · simpa [Passes, flagged] using free
      · simp [flagged] at live
  | @writeCas _ _ p buf offset val cas e at_pc entry same =>
      subst same
      have alike : Alike e.value val := (at_client at_pc).2 e entry rfl
      have check := (w c p val e.cas (by rw [at_pc]; rfl)).2 e entry rfl
      refine x.clientStore (fun free _ => .inl (.inr (.inr ⟨e, entry, ?_⟩))) (fun name q past => by cases past) rfl
        fun d _ _ live => .inl ⟨e, entry, alike.rm.symm.trans live⟩
      rwa [Passes, alike.type, alike.existedinDfs, check] at free

theorem Exclusive.change (x : Exclusive cfg s) (i : Inside cfg s) (client : t.client = s.client)
    (table : t.table = s.table) (cache : ∀ p e, t.cache p = some e → s.cache p = some e)
    (uncovered : ∀ p, Uncovered t p → Uncovered s p ∨ ¬Blind s p.tail)
    (tree : ∀ name q, cfg.root <:+ q → t.dfs (name :: q) ≠ none → t.dfs q = some .dir) : Exclusive cfg t := by
  have blind : ∀ {q}, Blind t q → Blind s q := by
    rintro q (⟨c, checked⟩ | ⟨c, name, past⟩ | ⟨e, entry, free⟩)
    · exact .inl ⟨c, table ▸ checked⟩
    · exact .inr (.inl ⟨c, name, client ▸ past⟩)
    · exact .inr (.inr ⟨e, cache q e entry, free⟩)
  refine x.step (fun c q checked => .inl ⟨c, table ▸ checked⟩)
    (fun c name q _ past => .inl (.inr (.inl ⟨c, name, client ▸ past⟩)))
    (fun q e _ entry free => .inl (.inr (.inr ⟨e, cache q e entry, free⟩)))
    (fun p bare => (uncovered p bare).imp id fun seen is => seen (blind is)) (fun c p sets seen => ?_) tree
  rw [client] at sets
  refine x.marked c p sets (seen.imp (fun ⟨e, entry, live⟩ => ⟨e, cache p e entry, live⟩) fun bare => ?_)
  refine (uncovered p bare).resolve_right fun seen => seen ?_
  -- the client has passed the parent check
  cases at_pc : s.client c with
  | addSet m p' v =>
      rw [at_pc] at sets
      cases sets
      have nested : Nested cfg p := (at_pc ▸ i.client c : (ClientPc.addSet m p v).Inside cfg)
      obtain ⟨name, q, rfl⟩ := List.exists_cons_of_ne_nil nested.1
      exact .inr (.inl ⟨c, name, by rw [at_pc]; rfl⟩)
  | _ => rw [at_pc] at sets; cases sets

theorem Exclusive.tree_step (x : Exclusive cfg s) {dfs : Path → Option Node}
    (made : ∀ p, dfs p ≠ none → s.dfs p ≠ none ∨ s.dfs p.tail = some .dir)
    (dirs : ∀ p, s.dfs p = some .dir → dfs p = some .dir ∨ ∀ name, dfs (name :: p) = none) (name : CString)
    (q : Path) (inside : cfg.root <:+ q) (there : dfs (name :: q) ≠ none) : dfs q = some .dir := by
  have dir : s.dfs q = some .dir := (made _ there).elim (x.tree name q inside) id
  exact (dirs q dir).resolve_right fun empty => there (empty name)

theorem dfsCall_vacant {dfs dfs' : Path → Option Node} {vacant : Bool} {m : Msg}
    (h : dfsCall dfs vacant m = some dfs') (rm : m.opt = .rm) (dir : dfs m.path = some .dir) : vacant = true := by
  obtain ⟨opt, p⟩ := m
  cases rm
  cases p with
  | nil => simp [dfsCall, show dfs [] = some .dir from dir] at h
  | cons name q =>
      simp only [dfsCall, show dfs (name :: q) = some .dir from dir, Option.ite_none_right_eq_some] at h
      exact h.1

theorem Exclusive.effect (x : Exclusive cfg s) {m : Msg} {dfs : Path → Option Node} (effect : DfsEffect s.dfs m dfs)
    (vacant : m.opt = .rm → s.dfs m.path = some .dir → ∀ name, s.dfs (name :: m.path) = none) :
    (∀ name q, cfg.root <:+ q → dfs (name :: q) ≠ none → dfs q = some .dir) ∧
      ∀ p, dfs p ≠ none → s.dfs p ≠ none ∨ p = m.path ∧ m.opt ≠ .rm := by
  have other : ∀ {node p}, p ≠ m.path → update s.dfs m.path node p = s.dfs p := fun h => update_of_ne h ..
  cases effect with
  | mkdir opt notRoot free parent | create opt notRoot free parent =>
      have makes : m.opt ≠ .rm := by simp [opt]
      refine ⟨x.tree_step (fun p there => ?_) fun p dir => ?_, fun p there => ?_⟩
      · by_cases here : p = m.path
        · exact here ▸ .inr parent
        · exact .inl (other here ▸ there)
      · have away : p ≠ m.path := by
          rintro rfl
          rw [free] at dir
          cases dir
        exact .inl ((other away).trans dir)
      · by_cases here : p = m.path
        · exact .inr ⟨here, makes⟩
        · exact .inl (other here ▸ there)
  | truncate opt file =>
      have same : ∀ p, update s.dfs m.path (some (.file [])) p ≠ none → s.dfs p ≠ none := by
        intro p there
        by_cases here : p = m.path
        · rw [here, file]
          exact Option.some_ne_none _
        · exact other here ▸ there
      refine ⟨x.tree_step (fun p there => .inl (same p there)) fun p dir => ?_, fun p there => .inl (same p there)⟩
      have away : p ≠ m.path := by
        rintro rfl
        rw [file] at dir
        cases dir
      exact .inl ((other away).trans dir)
  | remove rm there =>
      have same : ∀ p, update s.dfs m.path none p ≠ none → s.dfs p ≠ none := by
        intro p there
        by_cases here : p = m.path
        · rw [here, update_self] at there
          exact absurd rfl there
        · exact other here ▸ there
      refine ⟨x.tree_step (fun p there => .inl (same p there)) fun p dir => ?_, fun p there => .inl (same p there)⟩
      by_cases here : p = m.path
      · subst here
        exact .inr fun name => by_contra fun there => same _ there (vacant rm dir name)
      · exact .inl ((other here).trans dir)

theorem Move.wins {c : κ} {env : Env} {m : Make} {p : Path} (move : Move cfg s (.client c env) t)
    (plain : ∀ buf, m ≠ .createWrite buf) (before : (s.client c).outcome = none)
    (after : (t.client c).outcome = some (⟨.make m, p⟩, 0)) :
    (s.client c = .add m p ∧ p ≠ [] ∧ s.cache p = none) ∨ ∃ v, s.client c = .addSet m p v := by
  cases move with
  | goOn at_pc goes =>
      rw [setPc_client, update_self] at after
      cases goes.outcome.2 _ after
  | parentAdd =>
      rw [setPc_client, update_self] at after
      cases afterParent_outcome after
  | @loadAdd _ _ l =>
      rw [setPc_client, update_self] at after
      cases l <;> cases after
  | add at_pc key absent =>
      rw [setPc_client, update_self] at after
      cases after
      exact .inl ⟨at_pc, key, absent⟩
  | @addAgain _ _ buf =>
      rw [setPc_client, update_self] at after
      cases after
      exact absurd rfl (plain buf)
  | @addSet _ _ m' q v at_pc =>
      rw [setPc_client, update_self] at after
      cases m' <;> (cases after; exact .inr ⟨v, at_pc⟩)
  | send at_pc | ret at_pc =>
      rw [at_pc] at before
      cases before
  | childCas | rmCas | rmLate | writeCas =>
      rw [setPc_client, update_self] at after
      cases after

/-- What a server's step must not find; a `remove` takes a directory only if it is empty. -/
def OrderlyServer (s : State ι κ) (env : Env) : ServerPc κ → Prop
  | .attempt _ m | .retry _ m =>
      if m.opt = .rm then env.vacant = true → ∀ name, s.dfs (name :: m.path) = none
      else s.cache m.path = none → ¬Blind s m.path.tail
  | .rmDel _ p => s.dfs p ≠ none → ¬Blind s p.tail
  | _ => True

theorem Exclusive.server {i : ι} {env : Env} (x : Exclusive cfg s) (inside : Inside cfg s)
    (ok : OrderlyServer s env (s.server i)) (move : Move cfg s (.server i env) t) : Exclusive cfg t := by
  cases move with
  | rmVoid | rmFound | fail | dropWrite | openWrite | writeVoid | writeRead =>
      exact x.change inside rfl rfl (fun _ _ => id) (fun _ => .inl) x.tree
  | @rmDel _ _ c p pc =>
      rw [pc] at ok
      refine x.change inside rfl rfl (fun _ _ => dmkvDel_cache) (fun q bare => ?_) x.tree
      by_cases here : q = p
      · exact here ▸ .inr (ok (here ▸ bare.2))
      · exact .inl ⟨(update_of_ne here ..).symm.trans bare.1, bare.2⟩
  | @writeBack _ _ c p n data pc =>
      unfold Commit.writeBack
      split
      · rename_i content file
        obtain ⟨file, -⟩ := opened_eq_some.mp file
        have there : ∀ q, update s.dfs p (some (.file (overwrite content data 0))) q ≠ none → s.dfs q ≠ none := by
          intro q there
          by_cases here : q = p
          · rw [here, file]
            exact Option.some_ne_none _
          · rwa [update_of_ne here] at there
        refine x.change inside rfl rfl (fun _ _ => id) (fun q bare => .inl ⟨bare.1, there q bare.2⟩)
          (x.tree_step (fun q is => .inl (there q is)) fun q dir => .inl ?_)
        have other : q ≠ p := by
          rintro rfl
          rw [dir] at file
          cases file
        exact (update_of_ne other ..).trans dir
      · exact x.change inside rfl rfl (fun _ _ => id) (fun _ => .inl) x.tree
  | @succeed _ _ c m dfs pc call =>
      have ok : if m.opt = .rm then env.vacant = true → ∀ name, s.dfs (name :: m.path) = none
          else s.cache m.path = none → ¬Blind s m.path.tail := by
        rcases pc with pc | pc <;> (rw [pc] at ok; exact ok)
      obtain ⟨client, table, cache, after⟩ := succeed_frame s i c m dfs
      have vacant : m.opt = .rm → s.dfs m.path = some .dir → ∀ name, s.dfs (name :: m.path) = none := by
        intro rm dir
        rw [if_pos rm] at ok
        exact ok (dfsCall_vacant call rm dir)
      obtain ⟨tree, made⟩ := x.effect (dfsCall_effect call) vacant
      refine x.change inside client table (fun p e => cache ▸ id) (fun p bare => ?_) (after.symm ▸ tree)
      rw [Uncovered, cache, after] at bare
      rcases made p bare.2 with there | ⟨rfl, makes⟩
      · exact .inl ⟨bare.1, there⟩
      · rw [if_neg makes] at ok
        exact .inr (ok bare.1)

end Pacon.Commit

namespace Pacon.Evict
open Function Lib Commit

variable {ι κ α : Type} [DecidableEq ι] [DecidableEq κ] [DecidableEq α] {cfg : Config ι κ} {s t : State ι κ α}

def OrderlyAgent (b : Commit.State ι κ) : AgentPc → Prop
  | .entryDel _ p _ | .flushDel p => b.dfs p ≠ none → ¬Blind b p.tail
  | .getattrAdd p _ | .openAdd p _ _ => b.cache p = none → b.dfs p ≠ none ∧ ¬Bare b p
  | .openDfs p flags _ | .openCached p flags _ _ =>
      flags.creat = true → b.cache p = none → b.dfs p = none → ¬Blind b p.tail
  | _ => True

/-- No step leaves a path on the DFS without an entry in a directory whose parent check can be passed
without loading, and none makes a directory such a one while a child of it is not cached. -/
def Orderly (s : State ι κ α) : Event κ ι α → Prop
  | .base (.client c _) => OrderlyClient s.base c (s.base.client c)
  | .base (.server i env) => OrderlyServer s.base env (s.base.server i)
  | .agent a _ _ => OrderlyAgent s.base (s.agent a)
  | .base (.start _ _) | .base (.take _) | .start _ _ => True

theorem OrderlyAgent.deletes {b : Commit.State ι κ} {pc : AgentPc} {p : Path} (ok : OrderlyAgent b pc)
    (is : pc.deletes = some p) : b.dfs p ≠ none → ¬Blind b p.tail := by
  cases pc <;> cases is <;> exact ok

theorem OrderlyAgent.records {b : Commit.State ι κ} {pc : AgentPc} {p : Path} {v : Value}
    (ok : OrderlyAgent b pc) (is : pc.records = some (p, v)) : b.cache p = none → b.dfs p ≠ none ∧ ¬Bare b p := by
  cases pc <;> cases is <;> exact ok

theorem OrderlyAgent.opens {b : Commit.State ι κ} {pc : AgentPc} {p : Path} {flags : OpenFlags}
    (ok : OrderlyAgent b pc) (is : pc.opens = some (p, flags)) :
    flags.creat = true → b.cache p = none → b.dfs p = none → ¬Blind b p.tail := by
  cases pc <;> cases is <;> exact ok

theorem OpenEffect.create {dfs dfs' : Path → Option Node} {flags : OpenFlags} {p : Path}
    (h : OpenEffect dfs flags p dfs') :
    dfs' = dfs ∨ DfsEffect dfs ⟨.create, p⟩ dfs' ∧ (dfs p = none → flags.creat = true) := by
  cases h with
  | found => exact .inl rfl
  | trunc _ file => exact .inr ⟨.truncate rfl file, fun free => by rw [file] at free; cases free⟩
  | creat creat notRoot free parent => exact .inr ⟨.create rfl notRoot free parent, fun _ => creat⟩

theorem Exclusive.agent {a : α} {env : Env} {dir : Bool} (x : Exclusive cfg s.base) (i : Inside cfg s)
    (v : Versioned s) (ok : OrderlyAgent s.base (s.agent a)) (move : Move cfg s (.agent a env dir) t) :
    Exclusive cfg t.base := by
  cases move with
  | look | read => exact x
  | @del _ _ _ p next deletes =>
      refine x.change i.base rfl rfl (fun _ _ => dmkvDel_cache) (fun q bare => ?_) x.tree
      by_cases here : q = p
      · exact here ▸ .inr (ok.deletes deletes (here ▸ bare.2))
      · exact .inl ⟨(update_of_ne here ..).symm.trans bare.1, bare.2⟩
  | record records key absent =>
      obtain ⟨there, covered⟩ := ok.records records absent
      exact x.store (f := s.base.client) (fun _ _ => .inr covered) (fun _ _ _ => .inl) (fun _ _ => id)
        fun _ _ _ => .inr ⟨absent, there⟩
  | @opens _ _ _ p flags dfs next opens effect =>
      rcases effect.create with rfl | ⟨effect, creat⟩
      · exact x
      · obtain ⟨tree, made⟩ := x.effect effect fun rm => by cases rm
        refine x.change i.base rfl rfl (fun _ _ => id) (fun q bare => ?_) tree
        by_cases there : s.base.dfs q = none
        · obtain ⟨rfl, -⟩ := (made q bare.2).resolve_left fun is => is there
          exact .inr (ok.opens opens (creat there) bare.1 there)
        · exact .inl ⟨bare.1, there⟩
  | @count _ _ _ p val cas e at_pc entry same =>
      subst same
      have flags := (v.agent a p val e.cas (by rw [at_pc]; rfl)).2 e entry rfl
      have same : ∀ flag, getStatFlag val.stat flag = getStatFlag e.value.stat flag := getStatFlag_congr flags
      refine x.store (f := s.base.client) (fun free _ => .inl (.inr (.inr ⟨e, entry, ?_⟩))) (fun _ _ _ => .inl)
        (fun _ _ => id) fun _ _ live => .inl ⟨e, entry, (same _).symm.trans live⟩
      simpa only [Passes, same] using free

theorem Exclusive.move {e : Event κ ι α} (x : Exclusive cfg s.base) (i : Inside cfg s) (v : Versioned s)
    (w : WriteCopies s.base) (ok : Orderly s e) (move : Move cfg s e t) : Exclusive cfg t.base := by
  cases e with
  | base e =>
      cases move with
      | base move =>
          cases e with
          | start c call =>
              cases move with
              | start free =>
                  refine x.goOn rfl rfl rfl (fun d q is => .inl ⟨d, is⟩) (fun name q past => ?_) fun p sets => ?_
                  · exact .inl ⟨c, beginCall_past past⟩
                  · rw [beginCall_sets] at sets
                    cases sets
          | client c env => exact x.client i.base v.base w ok move
          | take c =>
              cases move with
              | take => exact x.change i.base rfl rfl (fun _ _ => id) (fun _ => .inl) x.tree
          | server j env => exact x.server i.base ok move
  | start a task =>
      cases move with
      | start => exact x
  | agent a env dir => exact Exclusive.agent x i v ok move

theorem writeCopies_of_reachable {ok : State ι κ α → Event κ ι α → Prop} (h : (system cfg).Reachable ok s) :
    WriteCopies s.base := by
  refine h.invariant (P := fun s => WriteCopies s.base) (fun s initial c p v cas writing => ?_)
    fun s e t reach w _ step => ?_
  · rw [(Initial.base initial).client c] at writing
    cases writing
  · have move := move_of_step step
    have renews := move.renews
    cases e with
    | base e =>
        cases move with
        | base move => exact w.move (versioned_of_reachable reach).base move
    | start | agent =>
        have frame := move.frame fun _ is => by cases is
        exact fun c p v cas writing => (w c p v cas (frame.client ▸ writing)).renews renews

theorem exclusive_of_reachable (h : (system cfg).Reachable Orderly s) : Exclusive cfg s.base :=
  h.invariant (P := fun s => Exclusive cfg s.base) (fun _ initial => .initial (Initial.base initial))
    fun _ _ _ reach x ok step => Exclusive.move x (inside_of_reachable reach) (versioned_of_reachable reach)
      (writeCopies_of_reachable reach) ok (move_of_step step)

/-- In runs that are orderly, a create or mkdir that is decided to return 0 does not find its path
visible. -/
theorem creation_exclusive (reach : (system cfg).Reachable Orderly s) {c : κ} {env : Env} {m : Make} {p : Path}
    (plain : ∀ buf, m ≠ .createWrite buf) (does : step cfg s (.base (.client c env)) = some t)
    (before : (s.base.client c).outcome = none)
    (after : (t.base.client c).outcome = some (⟨.make m, p⟩, 0)) : ¬Visible s.base p := by
  have x := exclusive_of_reachable reach
  obtain ⟨b, goes, rfl⟩ := Option.map_eq_some_iff.mp does
  rcases (Commit.move_of_step goes).wins plain before after with ⟨at_pc, key, absent⟩ | ⟨v, at_pc⟩
  · have nested : Nested cfg p := by
      have inside := (inside_of_reachable reach).base.client c
      rw [at_pc] at inside
      exact inside.resolve_left key
    obtain ⟨name, q, rfl⟩ := List.exists_cons_of_ne_nil key
    have blind : Blind s.base q := .inr (.inl ⟨c, name, by rw [at_pc]; rfl⟩)
    rintro (⟨e, entry, -⟩ | bare)
    · rw [absent] at entry
      cases entry
    · exact x.loaded q nested.2 blind ⟨name, bare⟩
  · exact x.marked c p (by rw [at_pc]; rfl)

section
variable {cfg : Config Unit κ} {s : State Unit κ Unit} {c : κ} {call : Call}

def decides (cfg : Config Unit κ) (c : κ) (s : State Unit κ Unit) (call : Call) : Bool :=
  (s.base.client c).outcome = none ∧
    (step cfg s (.base (.client c .zero))).any fun t => (t.base.client c).outcome = some (call, 0)

theorem decides_step (h : decides cfg c s call = true) : (s.base.client c).outcome = none ∧
    ∃ t, step cfg s (.base (.client c .zero)) = some t ∧ (t.base.client c).outcome = some (call, 0) := by
  obtain ⟨before, after⟩ := of_decide_eq_true h
  obtain ⟨t, does, result⟩ := (Option.any_eq_true _ _).mp after
  exact ⟨before, t, does, of_decide_eq_true result⟩

end

theorem created_twice : ∃ s t : State Unit Unit Unit, (system fileWorkspace).Reachable (fun _ _ => True) s ∧
    step fileWorkspace s (.base (.client () .zero)) = some t ∧ (s.base.client ()).outcome = none ∧
    (t.base.client ()).outcome = some (⟨.make .create, exampleFile⟩, 0) ∧ Visible s.base exampleFile := by
  obtain ⟨s, reach, h⟩ := System.exists_reachable (system fileWorkspace) (fun _ _ => True)
    (s := initialState fileWorkspace .zero) (initial_initialState _ _ (List.cons_ne_nil _ _))
    (List.flatten [called (.make .create) exampleFile 3, commits 1, toEviction, [looks ['f'] false],
      called (.make .create) exampleFile 0])
    (fun s => decides fileWorkspace () s ⟨.make .create, exampleFile⟩ ∧ s.base.cache exampleFile = none ∧
      s.base.dfs exampleFile = some (.file [])) rfl
  obtain ⟨wins, absent, file⟩ := of_decide_eq_true h
  obtain ⟨before, t, does, after⟩ := decides_step wins
  exact ⟨s, t, reach, does, before, after, .inr ⟨absent, by rw [file]; exact Option.some_ne_none _⟩⟩

def watched (s : State Unit Bool Unit) : Event Bool Unit Unit → Bool
  | .base (.client c _) =>
      match s.base.client c with
      | .loadAdd l _ => (s.base.cache l.target).isSome
      | .add _ p => ∀ d, (s.base.client d).sets ≠ some p
      | .childCas .. | .addSet .. => false
      | _ => true
  | .base (.server i env) =>
      match s.base.server i with
      | .attempt _ m | .retry _ m => if m.opt = .rm then !env.vacant else (s.base.cache m.path).isSome
      | .rmDel _ p => s.base.dfs p = none
      | _ => true
  | .agent a _ _ =>
      match s.agent a with
      | .flushDel p | .entryDel _ p _ => s.base.dfs p = none
      | .getattrAdd .. | .openAdd .. | .openDfs .. | .openCached .. => false
      | _ => true
  | .base (.start _ _) | .base (.take _) | .start _ _ => true

theorem orderly_of_watched {s : State Unit Bool Unit} {e : Event Bool Unit Unit} (h : watched s e = true) :
    Orderly s e := by
  cases e with
  | base e =>
      cases e with
      | start | take => trivial
      | client c env =>
          cases at_pc : s.base.client c <;> simp only [Orderly, watched, at_pc, OrderlyClient] at h ⊢
          case loadAdd l v =>
            intro absent
            rw [absent] at h
            cases h
          case add m p => exact fun _ => of_decide_eq_true h
          all_goals cases h
      | server i env =>
          cases at_pc : s.base.server i <;> simp only [Orderly, watched, at_pc, OrderlyServer] at h ⊢
          case attempt | retry =>
            split at h
            · rename_i rm
              rw [if_pos rm]
              intro vacant
              rw [vacant] at h
              cases h
            · rename_i makes
              rw [if_neg makes]
              intro absent
              rw [absent] at h
              cases h
          case rmDel => exact fun there => absurd (of_decide_eq_true h) there
  | start => trivial
  | agent a env dir =>
      cases at_pc : s.agent a <;> simp only [Orderly, watched, at_pc, OrderlyAgent] at h ⊢
      case entryDel | flushDel => exact fun there => absurd (of_decide_eq_true h) there
      all_goals cases h

def loadedRun : List (Event Bool Unit Unit) :=
  let call c op steps := .base (.start c ⟨op, exampleFile⟩) :: List.replicate steps (.base (.client c .zero))
  let server := .base (.server () .zero)
  let agent := .agent () { Env.zero with entry := some ['f'] } false
  List.flatten [call false .rm 1, call true (.make .create) 3, [.base (.take true), server],
    List.replicate 6 (.base (.client false .zero)), [.start () .evict, agent, .base (.take false), server, server],
    List.replicate 2 agent, [server], call true (.make .create) 0]

theorem creation_exclusive_run : ∃ s t : State Unit Bool Unit, (system (.oneNode Bool [['w']])).Reachable Orderly s ∧
    step (.oneNode Bool [['w']]) s (.base (.client true .zero)) = some t ∧
    (t.base.client true).outcome = some (⟨.make .create, exampleFile⟩, 0) ∧ ¬Visible s.base exampleFile := by
  obtain ⟨s, reach, h⟩ := System.exists_reachable (system (.oneNode Bool [['w']])) (fun s e => watched s e = true)
    (s := initialState (.oneNode Bool [['w']]) .zero) (initial_initialState _ _ (List.cons_ne_nil _ _))
    loadedRun (fun s => decides (.oneNode Bool [['w']]) true s ⟨.make .create, exampleFile⟩) rfl
  obtain ⟨before, t, does, after⟩ := decides_step h
  have orderly := reach.mono fun _ _ _ => orderly_of_watched
  exact ⟨s, t, orderly, does, after, creation_exclusive orderly (fun _ is => by cases is) does before after⟩

end Pacon.Evict
