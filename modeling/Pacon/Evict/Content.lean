import Pacon.Commit.Recreate
import Pacon.Evict.Moves

/-!
# What an eviction leaves of a file

Once its entry is evicted, a file's data reaches the DFS only through what the servers have read
already; the RM and WRITE messages that find no entry are dropped.
-/

set_option linter.unusedSectionVars false

namespace Pacon.Evict
open Function Lib Commit

variable {ι κ α : Type} [DecidableEq ι] [DecidableEq κ] [DecidableEq α] {cfg : Config ι κ}

/-- What `pacon_read_new` reads of the whole file, on a client that has no descriptor for it. -/
def readable (env : Env) (s : Commit.State ι κ) (p : Path) : Option (List UInt8) :=
  match s.cache p with
  | none => none
  | some e =>
      if getStatFlag e.value.stat .inline then
        some ((strcpy env.inlineData e.value.data).take e.value.stat.size.toNat)
      else
        match s.dfs p with
        | some (.file content) => some content
        | _ => none

structure InHand (s : Commit.State ι κ) (p : Path) (writes : List (ι × List UInt8)) : Prop where
  once : (writes.map Prod.fst).Nodup
  mem : ∀ i data, (i, data) ∈ writes ↔ ∃ c, s.server i = .writeBack c p (s.generation p) data

def land (content : List UInt8) (writes : List (ι × List UInt8)) : List UInt8 :=
  writes.foldl (fun content write => overwrite content write.2 0) content

structure Settled (s : Commit.State ι κ) (p : Path) (r : List UInt8) : Prop where
  noRm : ∀ i c, s.server i ≠ .attempt c ⟨.rm, p⟩ ∧ s.server i ≠ .retry c ⟨.rm, p⟩
  content : (¬Awaited s ⟨.create, p⟩ ∧
      ∃ content, s.dfs p = some (.file content) ∧ ∀ writes, InHand s p writes → land content writes = r) ∨
    r = [] ∧ (s.dfs p = some (.file []) ∨ Awaited s ⟨.create, p⟩) ∧
      ∀ i c data, s.server i = .writeBack c p (s.generation p) data → data = []

/-- Nothing but commits, the sending of decided messages and evictions. -/
def Draining (s : State ι κ α) : Event κ ι α → Prop
  | .base (.start _ _) => False
  | .base (.client c _) => (s.base.client c).outcome ≠ none
  | .base (.take _) | .base (.server _ _) => True
  | .start _ task => task = .evictNew ∨ task = .evict
  | .agent a _ _ => (s.agent a).records = none ∧ (s.agent a).opens = none ∧ (s.agent a).copy = none

variable {b b' : Commit.State ι κ} {p : Path} {r : List UInt8}

/-- Where a server can be without having a write of the file in hand or being about to remove it. -/
def Harmless (p : Path) (pc : ServerPc κ) : Prop :=
  (∀ c, pc ≠ .attempt c ⟨.rm, p⟩ ∧ pc ≠ .retry c ⟨.rm, p⟩) ∧ ∀ c n data, pc ≠ .writeBack c p n data

theorem harmless_recv : Harmless p (.recv : ServerPc κ) :=
  ⟨fun _ => ⟨fun h => (by cases h), fun h => (by cases h)⟩, fun _ _ _ h => (by cases h)⟩

theorem Settled.noRm_update (h : Settled b p r) {i : ι} {pc : ServerPc κ}
    (server : b'.server = update b.server i pc) (harmless : Harmless p pc) (j : ι) (c : κ) :
    b'.server j ≠ .attempt c ⟨.rm, p⟩ ∧ b'.server j ≠ .retry c ⟨.rm, p⟩ := by
  by_cases here : j = i
  · subst here
    rw [server, update_self]
    exact harmless.1 c
  · rw [server, update_of_ne here]
    exact h.noRm j c

theorem writeBack_update {i : ι} {pc : ServerPc κ} (server : b'.server = update b.server i pc)
    (harmless : Harmless p pc) {j : ι} {c : κ} {n : Nat} {data : List UInt8} :
    b'.server j = .writeBack c p n data ↔ j ≠ i ∧ b.server j = .writeBack c p n data := by
  by_cases here : j = i
  · subst here
    rw [server, update_self]
    exact iff_of_false (harmless.2 c n data) fun h => h.1 rfl
  · rw [server, update_of_ne here]
    exact (and_iff_right here).symm

theorem Settled.same (h : Settled b p r) (server : b'.server = b.server) (dfs : b'.dfs p = b.dfs p)
    (generation : b'.generation p = b.generation p)
    (awaited : Awaited b' ⟨.create, p⟩ ↔ Awaited b ⟨.create, p⟩) : Settled b' p r := by
  have hand : ∀ writes, InHand b' p writes ↔ InHand b p writes := by
    intro writes
    constructor <;> rintro ⟨once, mem⟩ <;> exact ⟨once, by simpa only [server, generation] using mem⟩
  obtain ⟨noRm, content⟩ := h
  refine ⟨server ▸ noRm, ?_⟩
  simpa only [dfs, awaited, hand, server, generation] using content

theorem Settled.goOn (h : Settled b p r) {i : ι} {pc : ServerPc κ} (server : b'.server = update b.server i pc)
    (dfs : b'.dfs p = b.dfs p) (generation : b'.generation p = b.generation p)
    (awaited : Awaited b' ⟨.create, p⟩ ↔ Awaited b ⟨.create, p⟩)
    (before : ∀ c data, b.server i ≠ .writeBack c p (b.generation p) data) (harmless : Harmless p pc) : Settled b' p r := by
  have writes : ∀ j c data, b'.server j = .writeBack c p (b.generation p) data ↔
      b.server j = .writeBack c p (b.generation p) data := by
    intro j c data
    rw [writeBack_update server harmless, and_iff_right_iff_imp]
    rintro at_j rfl
    exact before c data at_j
  have hand : ∀ l, InHand b' p l ↔ InHand b p l := by
    intro l
    constructor <;> rintro ⟨once, mem⟩ <;> exact ⟨once, by simpa only [writes, generation] using mem⟩
  refine ⟨h.noRm_update server harmless, ?_⟩
  simpa only [dfs, awaited, hand, writes, generation] using h.content

theorem Settled.writeBack (q : Queued cfg b) (h : Settled b p r) {i : ι} {c : κ} {data : List UInt8}
    (pc : b.server i = .writeBack c p (b.generation p) data) :
    Settled (finish (writeBack b p (b.generation p) data) i c) p r := by
  have server : (finish (Commit.writeBack b p (b.generation p) data) i c).server = update b.server i .recv := by
    unfold Commit.writeBack
    split <;> rfl
  have awaited : Awaited (finish (Commit.writeBack b p (b.generation p) data) i c) ⟨.create, p⟩ ↔ Awaited b ⟨.create, p⟩ := by
    refine Awaited.finish q (congrArg ServerPc.serving pc) ?_ ?_ fun h => by cases h
    all_goals
      unfold Commit.writeBack
      split <;> rfl
  have generation : (finish (Commit.writeBack b p (b.generation p) data) i c).generation = b.generation := by
    unfold Commit.writeBack
    split <;> rfl
  refine ⟨h.noRm_update server harmless_recv, ?_⟩
  simp only [awaited, generation, writeBack_update server harmless_recv]
  rcases h.content with ⟨create, content, file, lands⟩ | ⟨empty, file, nothing⟩
  · refine .inl ⟨create, overwrite content data 0, ?_, fun l inHand => lands ((i, data) :: l) ⟨?_, ?_⟩⟩
    · simp [finish, Commit.writeBack, opened, file]
    · rw [List.map_cons, List.nodup_cons]
      refine ⟨fun member => ?_, inHand.once⟩
      obtain ⟨⟨j, x⟩, member, same⟩ := List.mem_map.mp member
      obtain ⟨d, at_j⟩ := (inHand.mem j x).mp member
      rw [generation] at at_j
      exact ((writeBack_update server harmless_recv).mp at_j).1 same
    · intro j x
      rw [List.mem_cons, inHand.mem j x]
      simp only [generation, writeBack_update server harmless_recv]
      by_cases here : j = i
      · subst here
        rw [pc]
        constructor
        · rintro (same | ⟨d, away, -⟩)
          · cases same
            exact ⟨c, rfl⟩
          · exact absurd rfl away
        · rintro ⟨d, same⟩
          cases same
          exact .inl rfl
      · simp [here]
  · refine .inr ⟨empty, ?_, fun j d x at_j => nothing j d x at_j.2⟩
    refine file.imp_left fun file => ?_
    rw [nothing i c data pc]
    simp [finish, Commit.writeBack, opened, file, overwrite_nil]

theorem Settled.succeed (q : Queued cfg b) (h : Settled b p r) {i : ι} {c : κ} {m : Msg}
    {dfs : Path → Option Node} (pc : b.server i = .attempt c m ∨ b.server i = .retry c m)
    (effect : DfsEffect b.dfs m dfs) : Settled (succeed b i c m dfs) p r := by
  have serves := serving_of_attempt pc
  have before : ∀ d data, b.server i ≠ .writeBack d p (b.generation p) data := by
    intro d data at_i
    rcases pc with pc | pc <;> cases pc.symm.trans at_i
  have elsewhere : m.path ≠ p → dfs p = b.dfs p := by
    intro other
    cases effect <;> exact update_of_ne (Ne.symm other) ..
  by_cases rm : m.opt = .rm
  · have other : m.path ≠ p := by
      rintro rfl
      obtain ⟨_, p⟩ := m
      cases rm
      rcases pc with pc | pc
      · exact (h.noRm i c).1 pc
      · exact (h.noRm i c).2 pc
    unfold Commit.succeed
    rw [rm]
    refine h.goOn rfl (elsewhere other) ?_ (Awaited.congr rfl rfl) before
      ⟨fun _ => ⟨fun h => (by cases h), fun h => (by cases h)⟩, fun _ _ _ h => (by cases h)⟩
    exact if_neg (by simpa using Ne.symm other)
  · obtain ⟨server, after, same, done⟩ := succeed_made (s := b) (i := i) (c := c) dfs rm
    have generation : (Commit.succeed b i c m dfs).generation = b.generation := by
      unfold Commit.succeed
      split
      · exact absurd ‹_› rm
      all_goals rfl
    have awaited : m ≠ ⟨.create, p⟩ →
        (Awaited (Commit.succeed b i c m dfs) ⟨.create, p⟩ ↔ Awaited b ⟨.create, p⟩) :=
      fun other => Awaited.finish q serves same done (Ne.symm other)
    by_cases path : m.path = p
    · -- the path is not on the DFS, or it is created there: its first content is empty
      refine ⟨h.noRm_update server harmless_recv, .inr ?_⟩
      rw [after, generation]
      simp only [writeBack_update server harmless_recv]
      cases effect with
      | remove opt => exact absurd opt rm
      | mkdir opt notRoot free =>
          subst path
          have other : m ≠ ⟨.create, m.path⟩ := fun is => by rw [is] at opt; cases opt
          rcases h.content with ⟨-, content, file, -⟩ | ⟨empty, file, nothing⟩
          · rw [free] at file
            cases file
          · refine ⟨empty, .inr ((awaited other).mpr (file.resolve_left fun file => ?_)), fun j d x at_j =>
              nothing j d x at_j.2⟩
            rw [free] at file
            cases file
      | create opt | truncate opt =>
          have is : m = ⟨.create, p⟩ := by
            rw [← opt, ← path]
          rcases h.content with ⟨create, -⟩ | ⟨empty, -, nothing⟩
          · exact absurd (is ▸ q.awaited serves) create
          · refine ⟨empty, .inl ?_, fun j d x at_j => nothing j d x at_j.2⟩
            rw [path, update_self]
    · exact h.goOn server ((congrFun after p).trans (elsewhere path)) (congrFun generation p) (awaited fun is => path (congrArg Msg.path is))
        before harmless_recv

theorem dispatch_harmless (c : κ) (m : Msg) : Harmless p (dispatch c m) := by
  obtain ⟨opt, q⟩ := m
  cases opt <;> exact ⟨fun _ => ⟨fun h => (by cases h), fun h => (by cases h)⟩, fun _ _ _ h => (by cases h)⟩

theorem Settled.commit {e : Commit.Event κ ι} (q : Queued cfg b) (absent : b.cache p = none) (h : Settled b p r)
    (drains : match e with
      | .start _ _ => False
      | .client c _ => (b.client c).outcome ≠ none
      | .take _ | .server _ _ => True)
    (move : Commit.Move cfg b e b') : b'.cache p = none ∧ Settled b' p r := by
  have before : ∀ {i : ι} {pc : ServerPc κ}, b.server i = pc →
      (∀ {c data}, pc ≠ .writeBack c p (b.generation p) data) →
      ∀ c data, b.server i ≠ .writeBack c p (b.generation p) data := fun at_i other c data is => other (at_i.symm.trans is)
  have finished : ∀ {i c m} {t : Commit.State ι κ}, (b.server i).serving = some (c, m) → m ≠ ⟨.create, p⟩ →
      issued t = issued b → t.done = update b.done c (b.done c + 1) →
      (Awaited t ⟨.create, p⟩ ↔ Awaited b ⟨.create, p⟩) :=
    fun serves other same done => Awaited.finish q serves same done (Ne.symm other)
  cases move with
  | start => exact drains.elim
  | goOn at_pc goes => exact absurd (at_pc ▸ goes.outcome.1) drains
  | parentAdd at_pc | loadAdd at_pc | childCas at_pc | add at_pc | addAgain at_pc | addSet at_pc
  | rmCas at_pc | rmLate at_pc | writeCas at_pc =>
      exact absurd (by rw [at_pc]; rfl) drains
  | send at_pc => exact ⟨absent, h.same rfl rfl rfl (Awaited.congr (issued_send at_pc) rfl)⟩
  | ret at_pc =>
      refine ⟨absent, h.same rfl rfl rfl (Awaited.congr ?_ rfl)⟩
      exact (issued_congr (s := b) rfl rfl _ _).trans (issued_goOn (by rw [at_pc]; rfl) rfl)
  | take pc head =>
      refine ⟨absent, h.goOn rfl rfl rfl (Awaited.congr rfl rfl) (fun c data at_i => ?_) (dispatch_harmless _ _)⟩
      cases pc.symm.trans at_i
  | rmVoid pc | dropWrite pc | writeVoid pc =>
      exact ⟨absent, h.goOn rfl rfl rfl (finished (congrArg ServerPc.serving pc) (fun is => by cases is) rfl rfl)
        (before pc fun is => by cases is) harmless_recv⟩
  | rmFound pc entry =>
      refine ⟨absent, h.goOn rfl rfl rfl (Awaited.congr rfl rfl) (before pc fun is => by cases is)
        ⟨fun d => ⟨fun is => ?_, fun is => (by cases is)⟩, fun _ _ _ is => (by cases is)⟩⟩
      cases is
      rw [absent] at entry
      cases entry
  | @succeed i env c m dfs pc call =>
      refine ⟨?_, h.succeed q pc (dfsCall_effect call)⟩
      unfold Commit.succeed
      split <;> exact absent
  | fail pc =>
      refine ⟨absent, h.goOn rfl rfl rfl (Awaited.congr rfl rfl) (fun c data at_i => ?_)
        ⟨fun d => ⟨fun is => (by cases is), fun is => ?_⟩, fun _ _ _ is => (by cases is)⟩⟩
      · rcases pc with pc | pc <;> cases pc.symm.trans at_i
      · cases is
        rcases pc with pc | pc
        · exact (h.noRm _ _).1 pc
        · exact (h.noRm _ _).2 pc
  | @rmDel i env c p' pc =>
      refine ⟨?_, h.goOn rfl rfl rfl (finished (congrArg ServerPc.serving pc) (fun is => by cases is) rfl rfl)
        (before pc fun is => by cases is) harmless_recv⟩
      by_cases here : p = p'
      · exact here ▸ update_self ..
      · exact (update_of_ne here ..).trans absent
  | openWrite pc =>
      exact ⟨absent, h.goOn rfl rfl rfl (Awaited.congr rfl rfl) (before pc fun is => by cases is)
        ⟨fun _ => ⟨fun is => (by cases is), fun is => (by cases is)⟩, fun _ _ _ is => (by cases is)⟩⟩
  | @writeRead i env c p' n e pc entry =>
      have other : p' ≠ p := by
        rintro rfl
        rw [absent] at entry
        cases entry
      refine ⟨absent, h.goOn rfl rfl rfl (Awaited.congr rfl rfl) (before pc fun is => by cases is) ?_⟩
      unfold Commit.writeRead
      split
      · refine ⟨fun _ => ⟨fun is => (by cases is), fun is => (by cases is)⟩, fun _ _ _ is => other ?_⟩
        cases is
        rfl
      · exact ⟨fun _ => ⟨fun is => (by cases is), fun is => (by cases is)⟩, fun _ _ _ is => (by cases is)⟩
  | @writeBack i env c p' n data pc =>
      by_cases here : p' = p ∧ n = b.generation p
      · obtain ⟨rfl, rfl⟩ := here
        refine ⟨?_, h.writeBack q pc⟩
        unfold Commit.writeBack
        split <;> exact absent
      · unfold Commit.writeBack
        split
        · rename_i content found
          have other : p ≠ p' := by
            rintro rfl
            exact here ⟨rfl, (opened_eq_some.mp found).2.symm⟩
          exact ⟨absent, h.goOn rfl (update_of_ne other ..) rfl (finished (congrArg ServerPc.serving pc)
            (fun is => by cases is) rfl rfl) (before pc fun is => by cases is; exact here ⟨rfl, rfl⟩) harmless_recv⟩
        · exact ⟨absent, h.goOn rfl rfl rfl (finished (congrArg ServerPc.serving pc)
            (fun is => by cases is) rfl rfl) (before pc fun is => by cases is; exact here ⟨rfl, rfl⟩) harmless_recv⟩

variable {s t u : State ι κ α}

theorem Settled.drain (q : Queued cfg s.base) (absent : s.base.cache p = none) (h : Settled s.base p r)
    (drain : (system cfg).Follows Draining s u) :
    Queued cfg u.base ∧ u.base.cache p = none ∧ Settled u.base p r := by
  refine drain.invariant (P := fun u => Queued cfg u.base ∧ u.base.cache p = none ∧ Settled u.base p r)
    ⟨q, absent, h⟩ fun v e w ⟨q, absent, h⟩ drains step => ?_
  have move := move_of_step step
  refine ⟨move.queued q, ?_⟩
  cases move with
  | @base e b move =>
      refine h.commit q absent ?_ move
      cases e <;> exact drains
  | start | look | read => exact ⟨absent, h⟩
  | @del a env dir p' next =>
      refine ⟨?_, h.same rfl rfl rfl (Awaited.congr rfl rfl)⟩
      by_cases here : p = p'
      · exact here ▸ update_self ..
      · exact (update_of_ne here ..).trans absent
  | record records => exact absurd (records.symm.trans drains.1) (by simp)
  | opens opens => exact absurd (opens.symm.trans drains.2.1) (by simp)
  | count at_pc => exact absurd drains.2.2 (by rw [at_pc]; simp [AgentPc.copy])

/-- An evicted file keeps the content that clients could read if the DFS holds it once the servers
have written what they have read already, no RM of it is past its look at the entry and no CREATE of
it is pending, except where that content is empty. -/
theorem eviction_keeps_content (reach : (system cfg).Reachable (fun _ _ => True) s) {a : α} {w : Walk}
    {env env' : Env} {p : Path} {dir dir' : Bool} (evicts : s.agent a = .entryDel w p dir)
    (step : step cfg s (.agent a env dir') = some t)
    (safe : ∃ r, readable env' s.base p = some r ∧ Settled s.base p r)
    (drain : (system cfg).Follows Draining t u) (drained : Drained u.base) :
    u.base.dfs p = (readable env' s.base p).map .file := by
  obtain ⟨r, readable, settled⟩ := safe
  have q := queued_of_reachable reach
  have evicted : t.base.cache p = none ∧ Settled t.base p r := by
    simp only [Evict.step, agentStep, evicts, Option.some.injEq] at step
    subst step
    exact ⟨update_self .., settled.same rfl rfl rfl (Awaited.congr rfl rfl)⟩
  obtain ⟨q, -, settled⟩ := evicted.2.drain ((move_of_step step).queued q) evicted.1 drain
  have idle : ∀ i c n data, u.base.server i ≠ .writeBack c p n data := by
    intro i c n data at_i
    have serves := drained.not_serving q i
    rw [at_i] at serves
    cases serves
  rw [readable, Option.map_some]
  rcases settled.content with ⟨-, content, file, lands⟩ | ⟨empty, file, -⟩
  · have landed : content = r := lands [] ⟨.nil, fun i data => by simp [idle]⟩
    rw [file, landed]
  · rw [empty]
    exact file.resolve_right drained.not_awaited

def called (op : Op) (p : Path) (steps : Nat) : List (Event Unit Unit Unit) :=
  .base (.start () ⟨op, p⟩) :: List.replicate steps (.base (.client () .zero))

def commits (steps : Nat) : List (Event Unit Unit Unit) := (commitRun steps).map .base

def looks (name : CString) (dir : Bool) : Event Unit Unit Unit :=
  .agent () { Env.zero with entry := some name } dir

def toEviction : List (Event Unit Unit Unit) := .start () .evictNew :: List.replicate 3 (looks ['f'] false)

def atEviction : AgentPc := .entryDel ⟨true, []⟩ exampleFile false

theorem eviction_loses_content : ∃ s t : State Unit Unit Unit,
    (system fileWorkspace).Reachable (fun _ _ => True) s ∧ s.agent () = atEviction ∧
    testEntryExist s.base exampleFile = 1 ∧ readable .zero s.base exampleFile = some [97, 98, 99] ∧
    step fileWorkspace s (.agent () .zero false) = some t ∧ Drained t.base ∧
    t.base.dfs exampleFile = some (.file []) := by
  obtain ⟨s, reach, h⟩ := System.exists_reachable (system fileWorkspace) (fun _ _ => True)
    (s := initialState fileWorkspace .zero) (initial_initialState _ _ (List.cons_ne_nil _ _))
    (List.flatten [called (.make (.createWrite [97, 98, 99])) exampleFile 3, commits 1, toEviction])
    (fun s => decide (s.agent () = atEviction ∧ testEntryExist s.base exampleFile = 1 ∧
      readable .zero s.base exampleFile = some [97, 98, 99]) &&
      (step fileWorkspace s (.agent () .zero false)).any fun t : State Unit Unit Unit =>
        decide (Drained t.base ∧ t.base.dfs exampleFile = some (.file []))) rfl
  simp only [Bool.and_eq_true, decide_eq_true_eq] at h
  obtain ⟨⟨evicts, live, read⟩, after⟩ := h
  cases does : step fileWorkspace s (.agent () .zero false) with
  | none => simp [does] at after
  | some t =>
      rw [does, Option.any_some] at after
      obtain ⟨drained, lost⟩ := of_decide_eq_true after
      exact ⟨s, t, reach, evicts, live, read, does, drained, lost⟩

theorem eviction_keeps_content_run : ∃ s t : State Unit Unit Unit,
    (system fileWorkspace).Reachable (fun _ _ => True) s ∧ s.agent () = atEviction ∧
    step fileWorkspace s (.agent () .zero false) = some t ∧
    t.base.dfs exampleFile = some (.file [97, 98, 99]) := by
  obtain ⟨s, reach, h⟩ := System.exists_reachable (system fileWorkspace) (fun _ _ => True)
    (s := initialState fileWorkspace .zero) (initial_initialState _ _ (List.cons_ne_nil _ _))
    (List.flatten [called (.make .create) exampleFile 3, commits 1,
      called (.write [97, 98, 99] 0) exampleFile 4, commits 3, toEviction])
    (fun s => decide (s.agent () = atEviction ∧ Drained s.base ∧ s.base.server () = .recv ∧
      s.base.dfs exampleFile = some (.file [97, 98, 99]) ∧
      readable .zero s.base exampleFile = some [97, 98, 99])) rfl
  obtain ⟨evicts, drained, free, file, read⟩ := of_decide_eq_true h
  cases does : step fileWorkspace s (.agent () .zero false) with
  | none => simp [step, agentStep, evicts, atEviction] at does
  | some t =>
      have still : Drained t.base := by
        simp only [step, agentStep, evicts, atEviction, Option.some.injEq] at does
        exact does ▸ drained
      have idle : ∀ writes, InHand s.base exampleFile writes → writes = [] := by
        intro writes hand
        refine List.eq_nil_iff_forall_not_mem.mpr fun x member => ?_
        obtain ⟨c, pc⟩ := (hand.mem x.1 x.2).mp member
        cases free.symm.trans pc
      have settled : Settled s.base exampleFile [97, 98, 99] := by
        refine ⟨fun i c => ?_, .inl ⟨drained.not_awaited, _, file, fun writes hand => ?_⟩⟩
        · rw [show s.base.server i = .recv from free]
          exact ⟨fun is => (by cases is), fun is => (by cases is)⟩
        · rw [idle writes hand]
          rfl
      have kept := eviction_keeps_content reach evicts does ⟨_, read, settled⟩ .refl still
      rw [read] at kept
      exact ⟨s, t, reach, evicts, does, kept⟩

end Pacon.Evict
