import Pacon.Evict.Content

/-!
# Removed paths under evictions

The mark of a removed path is all that makes its RM remove the file from the DFS. Whatever deletes
the entry takes the mark away, and whatever caches a record where none is makes the path appear again.
-/

set_option linter.unusedSectionVars false

namespace Pacon.Commit
open Function Lib

def ClientPc.marks : ClientPc → Option Path
  | .rmCas p _ _ => some p
  | _ => none

def ClientPc.loads : ClientPc → Option Path
  | .loadAdd l _ => some l.target
  | _ => none

def ServerPc.deletes {κ : Type} : ServerPc κ → Option Path
  | .rmDel _ p => some p
  | _ => none

variable {ι κ : Type} [DecidableEq ι] [DecidableEq κ]

def Gone (s : State ι κ) (p : Path) : Prop :=
  s.dfs p = none ∧ ¬Awaited s ⟨.create, p⟩ ∧ ¬Awaited s ⟨.mkdir, p⟩

instance [Fintype κ] (s : State ι κ) (p : Path) : Decidable (Gone s p) :=
  inferInstanceAs (Decidable (_ ∧ _ ∧ _))

def Hidden (s : State ι κ) (p : Path) : Prop := ∀ e ∈ s.cache p, getStatFlag e.value.stat .rm = true

instance (s : State ι κ) (p : Path) : Decidable (Hidden s p) :=
  inferInstanceAs (Decidable (∀ e ∈ s.cache p, _ = true))

def Deletable (s : State ι κ) (p : Path) : Prop :=
  Gone s p ∨ (∀ e ∈ s.cache p, getStatFlag e.value.stat .rm = false) ∧ ∀ c, (s.client c).marks ≠ some p

instance [Fintype κ] (s : State ι κ) (p : Path) : Decidable (Deletable s p) :=
  inferInstanceAs (Decidable (_ ∨ (∀ e ∈ s.cache p, _ = false) ∧ _))

variable {b b' : State ι κ} {p : Path}

theorem Hidden.congr (cache : b'.cache p = b.cache p) : Hidden b p → Hidden b' p := by
  unfold Hidden
  rw [cache]
  exact id

theorem Gone.congr (dfs : b.dfs p = none → b'.dfs p = none)
    (create : Awaited b' ⟨.create, p⟩ → Awaited b ⟨.create, p⟩)
    (mkdir : Awaited b' ⟨.mkdir, p⟩ → Awaited b ⟨.mkdir, p⟩) : Gone b p → Gone b' p :=
  fun ⟨absent, noCreate, noMkdir⟩ => ⟨dfs absent, mt create noCreate, mt mkdir noMkdir⟩

theorem afterParent_marks (m : Make) (q : Path) : (afterParent m q).marks = none := by
  apply afterParent_of (P := fun pc => pc.marks = none) <;> intros <;> rfl

theorem beginCall_marks (table : Path → Bool) (call : Call) : (beginCall table call).marks = none := by
  apply beginCall_of (P := fun pc => pc.marks = none) fun m p _ _ => afterParent_marks m p
  all_goals intros; rfl

theorem Local.marks {cfg : Config ι κ} {env : Env} {pc next : ClientPc} (goes : Local cfg b env pc next)
    (marks : next.marks = some p) : b.cache p ≠ none := by
  cases goes with
  | rmHit entry | rmLoaded entry =>
      cases marks
      rw [entry]
      exact Option.some_ne_none _
  | parentMiss | readdir | rmMiss =>
      unfold load at marks
      split at marks <;> cases marks
  | parentHit | parentLoaded =>
      unfold parentFound at marks
      split at marks
      · cases marks
      · split at marks <;> cases marks
  | writeHit =>
      unfold writeFound at marks
      split at marks
      · cases marks
      · split at marks <;> cases marks
  | @loadExists l => cases l <;> cases marks
  | _ => cases marks

end Pacon.Commit

namespace Pacon.Evict
open Function Lib Commit

variable {ι κ α : Type} [DecidableEq ι] [DecidableEq κ] [DecidableEq α]

def AgentPc.creates (pc : AgentPc) : Option Path :=
  pc.opens.bind fun x => if x.2.creat then some x.1 else none

inductive Fate
  | made
  | removed
  deriving DecidableEq

def decided (p : Path) : Option (Call × Int) → Option (Call × Int) → Option Fate
  | none, some (⟨.make _, q⟩, 0) => if q = p then some .made else none
  | none, some (⟨.rm, q⟩, 0) => if q = p then some .removed else none
  | _, _ => none

def fate (cfg : Config ι κ) (p : Path) (s : State ι κ α) : Event κ ι α → Option Fate
  | .base (.client c env) =>
      (clientStep cfg s.base c env).bind fun b => decided p (s.base.client c).outcome (b.client c).outcome
  | .agent a env dir =>
      if s.base.dfs p = none ∧ (agentStep cfg s a env dir).any fun t => t.base.dfs p ≠ none then some .made
      else none
  | .base _ | .start _ _ => none

/-- Entries of the path are deleted and records of it added only where no removal is undone. -/
def Careful (p : Path) (s : State ι κ α) : Event κ ι α → Prop
  | .base (.client c _) => (s.base.client c).loads = some p → ¬Gone s.base p
  | .base (.server i _) => (s.base.server i).deletes = some p → Deletable s.base p
  | .agent a _ _ => ((s.agent a).deletes = some p → Deletable s.base p) ∧
      ((s.agent a).records.map Prod.fst = some p → ¬Gone s.base p) ∧
      ((s.agent a).creates = some p ∧ s.base.dfs p = none → ∀ c, (s.base.client c).marks ≠ some p)
  | .base (.start _ _) | .base (.take _) | .start _ _ => True

instance [Fintype κ] (p : Path) (s : State ι κ α) (e : Event κ ι α) : Decidable (Careful p s e) :=
  match e with
  | .base (.client _ _) | .base (.server _ _) => inferInstanceAs (Decidable (_ → _))
  | .agent _ _ _ => inferInstanceAs (Decidable ((_ → _) ∧ (_ → _) ∧ (_ → _)))
  | .base (.start _ _) | .base (.take _) | .start _ _ => inferInstanceAs (Decidable True)

variable {cfg : Config ι κ} {p : Path} {b b' : Commit.State ι κ} {last : Option Fate}

structure Kept (p : Path) (b : Commit.State ι κ) (last : Option Fate) : Prop where
  hidden : last = some .removed → Hidden b p
  removed : last = some .removed → Gone b p ∨ b.cache p ≠ none ∧ Awaited b ⟨.rm, p⟩
  late : b.cache p = none → (∃ c, (b.client c).marks = some p) → Gone b p

structure Quiet (p : Path) (b b' : Commit.State ι κ) : Prop where
  cache : b'.cache p = none ↔ b.cache p = none
  hidden : Hidden b p → Hidden b' p
  gone : Gone b p → Gone b' p
  rm : b.cache p ≠ none → Awaited b ⟨.rm, p⟩ → Awaited b' ⟨.rm, p⟩
  marks : b.cache p = none → ∀ c, (b'.client c).marks = some p → (b.client c).marks = some p

theorem Kept.quiet (k : Kept p b last) (q : Quiet p b b') : Kept p b' last where
  hidden is := q.hidden (k.hidden is)
  removed is := (k.removed is).imp q.gone fun ⟨there, rm⟩ => ⟨mt q.cache.mp there, q.rm there rm⟩
  late none := by
    rintro ⟨c, marks⟩
    have before := q.cache.mp none
    exact q.gone (k.late before ⟨c, q.marks before c marks⟩)

theorem decided_fail {before after : Option (Call × Int)} (fails : ∀ x, after = some x → x.2 = -1) :
    decided p before after = none := by
  unfold decided
  split
  · cases fails _ rfl
  · cases fails _ rfl
  · rfl

theorem decided_make {m : Make} {q : Path} :
    decided p none (some (⟨.make m, q⟩, 0)) = if q = p then some .made else none := rfl

structure Steady (p : Path) (b b' : Commit.State ι κ) : Prop where
  cache : b'.cache p = none ↔ b.cache p = none
  hidden : Hidden b p → Hidden b' p

theorem Steady.same (cache : b'.cache p = b.cache p) : Steady p b b' := ⟨by rw [cache], Hidden.congr cache⟩

theorem Steady.store {q : Path} {v : Value} (other : q ≠ p) (cache : b'.cache = (Commit.store b q v).cache) :
    Steady p b b' := by
  refine .same ?_
  rw [cache, store_cache, update_of_ne (Ne.symm other)]

theorem Steady.swap {q : Path} {v : Value} {e : Entry} (entry : b.cache q = some e)
    (copy : CopyOf b.cache b.clock q v e.cas) (cache : b'.cache = (Commit.store b q v).cache) : Steady p b b' := by
  by_cases here : q = p
  · subst here
    have after : b'.cache q = some ⟨b.clock, v⟩ := by rw [cache, store_cache, update_self]
    refine ⟨by simp [after, entry], fun hidden e' entry' => ?_⟩
    rw [after] at entry'
    cases entry'
    exact (copy.2 e entry rfl).rm.trans (hidden e entry)
  · exact .store here cache

theorem Quiet.same (steady : Steady p b b') (dfs : b.dfs p = none → b'.dfs p = none)
    (same : issued b' = issued b) (done : b'.done = b.done)
    (marks : b.cache p = none → ∀ c, (b'.client c).marks = some p → (b.client c).marks = some p) :
    Quiet p b b' :=
  ⟨steady.cache, steady.hidden, .congr dfs (Awaited.congr same done).mp (Awaited.congr same done).mp,
    fun _ => (Awaited.congr same done).mpr, marks⟩

theorem marks_setPc {u : Commit.State ι κ} {c : κ} {pc : ClientPc} (client : u.client = b.client)
    (marks : pc.marks = some p → b.cache p ≠ none) (absent : b.cache p = none) (d : κ)
    (marked : ((setPc u c pc).client d).marks = some p) : (b.client d).marks = some p := by
  by_cases here : d = c
  · subst here
    rw [setPc_client, update_self] at marked
    exact absurd absent (marks marked)
  · rwa [setPc_client, update_of_ne here, client] at marked

theorem Quiet.client {u : Commit.State ι κ} {c : κ} {pc : ClientPc} (steady : Steady p b u) (dfs : u.dfs = b.dfs)
    (client : u.client = b.client) (out : u.out = b.out) (done : u.done = b.done)
    (before : (b.client c).unsent = none) (after : pc.unsent = none)
    (marks : pc.marks = some p → b.cache p ≠ none) : Quiet p b (setPc u c pc) := by
  refine .same ⟨steady.cache, steady.hidden⟩ (fun absent => (congrFun dfs p).trans absent) ?_ done
    (marks_setPc client marks)
  funext d
  rw [issued_congr client out, issued_goOn before after]

theorem Quiet.decide {u : Commit.State ι κ} {c : κ} {call : Call} (q : Queued cfg b) (steady : Steady p b u)
    (dfs : u.dfs = b.dfs) (client : u.client = b.client) (out : u.out = b.out) (done : u.done = b.done)
    (before : (b.client c).unsent = none) (other : call.msg ≠ ⟨.create, p⟩ ∧ call.msg ≠ ⟨.mkdir, p⟩) :
    Quiet p b (setPc u c (.send call)) := by
  have more : issued (setPc u c (.send call)) = update (issued b) c (issued b c ++ [call.msg]) := by
    funext d
    rw [issued_congr client out, issued_decide before]
  refine ⟨steady.cache, steady.hidden, .congr (fun absent => (congrFun dfs p).trans absent) (fun waits => ?_)
    (fun waits => ?_), fun _ waits => (Awaited.issue q more done).mpr (.inl waits),
    marks_setPc client fun marks => by cases marks⟩
  · exact ((Awaited.issue q more done).mp waits).resolve_right (Ne.symm other.1)
  · exact ((Awaited.issue q more done).mp waits).resolve_right (Ne.symm other.2)

theorem Kept.made (there : b.cache p ≠ none) : Kept p b (some .made) :=
  ⟨fun is => (by cases is), fun is => (by cases is), fun absent => absurd absent there⟩

theorem Kept.stay {u : Commit.State ι κ} {c : κ} {pc : ClientPc} (k : Kept p b last)
    (quiet : Quiet p b (setPc u c pc)) (fails : ∀ x, pc.outcome = some x → x.2 = -1) :
    Kept p (setPc u c pc) ((decided p (b.client c).outcome ((setPc u c pc).client c).outcome).or last) := by
  rw [setPc_client, update_self, decided_fail fails, Option.none_or]
  exact k.quiet quiet

theorem Kept.make {u : Commit.State ι κ} {c : κ} {pc : ClientPc} {m : Make} (there : u.cache p ≠ none)
    (before : (b.client c).outcome = none) (after : pc.outcome = some (⟨.make m, p⟩, 0)) :
    Kept p (setPc u c pc) ((decided p (b.client c).outcome ((setPc u c pc).client c).outcome).or last) := by
  rw [setPc_client, update_self, before, after, decided_make, if_pos rfl]
  exact .made there

theorem Kept.makeElsewhere {u : Commit.State ι κ} {c : κ} {pc : ClientPc} {m : Make} {q : Path}
    (k : Kept p b last) (other : q ≠ p) (quiet : Quiet p b (setPc u c pc))
    (before : (b.client c).outcome = none) (after : pc.outcome = some (⟨.make m, q⟩, 0)) :
    Kept p (setPc u c pc) ((decided p (b.client c).outcome ((setPc u c pc).client c).outcome).or last) := by
  rw [setPc_client, update_self, before, after, decided_make, if_neg other, Option.none_or]
  exact k.quiet quiet

theorem store_there (b : Commit.State ι κ) (q : Path) (v : Value) : (store b q v).cache q ≠ none := by
  rw [store_cache, update_self]
  exact Option.some_ne_none _

theorem Kept.record (k : Kept p b last) (absent : b.cache p = none) (there : b'.cache p ≠ none)
    (present : ¬Gone b p) : Kept p b' last := by
  have made : last ≠ some .removed := fun is => (k.removed is).elim present fun h => h.1 absent
  exact ⟨fun is => absurd is made, fun is => absurd is made, fun none => absurd none there⟩

theorem makeMsg_other {m : Make} {q : Path} (other : q ≠ p) :
    Call.msg ⟨.make m, q⟩ ≠ ⟨.create, p⟩ ∧ Call.msg ⟨.make m, q⟩ ≠ ⟨.mkdir, p⟩ :=
  ⟨fun is => other (congrArg Msg.path is), fun is => other (congrArg Msg.path is)⟩

theorem Kept.remove {u : Commit.State ι κ} {c : κ} {q : Path} {v : Value} {cas : Nat} (k : Kept p b last)
    (queued : Queued cfg b) (at_pc : b.client c = .rmCas q v cas)
    (dfs : u.dfs = b.dfs) (client : u.client = b.client) (out : u.out = b.out) (done : u.done = b.done)
    (here : q = p → Hidden u p ∧ (u.cache p = none → b.cache p = none)) (elsewhere : q ≠ p → Steady p b u) :
    Kept p (setPc u c (.send ⟨.rm, q⟩))
      ((decided p (b.client c).outcome ((setPc u c (.send ⟨.rm, q⟩)).client c).outcome).or last) := by
  have before : (b.client c).unsent = none := by rw [at_pc]; rfl
  have more : issued (setPc u c (.send ⟨.rm, q⟩)) = update (issued b) c (issued b c ++ [⟨.rm, q⟩]) := by
    funext d
    rw [issued_congr client out, issued_decide before]
    rfl
  have fate : decided p (b.client c).outcome ((setPc u c (.send ⟨.rm, q⟩)).client c).outcome =
      if q = p then some .removed else none := by
    rw [setPc_client, update_self, at_pc]
    rfl
  rw [fate]
  by_cases same : q = p
  · subst same
    obtain ⟨hidden, absent⟩ := here rfl
    have gone : Gone b q → Gone (setPc u c (.send ⟨.rm, q⟩)) q :=
      .congr (fun absent => (congrFun dfs q).trans absent)
        (fun waits => ((Awaited.issue queued more done).mp waits).resolve_right fun is => by cases is)
        (fun waits => ((Awaited.issue queued more done).mp waits).resolve_right fun is => by cases is)
    have late : u.cache q = none → Gone (setPc u c (.send ⟨.rm, q⟩)) q :=
      fun none => gone (k.late (absent none) ⟨c, by rw [at_pc]; rfl⟩)
    rw [if_pos rfl]
    refine ⟨fun _ => hidden, fun _ => ?_, fun none _ => late none⟩
    by_cases none : u.cache q = none
    · exact .inl (late none)
    · exact .inr ⟨none, (Awaited.issue queued more done).mpr (.inr rfl)⟩
  · rw [if_neg same, Option.none_or]
    exact k.quiet (.decide queued (elsewhere same) dfs client out done before
      ⟨fun is => (by cases is), fun is => (by cases is)⟩)

theorem Kept.client {c : κ} {env : Env} (k : Kept p b last) (q : Queued cfg b) (v : Commit.Versioned b)
    (ok : (b.client c).loads = some p → ¬Gone b p) (move : Commit.Move cfg b (.client c env) b') :
    Kept p b' ((decided p (b.client c).outcome (b'.client c).outcome).or last) := by
  have at_client : ∀ {pc}, b.client c = pc → CopyOk b.cache b.clock pc := fun at_pc => at_pc ▸ v.client _
  cases move with
  | goOn at_pc goes =>
      exact k.stay (.client (.same rfl) rfl rfl rfl rfl (at_pc ▸ goes.unsent.1) goes.unsent.2 goes.marks)
        goes.outcome.2
  | @parentAdd _ _ m p at_pc =>
      refine k.stay (.client (.same rfl) rfl rfl rfl rfl (by rw [at_pc]; rfl) (afterParent_unsent _ _) fun marks => ?_)
        fun x => afterParent_outcome
      rw [afterParent_marks] at marks
      cases marks
  | @loadAdd _ _ l val at_pc key absent =>
      have fails : ∀ x, l.next.outcome = some x → x.2 = -1 := by
        intro x is
        cases l <;> cases is
      by_cases here : l.target = p
      · subst here
        rw [setPc_client, update_self, decided_fail fails, Option.none_or]
        exact k.record absent (store_there b _ val) (ok (by rw [at_pc]; rfl))
      · refine k.stay (.client (.store here rfl) rfl rfl rfl rfl (by rw [at_pc]; rfl) (Load.next_unsent _)
          fun marks => ?_) fails
        cases l <;> cases marks
  | childCas at_pc entry same =>
      subst same
      exact k.stay (.client (.swap entry (at_client at_pc) rfl) rfl rfl rfl rfl (by rw [at_pc]; rfl) rfl
        fun marks => by cases marks) fun x is => by cases is
  | @add _ _ m q' at_pc key absent =>
      have before : (b.client c).outcome = none := by rw [at_pc]; rfl
      by_cases here : q' = p
      · subst here
        exact .make (store_there b _ _) before rfl
      · exact k.makeElsewhere here (.decide q (.store here rfl) rfl rfl rfl rfl (by rw [at_pc]; rfl)
          (makeMsg_other here)) before rfl
  | @addAgain _ _ buf q' val e at_pc entry live =>
      have before : (b.client c).outcome = none := by rw [at_pc]; rfl
      by_cases here : q' = p
      · subst here
        exact .make (by rw [entry]; exact Option.some_ne_none _) before rfl
      · exact k.makeElsewhere here (.decide q (.same rfl) rfl rfl rfl rfl (by rw [at_pc]; rfl)
          (makeMsg_other here)) before rfl
  | @addSet _ _ m q' val at_pc =>
      have before : (b.client c).outcome = none := by rw [at_pc]; rfl
      have unsent : (b.client c).unsent = none := by rw [at_pc]; rfl
      have after : (afterSet m q').outcome = some (⟨.make m, q'⟩, 0) := by cases m <;> rfl
      by_cases here : q' = p
      · subst here
        exact .make (store_there b _ _) before after
      · refine k.makeElsewhere here ?_ before after
        cases m with
        | mkdir => exact .client (.store here rfl) rfl rfl rfl rfl unsent rfl fun marks => by cases marks
        | create | createWrite =>
            exact .decide q (.store here rfl) rfl rfl rfl rfl unsent (makeMsg_other here)
  | @rmCas _ _ q' val cas e at_pc entry same =>
      refine k.remove q at_pc rfl rfl rfl rfl (fun here => ?_) fun other => .store other rfl
      subst here same
      have stored : (store b q' val).cache q' = some ⟨b.clock, val⟩ := by rw [store_cache, update_self]
      refine ⟨fun e' entry' => ?_, fun none => by rw [stored] at none; cases none⟩
      rw [stored] at entry'
      cases entry'
      rw [(at_client at_pc).2 e entry rfl]
      simp [flagged]
  | rmLate at_pc absent =>
      refine k.remove q at_pc rfl rfl rfl rfl (fun here => ⟨fun e entry => ?_, id⟩) fun _ => .same rfl
      subst here
      rw [absent] at entry
      cases entry
  | @writeCas _ _ q' buf offset val cas e at_pc entry same =>
      subst same
      have fate : decided p (b.client c).outcome (ClientPc.send ⟨.write buf offset, q'⟩).outcome = none := by
        rw [at_pc]
        rfl
      rw [setPc_client, update_self, fate, Option.none_or]
      refine k.quiet (.decide q (.swap entry (at_client at_pc) rfl) rfl rfl rfl rfl (by rw [at_pc]; rfl) ?_)
      exact ⟨fun is => (by cases is), fun is => (by cases is)⟩
  | send at_pc =>
      rw [at_pc]
      exact k.quiet (.same (.same rfl) id (issued_send at_pc) rfl (marks_setPc rfl fun marks => by cases marks))
  | ret at_pc =>
      rw [at_pc]
      exact k.quiet (.client (.same rfl) rfl rfl rfl rfl (by rw [at_pc]; rfl) rfl fun marks => by cases marks)

theorem Quiet.finish (q : Queued cfg b) {i : ι} {c : κ} {m : Msg} (serves : (b.server i).serving = some (c, m))
    (same : issued b' = issued b) (done : b'.done = update b.done c (b.done c + 1)) (steady : Steady p b b')
    (dfs : Gone b p → b'.dfs p = none) (client : b'.client = b.client)
    (rm : m = ⟨.rm, p⟩ → b.cache p = none) : Quiet p b b' where
  cache := steady.cache
  hidden := steady.hidden
  gone gone := ⟨dfs gone, mt (Awaited.of_finish same done) gone.2.1, mt (Awaited.of_finish same done) gone.2.2⟩
  rm there waits := (Awaited.finish q serves same done fun is => there (rm is.symm)).mpr waits
  marks _ c marked := by rwa [client] at marked

theorem Kept.delete (k : Kept p b last) (ok : Deletable b p) (absent : b'.cache p = none)
    (gone : Gone b p → Gone b' p) (client : b'.client = b.client) : Kept p b' last where
  hidden _ e entry := by
    rw [absent] at entry
    cases entry
  removed is := by
    refine .inl (gone ?_)
    rcases ok with ok | ⟨live, -⟩
    · exact ok
    · refine (k.removed is).resolve_right fun marked => ?_
      obtain ⟨e, entry⟩ := Option.ne_none_iff_exists'.mp marked.1
      exact absurd (k.hidden is e entry) (by rw [live e entry]; exact Bool.false_ne_true)
  late _ := by
    rintro ⟨c, marks⟩
    rw [client] at marks
    exact gone (ok.resolve_right fun h => h.2 c marks)

theorem Kept.server {i : ι} {env : Env} (k : Kept p b last) (q : Queued cfg b)
    (ok : (b.server i).deletes = some p → Deletable b p) (move : Commit.Move cfg b (.server i env) b') :
    Kept p b' last := by
  cases move with
  | rmVoid pc absent =>
      refine k.quiet (.finish q (congrArg ServerPc.serving pc) rfl rfl (.same rfl) (fun gone => gone.1) rfl fun is => ?_)
      cases is
      exact absent
  | rmFound | openWrite | writeRead | fail => exact k.quiet (.same (.same rfl) id rfl rfl fun _ _ => id)
  | dropWrite pc | writeVoid pc =>
      exact k.quiet (.finish q (congrArg ServerPc.serving pc) rfl rfl (.same rfl) (fun gone => gone.1) rfl
        fun is => by cases is)
  | @succeed _ _ c m dfs pc call =>
      have serves := serving_of_attempt pc
      have effect := dfsCall_effect call
      by_cases rm : m.opt = .rm
      · unfold succeed
        rw [rm]
        refine k.quiet (.same (.same rfl) (fun absent => ?_) rfl rfl fun _ _ => id)
        cases effect with
        | remove => simp only [unlinked_dfs, update_apply, absent, ite_self]
        | mkdir opt | create opt | truncate opt => rw [rm] at opt; cases opt
      · obtain ⟨-, after, same, done⟩ := succeed_made (s := b) (i := i) (c := c) dfs rm
        refine k.quiet (.finish q serves same done (.same ?_) (fun gone => ?_) (succeed_client ..) fun is => ?_)
        · unfold succeed
          split <;> rfl
        · rw [after]
          by_cases path : m.path = p
          · -- it would be pending
            obtain ⟨opt, _⟩ := m
            subst path
            cases effect with
            | create opt | truncate opt => cases opt; exact absurd (q.awaited serves) gone.2.1
            | mkdir opt => cases opt; exact absurd (q.awaited serves) gone.2.2
            | remove opt => exact absurd opt rm
          · cases effect <;> exact (update_of_ne (Ne.symm path) ..).trans gone.1
        · exact absurd (congrArg Msg.opt is) rm
  | @rmDel _ _ c q' pc =>
      have serves : (b.server i).serving = some (c, ⟨.rm, q'⟩) := congrArg ServerPc.serving pc
      by_cases here : q' = p
      · subst here
        have fewer : ∀ {m}, Awaited (finish (dmkvDel b q') i c) m → Awaited b m := Awaited.of_finish rfl rfl
        exact k.delete (ok (by rw [pc]; rfl)) (update_self ..) (.congr id fewer fewer) rfl
      · refine k.quiet (.finish q serves rfl rfl (.same (update_of_ne (Ne.symm here) ..)) (fun gone => gone.1) rfl
          fun is => absurd (congrArg Msg.path is) here)
  | @writeBack _ _ c q' n data pc =>
      have serves : (b.server i).serving = some (c, ⟨.write, q'⟩) := congrArg ServerPc.serving pc
      unfold Commit.writeBack
      split
      · rename_i content file
        obtain ⟨file, -⟩ := opened_eq_some.mp file
        refine k.quiet (.finish q serves rfl rfl (.same rfl) (fun gone => ?_) rfl fun is => by cases is)
        have other : p ≠ q' := by
          rintro rfl
          rw [gone.1] at file
          cases file
        exact (update_of_ne other ..).trans gone.1
      · exact k.quiet (.finish q serves rfl rfl (.same rfl) (fun gone => gone.1) rfl fun is => by cases is)

variable {s t : State ι κ α}

theorem Kept.agent {a : α} {env : Env} {dir : Bool} (k : Kept p s.base last) (v : Versioned s)
    (ok : Careful p s (.agent a env dir)) (does : agentStep cfg s a env dir = some t) :
    Kept p t.base ((fate cfg p s (.agent a env dir)).or last) := by
  obtain ⟨deletable, present, unmarked⟩ := ok
  simp only [fate, does, Option.any_some, decide_eq_true_eq]
  -- only an open that creates the file makes the path
  have silent : (s.base.dfs p = none → t.base.dfs p = none) → Kept p t.base last →
      Kept p t.base ((if s.base.dfs p = none ∧ t.base.dfs p ≠ none then some Fate.made else none).or last) := by
    intro same kept
    rw [if_neg fun h => h.2 (same h.1), Option.none_or]
    exact kept
  cases agentStep_move does with
  | look | read => exact silent id k
  | @del _ _ _ q next deletes =>
      refine silent id ?_
      by_cases here : q = p
      · subst here
        have same : ∀ {m}, Awaited (dmkvDel s.base q) m ↔ Awaited s.base m := Awaited.congr rfl rfl
        exact k.delete (deletable deletes) (update_self ..) (.congr id same.mp same.mp) rfl
      · exact k.quiet (.same (.same (update_of_ne (Ne.symm here) ..)) id rfl rfl fun _ _ => id)
  | @record _ _ _ q val records key absent =>
      refine silent id ?_
      by_cases here : q = p
      · subst here
        exact k.record absent (store_there s.base q val) (present (by rw [records]; rfl))
      · exact k.quiet (.same (.store here rfl) id rfl rfl fun _ _ => id)
  | @opens _ _ _ q flags dfs next opens effect =>
      have quiet : (s.base.dfs p = none → dfs p = none) →
          Kept p (setAgent (setBase s { s.base with dfs := dfs }) a next).base last :=
        fun same => k.quiet (.same (.same rfl) same rfl rfl fun _ _ => id)
      have kept : (s.base.dfs p = none → dfs p = none) → _ := fun same => silent same (quiet same)
      by_cases here : q = p
      · subst here
        cases effect with
        | found => exact kept id
        | trunc _ file => exact kept fun absent => by rw [absent] at file; cases file
        | creat creat notRoot free =>
            have made : ¬update s.base.dfs q (some (.file [])) q = none := by
              rw [update_self]
              exact Option.some_ne_none _
            rw [if_pos ⟨free, made⟩]
            refine ⟨fun is => (by cases is), fun is => (by cases is), fun _ marked => ?_⟩
            obtain ⟨c, marked⟩ := marked
            refine absurd marked (unmarked ⟨?_, free⟩ c)
            simp [AgentPc.creates, opens, creat]
      · refine kept fun absent => ?_
        cases effect with
        | found => exact absent
        | trunc | creat => exact (update_of_ne (Ne.symm here) ..).trans absent
  | @count _ _ _ q val cas e at_pc entry same =>
      subst same
      have copy := (v.agent a q val e.cas (by rw [at_pc]; rfl)).copyOf
      exact silent id (k.quiet (.same (.swap entry copy rfl) id rfl rfl fun _ _ => id))

theorem Kept.move {e : Event κ ι α} (k : Kept p s.base last) (q : Queued cfg s.base) (v : Versioned s)
    (ok : Careful p s e) (does : step cfg s e = some t) : Kept p t.base ((fate cfg p s e).or last) := by
  cases e with
  | base e =>
      obtain ⟨b, goes, rfl⟩ := Option.map_eq_some_iff.mp does
      have move := Commit.move_of_step goes
      cases e with
      | start c call =>
          cases move with
          | start free =>
              refine k.quiet (.client (.same rfl) rfl rfl rfl rfl (by rw [free]; rfl) (beginCall_unsent _ _)
                fun marks => ?_)
              rw [beginCall_marks] at marks
              cases marks
      | client c env =>
          have step : clientStep cfg s.base c env = some b := goes
          simp only [fate, step, Option.bind_some]
          exact k.client q v.base ok move
      | take c =>
          cases move with
          | take => exact k.quiet (.same (.same rfl) id rfl rfl fun _ _ => id)
      | server i env => exact k.server q ok move
  | start a task =>
      simp only [step, Option.ite_none_right_eq_some, Option.some.injEq] at does
      exact does.2 ▸ k
  | agent a env dir => exact k.agent v ok does

theorem Kept.initial (h : Commit.Initial cfg b) : Kept p b none where
  hidden is := by cases is
  removed is := by cases is
  late _ marked := by
    obtain ⟨c, marked⟩ := marked
    rw [h.client c] at marked
    cases marked

/-- What `pacon_getattr` returns when nothing else goes on. -/
def getattr (cfg : Config ι κ) (s : Commit.State ι κ) (p : Path) : Int :=
  match s.cache p with
  | some e => if getStatFlag e.value.stat .rm then -1 else 0
  | none => if InWorkspace cfg p ∧ s.dfs p ≠ none then 0 else -1

theorem getattr_alone {a : α} (at_pc : s.agent a = .getattrGet p) :
    ∃ t, (system cfg).Follows (fun _ e => ∃ env dir, e = .agent a env dir) s t ∧
      t.agent a = .returning (getattr cfg s.base p) := by
  have alone : ∀ {u v : State ι κ α}, (system cfg).Follows (fun _ e => ∃ env dir, e = .agent a env dir) s u →
      agentStep cfg u a .zero false = some v →
      (system cfg).Follows (fun _ e => ∃ env dir, e = .agent a env dir) s v :=
    fun follows goes => .next (e := Event.agent a Env.zero false) follows ⟨_, _, rfl⟩ goes
  cases entry : s.base.cache p with
  | some e =>
      have step : agentStep cfg s a .zero false = some (setAgent s a (getattrCached e)) := by
        simp only [agentStep, at_pc, entry]
      refine ⟨_, alone .refl step, ?_⟩
      rw [setAgent_agent, update_self]
      simp only [getattr, entry, getattrCached]
      split <;> rfl
  | none =>
      by_cases inside : InWorkspace cfg p
      · have step : agentStep cfg s a .zero false = some (setAgent s a (.getattrStat p)) := by
          simp only [agentStep, at_pc, entry, if_pos inside]
        cases there : s.base.dfs p with
        | none =>
            have step' : agentStep cfg (setAgent s a (.getattrStat p)) a .zero false =
                some (setAgent (setAgent s a (.getattrStat p)) a (.returning (-1))) := by
              simp [agentStep, there]
            refine ⟨_, alone (alone .refl step) step', ?_⟩
            simp [getattr, entry, there]
        | some node =>
            have step' : agentStep cfg (setAgent s a (.getattrStat p)) a .zero false =
                some (setAgent (setAgent s a (.getattrStat p)) a (.getattrAdd p (getattrValue .zero node))) := by
              simp [agentStep, there]
            have step'' : ∃ v, agentStep cfg (setAgent (setAgent s a (.getattrStat p)) a
                (.getattrAdd p (getattrValue .zero node))) a .zero false = some v ∧
                v.agent a = .returning 0 := by
              simp [agentStep]
            obtain ⟨v, step'', result⟩ := step''
            refine ⟨_, alone (alone (alone .refl step) step') step'', ?_⟩
            simp [getattr, entry, there, inside, result]
      · have step : agentStep cfg s a .zero false = some (setAgent s a (.returning (-1))) := by
          simp only [agentStep, at_pc, entry, if_neg inside]
        refine ⟨_, alone .refl step, ?_⟩
        simp [getattr, entry, inside]

theorem getLast?_toList (o : Option Fate) : o.toList.getLast? = o := by
  cases o <;> rfl

/-- After the last call that decides about a path has removed it, the path is gone once the queues
are drained, if no step has undone a removal. -/
theorem removed_stays_removed {x : State ι κ α × List Fate}
    (h : ((system cfg).recording (fate cfg p)).Reachable (fun x e => Careful p x.1 e) x)
    (last : x.2.getLast? = some .removed) (drained : Drained x.1.base) :
    x.1.base.dfs p = none ∧ getattr cfg x.1.base p = -1 := by
  obtain ⟨-, kept⟩ := @System.Reachable.recorded _ _ (system cfg) (Careful p) _ (fate cfg p)
    (fun s record => Kept p s.base record.getLast?) (fun s initial => .initial (Initial.base initial))
    (fun s record e t reach kept ok step => by
      rw [List.getLast?_append, getLast?_toList]
      exact kept.move (queued_of_reachable reach) (versioned_of_reachable reach) ok step) x h
  have gone := (kept.removed last).resolve_right fun marked => drained.not_awaited marked.2
  refine ⟨gone.1, ?_⟩
  unfold getattr
  split
  · rename_i e entry
    rw [if_pos (kept.hidden last e entry)]
  · rw [if_neg fun found => found.2 gone.1]

def exampleDir : Path := [['d'], ['w']]

def nestedFile : Path := ['f'] :: exampleDir

def flushed : List (Event Unit Unit Unit) :=
  List.flatten [called (.make .mkdir) exampleDir 3, commits 1, called (.make .create) nestedFile 5, commits 1,
    [.start () .evict, looks ['d'] true, looks ['d'] true], called .rm nestedFile 4,
    [looks ['f'] false, looks ['f'] false], commits 1]

theorem removed_comes_back : ∃ x : State Unit Unit Unit × List Fate,
    ((system fileWorkspace).recording (fate fileWorkspace nestedFile)).Reachable (fun _ _ => True) x ∧
    x.2 = [.made, .removed] ∧ (⟨.rm, nestedFile⟩, 0) ∈ x.1.base.returned () ∧ Drained x.1.base ∧
    x.1.base.dfs nestedFile = some (.file []) ∧ getattr fileWorkspace x.1.base nestedFile = 0 := by
  obtain ⟨x, reach, h⟩ := System.exists_reachable
    ((system fileWorkspace).recording (fate fileWorkspace nestedFile)) (fun _ _ => True)
    (s := ((initialState fileWorkspace .zero : State Unit Unit Unit), []))
    ⟨initial_initialState _ _ (List.cons_ne_nil _ _), rfl⟩ flushed
    (fun x => decide (x.2 = [.made, .removed] ∧ (⟨.rm, nestedFile⟩, 0) ∈ x.1.base.returned () ∧
      Drained x.1.base ∧ x.1.base.dfs nestedFile = some (.file []) ∧
      getattr fileWorkspace x.1.base nestedFile = 0)) rfl
  exact ⟨x, reach, of_decide_eq_true h⟩

def tested : List (Event Unit Unit Unit) :=
  List.flatten [called (.make .create) exampleFile 3, commits 1, called .rm exampleFile 4, toEviction, commits 3]

theorem removed_stays_removed_run : ∃ x : State Unit Unit Unit × List Fate,
    ((system fileWorkspace).recording (fate fileWorkspace exampleFile)).Reachable
      (fun x e => Careful exampleFile x.1 e) x ∧
    x.2 = [.made, .removed] ∧ x.1.base.dfs exampleFile = none := by
  obtain ⟨x, reach, h⟩ := System.exists_reachable
    ((system fileWorkspace).recording (fate fileWorkspace exampleFile)) (fun x e => Careful exampleFile x.1 e)
    (s := ((initialState fileWorkspace .zero : State Unit Unit Unit), []))
    ⟨initial_initialState _ _ (List.cons_ne_nil _ _), rfl⟩ tested
    (fun x => decide (x.2 = [.made, .removed] ∧ Drained x.1.base)) rfl
  obtain ⟨fates, drained⟩ := of_decide_eq_true h
  exact ⟨x, reach, fates, (removed_stays_removed reach (by rw [fates]; rfl) drained).1⟩

end Pacon.Evict
