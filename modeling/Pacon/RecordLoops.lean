import Pacon.Lib.CasLoop
import Pacon.Lib.Transition
import Pacon.Value

/-!
# Concurrent updates of one record

Three calls change a cached record in place, each in a retry loop of its own around `dmkv_cas`:
`pacon_open` counts, `pacon_rm` marks the entry as removed, and `check_parent_dir` marks a directory
whose children it has loaded. The entry holds the record alone and is not deleted.
-/

set_option linter.unusedSectionVars false

namespace Pacon.RecordLoops
open Lib Function

inductive Loop
  | opening | removing | checking
  deriving DecidableEq

def Loop.update (st : PaconStat) : Loop → PaconStat
  | .opening => { st with openCounter := st.openCounter + 1 }
  | .removing => setStatFlag st .rm true
  | .checking => setStatFlag st .childCheck true

inductive Pc
  | idle
  | openGet
  | openFile (st : PaconStat) (version : Nat)
  | openCas (st : PaconStat) (version : Nat)
  | openReget
  | rmGet
  | rmCas (st : PaconStat) (version : Nat)
  | parentGet
  | readdir (st : PaconStat) (version : Nat)
  | childCas (st : PaconStat) (version : Nat)
  | childReget
  deriving DecidableEq

structure State (κ : Type) where
  entry : Item PaconStat
  clock : Nat
  client : κ → Pc
  /-- History only: the loops that have succeeded. -/
  succeeded : List (κ × Loop)

/-- Whether `open` succeeds; whether the next entry of the directory can be loaded, if there is one. -/
structure Env where
  opened : Bool
  child : Option Bool

inductive Event (κ : Type)
  | start (c : κ) (loop : Loop)
  | client (c : κ) (env : Env)

section
variable {κ : Type} [DecidableEq κ]

def setPc (s : State κ) (c : κ) (pc : Pc) : State κ := { s with client := update s.client c pc }

def begin : Loop → Pc
  | .opening => .openGet
  | .removing => .rmGet
  | .checking => .parentGet

/-- `pacon_open` with a cached record; only a file with data on the DFS is opened and counted. -/
def openFound (e : Item PaconStat) : Pc :=
  if getStatFlag e.value .fileCreated ∧ ¬getStatFlag e.value .inline ∧ 0 < e.value.size.toNat then
    .openFile e.value e.version
  else .idle

def parentFound (e : Item PaconStat) : Pc :=
  if getStatFlag e.value .type then .idle
  else if getStatFlag e.value .existedinDfs ∧ ¬getStatFlag e.value .childCheck then
    .readdir e.value e.version
  else .idle

def casStep (s : State κ) (c : κ) (loop : Loop) (st : PaconStat) (version : Nat) (again : Pc) : State κ :=
  if s.entry.version = version then
    setPc { s with entry := ⟨s.clock, st⟩
                   clock := s.clock + 1
                   succeeded := s.succeeded ++ [(c, loop)] } c .idle
  else setPc s c again

def clientStep (s : State κ) (c : κ) (env : Env) : Option (State κ) :=
  match s.client c with
  | .idle => none
  | .openGet => some (setPc s c (openFound s.entry))
  | .openFile st version => some <| setPc s c <|
      if env.opened then .openCas (Loop.update st .opening) version else .idle
  | .openCas st version => some (casStep s c .opening st version .openReget)
  | .openReget => some (setPc s c (.openCas (Loop.update s.entry.value .opening) s.entry.version))
  | .rmGet => some (setPc s c (.rmCas (Loop.update s.entry.value .removing) s.entry.version))
  | .rmCas st version => some (casStep s c .removing st version .rmGet)
  | .parentGet => some (setPc s c (parentFound s.entry))
  | .readdir st version => some <| setPc s c <|
      match env.child with
      | some true => .readdir st version
      | some false => .idle
      | none => .childCas (Loop.update st .checking) version
  | .childCas st version => some (casStep s c .checking st version .childReget)
  | .childReget => some (setPc s c (.childCas (Loop.update s.entry.value .checking) s.entry.version))

def step (s : State κ) : Event κ → Option (State κ)
  | .start c loop => if s.client c = .idle then some (setPc s c (begin loop)) else none
  | .client c env => clientStep s c env

structure Initial (first : PaconStat) (s : State κ) : Prop where
  value : s.entry.value = first
  clock : s.entry.version < s.clock
  client : ∀ c, s.client c = .idle
  succeeded : s.succeeded = []

def system (κ : Type) [DecidableEq κ] (first : PaconStat) : System (State κ) (Event κ) :=
  ⟨Initial first, step⟩

def loops (s : State κ) : List Loop := s.succeeded.map Prod.snd

theorem foldl_update (st : PaconStat) (ls : List Loop) :
    ls.foldl Loop.update st = { st with
      flags := (ls.foldl Loop.update st).flags
      openCounter := st.openCounter + .ofNat 32 (ls.count .opening) } := by
  induction ls generalizing st with
  | nil => simp
  | cons l ls ih =>
      rw [List.foldl_cons, ih]
      cases l with
      | opening =>
          simp only [Loop.update, List.count_cons_self, BitVec.ofNat_add, PaconStat.mk.injEq,
            true_and, and_true]
          rw [BitVec.add_assoc]
          exact congrArg _ (BitVec.add_comm ..)
      | removing => simp [Loop.update, setStatFlag]
      | checking => simp [Loop.update, setStatFlag]

theorem flags_setStatFlag (st : PaconStat) (flag : StatFlag) (i : Nat) :
    (setStatFlag st flag true).flags.getLsbD i = (st.flags.getLsbD i || decide (i = flag.bit)) := by
  have low := flag.bit_lt
  simp only [setStatFlag, if_true, BitVec.getLsbD_or]
  congr 1
  by_cases same : i = flag.bit
  · simp [same, low]
  · simp [same]
    omega

theorem flags_foldl (st : PaconStat) (ls : List Loop) (i : Nat) :
    (ls.foldl Loop.update st).flags.getLsbD i = (st.flags.getLsbD i ||
      decide (i = StatFlag.rm.bit ∧ Loop.removing ∈ ls) ||
      decide (i = StatFlag.childCheck.bit ∧ Loop.checking ∈ ls)) := by
  induction ls generalizing st with
  | nil => simp
  | cons l ls ih =>
      rw [List.foldl_cons, ih]
      cases l with
      | opening => simp [Loop.update]
      | removing =>
          simp only [Loop.update, flags_setStatFlag]
          grind
      | checking =>
          simp only [Loop.update, flags_setStatFlag]
          grind

def Updates (loop : Loop) (old new : PaconStat) : Prop := new = Loop.update old loop

def Pc.attempt : Pc → Option (Attempt Loop PaconStat)
  | .openFile st version => some ⟨.opening, version, Loop.update st .opening⟩
  | .openCas st version => some ⟨.opening, version, st⟩
  | .rmCas st version => some ⟨.removing, version, st⟩
  | .readdir st version => some ⟨.checking, version, Loop.update st .checking⟩
  | .childCas st version => some ⟨.checking, version, st⟩
  | .idle | .openGet | .openReget | .rmGet | .parentGet | .childReget => none

def attempts (s : State κ) (c : κ) : Option (Attempt Loop PaconStat) := (s.client c).attempt

structure Kept (first : PaconStat) (s : State κ) : Prop where
  consistent : Consistent Updates first s.entry (attempts s) s.succeeded
  clock : s.entry.version < s.clock

variable {first : PaconStat} {s : State κ} {c : κ}

theorem Kept.initial (h : Initial first s) : Kept first s where
  consistent := by
    rw [h.succeeded, ← h.value]
    exact .initial fun c => by
      rw [attempts, h.client c]
      rfl
  clock := h.clock

theorem attempts_setPc (s : State κ) (c : κ) (pc : Pc) :
    attempts (setPc s c pc) = update (attempts s) c pc.attempt := by
  funext d
  by_cases same : d = c
  · subst same
    simp [attempts, setPc]
  · simp [attempts, setPc, same]

theorem Kept.goOn (h : Kept first s) {pc : Pc} (made : ∀ a ∈ pc.attempt,
    (s.client c).attempt = some a ∨ a.version = s.entry.version ∧ Updates a.op s.entry.value a.value) :
    Kept first (setPc s c pc) where
  consistent := by
    rw [attempts_setPc]
    cases next : pc.attempt with
    | none => exact h.consistent.move (.drop c)
    | some a =>
        rcases made a next with before | ⟨current, does⟩
        · have same : update (attempts s) c (some a) = attempts s := by
            rw [update_eq_self_iff]
            exact before.symm
          rw [same]
          exact h.consistent
        · exact h.consistent.move (.prepare c current does)
  clock := h.clock

theorem Kept.casStep (h : Kept first s) {loop : Loop} {st : PaconStat} {version : Nat} {again : Pc}
    (own : (s.client c).attempt = some ⟨loop, version, st⟩) (none : again.attempt = none) :
    Kept first (casStep s c loop st version again) := by
  unfold RecordLoops.casStep
  split
  · rename_i same
    refine ⟨?_, Nat.lt_succ_self _⟩
    have own : attempts s c = some ⟨loop, version, st⟩ := own
    have store : CasMove Updates s.entry (attempts s) s.succeeded ⟨s.clock, st⟩
        (update (attempts s) c Option.none) (s.succeeded ++ [(c, loop)]) :=
      .store own same.symm h.clock
    rw [attempts_setPc]
    exact h.consistent.move store
  · refine h.goOn fun a next => ?_
    rw [none] at next
    cases next

theorem begin_attempt (loop : Loop) : (begin loop).attempt = none := by
  cases loop <;> rfl

theorem openFound_attempt (e : Item PaconStat) :
    ∀ a ∈ (openFound e).attempt, a.version = e.version ∧ Updates a.op e.value a.value := by
  intro a next
  unfold openFound at next
  split at next
  · cases next
    exact ⟨rfl, rfl⟩
  · cases next

theorem parentFound_attempt (e : Item PaconStat) :
    ∀ a ∈ (parentFound e).attempt, a.version = e.version ∧ Updates a.op e.value a.value := by
  intro a next
  unfold parentFound at next
  split at next
  · cases next
  · split at next
    · cases next
      exact ⟨rfl, rfl⟩
    · cases next

theorem Kept.step {t : State κ} {e : Event κ} (h : Kept first s) (step : step s e = some t) :
    Kept first t := by
  cases e with
  | start c loop =>
      simp only [RecordLoops.step] at step
      split at step
      · cases step
        exact h.goOn fun a next => by
          rw [begin_attempt] at next
          cases next
      · cases step
  | client c env =>
      simp only [RecordLoops.step, clientStep] at step
      cases pc : s.client c with
      | idle =>
          rw [pc] at step
          cases step
      | openGet =>
          rw [pc] at step
          cases step
          exact h.goOn fun a next => .inr (openFound_attempt _ a next)
      | openFile st version =>
          rw [pc] at step
          cases step
          refine h.goOn fun a next => .inl ?_
          split at next
          · rw [pc]
            exact next
          · cases next
      | openReget | rmGet | childReget =>
          rw [pc] at step
          cases step
          refine h.goOn fun a next => .inr ?_
          cases next
          exact ⟨rfl, rfl⟩
      | parentGet =>
          rw [pc] at step
          cases step
          exact h.goOn fun a next => .inr (parentFound_attempt _ a next)
      | readdir st version =>
          rw [pc] at step
          cases step
          refine h.goOn fun a next => .inl ?_
          rw [pc]
          split at next
          · exact next
          · cases next
          · exact next
      | openCas st version | rmCas st version | childCas st version =>
          rw [pc] at step
          cases step
          exact h.casStep (by rw [pc]; rfl) rfl

/-- Whatever the clients' steps, the record is the first one with every loop that has succeeded
counted or marked once, and nothing else changed. -/
theorem record_updates_kept (h : (system κ first).Reachable (fun _ _ => True) s) :
    s.entry.value = { first with
      flags := s.entry.value.flags
      openCounter := first.openCounter + .ofNat 32 ((loops s).count .opening) } ∧
    ∀ i, s.entry.value.flags.getLsbD i = (first.flags.getLsbD i ||
      decide (i = StatFlag.rm.bit ∧ Loop.removing ∈ loops s) ||
      decide (i = StatFlag.childCheck.bit ∧ Loop.checking ∈ loops s)) := by
  have kept : Kept first s := h.invariant (fun _ => Kept.initial)
    fun _ _ _ _ kept _ step => kept.step step
  obtain ⟨-, value⟩ := kept.consistent.applied.foldl (P := fun _ => True) (f := id) (g := Loop.update)
    trivial fun _ _ _ _ does => ⟨trivial, does⟩
  have all : s.entry.value = (loops s).foldl Loop.update first := value
  rw [all]
  exact ⟨foldl_update first (loops s), flags_foldl first (loops s)⟩

def fileRecord : PaconStat :=
  let st : PaconStat := ⟨0, 0o100644, 0, 0, 0, 1, 0, 0, 1, 7, 0⟩
  setStatFlag (setStatFlag (setStatFlag st .type true) .fileCreated true) .existedinDfs true

def dirRecord : PaconStat := setStatFlag ⟨0, 0o040755, 0, 0, 0, 0, 0, 0, 2, 0, 0⟩ .existedinDfs true

def initialState (first : PaconStat) : State (Option Bool) := ⟨⟨0, first⟩, 1, fun _ => .idle, []⟩

theorem initial_initialState (first : PaconStat) : (system (Option Bool) first).init (initialState first) :=
  ⟨rfl, Nat.zero_lt_one, fun _ => rfl, rfl⟩

def fileRace : List (Event (Option Bool)) :=
  let client c := Event.client c ⟨true, none⟩
  [.start none .opening, .start (some true) .opening, .start (some false) .opening, client none,
    client (some true), client (some false), client none, client (some true), client (some false),
    client (some true), client (some false), client (some false), client (some false),
    .start (some true) .removing, client (some true), client (some true), client none, client none, client none]

def dirRace : List (Event (Option Bool)) :=
  let client c := Event.client c ⟨true, none⟩
  [.start none .checking, .start (some true) .removing, client none, client (some true),
    .client none ⟨true, some true⟩, client (some true), client none, client none, client none, client none]

theorem record_updates_kept_race :
    (∃ s, (system (Option Bool) fileRecord).Reachable (fun _ _ => True) s ∧
      s.succeeded = [(some true, .opening), (some false, .opening), (some true, .removing), (none, .opening)] ∧
      s.entry.value.openCounter = 10 ∧ s.entry.value.flags.getLsbD StatFlag.rm.bit = true) ∧
    ∃ s, (system (Option Bool) dirRecord).Reachable (fun _ _ => True) s ∧
      s.succeeded = [(some true, .removing), (none, .checking)] ∧
      s.entry.value.flags.getLsbD StatFlag.rm.bit = true ∧
      s.entry.value.flags.getLsbD StatFlag.childCheck.bit = true := by
  constructor
  · obtain ⟨s, reach, h⟩ := System.exists_reachable _ (fun _ _ => True) (initial_initialState fileRecord) fileRace
      (fun s => decide (s.succeeded =
        [(some true, .opening), (some false, .opening), (some true, .removing), (none, .opening)])) rfl
    have order := of_decide_eq_true h
    obtain ⟨record, flags⟩ := record_updates_kept reach
    refine ⟨s, reach, order, ?_, ?_⟩
    · rw [record, loops, order]
      rfl
    · rw [flags, loops, order]
      rfl
  · obtain ⟨s, reach, h⟩ := System.exists_reachable _ (fun _ _ => True) (initial_initialState dirRecord) dirRace
      (fun s => decide (s.succeeded = [(some true, .removing), (none, .checking)])) rfl
    have order := of_decide_eq_true h
    obtain ⟨-, flags⟩ := record_updates_kept reach
    refine ⟨s, reach, order, ?_, ?_⟩
    · rw [flags, loops, order]
      rfl
    · rw [flags, loops, order]
      rfl

end
end Pacon.RecordLoops
