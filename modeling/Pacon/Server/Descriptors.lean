import Pacon.Commit.Model
import Pacon.Fsync.FromLog
import Pacon.Lib.Descriptors
import Pacon.Removing.Model

/-!
# The descriptors of the commit thread

`commit_to_fs` opens files for CREATE, WRITE and FSYNC messages, and some of the ways out of these cases
do not close them again.
-/

namespace Pacon.CommitFiles
open Lib Commit

/-- What the system calls and the cache answer while one message is committed, and what the buffers hold
that are not set. Calls that are repeated succeed after some failures. -/
structure Answers where
  behind : Char
  mkdir : Bool
  creat : Bool
  remove : Bool
  retries : Nat
  opens : Bool
  cached : Option Value
  dmkvDel : Bool
  /-- Whether the `pwrite` of WRITE returns more than 0. -/
  wrote : Bool
  fPath : List Char
  fPathSize : fPath.length = Message.pathMax
  logPath : List Char
  logPathSize : logPath.length = Message.pathMax
  logOpens : Bool
  /-- The result of the `pread`, where it is not -1. -/
  read : Option Nat
  openRetries : Nat
  /-- Whether the `pwrite` of FSYNC returns another value than -1. -/
  written : Bool
  synced : Bool
  barrier : Int

/-- `retry_commit` with the number of its calls that fail. The result of `creat` is dropped for a 0. -/
def retryCommit (type : Nat) : Nat → Descriptors → Int × Descriptors
  | 0, s =>
      if type = 1 then (0, s)
      else if type = 2 then (0, s.opened.2)
      else if type = 3 then (0, s)
      else (-1, s)
  | failures + 1, s => if type ≠ 1 ∧ type ≠ 2 ∧ type ≠ 3 then (-1, s) else retryCommit type failures s

/-- `while ((fp = open(f_path, O_RDWR)) < 0)` -/
def openLoop : Nat → Descriptors → Nat × Descriptors
  | 0, s => s.opened
  | failures + 1, s => openLoop failures s

section
variable (a : Answers)

/-- The buffers take every path of a message, so the loop can end early only by its error. `none` is where the
`pread` overruns `data`. -/
def fsyncFromLog (path : CString) (s : Descriptors) : Option (Int × Descriptors) :=
  match FsyncLog.scanLoop 0 none path ⟨a.fPath, a.logPath, 0, 0, 0, 0⟩ with
  | none => some (-1, s)
  | some _ =>
      if a.logOpens then
        let log := s.opened
        match a.read with
        | none => some (-1, log.2)
        | some n =>
            if serverInlineMax < n then none
            else
              let file := openLoop a.openRetries (log.2.close log.1)
              if ¬a.written then some (-1, file.2)
              else if ¬a.synced then some (-1, file.2)
              else some (0, file.2.close file.1)
      -- the `pread` of the descriptor -1 fails
      else some (-1, s)

variable (r : Removing.RemovingDirs) (spPermission : Int) (path : CString) (s : Descriptors)

def commitMkdir : Int × Descriptors :=
  if Removing.filtered r path then (0, s)
  else if spPermission = 0 ∨ spPermission = 1 then
    if a.mkdir then (0, s)
    else
      let x := retryCommit 1 a.retries s
      (if x.1 = -1 then -1 else 0, x.2)
  else (-1, s)

def commitCreate : Int × Descriptors :=
  if Removing.filtered r path then (0, s)
  else if spPermission = 0 ∨ spPermission = 1 then
    if a.creat then (0, s.opened.2.close s.opened.1)
    else
      let x := retryCommit 2 a.retries s
      if x.1 = -1 then (-1, x.2) else (0, x.2.close x.1.toNat)
  else (-1, s)

def commitRm : Int × Descriptors :=
  match a.cached with
  | none => (0, s)
  | some _ =>
      let x := if a.remove then (0, s) else retryCommit 3 a.retries s
      (if x.1 = -1 then -1 else if a.dmkvDel then 0 else -1, x.2)

/-- `none` is where the copy of the data overruns `inline_data1`. -/
def commitWrite : Option (Int × Descriptors) :=
  if a.opens then
    match a.cached with
    | none => some (0, s.opened.2)
    | some v =>
        if (v.data.takeWhile (· ≠ 0)).length < serverInlineMax then
          some (if a.wrote then 0 else -1, s.opened.2.close s.opened.1)
        else none
  else some (0, s)

end

/-- The switch, with `spPermission` as the reading of the permissions has left it. The cases that wait for the
other thread, and that of the barriers, have no file of their own. -/
def commitCase (a : Answers) (r : Removing.RemovingDirs) (spPermission : Int) (opt : Char) (path : CString)
    (s : Descriptors) : Option (Int × Descriptors) :=
  match opt with
  | '1' => some (commitMkdir a r spPermission path s)
  | '2' => some (commitCreate a r spPermission path s)
  | '3' => some (commitRm a s)
  | '7' => (fsyncFromLog a path s).map fun x => (if x.1 ≠ 0 then -1 else 0, x.2)
  | '8' => commitWrite a s
  | '9' => some (a.barrier, s)
  | _ => some (0, s)

def commitToFs (a : Answers) (r : Removing.RemovingDirs) (spPermission : Int) (mesg : CString) (s : Descriptors) :
    Option (Int × Descriptors) :=
  let path := (Message.commitToFs mesg).1
  if path.length < Message.pathMax then commitCase a r spPermission ((Message.commitToFs mesg).2.getD a.behind) path s
  else none

/-- The call returns, with the descriptors that it was entered with, and has closed none but its own. -/
def Keeps (a : Answers) (r : Removing.RemovingDirs) (spPermission : Int) (mesg : CString) (fds : Finset Nat) : Prop :=
  ∃ ret t, commitToFs a r spPermission mesg (.enter fds) = some (ret, t) ∧ t.Kept fds

def Malformed (path : CString) : Prop := ∃ front c rest, path = front ++ c :: rest ∧ c ≠ '|' ∧ 4 ≤ front.count '|'

/-- The message is thrown away or refused, the first `creat` succeeds, or 0 is the descriptor of the later one. -/
def CreateCloses (a : Answers) (r : Removing.RemovingDirs) (spPermission : Int) (path : CString) (fds : Finset Nat) :
    Prop :=
  Removing.filtered r path = true ∨ ¬(spPermission = 0 ∨ spPermission = 1) ∨ a.creat = true ∨ 0 ∉ fds

def WriteCloses (a : Answers) : Prop :=
  a.opens = false ∨ ∃ v, a.cached = some v ∧ (v.data.takeWhile (· ≠ 0)).length < serverInlineMax

def FsyncCloses (a : Answers) (path : CString) : Prop :=
  Malformed path ∨ a.logOpens = false ∨
    (∃ n, a.read = some n ∧ n ≤ serverInlineMax) ∧ a.written = true ∧ a.synced = true

def CaseCloses (a : Answers) (r : Removing.RemovingDirs) (spPermission : Int) (opt : Char) (path : CString)
    (fds : Finset Nat) : Prop :=
  (opt = '2' → CreateCloses a r spPermission path fds) ∧ (opt = '7' → FsyncCloses a path) ∧ (opt = '8' → WriteCloses a)

/-- The path fits into its buffer, and the case of the message closes what it opens. -/
def Closes (a : Answers) (r : Removing.RemovingDirs) (spPermission : Int) (mesg : CString) (fds : Finset Nat) : Prop :=
  let path := (Message.commitToFs mesg).1
  path.length < Message.pathMax ∧ CaseCloses a r spPermission ((Message.commitToFs mesg).2.getD a.behind) path fds

variable {a : Answers} {r : Removing.RemovingDirs} {spPermission : Int} {path : CString} {s : Descriptors}
  {fds : Finset Nat}

theorem scanStep_cases {i : Nat} {before : Option Char} {c : Char} {cs : CString} {x : FsyncLog.Scan}
    (inside : i < Message.pathMax) (file : x.fPath.length = Message.pathMax)
    (log : x.logPath.length = Message.pathMax) :
    (c ≠ '|' ∧ 4 ≤ x.flag ∧ FsyncLog.scanStep i before c cs x = none) ∨
    ((c = '|' ∨ x.flag < 4) ∧ ∃ y, FsyncLog.scanStep i before c cs x = some y ∧
      y.flag = x.flag + [c].count '|' ∧ y.fPath.length = Message.pathMax ∧ y.logPath.length = Message.pathMax) := by
  unfold FsyncLog.scanStep
  split
  · rename_i bar
    subst bar
    refine .inr ⟨.inl rfl, ?_⟩
    unfold FsyncLog.separate
    split
    · rw [put_inside (file.symm ▸ inside)]
      exact ⟨_, rfl, rfl, by simpa using file, log⟩
    · split
      · rw [put_inside (log.symm ▸ inside)]
        exact ⟨_, rfl, rfl, file, by simpa using log⟩
      · exact ⟨_, rfl, rfl, file, log⟩
  · rename_i other
    have same : [c].count '|' = 0 := List.count_singleton.trans (by simp [other])
    rw [same, Nat.add_zero]
    split
    · rw [put_inside (file.symm ▸ inside)]
      exact .inr ⟨.inr (by omega), _, rfl, rfl, by simpa using file, log⟩
    split
    · rw [put_inside (by omega : i - x.loc - 1 < x.logPath.length)]
      exact .inr ⟨.inr (by omega), _, rfl, rfl, file, by simpa using log⟩
    split
    · refine .inr ⟨.inr (by omega), _, rfl, ?_⟩
      split <;> exact ⟨rfl, file, log⟩
    split
    · refine .inr ⟨.inr (by omega), _, rfl, ?_⟩
      split <;> exact ⟨rfl, file, log⟩
    · exact .inl ⟨other, by omega, rfl⟩

theorem scanLoop_eq_none {cs : CString} {i : Nat} {before : Option Char} {x : FsyncLog.Scan}
    (inside : i + cs.length ≤ Message.pathMax) (file : x.fPath.length = Message.pathMax)
    (log : x.logPath.length = Message.pathMax) :
    FsyncLog.scanLoop i before cs x = none ↔
      ∃ front c rest, cs = front ++ c :: rest ∧ c ≠ '|' ∧ 4 ≤ x.flag + front.count '|' := by
  induction cs generalizing i before x with
  | nil => simp [FsyncLog.scanLoop]
  | cons c cs ih =>
      rw [List.length_cons] at inside
      rw [FsyncLog.scanLoop]
      have place : i < Message.pathMax := by omega
      rcases @scanStep_cases i before c cs x place file log with
        ⟨other, behind, step⟩ | ⟨early, y, step, flag, file', log'⟩
      · rw [step]
        exact iff_of_true rfl ⟨[], c, cs, rfl, other, behind⟩
      · rw [step, Option.bind_some, ih (by omega) file' log', flag]
        constructor
        · rintro ⟨front, d, rest, rfl, other, many⟩
          refine ⟨c :: front, d, rest, rfl, other, ?_⟩
          rw [← List.singleton_append, List.count_append]
          omega
        · rintro ⟨front, d, rest, split, other, many⟩
          cases front with
          | nil =>
              obtain ⟨rfl, rfl⟩ := List.cons.inj split
              rw [List.count_nil] at many
              rcases early with bar | few
              · exact absurd bar other
              · omega
          | cons e front =>
              obtain ⟨rfl, rfl⟩ := List.cons.inj split
              refine ⟨front, d, rest, rfl, other, ?_⟩
              rw [← List.singleton_append, List.count_append] at many
              omega

theorem count_of_malformed (malformed : Malformed path) : 4 ≤ path.count '|' := by
  obtain ⟨front, c, rest, rfl, -, many⟩ := malformed
  rw [List.count_append]
  exact Nat.le_add_right_of_le many

theorem scan_eq_none (fits : path.length < Message.pathMax) :
    FsyncLog.scanLoop 0 none path ⟨a.fPath, a.logPath, 0, 0, 0, 0⟩ = none ↔ Malformed path := by
  rw [scanLoop_eq_none (by omega) a.fPathSize a.logPathSize]
  simp only [Malformed, Nat.zero_add]

theorem retryCommit_two (failures : Nat) (s : Descriptors) : retryCommit 2 failures s = (0, s.opened.2) := by
  induction failures with
  | zero => rfl
  | succ failures ih => exact ih

theorem retryCommit_other {type : Nat} (other : type ≠ 2) (failures : Nat) (s : Descriptors) :
    (retryCommit type failures s).2 = s := by
  induction failures with
  | zero =>
      rw [retryCommit, if_neg other]
      split
      · rfl
      · split <;> rfl
  | succ failures ih =>
      rw [retryCommit]
      split
      · rfl
      · exact ih

theorem openLoop_eq (failures : Nat) (s : Descriptors) : openLoop failures s = s.opened := by
  induction failures with
  | zero => rfl
  | succ failures ih => exact ih

def Returns (fds : Finset Nat) (result : Option (Int × Descriptors)) : Prop :=
  ∃ ret t, result = some (ret, t) ∧ t.Kept fds

theorem returns_some {x : Int × Descriptors} : Returns fds (some x) ↔ x.2.Kept fds := by
  constructor
  · rintro ⟨ret, t, same, kept⟩
    rw [Option.some.inj same]
    exact kept
  · intro kept
    exact ⟨x.1, x.2, rfl, kept⟩

theorem not_returns_opened (kept : s.Kept fds) (ret : Int) : ¬Returns fds (some (ret, s.opened.2)) := by
  intro returns
  exact not_kept_opened kept (returns_some.mp returns)

theorem not_returns_none : ¬Returns fds none := by
  rintro ⟨ret, t, same, -⟩
  cases same

theorem commitCreate_iff (kept : s.Kept fds) :
    (commitCreate a r spPermission path s).2.Kept fds ↔ CreateCloses a r spPermission path fds := by
  unfold commitCreate CreateCloses
  by_cases filtered : Removing.filtered r path = true
  · rw [if_pos filtered]
    exact iff_of_true kept (.inl filtered)
  by_cases permitted : spPermission = 0 ∨ spPermission = 1
  · rw [if_neg filtered, if_pos permitted]
    by_cases first : a.creat = true
    · rw [if_pos first]
      exact iff_of_true (kept_close_opened kept) (.inr (.inr (.inl first)))
    · rw [if_neg first, retryCommit_two]
      constructor
      · intro still
        exact .inr (.inr (.inr ((kept_close_zero kept).mp still)))
      · rintro (discarded | refused | succeeded | free)
        · exact absurd discarded filtered
        · exact absurd permitted refused
        · exact absurd succeeded first
        · exact (kept_close_zero kept).mpr free
  · rw [if_neg filtered, if_neg permitted]
    exact iff_of_true kept (.inr (.inl permitted))

theorem commitWrite_iff (kept : s.Kept fds) : Returns fds (commitWrite a s) ↔ WriteCloses a := by
  unfold commitWrite WriteCloses
  cases opens : a.opens with
  | false => exact iff_of_true (returns_some.mpr kept) (.inl rfl)
  | true =>
      cases cached : a.cached with
      | none =>
          simp only [↓reduceIte]
          exact iff_of_false (not_returns_opened kept 0) (by simp)
      | some v =>
          simp only [↓reduceIte, Bool.true_eq_false, Option.some.injEq, exists_eq_left', false_or]
          split
          · rename_i fits
            exact iff_of_true (returns_some.mpr (kept_close_opened kept)) fits
          · rename_i long
            exact iff_of_false not_returns_none long

theorem fsyncFromLog_iff (fits : path.length < Message.pathMax) (kept : s.Kept fds) :
    Returns fds (fsyncFromLog a path s) ↔ FsyncCloses a path := by
  have scan := scan_eq_none (a := a) fits
  unfold fsyncFromLog FsyncCloses
  cases fields : FsyncLog.scanLoop 0 none path ⟨a.fPath, a.logPath, 0, 0, 0, 0⟩ with
  | none => exact iff_of_true (returns_some.mpr kept) (.inl (scan.mp fields))
  | some x =>
      have wellFormed : ¬Malformed path := by
        intro malformed
        rw [scan.mpr malformed] at fields
        cases fields
      rw [or_iff_right wellFormed]
      cases log : a.logOpens with
      | false => exact iff_of_true (returns_some.mpr kept) (.inl rfl)
      | true =>
          simp only [↓reduceIte, Bool.true_eq_false, false_or, openLoop_eq]
          cases read : a.read with
          | none => exact iff_of_false (not_returns_opened kept (-1)) (by simp)
          | some n =>
              simp only [Option.some.injEq, exists_eq_left']
              split
              · rename_i long
                exact iff_of_false not_returns_none fun all => absurd all.1 (Nat.not_le.mpr long)
              rename_i short
              have closed := kept_close_opened kept
              split
              · rename_i failed
                exact iff_of_false (not_returns_opened closed (-1)) fun all => failed all.2.1
              rename_i written
              split
              · rename_i failed
                exact iff_of_false (not_returns_opened closed (-1)) fun all => failed all.2.2
              · rename_i synced
                exact iff_of_true (returns_some.mpr (kept_close_opened closed))
                  ⟨Nat.not_lt.mp short, not_not.mp written, not_not.mp synced⟩

theorem commitMkdir_keeps : (commitMkdir a r spPermission path s).2 = s := by
  unfold commitMkdir
  split
  · rfl
  split
  · split
    · rfl
    · exact retryCommit_other (by decide) _ _
  · rfl

theorem commitRm_keeps : (commitRm a s).2 = s := by
  unfold commitRm
  split
  · rfl
  · dsimp only
    split
    · rfl
    · exact retryCommit_other (by decide) _ _

theorem caseCloses_other {opt : Char} (create : opt ≠ '2') (fsync : opt ≠ '7') (write : opt ≠ '8') :
    CaseCloses a r spPermission opt path fds :=
  ⟨fun is => absurd is create, fun is => absurd is fsync, fun is => absurd is write⟩

theorem commitCase_iff {opt : Char} (fits : path.length < Message.pathMax) (kept : s.Kept fds) :
    Returns fds (commitCase a r spPermission opt path s) ↔ CaseCloses a r spPermission opt path fds := by
  unfold commitCase
  split
  · rw [returns_some, commitMkdir_keeps]
    exact iff_of_true kept (caseCloses_other (by decide) (by decide) (by decide))
  · rw [returns_some, commitCreate_iff kept]
    simp [CaseCloses]
  · rw [returns_some, commitRm_keeps]
    exact iff_of_true kept (caseCloses_other (by decide) (by decide) (by decide))
  · have passed : Returns fds ((fsyncFromLog a path s).map fun x => (if x.1 ≠ 0 then -1 else 0, x.2)) ↔
        Returns fds (fsyncFromLog a path s) := by
      cases fsyncFromLog a path s with
      | none => exact Iff.rfl
      | some x => rw [Option.map_some, returns_some, returns_some]
    rw [passed, fsyncFromLog_iff fits kept]
    simp [CaseCloses]
  · rw [commitWrite_iff kept]
    simp [CaseCloses]
  · exact iff_of_true (returns_some.mpr kept) (caseCloses_other (by decide) (by decide) (by decide))
  · rename_i create _ fsync write _
    exact iff_of_true (returns_some.mpr kept) (caseCloses_other create fsync write)

theorem keeps_iff {mesg : CString} (fits : (Message.commitToFs mesg).1.length < Message.pathMax) :
    Keeps a r spPermission mesg fds ↔
      CaseCloses a r spPermission ((Message.commitToFs mesg).2.getD a.behind) (Message.commitToFs mesg).1 fds := by
  unfold Keeps commitToFs
  dsimp only
  rw [if_pos fits]
  exact commitCase_iff fits (kept_enter fds)

structure Handled where
  answers : Answers
  removingDirs : Removing.RemovingDirs
  spPermission : Int
  mesg : CString

def commitAll : List Handled → Finset Nat → Option (Finset Nat)
  | [], fds => some fds
  | c :: cs, fds =>
      (commitToFs c.answers c.removingDirs c.spPermission c.mesg (.enter fds)).bind fun x => commitAll cs x.2.fds

theorem commitAll_keeps {cs : List Handled}
    (closes : ∀ c ∈ cs, Closes c.answers c.removingDirs c.spPermission c.mesg fds) : commitAll cs fds = some fds := by
  induction cs with
  | nil => rfl
  | cons c cs ih =>
      obtain ⟨here, later⟩ := List.forall_mem_cons.mp closes
      obtain ⟨ret, t, done, kept⟩ := (keeps_iff here.1).mpr here.2
      rw [commitAll, done, Option.bind_some, kept.same]
      exact ih later

theorem card_opened (fds : Finset Nat) : (Descriptors.enter fds).opened.2.fds.card = fds.card + 1 :=
  Finset.card_insert_of_notMem (lowest_notMem fds)

theorem commitAll_uncached {c : Handled} (fits : (Message.commitToFs c.mesg).1.length < Message.pathMax)
    (write : (Message.commitToFs c.mesg).2.getD c.answers.behind = '8') (opens : c.answers.opens = true)
    (uncached : c.answers.cached = none) (n : Nat) (fds : Finset Nat) :
    ∃ left, commitAll (List.replicate n c) fds = some left ∧ left.card = fds.card + n := by
  induction n generalizing fds with
  | zero => exact ⟨fds, rfl, rfl⟩
  | succ n ih =>
      have here : commitToFs c.answers c.removingDirs c.spPermission c.mesg (.enter fds) =
          some (0, (Descriptors.enter fds).opened.2) := by
        simp [commitToFs, commitCase, commitWrite, fits, write, opens, uncached]
      obtain ⟨left, later, size⟩ := ih (Descriptors.enter fds).opened.2.fds
      refine ⟨left, ?_, ?_⟩
      · rw [List.replicate_succ, commitAll, here, Option.bind_some, later]
      · rw [size, card_opened, Nat.add_right_comm, Nat.add_assoc]

/-- A message is committed without a descriptor lost exactly if its path fits and no failure keeps its case from
the `close`. -/
theorem commit_to_fs_keeps_iff (a : Answers) (r : Removing.RemovingDirs) (spPermission : Int) (mesg : CString)
    (fds : Finset Nat) : Keeps a r spPermission mesg fds ↔ Closes a r spPermission mesg fds := by
  by_cases fits : (Message.commitToFs mesg).1.length < Message.pathMax
  · exact (keeps_iff fits).trans (and_iff_right fits).symm
  · apply iff_of_false
    · rintro ⟨ret, t, done, -⟩
      unfold commitToFs at done
      rw [if_neg fits] at done
      cases done
    · exact fun closes => fits closes.1

def success : Answers where
  behind := nul
  mkdir := true
  creat := true
  remove := true
  retries := 0
  opens := true
  cached := some ⟨Env.zero.stat, []⟩
  dmkvDel := true
  wrote := true
  fPath := List.replicate Message.pathMax nul
  fPathSize := List.length_replicate
  logPath := List.replicate Message.pathMax nul
  logPathSize := List.length_replicate
  logOpens := true
  read := some 4
  openRetries := 0
  written := true
  synced := true
  barrier := 0

def noDirs : Removing.RemovingDirs := ⟨0, fun _ => []⟩

theorem commit_to_fs_leaks :
    ¬Keeps { success with creat := false } noDirs 0 ['/', 'a', ':', '2'] {0, 1, 2} ∧
    ¬Keeps { success with cached := none } noDirs 0 ['/', 'a', ':', '8'] {0, 1, 2} ∧
    ¬Keeps { success with written := false } noDirs 0 ['/', 'a', '|', '/', 'l', '|', '0', '|', '4', ':', '7']
      {0, 1, 2} := by
  refine ⟨fun keeps => ?_, fun keeps => ?_, fun keeps => ?_⟩
  · rcases ((keeps_iff (by decide)).mp keeps).1 rfl with discarded | refused | succeeded | free
    · cases discarded
    · exact refused (.inl rfl)
    · cases succeeded
    · exact free (by decide)
  · rcases ((keeps_iff (by decide)).mp keeps).2.2 rfl with closed | ⟨v, there, -⟩
    · cases closed
    · cases there
  · rcases ((keeps_iff (by decide)).mp keeps).2.1 rfl with malformed | closed | ⟨-, failed, -⟩
    · exact absurd (count_of_malformed malformed) (by decide)
    · cases closed
    · cases failed

end Pacon.CommitFiles
