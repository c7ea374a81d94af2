import Pacon.CasResults

/-!
# Write-backs that come late

A WRITE message names a file; its commit writes what is cached by then. `pacon_write_new` sends one when it
keeps the data in the cache, `pacon_write` also when it does not, so that there can be one in the queue when the
data is on the DFS and the cache has the record alone.
-/

namespace Pacon.LateWriteBack
open Lib Function Commit InlineWrite FileAccess CasResults

structure State (κ : Type) where
  file : FileAccess.State κ
  queued : Nat
  /-- History only: the data has gone to the DFS with the last write that stored a record, or was there before any. -/
  moved : Bool

structure CommitEnv where
  opens : Bool
  cached : Bool
  /-- The bytes from `inline_data1` on. -/
  memory : List UInt8
  room : serverInlineMax ≤ memory.length
  /-- As many bytes as `pwrite` writes, of those that it is given. -/
  written : Nat

inductive Event (κ : Type)
  | access (e : FileAccess.Event κ)
  | write (c : κ) (e : WriteEnv) (w : Write)
  | commit (e : CommitEnv)

/-- WRITE in `commit_to_fs`; `none` is where the copy of the data overruns `inline_data1`. -/
def commitWrite (e : CommitEnv) (v : Value) (file : List UInt8) : Option (List UInt8) :=
  if e.opens ∧ e.cached then
    if (v.data.takeWhile (· ≠ 0)).length < serverInlineMax then
      some (pwrite file (((strcpy e.memory v.data).take v.stat.size.toNat).take e.written) 0)
    else none
  else some file

section
variable {κ : Type} [DecidableEq κ]

def Inline (s : FileAccess.State κ) (c : κ) (w : Write) : Prop :=
  s.opened c = false ∧ newSizeInt s.value w.data w.offset < inlineMax - 1

instance (s : FileAccess.State κ) (c : κ) (w : Write) : Decidable (Inline s c w) :=
  inferInstanceAs (Decidable (_ ∧ _))

/-- `pacon_write_new` returns; only the inline branch has sent a message. -/
def returned (s : State κ) (c : κ) (w : Write) (x : Int × FileAccess.State κ) : State κ :=
  let file := wrote s.file.content w x
  if x.1 < 0 then { s with file }
  else if Inline s.file c w then ⟨file, s.queued + 1, false⟩
  else { s with file, moved := true }

/-- `pacon_write`, whose branch for a file on the DFS sends the message before it goes back to the
write through the descriptor. -/
def write (e : WriteEnv) (s : State κ) (c : κ) (w : Write) : State κ :=
  let content := overwrite s.file.content w.data w.offset
  let dfs := pwrite s.file.dfs w.data w.offset
  if longer w then s
  else if s.file.opened c then { s with file := { s.file with dfs, content } }
  else
    match writeRoute e w s.file.value with
    | .refused => s
    | .inline new => ⟨{ s.file with value := new, content }, s.queued + 1, false⟩
    | .counted =>
        ⟨{ dfs, content, value := Evict.counted s.file.value, opened := update s.file.opened c true },
          s.queued + 1, true⟩

def step (s : State κ) : Event κ → Option (State κ)
  | .access (.write c env w) => (writeNew env s.file c w).map (returned s c w)
  | .access e => (FileAccess.step s.file e).map fun file => { s with file }
  | .write c e w => some (write e s c w)
  | .commit e =>
      if 0 < s.queued then
        (commitWrite e s.file.value s.file.dfs).map fun dfs =>
          { s with file := { s.file with dfs }, queued := s.queued - 1 }
      else none

structure Initial (s : State κ) : Prop where
  file : FileAccess.Initial s.file
  queued : s.queued = 0
  moved : s.moved = true ↔ OnDfs s.file.value

def system (κ : Type) [DecidableEq κ] : System (State κ) (Event κ) := ⟨Initial, step⟩

def Any (_ : State κ) (_ : Event κ) : Prop := True

/-- Whatever the server's memory holds, the commit of a WRITE leaves the file on the DFS as it is. -/
def Harmless (s : State κ) : Prop := ∀ e, ∃ t, step s (.commit e) = some t ∧ t.file.dfs = s.file.dfs

variable {s t : State κ}

inductive Change (s t : State κ) : Prop
  | stays (value : t.file.value = s.file.value) (moved : t.moved = s.moved)
  | record (data : t.file.value.data = []) (size : t.file.value.stat.size = s.file.value.stat.size)
  | inline (moved : t.moved = false)

theorem change_returned {env : Env} {c : κ} {w : Write} {x : Int × FileAccess.State κ}
    (run : writeNew env s.file c w = some x) : Change s (returned s c w x) := by
  unfold returned
  rcases writeNew_cases run with ⟨rfl, -⟩ | ⟨-, u, rfl, effect⟩
  · exact .stays rfl rfl
  have success : ¬((w.size : Int), u).1 < 0 := by simp
  have back : wrote s.file.content w ((w.size : Int), u) =
      { u with content := overwrite s.file.content w.data w.offset } :=
    if_pos (Int.natCast_nonneg _)
  rw [back, if_neg success]
  split
  · exact .inline rfl
  · rename_i outside
    cases effect with
    | through | dfs => exact .record rfl rfl
    | inline closed _ short =>
        have small := newSizeInt_eq (short.trans (by decide))
        exact absurd ⟨closed, by omega⟩ outside

theorem change_write (e : WriteEnv) (s : State κ) (c : κ) (w : Write) : Change s (write e s c w) := by
  unfold write
  dsimp only
  split
  · exact .stays rfl rfl
  split
  · exact .stays rfl rfl
  split
  · exact .stays rfl rfl
  · exact .inline rfl
  · exact .record rfl rfl

theorem change_of_step {e : Event κ} (does : step s e = some t) : Change s t := by
  cases e with
  | access e =>
      cases e with
      | write c env w =>
          obtain ⟨x, run, rfl⟩ := Option.map_eq_some_iff.mp does
          exact change_returned run
      | read c env size offset =>
          cases does
          refine .stays ?_ rfl
          simp only [readNew]
          split
          · rfl
          split
          · split <;> rfl
          · rfl
      | getattr =>
          cases does
          exact .stays rfl rfl
  | write c e w =>
      cases does
      exact change_write e s c w
  | commit e =>
      simp only [step] at does
      split at does
      · obtain ⟨dfs, -, rfl⟩ := Option.map_eq_some_iff.mp does
        exact .stays rfl rfl
      · cases does

theorem noData_of_reachable (reach : (system κ).Reachable Any s) (moved : s.moved = true) : s.file.value.data = [] := by
  revert moved
  apply reach.invariant (P := fun s => s.moved = true → s.file.value.data = [])
  · intro s start moved
    have there := start.moved.mp moved
    cases (Coherent.initial start.file).place with
    | inline small => exact absurd there small
    | dfs _ _ _ data => exact data
  · intro s e t _ ih _ does moved
    cases change_of_step does with
    | stays value before => exact value ▸ ih (before ▸ moved)
    | record data => exact data
    | inline back =>
        rw [back] at moved
        cases moved

theorem pwrite_front_iff {file buf : List UInt8} : pwrite file buf 0 = file ↔ buf <+: file := by
  unfold pwrite
  split
  · rename_i empty
    rw [empty]
    exact iff_of_true rfl List.nil_prefix
  · rw [List.take_zero, Nat.zero_sub, List.replicate_zero, List.nil_append, Nat.zero_add, List.prefix_iff_eq_append]
    rfl

theorem commitWrite_record (e : CommitEnv) {v : Value} (data : v.data = []) (file : List UInt8) :
    commitWrite e v file = some (if e.opens ∧ e.cached then
      pwrite file (((0 :: e.memory.drop 1).take v.stat.size.toNat).take e.written) 0 else file) := by
  unfold commitWrite
  rw [data]
  split
  · rw [if_pos (by decide)]
    rfl
  · rfl

theorem garbage_prefix_iff {file : List UInt8} {k : Nat} :
    (∀ memory : List UInt8, serverInlineMax ≤ memory.length → (0 :: memory.drop 1).take k <+: file) ↔
      k = 0 ∨ k = 1 ∧ file.head? = some 0 := by
  constructor
  · intro all
    have begins : ∀ byte : UInt8, (0 :: byte :: List.replicate serverInlineMax 0).take k <+: file := by
      intro byte
      apply all (0 :: byte :: List.replicate serverInlineMax 0)
      rw [List.length_cons, List.length_cons, List.length_replicate]
      omega
    match k with
    | 0 => exact .inl rfl
    | 1 =>
        obtain ⟨rest, rfl⟩ := begins 0
        exact .inr ⟨rfl, rfl⟩
    | k + 2 =>
        have second : ∀ byte : UInt8, file[1]? = some byte := by
          intro byte
          obtain ⟨rest, rfl⟩ := begins byte
          rfl
        cases (second 0).symm.trans (second 1)
  · intro small memory _
    rcases small with rfl | ⟨rfl, first⟩
    · exact List.nil_prefix
    · obtain ⟨rest, rfl⟩ := List.head?_eq_some_iff.mp first
      exact ⟨rest, rfl⟩

theorem harmless_iff_commitWrite (queued : 0 < s.queued) :
    Harmless s ↔ ∀ e, commitWrite e s.file.value s.file.dfs = some s.file.dfs := by
  apply forall_congr'
  intro e
  simp only [step]
  rw [if_pos queued]
  cases commitWrite e s.file.value s.file.dfs <;> simp

theorem harmless_iff (queued : 0 < s.queued) (data : s.file.value.data = []) :
    Harmless s ↔ s.file.value.stat.size.toNat = 0 ∨
      s.file.value.stat.size.toNat = 1 ∧ s.file.dfs.head? = some 0 := by
  rw [harmless_iff_commitWrite queued, ← garbage_prefix_iff]
  constructor
  · intro harmless memory room
    have unchanged := harmless ⟨true, true, memory, room, s.file.value.stat.size.toNat⟩
    rw [commitWrite_record _ data, if_pos ⟨rfl, rfl⟩, Option.some_inj, pwrite_front_iff, List.take_take,
      Nat.min_self] at unchanged
    exact unchanged
  · intro begins e
    rw [commitWrite_record e data]
    split
    · rw [Option.some_inj, pwrite_front_iff]
      exact (List.take_prefix _ _).trans (begins e.memory e.room)
    · rfl

/-- In whatever order a file is written and WRITE messages are committed: a commit that finds the data on the
DFS leaves the file as it is exactly if the record in the cache counts no byte, or one that is a NUL. -/
theorem late_commit_iff (reach : (system κ).Reachable Any s) (queued : 0 < s.queued) (moved : s.moved = true) :
    Harmless s ↔ s.file.value.stat.size.toNat = 0 ∨
      s.file.value.stat.size.toNat = 1 ∧ s.file.dfs.head? = some 0 :=
  harmless_iff queued (noData_of_reachable reach moved)

def emptyFile : State Unit := ⟨createdFile, 0, false⟩

theorem initial_emptyFile : Initial emptyFile where
  file := .created .zero .create (fun is => (by cases is)) rfl List.not_mem_nil (by decide) rfl rfl fun _ => rfl
  queued := rfl
  moved := by decide

def writes (data : List UInt8) : Event Unit := .access (.write () blank (Write.ofBytes data 0))

def large : List UInt8 := List.replicate (inlineMax - 1) 97

instance (s : State κ) (e : Event κ) : Decidable (Any s e) := .isTrue trivial

theorem late_commit_iff_empty :
    ∃ s : State Unit, (system Unit).Reachable Any s ∧ s.queued = 1 ∧ s.moved = true ∧ s.file.dfs ≠ [] ∧ Harmless s := by
  obtain ⟨s, reach, holds⟩ := System.exists_reachable (system Unit) Any initial_emptyFile [writes [], writes large]
    (fun s => decide (s.queued = 1 ∧ s.moved = true ∧ s.file.dfs ≠ [] ∧ s.file.value.stat.size.toNat = 0))
    (by decide +kernel)
  obtain ⟨queued, moved, there, empty⟩ := of_decide_eq_true holds
  have waits : 0 < s.queued := by rw [queued]; exact Nat.one_pos
  exact ⟨s, reach, queued, moved, there, (late_commit_iff reach waits moved).mpr (.inl empty)⟩

def commitEnv : CommitEnv where
  opens := true
  cached := true
  memory := List.replicate serverInlineMax 1
  room := List.length_replicate.ge
  written := inlineMax

theorem late_commit_destroys : ∃ s t : State Unit, (system Unit).Reachable Any s ∧ s.queued = 1 ∧ s.moved = true ∧
    s.file.dfs.take 3 = [97, 97, 97] ∧ step s (.commit commitEnv) = some t ∧ t.file.dfs.take 3 = [0, 1, 97] := by
  obtain ⟨s, reach, holds⟩ := System.exists_reachable (system Unit) Any initial_emptyFile
    [writes [65, 66], writes large]
    (fun s => decide (s.queued = 1 ∧ s.moved = true ∧ s.file.dfs.take 3 = [97, 97, 97]) &&
      (step s (.commit commitEnv)).any fun t : State Unit => decide (t.file.dfs.take 3 = [0, 1, 97])) (by decide +kernel)
  obtain ⟨before, after⟩ := (Bool.and_eq_true _ _).mp holds
  obtain ⟨queued, moved, file⟩ := of_decide_eq_true before
  obtain ⟨t, does, changed⟩ := (Option.any_eq_true _ _).mp after
  exact ⟨s, t, reach, queued, moved, file, does, of_decide_eq_true changed⟩

end

end Pacon.LateWriteBack
