import Pacon.Message.Format
import Pacon.PathText

/-!
# Batch permissions

`check_permission` compares an operation with the leading decimal digit of a mode: of the normal one
and of every special location at or above the path. Its lists stand next to the table that they are
meant to be.
-/

namespace Pacon.Permission
open Lib Commit

/-- The operations of the check, `READDIR_PC` to `RENAME_PC`. -/
inductive Opt
  | readdir | mkdir | create | rm | rmdir | link | owrite | fsync | read | write | rw | createw | rename
  deriving DecidableEq

structure Special where
  path : CString
  dirMode : BitVec 32
  fMode : BitVec 32
  deriving DecidableEq

structure PermissionInfo where
  nomDirMode : BitVec 32
  nomFMode : BitVec 32
  specials : List Special
  deriving DecidableEq

def unset : BitVec 32 := 999

def leading (mode : BitVec 32) : Option Char := (printInt mode.toInt).head?

def Printed (mode : BitVec 32) : Prop := (printInt mode.toInt).length < 5

instance (mode : BitVec 32) : Decidable (Printed mode) := inferInstanceAs (Decidable (_ < _))

/-- The `switch` on the leading digit; `none` where the function ends without a return statement. -/
def maskSwitch (mode : BitVec 32) (opt : Opt) : Option Int :=
  match leading mode with
  | some '7' => some 0
  | some '6' =>
      if opt ≠ .readdir ∨ opt ≠ .read ∨ opt ≠ .write ∨ opt ≠ .rw then some (-1) else some 0
  | some '5' => if opt ≠ .readdir ∨ opt ≠ .read then some (-1) else some 0
  | some '4' => if opt ≠ .read then some (-1) else some 0
  | some '3' =>
      if opt ≠ .mkdir ∨ opt ≠ .create ∨ opt ≠ .rm ∨ opt ≠ .rmdir ∨ opt ≠ .write ∨ opt ≠ .createw ∨
        opt ≠ .rename then some (-1) else some 0
  | some '2' => if opt ≠ .write then some (-1) else some 0
  | some '1' | some '0' => some (-1)
  | _ => none

/-- `none` where `sprintf` writes behind `mode[5]`; `returned` stands for a missing return value. -/
def maskCompare (returned : Int) (mode : BitVec 32) (opt : Opt) : Option Int :=
  if Printed mode then some ((maskSwitch mode opt).getD returned) else none

/-- What the code reads without having set it: `type_tmp`, and the value of the `mask_compare` that
returns none, for the normal mode and then for one special location after the other. -/
structure Junk where
  typeTmp : Int
  returned : Nat → Int

def Opt.makes (opt : Opt) : Bool := opt = .create ∨ opt = .createw ∨ opt = .mkdir

def dirname (path : CString) : CString := ((path.reverse.dropWhile (· ≠ '/')).drop 1).reverse

def testedPath (path : CString) (opt : Opt) : CString := if opt.makes then dirname path else path

def Copied (path : CString) (opt : Opt) : Prop :=
  (opt.makes = true → '/' ∈ path) ∧ (testedPath path opt).length < Message.pathMax

instance (path : CString) (opt : Opt) : Decidable (Copied path opt) := inferInstanceAs (Decidable (_ ∧ _))

def checkPath (path : CString) (opt : Opt) : Option CString :=
  if Copied path opt then some (testedPath path opt) else none

def Special.mode (dir : Bool) (x : Special) : BitVec 32 := if dir then x.dirMode else x.fMode

def PermissionInfo.normal (dir : Bool) (info : PermissionInfo) : BitVec 32 :=
  if dir then info.nomDirMode else info.nomFMode

def checkSpecials (dir : Bool) (returned : Nat → Int) (path : CString) (opt : Opt) :
    Nat → List Special → Int → Option Int
  | _, [], norOrSp => some (if 0 < norOrSp then norOrSp else 0)
  | i, x :: xs, norOrSp =>
      if 0 < childCmpNew path x.path then
        (maskCompare (returned (i + 1)) (x.mode dir) opt).bind fun ret =>
          if ret = -1 then some (-1)
          else checkSpecials dir returned path opt (i + 1) xs
            (if childCmpNew path x.path = 2 then i else norOrSp)
      else checkSpecials dir returned path opt (i + 1) xs norOrSp

def looksAtDirs (junk : Junk) (opt : Opt) : Bool := opt.makes || decide (junk.typeTmp = 0)

/-- `none` where one of its buffers is overrun. -/
def checkPermission (info : PermissionInfo) (junk : Junk) (path : CString) (opt : Opt) : Option Int :=
  let dir := looksAtDirs junk opt
  (checkPath path opt).bind fun checkPath =>
    (maskCompare (junk.returned 0) (info.normal dir) opt).bind fun ret =>
      if ret = -1 then some (-1) else checkSpecials dir junk.returned checkPath opt 0 info.specials 0

def listed : Char → List Opt
  | '6' => [.readdir, .read, .write, .rw]
  | '5' => [.readdir, .read]
  | '4' => [.read]
  | '3' => [.mkdir, .create, .rm, .rmdir, .write, .createw, .rename]
  | '2' => [.write]
  | _ => []

def Admits (mode : BitVec 32) (opt : Opt) : Prop :=
  mode = unset ∨ ∃ digit ∈ leading mode, digit = '7' ∨ opt ∈ listed digit

def Covers (entry path : CString) : Prop :=
  entry = path ∨ entry ++ ['/'] <+: path ∨ entry = ['/'] ∧ ['/'] <+: path

def parent (path : CString) : CString := if dirname path = [] then ['/'] else dirname path

def checkedPath (path : CString) (opt : Opt) : CString := if opt.makes then parent path else path

def onDir (kind : Kind) (opt : Opt) : Bool := opt.makes || decide (kind = .dir)

def Allowed (info : PermissionInfo) (path : CString) (kind : Kind) (opt : Opt) : Prop :=
  Admits (info.normal (onDir kind opt)) opt ∧ ∀ x ∈ info.specials,
    Covers x.path (checkedPath path opt) → Admits (x.mode (onDir kind opt)) opt

def matched (dir : Bool) (path : CString) (xs : List Special) : List (BitVec 32) :=
  (xs.filter fun x => 0 < childCmpNew path x.path).map (Special.mode dir)

def compared (info : PermissionInfo) (dir : Bool) (path : CString) (opt : Opt) : List (BitVec 32) :=
  info.normal dir :: matched dir (testedPath path opt) info.specials

def Grants (mode : BitVec 32) (opt : Opt) : Prop :=
  leading mode = some '7' ∨ leading mode = some '4' ∧ opt = .read ∨ leading mode = some '2' ∧ opt = .write

def Refuses (mode : BitVec 32) (opt : Opt) : Prop :=
  (∃ digit ∈ ['0', '1', '3', '5', '6'], leading mode = some digit) ∨
    leading mode = some '4' ∧ opt ≠ .read ∨ leading mode = some '2' ∧ opt ≠ .write

def Reached (Q : BitVec 32 → Prop) (modes : List (BitVec 32)) : Prop :=
  ∃ front mode back, modes = front ++ mode :: back ∧ (∀ m ∈ front, Printed m) ∧ Printed mode ∧ Q mode

/-- The path fits, and whichever array of modes is looked at, it decides as the table does. -/
def Settled (info : PermissionInfo) (path : CString) (kind : Kind) (opt : Opt) : Prop :=
  Copied path opt ∧ ∀ dir, (opt.makes = true → dir = true) →
    (Allowed info path kind opt → ∀ mode ∈ compared info dir path opt, Printed mode ∧ Grants mode opt) ∧
    (¬Allowed info path kind opt → Reached (Refuses · opt) (compared info dir path opt))

theorem ne_or_ne {a b : Opt} (other : a ≠ b) (opt : Opt) : opt ≠ a ∨ opt ≠ b := by
  by_cases same : opt = a
  · exact .inr fun is => other (same.symm.trans is)
  · exact .inl same

theorem maskSwitch_grants {mode : BitVec 32} {opt : Opt} (grants : Grants mode opt) :
    maskSwitch mode opt = some 0 := by
  unfold maskSwitch
  rcases grants with seven | ⟨four, rfl⟩ | ⟨two, rfl⟩
  · rw [seven]
    rfl
  · rw [four]
    rfl
  · rw [two]
    rfl

theorem maskSwitch_refuses {mode : BitVec 32} {opt : Opt} (refuses : Refuses mode opt) :
    maskSwitch mode opt = some (-1) := by
  unfold maskSwitch
  rcases refuses with ⟨digit, member, leads⟩ | ⟨four, other⟩ | ⟨two, other⟩
  · rw [leads]
    simp only [List.mem_cons, List.not_mem_nil, or_false] at member
    rcases member with rfl | rfl | rfl | rfl | rfl
    · rfl
    · rfl
    · exact if_pos ((ne_or_ne (by decide) opt).imp_right .inl)
    · exact if_pos (ne_or_ne (by decide) opt)
    · exact if_pos ((ne_or_ne (by decide) opt).imp_right .inl)
  · rw [four]
    exact if_pos other
  · rw [two]
    exact if_pos other

theorem maskSwitch_cases (mode : BitVec 32) (opt : Opt) :
    Grants mode opt ∨ Refuses mode opt ∨ maskSwitch mode opt = none := by
  unfold maskSwitch
  split
  · rename_i seven
    exact .inl (.inl seven)
  all_goals rename_i leads
  · exact .inr (.inl (.inl ⟨'6', by decide, leads⟩))
  · exact .inr (.inl (.inl ⟨'5', by decide, leads⟩))
  · by_cases read : opt = .read
    · exact .inl (.inr (.inl ⟨leads, read⟩))
    · exact .inr (.inl (.inr (.inl ⟨leads, read⟩)))
  · exact .inr (.inl (.inl ⟨'3', by decide, leads⟩))
  · by_cases write : opt = .write
    · exact .inl (.inr (.inr ⟨leads, write⟩))
    · exact .inr (.inl (.inr (.inr ⟨leads, write⟩)))
  · exact .inr (.inl (.inl ⟨'1', by decide, leads⟩))
  · exact .inr (.inl (.inl ⟨'0', by decide, leads⟩))
  · exact .inr (.inr rfl)

theorem matched_cons_pos {dir : Bool} {path : CString} {x : Special} {xs : List Special}
    (applies : 0 < childCmpNew path x.path) : matched dir path (x :: xs) = x.mode dir :: matched dir path xs := by
  simp [matched, applies]

theorem matched_cons_neg {dir : Bool} {path : CString} {x : Special} {xs : List Special}
    (other : ¬0 < childCmpNew path x.path) : matched dir path (x :: xs) = matched dir path xs := by
  simp [matched, other]

theorem reached_cons {Q : BitVec 32 → Prop} {mode : BitVec 32} {modes : List (BitVec 32)} :
    Reached Q (mode :: modes) ↔ Printed mode ∧ (Q mode ∨ Reached Q modes) := by
  constructor
  · rintro ⟨front, found, back, split, printed, room, is⟩
    cases front with
    | nil =>
        cases split
        exact ⟨room, .inl is⟩
    | cons first front =>
        cases split
        exact ⟨printed _ List.mem_cons_self,
          .inr ⟨front, found, back, rfl, fun m member => printed m (List.mem_cons_of_mem _ member), room, is⟩⟩
  · rintro ⟨room, is | ⟨front, found, back, rfl, printed, there, is⟩⟩
    · exact ⟨[], mode, modes, rfl, fun m member => absurd member List.not_mem_nil, room, is⟩
    · exact ⟨mode :: front, found, back, rfl, List.forall_mem_cons.mpr ⟨room, printed⟩, there, is⟩

theorem not_reached_nil {Q : BitVec 32 → Prop} : ¬Reached Q [] := by
  rintro ⟨front, mode, back, split, -⟩
  cases front <;> cases split

section
variable {dir : Bool} {returned : Nat → Int} {path : CString} {opt : Opt} {i : Nat} {xs : List Special}
variable {norOrSp value : Int}

theorem checkSpecials_granted (grants : ∀ mode ∈ matched dir path xs, Printed mode ∧ Grants mode opt) :
    ∃ ret, checkSpecials dir returned path opt i xs norOrSp = some ret ∧ 0 ≤ ret := by
  induction xs generalizing i norOrSp with
  | nil => exact ⟨_, rfl, by split <;> omega⟩
  | cons x xs ih =>
      unfold checkSpecials
      by_cases applies : 0 < childCmpNew path x.path
      · rw [matched_cons_pos applies, List.forall_mem_cons] at grants
        rw [if_pos applies, maskCompare, if_pos grants.1.1, maskSwitch_grants grants.1.2]
        exact ih grants.2
      · rw [matched_cons_neg applies] at grants
        rw [if_neg applies]
        exact ih grants

theorem checkSpecials_refused (refuses : Reached (Refuses · opt) (matched dir path xs)) :
    checkSpecials dir returned path opt i xs norOrSp = some (-1) := by
  induction xs generalizing i norOrSp with
  | nil => exact absurd refuses not_reached_nil
  | cons x xs ih =>
      unfold checkSpecials
      by_cases applies : 0 < childCmpNew path x.path
      · rw [matched_cons_pos applies, reached_cons] at refuses
        rw [if_pos applies, maskCompare, if_pos refuses.1, Option.bind_some]
        rcases refuses.2 with here | later
        · rw [maskSwitch_refuses here]
          rfl
        · split
          · rfl
          · exact ih later
      · rw [matched_cons_neg applies] at refuses
        rw [if_neg applies]
        exact ih refuses

theorem checkSpecials_some {ret : Int} (run : checkSpecials dir (fun _ => value) path opt i xs norOrSp = some ret) :
    0 ≤ ret ∧ (∀ mode ∈ matched dir path xs, Printed mode ∧ (maskSwitch mode opt).getD value ≠ -1) ∨
      ret = -1 ∧ Reached (fun mode => (maskSwitch mode opt).getD value = -1) (matched dir path xs) := by
  induction xs generalizing i norOrSp with
  | nil =>
      cases run
      exact .inl ⟨by split <;> omega, fun mode member => absurd member List.not_mem_nil⟩
  | cons x xs ih =>
      unfold checkSpecials at run
      by_cases applies : 0 < childCmpNew path x.path
      · rw [if_pos applies, maskCompare] at run
        rw [matched_cons_pos applies, reached_cons, List.forall_mem_cons]
        by_cases room : Printed (x.mode dir)
        · rw [if_pos room, Option.bind_some] at run
          by_cases minus : (maskSwitch (x.mode dir) opt).getD value = -1
          · rw [if_pos minus] at run
            cases run
            exact .inr ⟨rfl, room, .inl minus⟩
          · rw [if_neg minus] at run
            rcases ih run with ⟨nonneg, passed⟩ | ⟨neg, stopped⟩
            · exact .inl ⟨nonneg, ⟨room, minus⟩, passed⟩
            · exact .inr ⟨neg, room, .inr stopped⟩
        · rw [if_neg room] at run
          cases run
      · rw [if_neg applies] at run
        rw [matched_cons_neg applies]
        exact ih run

end

section
variable {info : PermissionInfo} {junk : Junk} {path : CString} {kind : Kind} {opt : Opt}

theorem checkPermission_granted (copied : Copied path opt)
    (grants : ∀ mode ∈ compared info (looksAtDirs junk opt) path opt, Printed mode ∧ Grants mode opt) :
    ∃ ret, checkPermission info junk path opt = some ret ∧ 0 ≤ ret := by
  obtain ⟨⟨room, normal⟩, specials⟩ := List.forall_mem_cons.mp grants
  simp only [checkPermission, checkPath, if_pos copied, maskCompare, if_pos room, maskSwitch_grants normal,
    Option.bind_some, Option.getD_some]
  exact checkSpecials_granted specials

theorem checkPermission_refused (copied : Copied path opt)
    (refuses : Reached (Refuses · opt) (compared info (looksAtDirs junk opt) path opt)) :
    checkPermission info junk path opt = some (-1) := by
  obtain ⟨room, refuses⟩ := reached_cons.mp refuses
  simp only [checkPermission, checkPath, if_pos copied, maskCompare, if_pos room, Option.bind_some]
  rcases refuses with normal | specials
  · rw [maskSwitch_refuses normal]
    rfl
  · split
    · rfl
    · exact checkSpecials_refused specials

def Junk.choosing (dir : Bool) (value : Int) : Junk := ⟨if dir then 0 else 1, fun _ => value⟩

theorem looksAtDirs_choosing {dir : Bool} (fixed : opt.makes = true → dir = true) (value : Int) :
    looksAtDirs (.choosing dir value) opt = dir := by
  unfold looksAtDirs Junk.choosing
  cases makes : opt.makes with
  | true => exact (fixed makes).symm
  | false => cases dir <;> rfl

theorem checkPermission_some {dir : Bool} (fixed : opt.makes = true → dir = true) {value ret : Int}
    (run : checkPermission info (.choosing dir value) path opt = some ret) :
    Copied path opt ∧
      (0 ≤ ret ∧ (∀ mode ∈ compared info dir path opt, Printed mode ∧ (maskSwitch mode opt).getD value ≠ -1) ∨
        ret = -1 ∧ Reached (fun mode => (maskSwitch mode opt).getD value = -1) (compared info dir path opt)) := by
  obtain ⟨copy, copied, run⟩ := Option.bind_eq_some_iff.mp run
  obtain ⟨room, is⟩ := Option.ite_none_right_eq_some.mp copied
  cases is
  obtain ⟨first, normal, run⟩ := Option.bind_eq_some_iff.mp run
  rw [looksAtDirs_choosing fixed] at normal run
  obtain ⟨printed, is⟩ := Option.ite_none_right_eq_some.mp normal
  cases is
  refine ⟨room, ?_⟩
  unfold compared
  rw [reached_cons, List.forall_mem_cons]
  by_cases minus : (maskSwitch (info.normal dir) opt).getD value = -1
  · have stops : some (-1) = some ret := (if_pos minus).symm.trans run
    cases stops
    exact .inr ⟨rfl, printed, .inl minus⟩
  · have goes := (if_neg minus).symm.trans run
    rcases checkSpecials_some goes with ⟨nonneg, passed⟩ | ⟨neg, stopped⟩
    · exact .inl ⟨nonneg, ⟨printed, minus⟩, passed⟩
    · exact .inr ⟨neg, printed, .inr stopped⟩

theorem grants_of_passed {mode : BitVec 32} (passed : (maskSwitch mode opt).getD (-1) ≠ -1) : Grants mode opt := by
  rcases maskSwitch_cases mode opt with grants | refuses | none
  · exact grants
  · exact absurd (by rw [maskSwitch_refuses refuses]; rfl) passed
  · exact absurd (by rw [none]; rfl) passed

theorem refuses_of_stopped {mode : BitVec 32} (stopped : (maskSwitch mode opt).getD 0 = -1) : Refuses mode opt := by
  rcases maskSwitch_cases mode opt with grants | refuses | none
  · simp [maskSwitch_grants grants] at stopped
  · exact refuses
  · simp [none] at stopped

theorem Reached.imp {Q R : BitVec 32 → Prop} {modes : List (BitVec 32)} (reached : Reached Q modes)
    (imp : ∀ mode, Q mode → R mode) : Reached R modes := by
  obtain ⟨front, mode, back, split, printed, room, is⟩ := reached
  exact ⟨front, mode, back, split, printed, room, imp mode is⟩

/-- The check returns and answers as its table says, whatever the memory it has not set, exactly if its
buffers hold, all modes that it may compare with grant an operation that the table allows, and one of them
refuses any other. -/
theorem check_permission_iff (info : PermissionInfo) (path : CString) (kind : Kind) (opt : Opt) :
    (∀ junk, ∃ ret, checkPermission info junk path opt = some ret ∧ (0 ≤ ret ↔ Allowed info path kind opt)) ↔
      Settled info path kind opt := by
  constructor
  · intro right
    obtain ⟨_, run, -⟩ := right (.choosing true 0)
    refine ⟨(checkPermission_some (fun _ => rfl) run).1, fun dir fixed => ⟨fun allowed => ?_, fun denied => ?_⟩⟩
    · obtain ⟨ret, run, agrees⟩ := right (.choosing dir (-1))
      have nonneg := agrees.mpr allowed
      rcases (checkPermission_some fixed run).2 with ⟨-, passed⟩ | ⟨rfl, -⟩
      · exact fun mode member => ⟨(passed mode member).1, grants_of_passed (passed mode member).2⟩
      · exact absurd nonneg (by decide)
    · obtain ⟨ret, run, agrees⟩ := right (.choosing dir 0)
      rcases (checkPermission_some fixed run).2 with ⟨nonneg, -⟩ | ⟨-, stopped⟩
      · exact absurd (agrees.mp nonneg) denied
      · exact stopped.imp fun mode => refuses_of_stopped
  · rintro ⟨copied, settled⟩ junk
    obtain ⟨grants, refuses⟩ := settled (looksAtDirs junk opt) fun makes => by rw [looksAtDirs, makes]; rfl
    by_cases allowed : Allowed info path kind opt
    · obtain ⟨ret, run, nonneg⟩ := checkPermission_granted copied (grants allowed)
      exact ⟨ret, run, fun _ => allowed, fun _ => nonneg⟩
    · refine ⟨-1, checkPermission_refused copied (refuses allowed), fun nonneg => ?_, fun is => absurd is allowed⟩
      exact absurd nonneg (by decide)

end

theorem check_permission_fails :
    Allowed ⟨355, 644, []⟩ ['/', 'w', '/', 'd'] .dir .mkdir ∧
      ∀ junk, checkPermission ⟨355, 644, []⟩ junk ['/', 'w', '/', 'd'] .mkdir = some (-1) := by
  have three : leading 355 = some '3' := by decide
  refine ⟨⟨.inr ⟨'3', three, .inr (by decide)⟩, fun x member => absurd member List.not_mem_nil⟩, fun junk => ?_⟩
  have refuses : Refuses 355 .mkdir := .inl ⟨'3', by decide, three⟩
  have room : Printed 355 := by decide
  exact checkPermission_refused (by decide) (reached_cons.mpr ⟨room, .inl refuses⟩)

end Pacon.Permission
