import Pacon.Lib.Separator
import Pacon.Permission.Check

/-!
# Batch permissions on their way to the server

`pacon_set_permission` writes three values into memcached and `commit_to_fs` reads them once. The
special locations are one string, `PATH:MODE TYPE|PATH:MODE TYPE|...`.
-/

namespace Pacon.Permission
open Lib Commit

def sprintf (memory text : CString) : CString := text ++ '\x00' :: memory.drop (text.length + 1)

def readString (memory : CString) : CString := memory.takeWhile (· ≠ '\x00')

def modeText (mode : BitVec 32) : CString := printInt mode.toInt

/-- One location in the loop; both `sprintf` write to the start of `sp_val`. -/
def writeSpecial (spVal : CString) (x : Special) (last : Bool) : Option CString :=
  let spVal := sprintf spVal (x.path ++ [':'])
  if x.dirMode ≠ unset then some (sprintf spVal (modeText x.dirMode ++ if last then ['d'] else ['d', '|']))
  else if x.fMode ≠ unset then some (sprintf spVal (modeText x.fMode ++ if last then ['f'] else ['f', '|']))
  else none

def writeSpecials (spVal : CString) : List Special → Option CString
  | [] => some spVal
  | x :: xs => (writeSpecial spVal x xs.isEmpty).bind fun spVal => writeSpecials spVal xs

structure Stored where
  nomDirMode : CString
  nomFMode : CString
  spPath : CString

def paconSetPermission (spVal : CString) (info : PermissionInfo) : Option Stored :=
  (writeSpecials spVal info.specials).map fun spVal =>
    ⟨modeText info.nomDirMode, modeText info.nomFMode, readString spVal⟩

def spListMax : Nat := 16

structure Slot where
  special : Special
  modeTmp : Option CString

def Slot.empty : Slot := ⟨⟨[], 0, 0⟩, none⟩

def Slot.finishMode (slot : Slot) (modeTmp : CString) (dir : Bool) : Slot :=
  let mode := BitVec.ofInt 32 (atoi modeTmp)
  ⟨if dir then ⟨slot.special.path, mode, unset⟩ else ⟨slot.special.path, unset, mode⟩, none⟩

/-- The loop over `sp_val`; `pos` stays 0, so every character of a path goes to its first place.
`none` where a mode does not end inside the string or overruns `mode_tmp`. -/
def parseSpecials : Slot → CString → Option (List Special)
  | slot, [] => if slot.modeTmp.isSome then none else some [slot.special]
  | ⟨x, some modeTmp⟩, c :: rest =>
      if c = 'd' ∨ c = 'f' then
        if 4 < modeTmp.length then none
        else parseSpecials (Slot.finishMode ⟨x, some modeTmp⟩ modeTmp (c = 'd')) rest
      else parseSpecials ⟨x, some (modeTmp ++ [c])⟩ rest
  | ⟨x, none⟩, c :: rest =>
      if c = ':' then parseSpecials ⟨x, some []⟩ rest
      else if c = '|' then (parseSpecials .empty rest).map (x :: ·)
      else parseSpecials ⟨{ x with path := [c] }, none⟩ rest

def parsePermission (stored : Stored) : Option PermissionInfo :=
  match parseSpecials .empty stored.spPath with
  | none => none
  | some specials =>
      if spListMax < specials.length then none
      else some {
        nomDirMode := BitVec.ofInt 32 (atoi stored.nomDirMode)
        nomFMode := BitVec.ofInt 32 (atoi stored.nomDirMode)
        specials }

def Arrives (spVal : CString) (info : PermissionInfo) : Prop :=
  ∃ stored, paconSetPermission spVal info = some stored ∧ parsePermission stored = some info

def Special.OneMode (x : Special) : Prop := ¬(x.dirMode = unset ↔ x.fMode = unset)

theorem not_special_of_mem_modeText {mode : BitVec 32} {c : Char} (member : c ∈ modeText mode) :
    c ≠ '\x00' ∧ c ≠ ':' ∧ c ≠ '|' := by
  have digit : ∀ n, c ∈ decimal n → c ≠ '\x00' ∧ c ≠ ':' ∧ c ≠ '|' := by
    intro n inside
    have is := isDigit_of_mem_decimal inside
    obtain ⟨-, -, -, bar, colon, -⟩ := digit_not_special is
    refine ⟨?_, colon, bar⟩
    rintro rfl
    exact absurd is (by decide)
  unfold modeText printInt at member
  split at member
  · exact digit _ member
  · rcases List.mem_cons.mp member with rfl | inside
    · decide
    · exact digit _ inside

theorem readString_sprintf {text : CString} (clear : '\x00' ∉ text) (memory : CString) :
    readString (sprintf memory text) = text := takeWhile_sep clear _

def Bare (text : CString) : Prop := '\x00' ∉ text ∧ ':' ∉ text ∧ '|' ∉ text

theorem bare_append (mode : BitVec 32) {type : Char} (free : type = 'd' ∨ type = 'f') :
    Bare (modeText mode ++ [type]) := by
  refine ⟨?_, ?_, ?_⟩
  all_goals
    intro member
    rcases List.mem_append.mp member with inside | last
    · obtain ⟨nul, colon, bar⟩ := not_special_of_mem_modeText inside
      first
        | exact nul rfl
        | exact colon rfl
        | exact bar rfl
    · rw [List.mem_singleton] at last
      rcases free with rfl | rfl <;> exact absurd last (by decide)

theorem writeSpecials_bare {xs : List Special} {spVal left : CString} (some_left : xs ≠ [])
    (written : writeSpecials spVal xs = some left) : Bare (readString left) := by
  induction xs generalizing spVal with
  | nil => exact absurd rfl some_left
  | cons x xs ih =>
      obtain ⟨next, one, rest⟩ := Option.bind_eq_some_iff.mp written
      cases xs with
      | cons y ys => exact ih (List.cons_ne_nil _ _) rest
      | nil =>
          cases rest
          simp only [writeSpecial, List.isEmpty_nil, ↓reduceIte] at one
          split at one
          · cases one
            have bare := bare_append x.dirMode (.inl rfl : 'd' = 'd' ∨ 'd' = 'f')
            rwa [readString_sprintf bare.1]
          · split at one
            · cases one
              have bare := bare_append x.fMode (.inr rfl : 'f' = 'd' ∨ 'f' = 'f')
              rwa [readString_sprintf bare.1]
            · cases one

theorem parseSpecials_bare {text : CString} (bare : Bare text) (x : Special) :
    ∃ path, parseSpecials ⟨x, none⟩ text = some [⟨path, x.dirMode, x.fMode⟩] := by
  induction text generalizing x with
  | nil => exact ⟨x.path, rfl⟩
  | cons c text ih =>
      obtain ⟨nul, colon, bar⟩ := bare
      simp only [List.mem_cons, not_or] at nul colon bar
      rw [parseSpecials, if_neg (Ne.symm colon.1), if_neg (Ne.symm bar.1)]
      exact ih ⟨nul.2, colon.2, bar.2⟩ { x with path := [c] }

theorem parseSpecials_ne_nil {slot : Slot} {text : CString} {xs : List Special}
    (parsed : parseSpecials slot text = some xs) : xs ≠ [] := by
  induction text generalizing slot xs with
  | nil =>
      rw [parseSpecials] at parsed
      split at parsed
      · cases parsed
      · cases parsed
        exact List.cons_ne_nil _ _
  | cons c text ih =>
      obtain ⟨x, modeTmp⟩ := slot
      cases modeTmp with
      | some modeTmp =>
          rw [parseSpecials] at parsed
          split at parsed
          · split at parsed
            · cases parsed
            · exact ih parsed
          · exact ih parsed
      | none =>
          rw [parseSpecials] at parsed
          split at parsed
          · exact ih parsed
          · split at parsed
            · obtain ⟨rest, -, rfl⟩ := Option.map_eq_some_iff.mp parsed
              exact List.cons_ne_nil _ _
            · exact ih parsed

/-- Whatever the memory held before, no settings arrive: without a special location the server finds
one all the same, and with some it finds one whose modes are both 0. -/
theorem permission_never_arrives {info : PermissionInfo} (modes : ∀ x ∈ info.specials, x.OneMode)
    (spVal : CString) : ¬Arrives spVal info := by
  rintro ⟨stored, written, parsed⟩
  obtain ⟨left, loop, rfl⟩ := Option.map_eq_some_iff.mp written
  unfold parsePermission at parsed
  dsimp only at parsed
  split at parsed
  · cases parsed
  rename_i specials read
  split at parsed
  · cases parsed
  have same : specials = info.specials := congrArg PermissionInfo.specials (Option.some.inj parsed)
  subst same
  by_cases empty : info.specials = []
  · exact parseSpecials_ne_nil read empty
  · obtain ⟨path, single⟩ := parseSpecials_bare (writeSpecials_bare empty loop) ⟨[], 0, 0⟩
    have only : info.specials = [⟨path, 0, 0⟩] := Option.some.inj (read.symm.trans single)
    exact modes ⟨path, 0, 0⟩ (by rw [only]; exact List.mem_singleton.mpr rfl) Iff.rfl

def testPermission : PermissionInfo := ⟨755, 644, [⟨['/', 's', 'p'], 111, unset⟩]⟩

theorem permission_never_arrives_test : ¬Arrives [] testPermission :=
  permission_never_arrives (fun x member => by
    rw [List.mem_singleton.mp member, Special.OneMode]
    decide) []

theorem permission_lost : (paconSetPermission [] testPermission).bind parsePermission =
    some ⟨755, 755, [⟨['d'], 0, 0⟩]⟩ ∧ ¬Arrives [] testPermission := by
  have read : (paconSetPermission [] testPermission).bind parsePermission =
      some ⟨755, 755, [⟨['d'], 0, 0⟩]⟩ := by decide
  refine ⟨read, ?_⟩
  rintro ⟨stored, written, parsed⟩
  rw [written, Option.bind_some, parsed] at read
  exact absurd read (by decide)

end Pacon.Permission
