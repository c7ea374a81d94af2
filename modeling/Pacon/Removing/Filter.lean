import Pacon.Removing.Model

/-!
# Which messages are thrown away

The loop over the removing directories stops after as many turns as the count has more than the path
has characters, and compares with the first entry in all of them.
-/

namespace Pacon.Removing
open Lib Commit

def ProperlyBelow (entry path : CString) : Prop :=
  entry ≠ [] ∧ (entry ++ ['/'] <+: path ∨ entry = ['/'] ∧ ['/'] <+: path ∧ path ≠ ['/'])

def BelowRemoved (r : RemovingDirs) (path : CString) : Prop := ∃ k < r.count, ProperlyBelow (r.list k) path

def Hit (r : RemovingDirs) (path : CString) : Prop := path.length + 1 < r.count ∧ r.list 0 ++ ['/'] <+: path

/-- The first entry is met if any is, and no empty string stands in its place. -/
structure Met (r : RemovingDirs) (path : CString) : Prop where
  first : BelowRemoved r path → Hit r path
  empty : path.length + 1 < r.count → r.list 0 = [] → ['/'] <+: path → BelowRemoved r path

variable {r : RemovingDirs} {path : CString} {p q : Path}

theorem properlyBelow_text (namedP : Named p) (namedQ : Named q) :
    ProperlyBelow (text q) (text p) ↔ q <:+ p ∧ q ≠ p := by
  constructor
  · rintro ⟨-, front | ⟨top, -, other⟩⟩
    · have one := childCmpNew_eq_one.mpr front
      refine ⟨suffix_of_childCmpNew namedQ namedP (by rw [one]; exact one_ne_zero), ?_⟩
      rintro rfl
      rw [childCmpNew_eq_two.mpr rfl] at one
      cases one
    · have root : q = [] := by
        rw [← resolve_text namedQ [], top]
        rfl
      subst root
      refine ⟨List.nil_suffix, ?_⟩
      rintro rfl
      exact other rfl
  · rintro ⟨inside, other⟩
    refine ⟨text_ne_nil q, ?_⟩
    by_cases root : q = []
    · subst root
      obtain ⟨rest, slash⟩ := List.head?_eq_some_iff.mp (head_text p)
      refine .inr ⟨rfl, ⟨rest, slash.symm⟩, fun same => other ?_⟩
      rw [← resolve_text namedP [], same]
      rfl
    · exact .inl (text_slash_begins root inside other)

theorem filterLoop_iff (pos turns : Nat) :
    filterLoop r path pos turns = true ↔ 0 < turns ∧ r.list pos ++ ['/'] <+: path := by
  induction turns with
  | zero => simp [filterLoop]
  | succ turns ih =>
      unfold filterLoop
      split
      · rename_i one
        exact ⟨fun _ => ⟨turns.succ_pos, childCmpNew_eq_one.mp one⟩, fun _ => rfl⟩
      · rename_i other
        rw [ih]
        have front : ¬r.list pos ++ ['/'] <+: path := fun front => other (childCmpNew_eq_one.mpr front)
        exact ⟨fun h => absurd h.2 front, fun h => absurd h.2 front⟩

theorem filtered_iff : filtered r path = true ↔ Hit r path := by
  rw [filtered, Bool.and_eq_true, decide_eq_true_iff, filterLoop_iff, Hit]
  constructor
  · rintro ⟨-, turns, front⟩
    exact ⟨by omega, front⟩
  · rintro ⟨counted, front⟩
    exact ⟨by omega, by omega, front⟩

theorem commitMake_discarded {info : ServerInfo} {spPermission : Int} {failures : Option Nat} {kind : Kind} :
    commitMake info spPermission failures kind path = .discarded ↔ filtered info.removingDirs path = true := by
  unfold commitMake
  constructor
  · intro discarded
    split at discarded
    · assumption
    · split at discarded
      · split at discarded <;> cases discarded
      · cases discarded
  · exact fun is => if_pos is

theorem belowRemoved_of_hit (hit : Hit r path) (named : r.list 0 ≠ []) : BelowRemoved r path :=
  ⟨0, Nat.zero_lt_of_lt hit.1, named, .inl hit.2⟩

/-- A MKDIR or CREATE message is thrown away exactly if its path lies below an entry, where and only
where the first entry is the one to look at and the count is large enough for it. -/
theorem filter_exact_iff (info : ServerInfo) {mesg : CString} (spPermission : Int) (failures : Option Nat)
    (make : (Message.commitToFs mesg).2 = some '1' ∨ (Message.commitToFs mesg).2 = some '2') :
    (commitToFs info spPermission failures mesg = some .discarded ↔
      BelowRemoved info.removingDirs (Message.commitToFs mesg).1) ↔
    Met info.removingDirs (Message.commitToFs mesg).1 := by
  have discarded : commitToFs info spPermission failures mesg = some .discarded ↔
      Hit info.removingDirs (Message.commitToFs mesg).1 := by
    unfold commitToFs
    rcases make with mkdir | create
    · rw [mkdir]
      simp only [Option.some_inj]
      rw [commitMake_discarded, filtered_iff]
    · rw [create]
      simp only [Option.some_inj]
      rw [commitMake_discarded, filtered_iff]
  rw [discarded]
  constructor
  · intro exact
    refine ⟨exact.mpr, fun counted empty absolute => exact.mp ⟨counted, ?_⟩⟩
    rwa [empty]
  · intro met
    refine ⟨fun hit => ?_, met.first⟩
    by_cases empty : info.removingDirs.list 0 = []
    · have front := hit.2
      rw [empty] at front
      exact met.empty hit.1 empty front
    · exact belowRemoved_of_hit hit empty

def exampleDirs : RemovingDirs := ⟨2, fun k => if k = 0 then "/w/d".toList else "/w/e".toList⟩

theorem filter_misses : ∃ mesg,
    (Message.commitToFs mesg).2 = some '2' ∧ BelowRemoved exampleDirs (Message.commitToFs mesg).1 ∧
    commitToFs { startPaconServer with removingDirs := exampleDirs } 0 (some 0) mesg ≠ some .discarded := by
  refine ⟨"/w/d/f:21700000000".toList, by decide, ⟨0, by decide, by decide, .inl ?_⟩, by decide⟩
  decide

theorem filter_exact_iff_short :
    commitToFs { startPaconServer with removingDirs := ⟨6, fun _ => "/d".toList⟩ } 0 (some 0) "/d/f:1170".toList =
      some .discarded ↔ BelowRemoved ⟨6, fun _ => "/d".toList⟩ (Message.commitToFs "/d/f:1170".toList).1 := by
  refine (filter_exact_iff { startPaconServer with removingDirs := ⟨6, fun _ => "/d".toList⟩ } 0 (some 0)
    (.inl (by decide))).mpr ⟨fun _ => ⟨by decide, by decide⟩, fun _ empty => ?_⟩
  exact absurd empty (by decide)

end Pacon.Removing
