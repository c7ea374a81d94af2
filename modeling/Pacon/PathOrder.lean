import Mathlib.Order.RelClasses
import Pacon.PathText

/-!
# The order of the paths

`child_cmp_new` of the client and `child_cmp` of the server, the same loop over the characters, against
the order of the paths by their components.
-/

namespace Pacon
open Lib Commit

def compareFrom (path pPath : CString) : Nat → Nat → Nat
  | 0, i =>
      if path[i]? ≠ some '/' ∧ pPath.length ≠ path.length then 0
      else if pPath.length ≠ path.length then 1
      else 2
  | left + 1, i => if path[i]? = pPath[i]? then compareFrom path pPath left (i + 1) else 0

def childCmpLoop (path pPath : CString) : Nat :=
  if path.length < pPath.length then 0 else compareFrom path pPath pPath.length 0

/-- By the components, which a path lists from the last one to the first: 2 for the same ones, 1 if those
of `q` are the front of more, otherwise 0. -/
def componentOrder (p q : Path) : Nat := if q = p then 2 else if q <:+ p then 1 else 0

theorem compareFrom_eq {path pPath : CString} {left i : Nat} (all : i + left = pPath.length)
    (long : pPath.length ≤ path.length) (same : path.take i = pPath.take i) :
    compareFrom path pPath left i = childCmpNew path pPath := by
  induction left generalizing i with
  | zero =>
      have position : i = pPath.length := all
      have front : pPath <+: path := by
        rw [position, List.take_length] at same
        rw [← same]
        exact List.take_prefix _ _
      rw [compareFrom, childCmpNew, if_neg (Nat.not_lt.mpr long), if_neg (not_not.mpr front), position]
  | succ left ih =>
      rw [compareFrom]
      split
      · rename_i next
        apply ih (by omega)
        rw [List.take_add_one, List.take_add_one, same, next]
      · rename_i differ
        have apart : ¬pPath <+: path := by
          rintro ⟨rest, rfl⟩
          exact differ (List.getElem?_append_left (by omega))
        rw [childCmpNew, if_neg (Nat.not_lt.mpr long), if_pos apart]

theorem childCmpLoop_eq (path pPath : CString) : childCmpLoop path pPath = childCmpNew path pPath := by
  unfold childCmpLoop
  split
  · rename_i short
    rw [childCmpNew, if_pos short]
  · rename_i long
    exact compareFrom_eq (Nat.zero_add _) (Nat.not_lt.mp long) rfl

theorem childCmpNew_refl (path : CString) : childCmpNew path path ≠ 0 :=
  childCmpNew_ne_zero.mpr (.inl rfl)

theorem length_of_childCmpNew {path pPath : CString} (positive : childCmpNew path pPath ≠ 0) :
    pPath.length ≤ path.length := by
  rcases childCmpNew_ne_zero.mp positive with rfl | front
  · exact le_rfl
  · exact ((List.prefix_append _ _).trans front).length_le

theorem childCmpNew_antisymm {path pPath : CString} (below : childCmpNew path pPath ≠ 0)
    (above : childCmpNew pPath path ≠ 0) : path = pPath := by
  rcases childCmpNew_ne_zero.mp below with same | front
  · exact same.symm
  · have length := front.length_le
    rw [List.length_append, List.length_singleton] at length
    exact absurd (length_of_childCmpNew above) (by omega)

theorem childCmpNew_trans {path pPath root : CString} (below : childCmpNew path pPath ≠ 0)
    (above : childCmpNew pPath root ≠ 0) : childCmpNew path root ≠ 0 := by
  rcases childCmpNew_ne_zero.mp below with rfl | front
  · exact above
  rcases childCmpNew_ne_zero.mp above with rfl | front'
  · exact below
  · apply childCmpNew_ne_zero.mpr
    exact .inr (front'.trans ((List.prefix_append _ _).trans front))

theorem childCmpNew_order : IsPartialOrder CString fun pPath path => childCmpNew path pPath ≠ 0 where
  refl := childCmpNew_refl
  trans _ _ _ above below := childCmpNew_trans below above
  antisymm _ _ above below := childCmpNew_antisymm below above

theorem second_below {p : Path} (named : Named p) (other : p ≠ []) :
    ∃ c rest, below p = '/' :: c :: rest ∧ c ≠ '/' := by
  induction p with
  | nil => exact absurd rfl other
  | cons name q ih =>
      obtain ⟨nonempty, -, -, noSlash⟩ := named name List.mem_cons_self
      cases q with
      | nil =>
          obtain ⟨c, rest, rfl⟩ := List.exists_cons_of_ne_nil nonempty
          exact ⟨c, rest, rfl, fun slash => noSlash (slash ▸ List.mem_cons_self)⟩
      | cons next q =>
          obtain ⟨c, rest, begins, noSlash⟩ :=
            ih (fun other member => named other (List.mem_cons_of_mem _ member)) (List.cons_ne_nil _ _)
          exact ⟨c, rest ++ '/' :: name, by rw [below, begins]; rfl, noSlash⟩

theorem childCmpNew_root {p : Path} (named : Named p) (other : p ≠ []) : childCmpNew (text p) (text []) = 0 := by
  obtain ⟨c, rest, begins, noSlash⟩ := second_below named other
  by_contra positive
  rw [text_of_ne other, begins] at positive
  rcases childCmpNew_ne_zero.mp positive with same | ⟨_, twice⟩
  · cases same
  · have second : '/' = c := (List.cons.inj (List.cons.inj twice).2).1
    exact noSlash second.symm

theorem childCmpNew_below {p q : Path} (namedP : Named p) (namedQ : Named q) (other : q ≠ []) :
    childCmpNew (text p) (text q) = componentOrder p q := by
  unfold componentOrder
  split
  · rename_i same
    exact childCmpNew_eq_two.mpr (congrArg text same)
  rename_i differ
  split
  · rename_i inside
    exact childCmpNew_eq_one.mpr (text_slash_begins other inside differ)
  · rename_i outside
    by_contra positive
    exact outside (suffix_of_childCmpNew namedQ namedP positive)

/-- The two functions decide the order of the components exactly if they are not asked whether something
lies below '/'. Their relation is a partial order nevertheless. -/
theorem child_cmp_new_decides_iff {p q : Path} (namedP : Named p) (namedQ : Named q) :
    (childCmpNew (text p) (text q) = componentOrder p q ∧ childCmpLoop (text p) (text q) = componentOrder p q ↔
      (q = [] → p = [])) ∧
    IsPartialOrder CString fun pPath path => childCmpNew path pPath ≠ 0 := by
  refine ⟨?_, childCmpNew_order⟩
  rw [childCmpLoop_eq, and_self]
  constructor
  · rintro decides rfl
    by_contra other
    rw [childCmpNew_root namedP other, componentOrder, if_neg (Ne.symm other), if_pos List.nil_suffix] at decides
    cases decides
  · intro atRoot
    by_cases other : q = []
    · rw [other, atRoot other]
      rfl
    · exact childCmpNew_below namedP namedQ other

theorem child_cmp_new_decides_child : childCmpNew (text [['d'], ['w']]) (text [['w']]) = 1 := by
  have namedFile : Named [['d'], ['w']] := by decide
  have namedDir : Named [['w']] := by decide
  have decides := (child_cmp_new_decides_iff namedFile namedDir).1.mpr (by decide)
  exact decides.1

theorem child_cmp_new_misses : Named [['a']] ∧ Named [] ∧ componentOrder [['a']] [] = 1 ∧
    childCmpNew (text [['a']]) (text []) = 0 ∧ childCmpLoop (text [['a']]) (text []) = 0 := by decide

end Pacon
