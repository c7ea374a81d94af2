import Pacon.Lib.CString
import Pacon.Lib.Separator

namespace Pacon.Lib

def nul : Char := '\x00'

def put (buf : List Char) (i : Nat) (c : Char) : Option (List Char) :=
  if i < buf.length then some (buf.set i c) else none

def cstring (buf : List Char) : Option CString :=
  if nul ∈ buf then some (buf.takeWhile (· ≠ nul)) else none

def strncpy (buf : List Char) (s : CString) (n : Nat) : Option (List Char) :=
  if n ≤ buf.length then some (s.take n ++ List.replicate (n - s.length) nul ++ buf.drop n) else none

variable {buf buf' : List Char} {s : CString} {i : Nat} {c : Char}

theorem put_eq_some : put buf i c = some buf' ↔ i < buf.length ∧ buf.set i c = buf' := by
  unfold put
  split
  · rename_i inside
    rw [Option.some.injEq, and_iff_right inside]
  · rename_i outside
    simp [outside]

theorem put_inside (inside : i < buf.length) (c : Char) : put buf i c = some (buf.set i c) := if_pos inside

theorem length_put (h : put buf i c = some buf') : buf'.length = buf.length := by
  rw [← (put_eq_some.mp h).2, List.length_set]

theorem drop_set_self (inside : i < buf.length) : (buf.set i c).drop i = c :: buf.drop (i + 1) := by
  rw [List.drop_set, if_neg (Nat.lt_irrefl i), Nat.sub_self, List.drop_eq_getElem_cons inside, List.set_cons_zero]

theorem put_next (front : s <+: buf) (h : put buf s.length c = some buf') : s ++ [c] <+: buf' := by
  obtain ⟨rest, rfl⟩ := front
  obtain ⟨inside, rfl⟩ := put_eq_some.mp h
  cases rest with
  | nil => simp at inside
  | cons d rest =>
      refine ⟨rest, ?_⟩
      rw [List.set_append_right _ _ (le_refl _), Nat.sub_self, List.set_cons_zero, List.append_assoc]
      rfl

theorem put_behind (front : s <+: buf) (behind : s.length ≤ i) (h : put buf i c = some buf') : s <+: buf' := by
  obtain ⟨rest, rfl⟩ := front
  obtain ⟨-, rfl⟩ := put_eq_some.mp h
  rw [List.set_append_right _ _ behind]
  exact List.prefix_append ..

theorem cstring_front (clear : nul ∉ s) (front : s ++ [nul] <+: buf) : cstring buf = some s := by
  obtain ⟨rest, rfl⟩ := front
  have ends : nul ∈ s ++ [nul] ++ rest := by simp
  rw [cstring, if_pos ends, List.append_assoc, List.singleton_append, takeWhile_sep clear]

theorem front_of_cstring (h : cstring buf = some s) : s ++ [nul] <+: buf ∧ nul ∉ s := by
  unfold cstring at h
  split at h
  · rename_i ends
    cases h
    obtain ⟨rest, split⟩ := takeWhile_split ends
    refine ⟨⟨rest, ?_⟩, notMem_takeWhile nul buf⟩
    rw [List.append_assoc]
    exact split.symm
  · cases h

theorem length_of_cstring (h : cstring buf = some s) : s.length < buf.length := by
  have length := (front_of_cstring h).1.length_le
  rwa [List.length_append, List.length_singleton] at length

end Pacon.Lib
