import Mathlib.Data.List.TakeWhile

namespace Pacon.Lib

variable {α : Type*} [DecidableEq α] {c : α} {s : List α}

theorem takeWhile_clear (clear : c ∉ s) : s.takeWhile (· ≠ c) = s := by
  rw [List.takeWhile_eq_self_iff]
  intro d member
  simpa using ne_of_mem_of_not_mem member clear

theorem takeWhile_sep (clear : c ∉ s) (rest : List α) : (s ++ c :: rest).takeWhile (· ≠ c) = s := by
  rw [List.takeWhile_append_of_pos, List.takeWhile_cons_of_neg (by simp), List.append_nil]
  intro d member
  simpa using ne_of_mem_of_not_mem member clear

theorem dropWhile_sep (clear : c ∉ s) (rest : List α) : (s ++ c :: rest).dropWhile (· ≠ c) = c :: rest := by
  rw [List.dropWhile_append_of_pos, List.dropWhile_cons_of_neg (by simp)]
  intro d member
  simpa using ne_of_mem_of_not_mem member clear

theorem notMem_takeWhile (c : α) (s : List α) : c ∉ s.takeWhile (· ≠ c) := by
  intro member
  simpa using List.mem_takeWhile_imp member

theorem length_takeWhile_lt : (s.takeWhile (· ≠ c)).length < s.length ↔ c ∈ s := by
  constructor
  · intro short
    by_contra none
    rw [takeWhile_clear none] at short
    exact Nat.lt_irrefl _ short
  · intro member
    have front : s.takeWhile (· ≠ c) <+: s := List.takeWhile_prefix _
    apply Nat.lt_of_le_of_ne front.length_le
    intro same
    rw [← front.eq_of_length same] at member
    exact notMem_takeWhile c s member

theorem takeWhile_split (member : c ∈ s) : ∃ rest, s = s.takeWhile (· ≠ c) ++ c :: rest := by
  obtain ⟨front, rest, rfl, first⟩ := List.eq_append_cons_of_mem member
  exact ⟨rest, by rw [takeWhile_sep first]⟩

omit [DecidableEq α] in
theorem last_split (member : c ∈ s) : ∃ front rest, s = front ++ c :: rest ∧ c ∉ rest := by
  obtain ⟨rest, front, split, first⟩ := List.eq_append_cons_of_mem (List.mem_reverse.mpr member)
  refine ⟨front.reverse, rest.reverse, ?_, fun behind => first (List.mem_reverse.mp behind)⟩
  rw [← List.reverse_reverse s, split]
  simp

omit [DecidableEq α] in
theorem append_sep_inj {s t x y : List α} (clear : c ∉ x) (clear' : c ∉ y) (same : s ++ c :: x = t ++ c :: y) :
    s = t ∧ x = y := by
  rcases List.append_eq_append_iff.mp same with ⟨more, front, back⟩ | ⟨more, front, back⟩
  · cases more with
    | nil => simp_all
    | cons d more =>
        rw [List.cons_append, List.cons.injEq] at back
        exact absurd (by simp [back.2]) clear
  · cases more with
    | nil => simp_all
    | cons d more =>
        rw [List.cons_append, List.cons.injEq] at back
        exact absurd (by simp [back.2]) clear'

end Pacon.Lib
