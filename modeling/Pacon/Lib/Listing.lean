import Mathlib.Data.List.Infix

/-!
# Directory listings

What a recursive walk finds below a directory, in the order in which it finds it. A path is the list
of its names, the innermost first.
-/

namespace Pacon.Lib

inductive Listing (ν : Type*)
  | nil
  | file (name : ν) (rest : Listing ν)
  | dir (name : ν) (sub rest : Listing ν)

namespace Listing
variable {ν : Type*}

def names : Listing ν → List ν
  | nil => []
  | file name rest | dir name _ rest => name :: rest.names

def Distinct : Listing ν → Prop
  | nil => True
  | file name rest => name ∉ rest.names ∧ rest.Distinct
  | dir name sub rest => name ∉ rest.names ∧ sub.Distinct ∧ rest.Distinct

def Has (q : List ν) : Listing ν → List ν → Prop
  | nil, _ => False
  | file name rest, p => p = name :: q ∨ rest.Has q p
  | dir name sub rest, p => p = name :: q ∨ sub.Has (name :: q) p ∨ rest.Has q p

variable {q p : List ν} {name : ν} {es sub rest : Listing ν}

theorem exists_name_of_has (h : es.Has q p) : ∃ name ∈ es.names, name :: q <:+ p := by
  induction es generalizing q with
  | nil => exact h.elim
  | file name rest ih =>
      rcases h with rfl | later
      · exact ⟨name, List.mem_cons_self, List.suffix_rfl⟩
      · obtain ⟨other, member, below⟩ := ih later
        exact ⟨other, List.mem_cons_of_mem _ member, below⟩
  | dir name sub rest ihSub ihRest =>
      rcases h with rfl | inside | later
      · exact ⟨name, List.mem_cons_self, List.suffix_rfl⟩
      · obtain ⟨other, -, below⟩ := ihSub inside
        exact ⟨name, List.mem_cons_self, (List.suffix_cons other _).trans below⟩
      · obtain ⟨other, member, below⟩ := ihRest later
        exact ⟨other, List.mem_cons_of_mem _ member, below⟩

theorem below_of_has (h : es.Has q p) : q <:+ p ∧ p ≠ q := by
  obtain ⟨name, -, below⟩ := exists_name_of_has h
  refine ⟨(List.suffix_cons name q).trans below, ?_⟩
  rintro rfl
  exact absurd below.length_le (by simp)

theorem eq_of_suffix {other : ν} (h : name :: q <:+ p) (g : other :: q <:+ p) : name = other := by
  have same := (List.suffix_of_suffix_length_le h g (by simp)).eq_of_length (by simp)
  exact (List.cons.inj same).1

theorem not_has_rest (fresh : name ∉ rest.names) (h : name :: q <:+ p) : ¬rest.Has q p := by
  intro later
  obtain ⟨other, member, below⟩ := exists_name_of_has later
  rw [eq_of_suffix h below] at fresh
  exact fresh member

theorem has_append {r : List ν} : es.Has (r ++ q) p ↔ ∃ p', es.Has r p' ∧ p = p' ++ q := by
  induction es generalizing r with
  | nil => simp [Has]
  | file name rest ih =>
      simp only [Has, ih, or_and_right, exists_or, exists_eq_left, List.cons_append]
  | dir name sub rest ihSub ihRest =>
      have inner := @ihSub (name :: r)
      rw [List.cons_append] at inner
      simp only [Has, inner, ihRest, or_and_right, exists_or, exists_eq_left, List.cons_append]

theorem has_iff_relative : es.Has q p ↔ ∃ r, es.Has [] r ∧ p = r ++ q := has_append (r := [])

end Listing
end Pacon.Lib
