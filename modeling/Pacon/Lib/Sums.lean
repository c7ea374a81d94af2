import Mathlib.Algebra.BigOperators.Group.Finset.Basic
import Mathlib.Algebra.Order.BigOperators.Group.Finset
import Mathlib.Data.Int.Order.Basic

namespace Pacon.Lib
open Finset

variable {κ : Type*} [Fintype κ] [DecidableEq κ]

theorem sum_change {f g : κ → Nat} (c : κ) (same : ∀ x, x ≠ c → g x = f x) :
    ∑ x, g x + f c = ∑ x, f x + g c := by
  have outside : ∑ x ∈ univ.erase c, g x = ∑ x ∈ univ.erase c, f x :=
    sum_congr rfl fun x other => same x (ne_of_mem_erase other)
  have after := add_sum_erase univ g (mem_univ c)
  have before := add_sum_erase univ f (mem_univ c)
  omega

theorem sum_update {α : Type*} (f : κ → α) (amount : α → Nat) (c : κ) (v : α) :
    ∑ x, amount (Function.update f c v x) + amount (f c) = ∑ x, amount (f x) + amount v := by
  have change := sum_change (f := fun x => amount (f x)) (g := fun x => amount (Function.update f c v x)) c
    fun x other => by rw [Function.update_of_ne other]
  rwa [Function.update_self] at change

omit [DecidableEq κ] in
theorem sum_le_of_raise {f g : κ → Nat} {most : Nat} (raise : ∀ x, g x ≤ f x + most) :
    ∑ x, g x ≤ ∑ x, f x + Fintype.card κ * most := by
  calc ∑ x, g x ≤ ∑ x, (f x + most) := sum_le_sum fun x _ => raise x
    _ = ∑ x, f x + Fintype.card κ * most := by
        rw [sum_add_distrib, sum_const, card_univ]
        rfl

omit [DecidableEq κ] in
theorem eq_share_of_total_le {f share : κ → Nat} (below : ∀ x, f x ≤ share x)
    (total : ∑ x, share x ≤ ∑ x, f x) (c : κ) : f c = share c := by
  have equal := (sum_eq_sum_iff_of_le fun x _ => below x).mp
    (le_antisymm (sum_le_sum fun x _ => below x) total)
  exact equal c (mem_univ c)

omit [DecidableEq κ] in
theorem exists_below_share {f share : κ → Nat} (total : ∑ x, f x < ∑ x, share x) :
    ∃ c, f c < share c := by
  obtain ⟨c, -, less⟩ := exists_lt_of_sum_lt total
  exact ⟨c, less⟩

end Pacon.Lib
