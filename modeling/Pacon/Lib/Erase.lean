import Mathlib.Data.Set.Insert
import Mathlib.Logic.Function.Basic

/-!
# Erasing a set of keys from a partial map

A map loses the keys of a set whose values meet a test, and keeps everything else. Erasures one after
the other are an erasure of the union, and two of them agree exactly if they agree on what is there.
-/

namespace Pacon.Lib
open Function

variable {α β : Type*} {p : β → Bool} {S T : Set α} {f g : α → Option β} {a : α} {b : β}

open Classical in
noncomputable def eraseOn (p : β → Bool) (S : Set α) (f : α → Option β) (a : α) : Option β :=
  if a ∈ S then (f a).filter fun b => !p b else f a

theorem eraseOn_of_notMem (h : a ∉ S) : eraseOn p S f a = f a := if_neg h

theorem eraseOn_of_mem (h : a ∈ S) : eraseOn p S f a = (f a).filter fun b => !p b := if_pos h

theorem eraseOn_none (h : f a = none) : eraseOn p S f a = none := by
  unfold eraseOn
  split <;> simp [h]

theorem eraseOn_fails (there : f a = some b) (fails : p b = false) : eraseOn p S f a = some b := by
  unfold eraseOn
  split <;> simp [there, fails]

theorem eraseOn_holds (member : a ∈ S) (there : f a = some b) (holds : p b = true) : eraseOn p S f a = none := by
  simp [eraseOn_of_mem member, there, holds]

@[simp] theorem eraseOn_empty (f : α → Option β) : eraseOn p ∅ f = f :=
  funext fun _ => eraseOn_of_notMem (Set.notMem_empty _)

theorem eraseOn_eraseOn (f : α → Option β) : eraseOn p T (eraseOn p S f) = eraseOn p (S ∪ T) f := by
  funext a
  cases there : f a with
  | none => rw [eraseOn_none (eraseOn_none there), eraseOn_none there]
  | some b =>
      cases test : p b with
      | false => rw [eraseOn_fails (eraseOn_fails there test) test, eraseOn_fails there test]
      | true =>
          by_cases first : a ∈ S
          · rw [eraseOn_none (eraseOn_holds first there test), eraseOn_holds (.inl first) there test]
          · by_cases second : a ∈ T
            · rw [eraseOn_holds (.inr second) there test]
              exact eraseOn_holds second ((eraseOn_of_notMem first).trans there) test
            · rw [eraseOn_of_notMem second, eraseOn_of_notMem first, eraseOn_of_notMem (by simp [first, second])]

theorem update_none [DecidableEq α] (f : α → Option β) (a : α) :
    update f a none = eraseOn (fun _ => true) {a} f := by
  funext a'
  by_cases here : a' = a
  · subst here
    rw [update_self, eraseOn_of_mem (Set.mem_singleton a')]
    simp
  · rw [update_of_ne here, eraseOn_of_notMem (by simpa using here)]

theorem eraseOn_eq_iff : eraseOn p S f = eraseOn p T f ↔ ∀ a b, f a = some b → p b = true → (a ∈ S ↔ a ∈ T) := by
  constructor
  · intro same a b there holds
    have at_a := congrFun same a
    constructor
    · intro member
      by_contra other
      rw [eraseOn_holds member there holds, eraseOn_of_notMem other, there] at at_a
      cases at_a
    · intro member
      by_contra other
      rw [eraseOn_holds member there holds, eraseOn_of_notMem other, there] at at_a
      cases at_a
  · intro agree
    funext a
    cases there : f a with
    | none => rw [eraseOn_none there, eraseOn_none there]
    | some b =>
        cases test : p b with
        | false => rw [eraseOn_fails there test, eraseOn_fails there test]
        | true =>
            by_cases member : a ∈ S
            · rw [eraseOn_holds member there test, eraseOn_holds ((agree a b there test).mp member) there test]
            · rw [eraseOn_of_notMem member, eraseOn_of_notMem (mt (agree a b there test).mpr member)]

theorem eq_eraseOn_iff : g = eraseOn p S f ↔
    (∀ a ∈ S, ∀ b, f a = some b → p b = true → g a = none) ∧
      ∀ a, (∀ b, f a = some b → p b = true → a ∉ S) → g a = f a := by
  have kept (a : α) (other : ∀ b, f a = some b → p b = true → a ∉ S) : eraseOn p S f a = f a := by
    cases there : f a with
    | none => exact eraseOn_none there
    | some b =>
        cases test : p b with
        | false => exact eraseOn_fails there test
        | true => rw [eraseOn_of_notMem (other b there test), there]
  constructor
  · rintro rfl
    exact ⟨fun a member b there holds => eraseOn_holds member there holds, kept⟩
  · rintro ⟨gone, same⟩
    funext a
    by_cases erased : ∃ b, f a = some b ∧ p b = true ∧ a ∈ S
    · obtain ⟨b, there, holds, member⟩ := erased
      rw [gone a member b there holds, eraseOn_holds member there holds]
    · have other : ∀ b, f a = some b → p b = true → a ∉ S := fun b there holds member =>
        erased ⟨b, there, holds, member⟩
      rw [same a other, kept a other]

theorem eq_eraseOn_true_iff :
    g = eraseOn (fun _ => true) S f ↔ (∀ a ∈ S, g a = none) ∧ ∀ a ∉ S, g a = f a := by
  rw [eq_eraseOn_iff]
  constructor
  · rintro ⟨gone, same⟩
    refine ⟨fun a member => ?_, fun a other => same a fun _ _ _ => other⟩
    cases there : f a with
    | none => exact (same a fun b here => absurd (there.symm.trans here) (by simp)).trans there
    | some b => exact gone a member b there rfl
  · rintro ⟨gone, same⟩
    refine ⟨fun a member _ _ _ => gone a member, fun a other => ?_⟩
    by_cases member : a ∈ S
    · cases there : f a with
      | none => exact gone a member
      | some b => exact absurd member (other b there rfl)
    · exact same a member

theorem ite_update_none [DecidableEq α] (f : α → Option β) (a : α) :
    (if (f a).any p then update f a none else f) = eraseOn p {a} f := by
  rw [eq_eraseOn_iff]
  constructor
  · rintro a' rfl b there holds
    simp [there, holds]
  · intro a' other
    split
    · rename_i test
      obtain ⟨b, there, holds⟩ := (Option.any_eq_true _ _).mp test
      refine update_of_ne (fun here => ?_) _ _
      subst here
      exact other b there holds rfl
    · rfl

end Pacon.Lib
