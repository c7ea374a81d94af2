import Mathlib.Data.Fintype.EquivFin
import Mathlib.Logic.Relation
import Mathlib.Order.WellFounded

/-!
# Who waits for whom

`r a b` reads as "`a` waits for `b`". Without a circle, some member of every nonempty group waits for
nobody of the group; a member that starts to wait closes a circle only along a way back to itself.
-/

namespace Pacon.Lib
open Relation

variable {α : Type*} {r q : α → α → Prop}

def Acyclic (r : α → α → Prop) : Prop := ∀ a, ¬TransGen r a a

theorem Acyclic.mono (acyclic : Acyclic r) (sub : ∀ a b, q a b → r a b) : Acyclic q :=
  fun a circle => acyclic a (TransGen.mono sub a a circle)

theorem reach_or_meets {i : α} (only : ∀ a b, q a b → a = i ∨ r a b) {a b : α}
    (way : ReflTransGen q a b) :
    ReflTransGen r a b ∨ ReflTransGen r a i ∧ ReflTransGen q a i ∧ ReflTransGen q i b := by
  induction way using ReflTransGen.head_induction_on with
  | refl => exact .inl .refl
  | @head a c first rest ih =>
      rcases only a c first with rfl | old
      · exact .inr ⟨.refl, .refl, .head first rest⟩
      · rcases ih with before | ⟨before, meets, after⟩
        · exact .inl (.head old before)
        · exact .inr ⟨.head old before, .head first meets, after⟩

theorem Acyclic.extend {i : α} (acyclic : Acyclic r) (only : ∀ a b, q a b → a = i ∨ r a b)
    (noReturn : ∀ b, q i b → ¬ReflTransGen r b i) : Acyclic q := by
  have not_at : ¬TransGen q i i := by
    intro circle
    obtain ⟨b, first, rest⟩ := TransGen.head'_iff.mp circle
    rcases reach_or_meets only rest with back | ⟨back, -⟩ <;> exact noReturn b first back
  intro a circle
  obtain ⟨b, first, rest⟩ := TransGen.head'_iff.mp circle
  rcases only a b first with rfl | old
  · exact not_at circle
  · rcases reach_or_meets only rest with back | ⟨-, meets, after⟩
    · exact acyclic a (TransGen.head' old back)
    · exact not_at ((TransGen.tail' after first).trans_left meets)

theorem Acyclic.exists_waits_for_none [Finite α] (acyclic : Acyclic r) {g : Set α}
    (nonempty : g.Nonempty) : ∃ a ∈ g, ∀ b ∈ g, ¬r a b := by
  have : IsTrans α (TransGen (flip r)) := ⟨fun _ _ _ => TransGen.trans⟩
  have : Std.Irrefl (TransGen (flip r)) := ⟨fun a circle => acyclic a (transGen_swap.mp circle)⟩
  have wf := Finite.wellFounded_of_trans_of_irrefl (TransGen (flip r))
  obtain ⟨a, member, least⟩ := wf.has_min g nonempty
  exact ⟨a, member, fun b inside waits => least b inside (.single waits)⟩

end Pacon.Lib
