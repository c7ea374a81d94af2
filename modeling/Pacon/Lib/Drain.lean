import Pacon.Lib.Transition
import Mathlib.Algebra.Ring.Nat

/-!
# Steps that run out

Steps that use up work. Runs of them are no longer than the work there is, with what the events bring in,
and steps that bring in none lead to a state that allows no more of them.
-/

namespace Pacon.Lib.System
variable {σ ε : Type*}

def Settled (S : System σ ε) (ok : σ → ε → Prop) (s : σ) : Prop :=
  ∀ e t, ok s e → S.step s e ≠ some t

structure Charges (S : System σ ε) (ok : σ → ε → Prop) (P : σ → Prop) (work : σ → Nat) (brings : ε → Nat) : Prop where
  keeps : ∀ {s e t}, P s → ok s e → S.step s e = some t → P t
  less : ∀ {s e t}, P s → ok s e → S.step s e = some t → work t < work s + brings e

structure UsesUp (S : System σ ε) (ok : σ → ε → Prop) (P : σ → Prop) (work : σ → Nat) : Prop where
  keeps : ∀ {s e t}, P s → ok s e → S.step s e = some t → P t
  less : ∀ {s e t}, P s → ok s e → S.step s e = some t → work t < work s

variable {S : System σ ε} {ok : σ → ε → Prop} {P : σ → Prop} {work : σ → Nat} {s t : σ}

theorem Settled.step_eq_none (settled : S.Settled ok s) {e : ε} (guard : ok s e) : S.step s e = none :=
  Option.eq_none_iff_forall_ne_some.mpr fun t => settled e t guard

theorem Charges.length_run [∀ s e, Decidable (ok s e)] {brings : ε → Nat} (charges : S.Charges ok P work brings)
    (holds : P s) {es : List ε} (runs : S.run ok s es = some t) :
    P t ∧ es.length + work t ≤ work s + (es.map brings).sum := by
  induction es generalizing s with
  | nil =>
      cases runs
      exact ⟨holds, Nat.le_of_eq (Nat.zero_add _)⟩
  | cons e es ih =>
      rw [run] at runs
      split at runs
      · rename_i guard
        obtain ⟨u, step, rest⟩ := Option.bind_eq_some_iff.mp runs
        have later := ih (charges.keeps holds guard step) rest
        have less := charges.less holds guard step
        refine ⟨later.1, ?_⟩
        rw [List.length_cons, List.map_cons, List.sum_cons]
        omega
      · cases runs

theorem UsesUp.charges (uses : S.UsesUp ok P work) : S.Charges ok P work fun _ => 0 :=
  ⟨uses.keeps, uses.less⟩

theorem UsesUp.length_run [∀ s e, Decidable (ok s e)] (uses : S.UsesUp ok P work) (holds : P s)
    {es : List ε} (runs : S.run ok s es = some t) : es.length + work t ≤ work s := by
  have bound := (uses.charges.length_run holds runs).2
  rwa [List.map_const', List.sum_replicate_nat, Nat.mul_zero, Nat.add_zero] at bound

theorem UsesUp.settles (uses : S.UsesUp ok P work) (holds : P s) :
    ∃ t, S.Follows ok s t ∧ P t ∧ S.Settled ok t := by
  suffices ∀ n, ∀ u, S.Follows ok s u → P u → work u ≤ n →
      ∃ t, S.Follows ok s t ∧ P t ∧ S.Settled ok t from this _ s .refl holds (Nat.le_refl _)
  intro n
  induction n with
  | zero =>
      intro u follows holds none
      refine ⟨u, follows, holds, fun e t guard step => ?_⟩
      have less := uses.less holds guard step
      omega
  | succ n ih =>
      intro u follows holds bound
      by_cases settled : S.Settled ok u
      · exact ⟨u, follows, holds, settled⟩
      · simp only [Settled, not_forall, not_not] at settled
        obtain ⟨e, t, guard, step⟩ := settled
        have less := uses.less holds guard step
        exact ih t (follows.next guard step) (uses.keeps holds guard step) (by omega)

end Pacon.Lib.System
