import Mathlib.Logic.Function.Basic

/-!
# Transition systems with an executable step

A system steps by events; `none` means that the event cannot happen in the state. Runs are taken
under a guard `ok`, a condition on the state before the step and the event.
-/

namespace Pacon.Lib

structure System (σ ε : Type*) where
  init : σ → Prop
  step : σ → ε → Option σ

namespace System
variable {σ ε : Type*} (S : System σ ε) (ok : σ → ε → Prop)

/-- The states on the runs from an initial state whose every step meets `ok`. -/
inductive Reachable : σ → Prop
  | initial {s} : S.init s → Reachable s
  | next {s e t} : Reachable s → ok s e → S.step s e = some t → Reachable t

/-- `t` can follow `s` after some steps that meet `ok`. -/
inductive Follows (s : σ) : σ → Prop
  | refl : Follows s s
  | next {t e u} : Follows s t → ok t e → S.step t e = some u → Follows s u

/-- Executes the events in order, as long as each can happen and meets the guard. -/
def run [∀ s e, Decidable (ok s e)] : σ → List ε → Option σ
  | s, [] => some s
  | s, e :: es => if ok s e then (S.step s e).bind fun t => run t es else none

variable {S ok}

theorem Reachable.invariant {P : σ → Prop} (initial : ∀ s, S.init s → P s)
    (next : ∀ s e t, S.Reachable ok s → P s → ok s e → S.step s e = some t → P t)
    {s : σ} (h : S.Reachable ok s) : P s := by
  induction h with
  | initial hs => exact initial _ hs
  | next reach guard step ih => exact next _ _ _ reach ih guard step

theorem Reachable.mono {ok' : σ → ε → Prop}
    (weaker : ∀ s e, S.Reachable ok s → ok s e → ok' s e) {s : σ} (h : S.Reachable ok s) :
    S.Reachable ok' s := by
  induction h with
  | initial hs => exact .initial hs
  | next reach guard step ih => exact .next ih (weaker _ _ reach guard) step

theorem Reachable.follows {s t : σ} (h : S.Reachable ok s) (f : S.Follows ok s t) :
    S.Reachable ok t := by
  induction f with
  | refl => exact h
  | next _ guard step ih => exact .next ih guard step

theorem Follows.invariant {P : σ → Prop} {s t : σ} (f : S.Follows ok s t) (hs : P s)
    (next : ∀ s e t, P s → ok s e → S.step s e = some t → P t) : P t := by
  induction f with
  | refl => exact hs
  | next _ guard step ih => exact next _ _ _ ih guard step

theorem follows_of_run [∀ s e, Decidable (ok s e)] {s t : σ} {es : List ε}
    (h : S.run ok s es = some t) : S.Follows ok s t := by
  suffices ∀ {u}, S.Follows ok u s → S.Follows ok u t from this .refl
  intro u f
  induction es generalizing s with
  | nil =>
      simp only [run, Option.some.injEq] at h
      exact h ▸ f
  | cons e es ih =>
      simp only [run] at h
      split at h
      · rename_i guard
        obtain ⟨v, step, rest⟩ := Option.bind_eq_some_iff.mp h
        exact ih rest (f.next guard step)
      · cases h

theorem reachable_of_run [∀ s e, Decidable (ok s e)] {s t : σ} {es : List ε}
    (initial : S.init s) (h : S.run ok s es = some t) : S.Reachable ok t :=
  Reachable.follows (.initial initial) (follows_of_run h)

theorem exists_reachable (S : System σ ε) (ok : σ → ε → Prop) [∀ s e, Decidable (ok s e)] {s : σ}
    (initial : S.init s) (es : List ε) (p : σ → Bool) (h : (S.run ok s es).any p = true) :
    ∃ t, S.Reachable ok t ∧ p t = true := by
  cases run : S.run ok s es with
  | none => simp [run] at h
  | some t => exact ⟨t, reachable_of_run initial run, by simpa [run] using h⟩

def recording {δ : Type*} (S : System σ ε) (label : σ → ε → Option δ) : System (σ × List δ) ε where
  init x := S.init x.1 ∧ x.2 = []
  step x e := (S.step x.1 e).map fun t => (t, x.2 ++ (label x.1 e).toList)

theorem Reachable.recorded {δ : Type*} {label : σ → ε → Option δ} {P : σ → List δ → Prop}
    (initial : ∀ s, S.init s → P s [])
    (next : ∀ s record e t, S.Reachable ok s → P s record → ok s e → S.step s e = some t →
      P t (record ++ (label s e).toList))
    {x : σ × List δ} (h : (S.recording label).Reachable (fun x e => ok x.1 e) x) :
    S.Reachable ok x.1 ∧ P x.1 x.2 := by
  induction h with
  | initial start =>
      obtain ⟨start, empty⟩ := start
      exact ⟨.initial start, empty ▸ initial _ start⟩
  | next _ guard step ih =>
      obtain ⟨t, does, rfl⟩ := Option.map_eq_some_iff.mp step
      exact ⟨ih.1.next guard does, next _ _ _ _ ih.1 ih.2 guard does⟩

end System
end Pacon.Lib
