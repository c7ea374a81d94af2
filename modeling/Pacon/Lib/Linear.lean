import Pacon.Lib.Transition

/-!
# Operations that take effect at an instant

A concurrent system implements an object whose operations are functions if each of its operations takes
effect in one step between its start and its return: a step of its own that does to the object what the
operation does, or an instant at which the operation leaves the object as it is.
-/

namespace Pacon.Lib

structure Object (α ω ρ : Type*) where
  apply : α → ω → α × ρ

namespace System
variable {σ ε α ω ρ : Type*} (S : System σ ε) (ok : σ → ε → Prop) (object : Object α ω ρ) (view : σ → α)

def TakesEffect (own : ε → Prop) (op : ω) (result : ρ) (s t : σ) : Prop :=
  (∃ v e w, S.Follows ok s v ∧ own e ∧ ok v e ∧ S.step v e = some w ∧ S.Follows ok w t ∧
    object.apply (view v) op = (view w, result)) ∨
  ∃ v, S.Follows ok s v ∧ S.Follows ok v t ∧ object.apply (view v) op = (view v, result)

variable {S ok object view} {own : ε → Prop} {op : ω} {result : ρ} {s t u : σ} {e : ε}

theorem TakesEffect.now (follows : S.Follows ok s t) (effect : object.apply (view t) op = (view t, result)) :
    S.TakesEffect ok object view own op result s t :=
  .inr ⟨t, follows, .refl, effect⟩

theorem TakesEffect.step (follows : S.Follows ok s t) (mine : own e) (guard : ok t e) (step : S.step t e = some u)
    (effect : object.apply (view t) op = (view u, result)) : S.TakesEffect ok object view own op result s u :=
  .inl ⟨t, e, u, follows, mine, guard, step, .refl, effect⟩

theorem TakesEffect.next (h : S.TakesEffect ok object view own op result s t) (guard : ok t e)
    (step : S.step t e = some u) : S.TakesEffect ok object view own op result s u := by
  rcases h with ⟨v, e', w, before, mine, guard', does, after, effect⟩ | ⟨v, before, after, effect⟩
  · exact .inl ⟨v, e', w, before, mine, guard', does, after.next guard step, effect⟩
  · exact .inr ⟨v, before, after.next guard step, effect⟩

structure Usage (σ ε κ ω ρ : Type*) where
  starts : ε → Option (κ × ω)
  own : κ → ε → Prop
  undecided : σ → κ → Option ω
  returns : σ → κ → Option ρ

variable {κ : Type*} (usage : Usage σ ε κ ω ρ)

def Usage.During (ok : σ → ε → Prop) (c : κ) (s : σ) (e : ε) : Prop := ok s e ∧ ∀ op, usage.starts e ≠ some (c, op)

variable {usage}

theorem Follows.during {c : κ} (f : S.Follows (usage.During ok c) s t) : S.Follows ok s t := by
  induction f with
  | refl => exact .refl
  | next _ guard step ih => exact ih.next guard.1 step

variable (S ok object view usage)

/-- Each operation takes effect between its start and its return; nothing but an operation that has not
taken effect before changes the object, and it returns what came of it. -/
structure Linearizable : Prop where
  effect : ∀ {s e u t c op result}, S.Reachable ok s → ok s e → usage.starts e = some (c, op) → S.step s e = some u →
    S.Follows (usage.During ok c) u t → usage.returns t c = some result →
    S.TakesEffect (usage.During ok c) object view (usage.own c) op result u t
  change : ∀ {s e t}, S.Reachable ok s → ok s e → S.step s e = some t → view t = view s ∨
    ∃ c op result, usage.own c e ∧ usage.undecided s c = some op ∧ usage.undecided t c = none ∧
      object.apply (view s) op = (view t, result) ∧
      ∀ {u result'}, S.Follows (usage.During ok c) t u → usage.returns u c = some result' → result' = result
  once : ∀ {s e t c}, S.Reachable ok s → ok s e → S.step s e = some t → usage.undecided s c = none →
    (∀ op, usage.starts e ≠ some (c, op)) → usage.undecided t c = none

end System
end Pacon.Lib
