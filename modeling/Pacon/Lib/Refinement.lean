import Pacon.Lib.Transition

/-!
# One system in another

Where every step of one system is a step of another, or none, between states that a relation puts side by
side, what holds in all states of the other holds beside those of the first. The relation may be a function.
-/

namespace Pacon.Lib.System
variable {σ τ ε φ : Type*}

structure Simulates (S : System σ ε) (ok : σ → ε → Prop) (T : System τ φ) (ok' : τ → φ → Prop) (R : σ → τ → Prop) :
    Prop where
  init : ∀ {s}, S.init s → ∃ a, T.init a ∧ R s a
  step : ∀ {s a e t}, R s a → ok s e → S.step s e = some t →
    R t a ∨ ∃ e' b, ok' a e' ∧ T.step a e' = some b ∧ R t b

structure Projects (S : System σ ε) (ok : σ → ε → Prop) (T : System τ φ) (ok' : τ → φ → Prop) (f : σ → τ) :
    Prop where
  init : ∀ {s}, S.init s → T.init (f s)
  step : ∀ {s e t}, ok s e → S.step s e = some t →
    f t = f s ∨ ∃ e', ok' (f s) e' ∧ T.step (f s) e' = some (f t)

variable {S : System σ ε} {ok : σ → ε → Prop} {T : System τ φ} {ok' : τ → φ → Prop} {R : σ → τ → Prop}
  {f : σ → τ} {s t : σ}

theorem Simulates.reachable (simulates : S.Simulates ok T ok' R) (h : S.Reachable ok s) :
    ∃ a, T.Reachable ok' a ∧ R s a := by
  induction h with
  | initial start =>
      obtain ⟨a, init, beside⟩ := simulates.init start
      exact ⟨a, .initial init, beside⟩
  | next _ guard step ih =>
      obtain ⟨a, reach, beside⟩ := ih
      rcases simulates.step beside guard step with same | ⟨e, b, guard', step', beside'⟩
      · exact ⟨a, reach, same⟩
      · exact ⟨b, .next reach guard' step', beside'⟩

theorem Projects.simulates (projects : S.Projects ok T ok' f) : S.Simulates ok T ok' fun s a => a = f s where
  init start := ⟨_, projects.init start, rfl⟩
  step beside guard step := by
    subst beside
    rcases projects.step guard step with same | ⟨e, guard', step'⟩
    · exact .inl same.symm
    · exact .inr ⟨e, _, guard', step', rfl⟩

theorem Projects.reachable (projects : S.Projects ok T ok' f) (h : S.Reachable ok s) : T.Reachable ok' (f s) := by
  obtain ⟨a, reach, rfl⟩ := projects.simulates.reachable h
  exact reach

theorem Projects.follows (projects : S.Projects ok T ok' f) (h : S.Follows ok s t) :
    T.Follows ok' (f s) (f t) := by
  induction h with
  | refl => exact .refl
  | next _ guard step ih =>
      rcases projects.step guard step with same | ⟨e, guard', step'⟩
      · rwa [same]
      · exact .next ih guard' step'

end Pacon.Lib.System
