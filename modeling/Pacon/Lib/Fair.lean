import Pacon.Lib.Transition
import Mathlib.Data.List.Basic

/-!
# Fair runs

Runs that never end, in which a system may also rest. An actor that is ready from some time on takes a
step some time later; what a chain of such steps leads to then comes about.
-/

namespace Pacon.Lib.System
variable {σ ε α : Type*}

structure EndlessRun (S : System σ ε) (ok : σ → ε → Prop) where
  state : Nat → σ
  event : Nat → Option ε
  start : S.init (state 0)
  next : ∀ n, match event n with
    | none => state (n + 1) = state n
    | some e => ok (state n) e ∧ S.step (state n) e = some (state (n + 1))

def Ready (S : System σ ε) (ok : σ → ε → Prop) (does : α → ε → Prop) (a : α) (s : σ) : Prop :=
  ∃ e t, does a e ∧ ok s e ∧ S.step s e = some t

variable {S : System σ ε} {ok : σ → ε → Prop} {does : α → ε → Prop} {P Q : σ → Prop}

def EndlessRun.Fair (run : S.EndlessRun ok) (does : α → ε → Prop) (a : α) : Prop :=
  ∀ n, (∀ m ≥ n, S.Ready ok does a (run.state m)) → ∃ m ≥ n, ∃ e, run.event m = some e ∧ does a e

namespace EndlessRun
variable (run : S.EndlessRun ok)

theorem next_cases (n : Nat) : run.event n = none ∧ run.state (n + 1) = run.state n ∨
    ∃ e, run.event n = some e ∧ ok (run.state n) e ∧ S.step (run.state n) e = some (run.state (n + 1)) := by
  have next := run.next n
  cases event : run.event n with
  | none =>
      rw [event] at next
      exact .inl ⟨rfl, next⟩
  | some e =>
      rw [event] at next
      exact .inr ⟨e, rfl, next⟩

theorem reachable (n : Nat) : S.Reachable ok (run.state n) := by
  induction n with
  | zero => exact .initial run.start
  | succ n ih =>
      rcases run.next_cases n with ⟨-, rest⟩ | ⟨e, -, guard, step⟩
      · exact rest ▸ ih
      · exact .next ih guard step

theorem invariant_from (keeps : ∀ s e t, S.Reachable ok s → P s → ok s e → S.step s e = some t → P t) {n m : Nat}
    (later : n ≤ m) (holds : P (run.state n)) : P (run.state m) := by
  induction later with
  | refl => exact holds
  | @step m _ ih =>
      rcases run.next_cases m with ⟨-, rest⟩ | ⟨e, -, guard, step⟩
      · exact rest ▸ ih
      · exact keeps _ _ _ (run.reachable m) ih guard step

def Advances (does : α → ε → Prop) (Q : σ → Prop) (stage : σ → Nat) (helper : σ → α) (s : σ) (e : ε) (t : σ) : Prop :=
  Q t ∨ stage t < stage s ∨ stage t = stage s ∧ helper t = helper s ∧ ¬does (helper s) e

variable (stage : σ → Nat) (helper : σ → α)

variable {stage helper} in
theorem helper_rests
    (keeps : ∀ s e t, S.Reachable ok s → P s → ¬Q s → ok s e → S.step s e = some t →
      P t ∧ Advances does Q stage helper s e t) {n m : Nat} (later : n ≤ m) (holds : P (run.state n))
    (never : ∀ m ≥ n, ¬Q (run.state m))
    (stays : ∀ m ≥ n, P (run.state m) → stage (run.state n) ≤ stage (run.state m)) :
    (P (run.state m) ∧ stage (run.state m) = stage (run.state n) ∧ helper (run.state m) = helper (run.state n)) ∧
    ∀ e, run.event m = some e → ¬does (helper (run.state n)) e := by
  have next {m : Nat} (later : n ≤ m) (at' : P (run.state m) ∧ stage (run.state m) = stage (run.state n) ∧
      helper (run.state m) = helper (run.state n)) :
      (P (run.state (m + 1)) ∧ stage (run.state (m + 1)) = stage (run.state n) ∧
        helper (run.state (m + 1)) = helper (run.state n)) ∧
      ∀ e, run.event m = some e → ¬does (helper (run.state n)) e := by
    obtain ⟨holds, same, who⟩ := at'
    rcases run.next_cases m with ⟨event, rest⟩ | ⟨e, event, guard, step⟩
    · rw [rest, event]
      exact ⟨⟨holds, same, who⟩, nofun⟩
    · obtain ⟨kept, advances⟩ := keeps _ e _ (run.reachable m) holds (never m later) guard step
      rcases advances with goal | less | ⟨stage', helper', other⟩
      · exact absurd goal (never (m + 1) (Nat.le_succ_of_le later))
      · have bound := stays (m + 1) (Nat.le_succ_of_le later) kept
        omega
      · rw [event]
        refine ⟨⟨kept, stage'.trans same, helper'.trans who⟩, ?_⟩
        intro e' is
        cases is
        rwa [← who]
  have along : P (run.state m) ∧ stage (run.state m) = stage (run.state n) ∧
      helper (run.state m) = helper (run.state n) := by
    induction later with
    | refl => exact ⟨holds, rfl, rfl⟩
    | step later ih => exact (next later ih).1
  exact ⟨along, (next later along).2⟩

theorem leadsTo (fair : ∀ a, run.Fair does a)
    (keeps : ∀ s e t, S.Reachable ok s → P s → ¬Q s → ok s e → S.step s e = some t →
      P t ∧ Advances does Q stage helper s e t)
    (ready : ∀ s, S.Reachable ok s → P s → ¬Q s → S.Ready ok does (helper s) s) {n : Nat}
    (holds : P (run.state n)) : ∃ m ≥ n, Q (run.state m) := by
  obtain ⟨k, at'⟩ : ∃ k, stage (run.state n) = k := ⟨_, rfl⟩
  induction k using Nat.strongRecOn generalizing n with
  | ind k ih =>
      by_contra never
      simp only [not_exists, not_and] at never
      have stays (m : Nat) (later : m ≥ n) (holds : P (run.state m)) : stage (run.state n) ≤ stage (run.state m) := by
        by_contra less
        obtain ⟨l, after, goal⟩ := ih _ (at' ▸ Nat.lt_of_not_le less) holds rfl
        exact never l (Nat.le_trans later after) goal
      have rests {m : Nat} (later : n ≤ m) := run.helper_rests keeps later holds never stays
      obtain ⟨m, later, e, event, moved⟩ := fair (helper (run.state n)) n fun m later => by
        obtain ⟨holds, -, who⟩ := (rests later).1
        rw [← who]
        exact ready _ (run.reachable m) holds (never m later)
      exact (rests later).2 e event moved

end EndlessRun

theorem run_append [∀ s e, Decidable (ok s e)] {s : σ} {es fs : List ε} :
    S.run ok s (es ++ fs) = (S.run ok s es).bind fun t => S.run ok t fs := by
  induction es generalizing s with
  | nil => rfl
  | cons e es ih =>
      simp only [List.cons_append, run]
      split
      · cases S.step s e with
        | none => rfl
        | some t => exact ih
      · rfl

theorem exists_endlessRun (S : System σ ε) (ok : σ → ε → Prop) [∀ s e, Decidable (ok s e)] (does : α → ε → Prop)
    {s : σ} (initial : S.init s) (es : List ε) (p : σ → Bool)
    (ends : (S.run ok s es).any p = true) (settled : ∀ t, p t = true → ∀ a, ¬S.Ready ok does a t) :
    ∃ run : S.EndlessRun ok, (∀ a, run.Fair does a) ∧ p (run.state es.length) = true := by
  obtain ⟨t, runs, holds⟩ : ∃ t, S.run ok s es = some t ∧ p t = true := by
    cases run : S.run ok s es with
    | none => simp [run] at ends
    | some t => exact ⟨t, rfl, by simpa [run] using ends⟩
  have split (n : Nat) : ∃ u, S.run ok s (es.take n) = some u ∧ S.run ok u (es.drop n) = some t := by
    rw [← List.take_append_drop n es, run_append] at runs
    exact Option.bind_eq_some_iff.mp runs
  choose state before after using split
  have ends (n : Nat) (beyond : es.length ≤ n) : state n = t := by
    have whole := before n
    rw [List.take_of_length_le beyond, runs] at whole
    exact (Option.some.inj whole).symm
  refine ⟨⟨state, fun n => es[n]?, ?_, ?_⟩, ?_, (ends _ (Nat.le_refl _)).symm ▸ holds⟩
  · have first := before 0
    rw [List.take_zero] at first
    exact Option.some.inj first ▸ initial
  · intro n
    cases event : es[n]? with
    | none =>
        have beyond := List.getElem?_eq_none_iff.mp event
        exact (ends (n + 1) (by omega)).trans (ends n beyond).symm
    | some e =>
        have step := before (n + 1)
        rw [List.take_add_one, event, run_append, before n] at step
        simp only [Option.toList_some, Option.bind_some, run] at step
        split at step
        · rename_i guard
          obtain ⟨u, does, rest⟩ := Option.bind_eq_some_iff.mp step
          exact ⟨guard, does.trans (congrArg some (Option.some.inj rest))⟩
        · cases step
  · intro a n always
    have last : S.Ready ok does a (state (max n es.length)) := always _ (Nat.le_max_left ..)
    rw [ends _ (Nat.le_max_right ..)] at last
    exact absurd last (settled t holds a)

end Pacon.Lib.System
