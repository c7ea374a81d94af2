import Mathlib.Logic.Function.Basic

/-!
# A lock by compare-and-swap

The lock is an item of a versioned store that is free or not. A client that has seen it free swaps it
at the version it has seen, and sets it free when it leaves. Then at most one client is inside, even if
the item is made unavailable by others.
-/

namespace Pacon.Lib
open Function

inductive Hold
  | outside
  | saw (version : Nat)
  | inside

structure CasLock (κ : Type*) where
  version : Nat
  free : Bool
  hold : κ → Hold

namespace CasLock
variable {κ : Type*} [DecidableEq κ] {s t : CasLock κ}

inductive Move (s : CasLock κ) : CasLock κ → Prop
  | see (c : κ) (free : s.free = true) (out : s.hold c ≠ .inside) :
      Move s { s with hold := update s.hold c (.saw s.version) }
  | leave (c : κ) (out : s.hold c ≠ .inside) : Move s { s with hold := update s.hold c .outside }
  | enter (c : κ) {version : Nat} (saw : s.hold c = .saw s.version) (newer : s.version < version) :
      Move s ⟨version, false, update s.hold c .inside⟩
  | stay (c : κ) (held : s.hold c = .inside) : Move s { s with hold := update s.hold c .inside }
  | exit (c : κ) {version : Nat} (held : s.hold c = .inside) (newer : s.version < version) :
      Move s ⟨version, true, update s.hold c .outside⟩
  | block {version : Nat} (newer : s.version < version) : Move s ⟨version, false, s.hold⟩

structure Exclusive (s : CasLock κ) : Prop where
  one : ∀ c d, s.hold c = .inside → s.hold d = .inside → c = d
  closed : ∀ c, s.hold c = .inside → s.free = false
  current : ∀ c version, s.hold c = .saw version →
    version ≤ s.version ∧ (version = s.version → s.free = true)

omit [DecidableEq κ] in
theorem Exclusive.older (h : Exclusive s) {c : κ} {seen version : Nat} (saw : s.hold c = .saw seen)
    (newer : s.version < version) : seen < version :=
  Nat.lt_of_le_of_lt (h.current c seen saw).1 newer

theorem Exclusive.move (h : Exclusive s) (m : Move s t) : Exclusive t := by
  have inside : ∀ {hold : Hold} {c d : κ}, hold ≠ .inside → update s.hold c hold d = .inside →
      s.hold d = .inside := by
    intro hold c d other held
    by_cases here : d = c
    · subst here
      rw [update_self] at held
      exact absurd held other
    · rwa [update_of_ne here] at held
  have seen : ∀ {hold : Hold} {c d : κ} {version : Nat}, update s.hold c hold d = .saw version →
      hold = .saw version ∨ s.hold d = .saw version := by
    intro hold c d version saw
    by_cases here : d = c
    · subst here
      rw [update_self] at saw
      exact .inl saw
    · rw [update_of_ne here] at saw
      exact .inr saw
  cases m with
  | see c free out =>
      have other : Hold.saw s.version ≠ .inside := by rintro ⟨⟩
      refine ⟨fun d e hd he => h.one d e (inside other hd) (inside other he),
        fun d hd => h.closed d (inside other hd), fun d version saw => ?_⟩
      rcases seen saw with now | before
      · cases now
        exact ⟨Nat.le_refl _, fun _ => free⟩
      · exact h.current d version before
  | leave c out =>
      have other : Hold.outside ≠ .inside := by rintro ⟨⟩
      refine ⟨fun d e hd he => h.one d e (inside other hd) (inside other he),
        fun d hd => h.closed d (inside other hd), fun d version saw => ?_⟩
      rcases seen saw with now | before
      · cases now
      · exact h.current d version before
  | enter c saw newer =>
      have nobody : ∀ d, s.hold d ≠ .inside := fun d held => by
        have free := (h.current c _ saw).2 rfl
        rw [h.closed d held] at free
        cases free
      have only : ∀ d, update s.hold c .inside d = .inside → d = c := fun d held => by
        by_contra other
        rw [update_of_ne other] at held
        exact nobody d held
      refine ⟨fun d e hd he => (only d hd).trans (only e he).symm, fun _ _ => rfl, fun d version seen' => ?_⟩
      rcases seen seen' with now | before
      · cases now
      · have old := h.older before newer
        exact ⟨Nat.le_of_lt old, fun same => absurd same (Nat.ne_of_lt old)⟩
  | stay c held =>
      rw [← held, update_eq_self]
      exact h
  | exit c held newer =>
      have other : Hold.outside ≠ .inside := by rintro ⟨⟩
      have nobody : ∀ d, update s.hold c .outside d ≠ .inside := fun d held' => by
        have same := h.one d c (inside other held') held
        rw [same, update_self] at held'
        cases held'
      refine ⟨fun d _ hd _ => absurd hd (nobody d), fun d hd => absurd hd (nobody d), fun d version seen' => ?_⟩
      rcases seen seen' with now | before
      · cases now
      · exact ⟨Nat.le_of_lt (h.older before newer), fun _ => rfl⟩
  | block newer =>
      refine ⟨h.one, fun _ _ => rfl, fun d version before => ?_⟩
      have old := h.older before newer
      exact ⟨Nat.le_of_lt old, fun same => absurd same (Nat.ne_of_lt old)⟩

omit [DecidableEq κ] in
theorem Exclusive.initial {version : Nat} {free : Bool} : Exclusive (⟨version, free, fun _ => .outside⟩ : CasLock κ) :=
  ⟨fun _ _ h => (by cases h), fun _ h => (by cases h), fun _ _ h => (by cases h)⟩

end CasLock
end Pacon.Lib
