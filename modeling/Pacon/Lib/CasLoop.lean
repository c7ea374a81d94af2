import Mathlib.Data.List.Basic
import Mathlib.Logic.Function.Basic

/-!
# Retry loops around compare-and-swap

Clients read an item of a versioned store, prepare a new value from what they have read and swap it
in if the version is still the same. Whatever the loops look like, the item holds what the
operations that were swapped in make of its first value, one after the other.
-/

namespace Pacon.Lib

structure Item (α : Type*) where
  version : Nat
  value : α

structure Attempt (ω α : Type*) where
  op : ω
  version : Nat
  value : α

section
variable {κ ω α β : Type*} (effect : ω → α → α → Prop)

inductive Applied (first : α) : List ω → α → Prop
  | nil : Applied first [] first
  | snoc {ops op v w} : Applied first ops v → effect op v w → Applied first (ops ++ [op]) w

inductive CasMove (item : Item α) (attempt : κ → Option (Attempt ω α)) (swapped : List (κ × ω)) :
    Item α → (κ → Option (Attempt ω α)) → List (κ × ω) → Prop
  | hold {attempt'} (prepared : ∀ c a, attempt' c = some a →
      attempt c = some a ∨ a.version = item.version ∧ effect a.op item.value a.value) :
      CasMove item attempt swapped item attempt' swapped
  | swap {c a version attempt'} (own : attempt c = some a) (current : a.version = item.version)
      (newer : item.version < version) (kept : ∀ d b, attempt' d = some b → attempt d = some b) :
      CasMove item attempt swapped ⟨version, a.value⟩ attempt' (swapped ++ [(c, a.op)])

structure Consistent (first : α) (item : Item α) (attempt : κ → Option (Attempt ω α))
    (swapped : List (κ × ω)) : Prop where
  applied : Applied effect first (swapped.map Prod.snd) item.value
  known : ∀ c a, attempt c = some a →
    a.version ≤ item.version ∧ (a.version = item.version → effect a.op item.value a.value)

variable {effect} {first : α} {item item' : Item α} {attempt attempt' : κ → Option (Attempt ω α)}
  {swapped swapped' : List (κ × ω)}

theorem Consistent.initial (none : ∀ c, attempt c = none) :
    Consistent effect item.value item attempt [] where
  applied := .nil
  known c a prepared := by
    rw [none c] at prepared
    cases prepared

theorem Consistent.move (h : Consistent effect first item attempt swapped)
    (move : CasMove effect item attempt swapped item' attempt' swapped') :
    Consistent effect first item' attempt' swapped' := by
  cases move with
  | hold prepared =>
      refine ⟨h.applied, fun c a holds => ?_⟩
      rcases prepared c a holds with before | ⟨current, made⟩
      · exact h.known c a before
      · exact ⟨Nat.le_of_eq current, fun _ => made⟩
  | swap own current newer kept =>
      refine ⟨?_, fun d b holds => ?_⟩
      · rw [List.map_append]
        exact h.applied.snoc ((h.known _ _ own).2 current)
      · have old := Nat.lt_of_le_of_lt (h.known d b (kept d b holds)).1 newer
        exact ⟨Nat.le_of_lt old, fun same => absurd same (Nat.ne_of_lt old)⟩

section Client
variable [DecidableEq κ]
open Function

theorem CasMove.drop (c : κ) :
    CasMove effect item attempt swapped item (update attempt c none) swapped := by
  refine .hold fun d a holds => .inl ?_
  by_cases same : d = c
  · rw [same, update_self] at holds
    cases holds
  · rwa [update_of_ne same] at holds

theorem CasMove.prepare (c : κ) {a : Attempt ω α} (current : a.version = item.version)
    (made : effect a.op item.value a.value) :
    CasMove effect item attempt swapped item (update attempt c (some a)) swapped := by
  refine .hold fun d b holds => ?_
  by_cases same : d = c
  · rw [same, update_self] at holds
    cases holds
    exact .inr ⟨current, made⟩
  · rw [update_of_ne same] at holds
    exact .inl holds

theorem CasMove.store {c : κ} {a : Attempt ω α} {version : Nat} (own : attempt c = some a)
    (current : a.version = item.version) (newer : item.version < version) :
    CasMove effect item attempt swapped ⟨version, a.value⟩ (update attempt c none)
      (swapped ++ [(c, a.op)]) := by
  refine .swap own current newer fun d b holds => ?_
  by_cases same : d = c
  · rw [same, update_self] at holds
    cases holds
  · rwa [update_of_ne same] at holds

end Client

theorem Applied.foldl {ops : List ω} {v : α} {P : α → Prop} {f : α → β} {g : β → ω → β}
    (h : Applied effect first ops v) (start : P first)
    (step : ∀ op v w, P v → effect op v w → P w ∧ f w = g (f v) op) :
    P v ∧ f v = ops.foldl g (f first) := by
  induction h with
  | nil => exact ⟨start, rfl⟩
  | @snoc ops op v w before does ih =>
      obtain ⟨after, value⟩ := step op v w ih.1 does
      refine ⟨after, ?_⟩
      rw [value, ih.2, List.foldl_append]
      rfl

end
end Pacon.Lib
