import Mathlib.Logic.Function.Basic

/-!
# Things in places

A store whose places are empty or hold one thing each. Things that move to free places are still held, and no
two of them come to have one key.
-/

namespace Pacon.Lib
open Function
variable {π ι κ : Type*} [DecidableEq π]

def Holds (f : π → Option ι) (x : ι) : Prop := ∃ p, f p = some x

structure Arranged (key : ι → κ) (fits : π → ι → Prop) (f : π → Option ι) : Prop where
  fits : ∀ {p x}, f p = some x → fits p x
  unique : ∀ {p q x y}, f p = some x → f q = some y → key x = key y → p = q

def moveTo (f : π → Option ι) (p q : π) : π → Option ι := update (update f p none) q (f p)

inductive Moved (fits : π → ι → Prop) (f : π → Option ι) : (π → Option ι) → Prop
  | refl : Moved fits f f
  | step {g : π → Option ι} {p q : π} {x : ι} (moved : Moved fits f g) (thing : g p = some x) (free : g q = none)
      (fit : fits q x) : Moved fits f (moveTo g p q)

variable {key : ι → κ} {fits : π → ι → Prop} {f g h : π → Option ι} {p q : π} {x y : ι}

theorem Moved.single (thing : f p = some x) (free : f q = none) (fit : fits q x) : Moved fits f (moveTo f p q) :=
  .step .refl thing free fit

theorem Moved.trans (before : Moved fits f g) (after : Moved fits g h) : Moved fits f h := by
  induction after with
  | refl => exact before
  | step moved thing free fit ih => exact ih.step thing free fit

theorem moveTo_target (f : π → Option ι) (p q : π) : moveTo f p q q = f p :=
  update_self ..

theorem moveTo_source (ne : p ≠ q) : moveTo f p q p = none := by
  rw [moveTo, update_of_ne ne, update_self]

theorem moveTo_of_ne {r : π} (source : r ≠ p) (target : r ≠ q) : moveTo f p q r = f r := by
  rw [moveTo, update_of_ne target, update_of_ne source]

theorem holds_moveTo (thing : f p = some x) (free : f q = none) : Holds (moveTo f p q) y ↔ Holds f y := by
  have apart : p ≠ q := by
    rintro rfl
    cases free.symm.trans thing
  constructor
  · rintro ⟨r, place⟩
    by_cases target : r = q
    · rw [target, moveTo_target] at place
      exact ⟨p, place⟩
    by_cases source : r = p
    · rw [source, moveTo_source apart] at place
      cases place
    rw [moveTo_of_ne source target] at place
    exact ⟨r, place⟩
  · rintro ⟨r, place⟩
    by_cases source : r = p
    · exact ⟨q, by rw [moveTo_target, ← source, place]⟩
    have target : r ≠ q := by
      rintro rfl
      cases free.symm.trans place
    exact ⟨r, by rw [moveTo_of_ne source target, place]⟩

theorem Arranged.moveTo (arranged : Arranged key fits f) (thing : f p = some x) (free : f q = none)
    (fit : fits q x) : Arranged key fits (moveTo f p q) := by
  have apart : p ≠ q := by
    rintro rfl
    cases free.symm.trans thing
  -- where a thing of the new arrangement came from
  have origin {r : π} {z : ι} (place : Lib.moveTo f p q r = some z) :
      r = q ∧ z = x ∨ r ≠ p ∧ r ≠ q ∧ f r = some z := by
    by_cases target : r = q
    · rw [target, moveTo_target, thing] at place
      exact .inl ⟨target, (Option.some.inj place).symm⟩
    by_cases source : r = p
    · rw [source, moveTo_source apart] at place
      cases place
    rw [moveTo_of_ne source target] at place
    exact .inr ⟨source, target, place⟩
  constructor
  · intro r z place
    rcases origin place with ⟨rfl, rfl⟩ | ⟨-, -, place⟩
    · exact fit
    · exact arranged.fits place
  · intro r r' z z' place place' same
    rcases origin place with ⟨here, rfl⟩ | ⟨source, -, old⟩ <;>
      rcases origin place' with ⟨here', rfl⟩ | ⟨source', -, old'⟩
    · exact here.trans here'.symm
    · exact absurd (arranged.unique thing old' same).symm source'
    · exact absurd (arranged.unique old thing same) source
    · exact arranged.unique old old' same

theorem Moved.holds (moved : Moved fits f g) : Holds g y ↔ Holds f y := by
  induction moved with
  | refl => rfl
  | step moved thing free fit ih => rw [holds_moveTo thing free, ih]

theorem Moved.arranged (moved : Moved fits f g) (arranged : Arranged key fits f) : Arranged key fits g := by
  induction moved with
  | refl => exact arranged
  | step moved thing free fit ih => exact ih.moveTo thing free fit

theorem holds_put (free : f p = none) : Holds (update f p (some x)) y ↔ y = x ∨ Holds f y := by
  constructor
  · rintro ⟨q, place⟩
    by_cases here : q = p
    · rw [here, update_self] at place
      exact .inl (Option.some.inj place).symm
    · rw [update_of_ne here] at place
      exact .inr ⟨q, place⟩
  · rintro (rfl | ⟨q, place⟩)
    · exact ⟨p, update_self ..⟩
    · have apart : q ≠ p := by
        rintro rfl
        cases free.symm.trans place
      exact ⟨q, by rw [update_of_ne apart, place]⟩

theorem Arranged.put (arranged : Arranged key fits f) (fit : fits p x)
    (new : ∀ y, Holds f y → key y ≠ key x) : Arranged key fits (update f p (some x)) := by
  have origin {r : π} {z : ι} (place : update f p (some x) r = some z) : r = p ∧ z = x ∨ f r = some z := by
    by_cases here : r = p
    · rw [here, update_self] at place
      exact .inl ⟨here, (Option.some.inj place).symm⟩
    · rw [update_of_ne here] at place
      exact .inr place
  constructor
  · intro r z place
    rcases origin place with ⟨rfl, rfl⟩ | place
    · exact fit
    · exact arranged.fits place
  · intro r r' z z' place place' same
    rcases origin place with ⟨here, rfl⟩ | old <;> rcases origin place' with ⟨here', rfl⟩ | old'
    · exact here.trans here'.symm
    · exact absurd same.symm (new z' ⟨r', old'⟩)
    · exact absurd same (new z ⟨r, old⟩)
    · exact arranged.unique old old' same

omit [DecidableEq π] in
theorem Arranged.relabel {ρ : Type*} {fits' : ρ → ι → Prop} {e : ρ → π} {g : ρ → Option ι}
    (arranged : Arranged key fits f) (injective : Injective e) (same : ∀ p x, g p = some x → f (e p) = some x)
    (fit : ∀ p x, g p = some x → fits (e p) x → fits' p x) : Arranged key fits' g where
  fits place := fit _ _ place (arranged.fits (same _ _ place))
  unique place place' keys := injective (arranged.unique (same _ _ place) (same _ _ place') keys)

end Pacon.Lib
