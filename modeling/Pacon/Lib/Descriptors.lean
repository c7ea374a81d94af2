import Mathlib.Data.Fintype.EquivFin

/-!
# File descriptors

The open descriptors of a process during one call, beside those that the call itself has opened and those
of others that it has closed.
-/

namespace Pacon.Lib

def lowest (fds : Finset Nat) : Nat := Nat.find (Infinite.exists_notMem_finset fds)

structure Descriptors where
  fds : Finset Nat
  own : Finset Nat
  foreign : Finset Nat

namespace Descriptors

def enter (fds : Finset Nat) : Descriptors := ⟨fds, ∅, ∅⟩

def opened (s : Descriptors) : Nat × Descriptors :=
  (lowest s.fds, { s with fds := insert (lowest s.fds) s.fds, own := insert (lowest s.fds) s.own })

def close (s : Descriptors) (fd : Nat) : Descriptors where
  fds := s.fds.erase fd
  own := s.own.erase fd
  foreign := if fd ∈ s.fds ∧ fd ∉ s.own then insert fd s.foreign else s.foreign

end Descriptors

variable {s : Descriptors} {fds : Finset Nat}

theorem lowest_notMem (fds : Finset Nat) : lowest fds ∉ fds := Nat.find_spec (Infinite.exists_notMem_finset fds)

theorem lowest_eq_zero : lowest fds = 0 ↔ 0 ∉ fds := Nat.find_eq_zero _

/-- The open descriptors are those that the call has found, and it has closed nobody else's. -/
structure Descriptors.Kept (fds : Finset Nat) (s : Descriptors) : Prop where
  same : s.fds = fds
  foreign : s.foreign = ∅

theorem kept_enter (fds : Finset Nat) : Descriptors.Kept fds (.enter fds) := ⟨rfl, rfl⟩

theorem kept_close_opened (kept : s.Kept fds) : (s.opened.2.close s.opened.1).Kept fds := by
  have free : lowest s.fds ∉ s.fds := lowest_notMem s.fds
  constructor
  · change (insert (lowest s.fds) s.fds).erase (lowest s.fds) = fds
    rw [Finset.erase_insert free, kept.same]
  · have own : ¬(s.opened.1 ∈ s.opened.2.fds ∧ s.opened.1 ∉ s.opened.2.own) := by simp [Descriptors.opened]
    rw [Descriptors.close, if_neg own]
    exact kept.foreign

theorem not_kept_opened (kept : s.Kept fds) : ¬s.opened.2.Kept fds := by
  intro still
  have free : lowest s.fds ∉ fds := kept.same ▸ lowest_notMem s.fds
  apply free
  rw [← still.same]
  exact Finset.mem_insert_self _ _

theorem kept_close_zero (kept : s.Kept fds) : (s.opened.2.close 0).Kept fds ↔ 0 ∉ fds := by
  constructor
  · intro still zero
    rw [← still.same] at zero
    exact Finset.notMem_erase 0 _ zero
  · intro free
    have first : s.opened.1 = 0 := lowest_eq_zero.mpr (kept.same ▸ free)
    rw [← first]
    exact kept_close_opened kept

end Pacon.Lib
