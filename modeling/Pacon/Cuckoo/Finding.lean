import Pacon.Cuckoo.Locks

namespace Pacon.Cuckoo
open Function Lib
variable {κ α : Type*} {hash : κ → BitVec 64} {t u : Table κ α} {key : κ} {value : α} {i₁ i₂ : Nat}

def Has (t : Table κ α) (key : κ) (value : α) : Prop := ∃ x, Holds t.place x ∧ x.key = key ∧ x.mapped = value

theorem Locked.has (locked : Locked hash t u) : Has u key value ↔ Has t key value := by
  simp only [Has, locked.tidied.holds]

theorem bucketsOf_congr (same : u.buckets.hashpower = t.buckets.hashpower) : bucketsOf hash u key = bucketsOf hash t key := by
  rw [bucketsOf, bucketsOf, same]

structure Secured (hash : κ → BitVec 64) (t : Table κ α) (key : κ) (i₁ i₂ : Nat) : Prop where
  buckets : bucketsOf hash t key = (i₁, i₂)
  first : Ready t i₁
  second : Ready t i₂

theorem Locked.secured (locked : Locked hash t u) (secured : Secured hash t key i₁ i₂) : Secured hash u key i₁ i₂ where
  buckets := (bucketsOf_congr locked.tidied.hashpower).trans secured.buckets
  first := locked.ready secured.first
  second := locked.ready secured.second

theorem Secured.home (secured : Secured hash t key i₁ i₂) {i : Nat} :
    Home t.buckets.hashpower (hash key) i ↔ i = i₁ ∨ i = i₂ := by
  have buckets := secured.buckets
  rw [bucketsOf, Prod.mk.injEq] at buckets
  rw [Home, buckets.1]
  rw [buckets.1] at buckets
  rw [buckets.2]

theorem snapshotAndLockTwo_locked (valid : Valid hash t) (remaining : Remaining t) (key : κ) :
    Locked hash t (snapshotAndLockTwo hash t key) ∧
      Secured hash (snapshotAndLockTwo hash t key) key (bucketsOf hash t key).1 (bucketsOf hash t key).2 := by
  obtain ⟨locked, first, second⟩ := lockTwo_locked valid remaining (bucketsOf hash t key).1 (bucketsOf hash t key).2
  exact ⟨locked, bucketsOf_congr locked.tidied.hashpower, first, second⟩

theorem lockInd_mod {hp i : Nat} (large : maxNumLocks ≤ 2 ^ hp) : lockInd (i % 2 ^ hp) = lockInd i := by
  rw [lockInd_eq, lockInd_eq]
  exact Nat.mod_mod_of_dvd _ (Nat.pow_dvd_pow 2 ((Nat.pow_le_pow_iff_right (Nat.lt_succ_self 1)).mp large))

theorem Secured.located (secured : Secured hash t key i₁ i₂) (valid : Valid hash t) {p : Place} {x : Item κ α}
    (place : t.place p = some x) (same : x.key = key) : ∃ i s, (i = i₁ ∨ i = i₂) ∧ t.buckets.slots i s = some x := by
  have fits := valid.arranged.fits place
  cases p with
  | now b s => exact ⟨b, s, secured.home.mp (same ▸ fits.2), place⟩
  | old b s =>
      cases waits : t.isMigrated (lockInd b) with
      | true =>
          rw [Table.place, placed, waits] at place
          cases place
      | false =>
          -- the lock of an old bucket of the key is that of a new one, and has been taken
          obtain ⟨i, home, below⟩ := Home.above (same ▸ fits.2)
          rw [valid.doubled _ waits] at home
          have ready : Ready t i := by
            rcases secured.home.mp home with rfl | rfl
            · exact secured.first
            · exact secured.second
          rw [← below, lockInd_mod (valid.large _ waits), ready] at waits
          cases waits

variable [DecidableEq κ] {b : Bucket κ α} {s : Slot}

theorem tryReadFromBucket_some (found : tryReadFromBucket hash b key = some s) :
    ∃ x, b s = some x ∧ x.key = key := by
  have holds := List.find?_some found
  split at holds
  · cases holds
  · rename_i x content
    exact ⟨x, content, (of_decide_eq_true holds).2⟩

theorem tryReadFromBucket_none (missed : tryReadFromBucket hash b key = none) {x : Item κ α} (content : b s = some x)
    (tag : x.tag = tagOf (hash x.key)) : x.key ≠ key := by
  have fails := List.find?_eq_none.mp missed s (List.mem_finRange s)
  intro same
  rw [content] at fails
  exact fails (decide_eq_true ⟨by rw [tag, same], same⟩)

theorem cuckooFind_some {position : Nat × Slot} (found : cuckooFind hash t key i₁ i₂ = some position) :
    ∃ x, t.place (.now position.1 position.2) = some x ∧ x.key = key := by
  rw [cuckooFind] at found
  split at found
  · rename_i s first
    cases found
    exact tryReadFromBucket_some first
  · obtain ⟨s, second, rfl⟩ := Option.map_eq_some_iff.mp found
    exact tryReadFromBucket_some second

theorem cuckooFind_none (valid : Valid hash t) (secured : Secured hash t key i₁ i₂)
    (missed : cuckooFind hash t key i₁ i₂ = none) {x : Item κ α} (held : Holds t.place x) : x.key ≠ key := by
  intro same
  rw [cuckooFind] at missed
  split at missed
  · cases missed
  · rename_i first
    have second := Option.map_eq_none_iff.mp missed
    obtain ⟨p, place⟩ := held
    have tag := (valid.arranged.fits place).tag
    obtain ⟨i, s, rfl | rfl, content⟩ := secured.located valid place same
    · exact tryReadFromBucket_none first content tag same
    · exact tryReadFromBucket_none second content tag same

theorem find_locked (valid : Valid hash t) (remaining : Remaining t) : Locked hash t (find hash t key).2 :=
  (snapshotAndLockTwo_locked valid remaining key).1

theorem find_eq_some (valid : Valid hash t) (remaining : Remaining t) :
    (find hash t key).1 = some value ↔ Has t key value := by
  obtain ⟨locked, secured⟩ := snapshotAndLockTwo_locked valid remaining key
  rw [← locked.has, find]
  cases found : cuckooFind hash (snapshotAndLockTwo hash t key) key (bucketsOf hash t key).1 (bucketsOf hash t key).2 with
  | none =>
      rw [Option.bind_none]
      constructor
      · intro none
        cases none
      · rintro ⟨x, held, same, -⟩
        exact absurd same (cuckooFind_none locked.valid secured found held)
  | some position =>
      obtain ⟨x, place, same⟩ := cuckooFind_some found
      have here : mappedAt (snapshotAndLockTwo hash t key) position = some x.mapped :=
        congrArg (Option.map Item.mapped) place
      rw [Option.bind_some, here, Option.some.injEq]
      constructor
      · intro value
        exact ⟨x, ⟨_, place⟩, same, value⟩
      · rintro ⟨y, ⟨q, place'⟩, same', rfl⟩
        -- no other place has the key
        cases locked.valid.arranged.unique place place' (same.trans same'.symm)
        rw [Option.some.inj (place.symm.trans place')]

end Pacon.Cuckoo
