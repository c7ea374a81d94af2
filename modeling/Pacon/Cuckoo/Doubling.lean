import Pacon.Cuckoo.Locks

/-!
# Doubling a table

What is left of the last doubling moves first. Then the current buckets become the old ones: a small table moves them
at once, a large one leaves them to its locks.
-/

namespace Pacon.Cuckoo
open Function Lib
variable {κ α : Type*} {hash : κ → BitVec 64} {t : Table κ α}

theorem foldl_rehashLock_all (valid : Valid hash t) {locks : List Nat} (inside : ∀ l ∈ locks, l < maxNumLocks) :
    Valid hash (locks.foldl (rehashLock hash false) t) ∧ Tidied hash t (locks.foldl (rehashLock hash false) t) ∧
      ∀ l ∈ locks, (locks.foldl (rehashLock hash false) t).isMigrated l = true := by
  induction locks generalizing t with
  | nil => exact ⟨valid, .refl, fun _ member => by cases member⟩
  | cons l locks ih =>
      have lock := inside l List.mem_cons_self
      have first := rehashLock_tidied valid lock
      obtain ⟨valid', rest, taken⟩ := ih (rehashLock_valid valid lock)
        fun l' member => inside l' (List.mem_cons_of_mem _ member)
      refine ⟨valid', first.trans rest, ?_⟩
      intro l' member
      rcases List.mem_cons.mp member with rfl | member
      · apply rest.migrated
        rw [isMigrated_rehashLock, update_self]
      · exact taken l' member

def finished (hash : κ → BitVec 64) (t : Table κ α) : Table κ α :=
  { (List.range t.locks).foldl (rehashLock hash false) t with numRemaining := 0 }

structure Finished (hash : κ → BitVec 64) (t u : Table κ α) : Prop where
  valid : Valid hash u
  tidied : Tidied hash t u
  now : ∀ b s, u.place (.old b s) = none

theorem finished_spec (valid : Valid hash t) : Finished hash t (finished hash t) := by
  have inside : ∀ l ∈ List.range t.locks, l < maxNumLocks := by
    intro l member
    have := List.mem_range.mp member
    rw [valid.locks] at this
    omega
  obtain ⟨valid', tidied, taken⟩ := foldl_rehashLock_all valid inside
  refine ⟨⟨valid'.arranged, valid'.locks, valid'.doubled, valid'.large, valid'.untouched⟩,
    ⟨tidied.moved, tidied.hashpower, tidied.oldHashpower, tidied.locks, tidied.elemCounter, tidied.migrated, tidied.frame⟩,
    fun b s => ?_⟩
  have migrated : ((List.range t.locks).foldl (rehashLock hash false) t).isMigrated (lockInd b) = true := by
    by_contra unmigrated
    have locks := valid'.lock_lt (Bool.not_eq_true _ ▸ unmigrated)
    rw [tidied.locks] at locks
    exact unmigrated (taken _ (List.mem_range.mpr (locks ▸ lockInd_lt b)))
  rw [Table.place, placed, finished, migrated]
  rfl

def Place.other : Place → Place
  | .now b s => .old b s
  | .old b s => .now b s

theorem Place.other_injective : Injective Place.other := by
  intro p q same
  cases p <;> cases q <;> cases same <;> rfl

def waiting (old : Buckets κ α) : Place → Option (Item κ α) :=
  placed (.empty (old.hashpower + 1)) old fun _ _ => true

theorem waiting_other {old : Buckets κ α} {p : Place} {x : Item κ α} (place : waiting old p = some x) :
    ∃ b s, p = .old b s ∧ old.slots b s = some x := by
  cases p with
  | now b s => cases place
  | old b s => exact ⟨b, s, rfl, place⟩

theorem Finished.waiting {u : Table κ α} (done : Finished hash t u) :
    Arranged Item.key (Fits hash (u.buckets.hashpower + 1) u.buckets.hashpower) (waiting u.buckets) ∧
      ∀ x, Holds (Cuckoo.waiting u.buckets) x ↔ Holds u.place x := by
  constructor
  · apply done.valid.arranged.relabel Place.other_injective
    · intro p x place
      obtain ⟨b, s, rfl, content⟩ := waiting_other place
      exact content
    · intro p x place fits
      obtain ⟨b, s, rfl, -⟩ := waiting_other place
      exact fits
  · intro x
    constructor
    · rintro ⟨p, place⟩
      obtain ⟨b, s, rfl, content⟩ := waiting_other place
      exact ⟨.now b s, content⟩
    · rintro ⟨p, place⟩
      cases p with
      | now b s => exact ⟨.old b s, place⟩
      | old b s =>
          rw [done.now] at place
          cases place

theorem moveAll_spec {old : Buckets κ α} (double : Arranged Item.key (Fits hash (old.hashpower + 1) old.hashpower) (waiting old)) :
    let new := (List.range old.size).foldl (moveBucket hash old) (.empty (old.hashpower + 1))
    Moved (Fits hash (old.hashpower + 1) old.hashpower) (waiting old) (placed new old fun _ _ => false) ∧
      new.hashpower = old.hashpower + 1 := by
  intro new
  have transfers : Transfers hash old (.empty (old.hashpower + 1)) new (fun _ _ => true)
      ((List.range old.size).foldl doneBucket fun _ _ => true) fun i => ∃ b ∈ List.range old.size, Touched old b i :=
    moveBuckets_transfers rfl List.nodup_range (fun b member => List.mem_range.mp member) (fun _ _ _ => rfl)
      (fun _ _ _ _ _ => rfl) double
  have none : placed new old ((List.range old.size).foldl doneBucket fun _ _ => true) = placed new old fun _ _ => false := by
    funext p
    cases p with
    | now b s => rfl
    | old b s =>
        rw [placed, placed, foldl_doneBucket]
        by_cases inside : b < old.size
        · simp [inside]
        · simp [old_outside double rfl inside]
  have moved := transfers.moved
  rw [none] at moved
  exact ⟨moved, transfers.hashpower⟩

theorem maybeResizeLocks_buckets {n : Nat} : (maybeResizeLocks t n).buckets = t.buckets := by
  rw [maybeResizeLocks]
  split <;> rfl

theorem maybeResizeLocks_locks {n hp : Nat} (locks : t.locks = min (hashsize hp) maxNumLocks)
    (larger : hashsize hp < n) : (maybeResizeLocks t n).locks = min n maxNumLocks := by
  rw [maybeResizeLocks]
  split
  · exact Nat.min_comm ..
  · rename_i enough
    show t.locks = _
    omega

theorem maybeResizeLocks_isMigrated {n l : Nat} (taken : t.isMigrated l = true) :
    (maybeResizeLocks t n).isMigrated l = true := by
  rw [maybeResizeLocks]
  split
  · by_cases known : l < t.locks
    · simp only [known, if_true, taken]
    · simp only [known, if_false]
  · exact taken

theorem sum_range_more {f : Nat → Int} (n k : Nat) :
    ((List.range (n + k)).map fun l => if l < n then f l else 0).sum = ((List.range n).map f).sum := by
  induction k with
  | zero =>
      rw [Nat.add_zero]
      congr 1
      apply List.map_congr_left
      intro l member
      rw [if_pos (List.mem_range.mp member)]
  | succ k ih =>
      have beyond : ¬n + k < n := by omega
      rw [← Nat.add_assoc, List.range_succ, List.map_append, List.sum_append_int, ih]
      simp [beyond]

theorem maybeResizeLocks_size {n : Nat} : (maybeResizeLocks t n).size = t.size := by
  rw [maybeResizeLocks]
  split
  · rename_i larger
    obtain ⟨k, more⟩ := Nat.exists_eq_add_of_le (show t.locks ≤ min maxNumLocks n by omega)
    simp only [Table.size, more]
    exact sum_range_more _ _
  · rfl

def swapped (hash : κ → BitVec 64) (t : Table κ α) : Table κ α :=
  let resized := maybeResizeLocks (finished hash t) (hashsize (t.buckets.hashpower + 1))
  { resized with oldBuckets := resized.buckets, buckets := .empty (t.buckets.hashpower + 1) }

structure Swapped (hash : κ → BitVec 64) (t u : Table κ α) : Prop where
  arranged : Arranged Item.key (Fits hash (u.oldBuckets.hashpower + 1) u.oldBuckets.hashpower) (waiting u.oldBuckets)
  holds : ∀ x, Holds (waiting u.oldBuckets) x ↔ Holds t.place x
  hashpower : u.oldBuckets.hashpower = t.buckets.hashpower
  buckets : u.buckets = .empty (u.oldBuckets.hashpower + 1)
  locks : u.locks = min (hashsize (u.oldBuckets.hashpower + 1)) maxNumLocks
  size : u.size = t.size
  taken : u.oldBuckets.size < maxNumLocks → ∀ l, u.isMigrated l = true

theorem swapped_spec (valid : Valid hash t) : Swapped hash t (swapped hash t) := by
  have done := finished_spec valid
  obtain ⟨arranged, holds⟩ := done.waiting
  have hashpower := done.tidied.hashpower
  have old : (swapped hash t).oldBuckets = (finished hash t).buckets := maybeResizeLocks_buckets
  constructor
  · rwa [old]
  · intro x
    rw [old, holds, done.tidied.holds]
  · rw [old, hashpower]
  · rw [old, hashpower]
    rfl
  · rw [old, hashpower]
    apply maybeResizeLocks_locks (done.valid.locks)
    rw [hashpower]
    exact Nat.pow_lt_pow_right (Nat.lt_succ_self 1) (Nat.lt_succ_self _)
  · exact maybeResizeLocks_size.trans done.tidied.size
  · intro small l
    rw [old] at small
    apply maybeResizeLocks_isMigrated
    by_contra unmigrated
    -- nothing is left to a lock in a table this small
    have waits : (finished hash t).isMigrated l = false := Bool.not_eq_true _ ▸ unmigrated
    have large := done.valid.large l waits
    have double := done.valid.doubled l waits
    rw [Buckets.size, hashsize] at small large
    rw [← double, pow_succ] at small
    omega

structure DoubledTo (hash : κ → BitVec 64) (t u : Table κ α) : Prop where
  valid : Valid hash u
  remaining : Remaining u
  holds : ∀ x, Holds u.place x ↔ Holds t.place x
  hashpower : u.buckets.hashpower = t.buckets.hashpower + 1
  size : u.size = t.size

variable {u : Table κ α}

theorem Swapped.at_once (swapped : Swapped hash t u) (small : u.oldBuckets.size < maxNumLocks) :
    DoubledTo hash t { u with
      buckets := (List.range u.oldBuckets.size).foldl (moveBucket hash u.oldBuckets) u.buckets
      numRemaining := 0 } := by
  have taken := swapped.taken small
  obtain ⟨moved, hashpower⟩ := moveAll_spec swapped.arranged
  rw [← swapped.buckets] at moved hashpower
  have place : Table.place { u with
      buckets := (List.range u.oldBuckets.size).foldl (moveBucket hash u.oldBuckets) u.buckets
      numRemaining := 0 } =
      placed ((List.range u.oldBuckets.size).foldl (moveBucket hash u.oldBuckets) u.buckets) u.oldBuckets
        fun _ _ => false := by
    rw [Table.place]
    congr 1
    funext b s
    rw [taken]
    rfl
  have unlocked {l : Nat} (waits : u.isMigrated l = false) : False := by
    rw [taken l] at waits
    cases waits
  constructor
  · constructor
    · rw [place, hashpower]
      exact moved.arranged swapped.arranged
    · rw [hashpower]
      exact swapped.locks
    · exact fun l waits => (unlocked waits).elim
    · exact fun l waits => (unlocked waits).elim
    · exact fun b s waits => (unlocked waits).elim
  · rw [Remaining]
    symm
    apply List.countP_eq_zero.mpr
    intro l _
    rw [taken l]
    exact Bool.false_ne_true
  · intro x
    rw [place, moved.holds, swapped.holds]
  · rw [hashpower, swapped.hashpower]
  · exact swapped.size

theorem Swapped.lazily (swapped : Swapped hash t u) (large : ¬u.oldBuckets.size < maxNumLocks) :
    DoubledTo hash t { u with isMigrated := fun _ => false, numRemaining := u.locks } := by
  have place : Table.place { u with isMigrated := fun _ => false, numRemaining := u.locks } = waiting u.oldBuckets := by
    rw [Table.place, waiting, ← swapped.buckets]
    rfl
  have hashpower : u.buckets.hashpower = u.oldBuckets.hashpower + 1 := by
    rw [swapped.buckets]
    rfl
  constructor
  · constructor
    · rw [place, hashpower]
      exact swapped.arranged
    · rw [hashpower]
      exact swapped.locks
    · exact fun _ _ => hashpower.symm
    · exact fun _ _ => Nat.le_of_not_lt large
    · intro b s _
      rw [swapped.buckets]
      rfl
  · rw [Remaining]
    symm
    exact (List.countP_eq_length.mpr fun _ _ => rfl).trans List.length_range
  · intro x
    rw [place, swapped.holds]
  · rw [hashpower, swapped.hashpower]
  · exact swapped.size

theorem fastDouble_spec (valid : Valid hash t) : DoubledTo hash t (fastDouble hash t) := by
  have spec := swapped_spec valid
  have cases : fastDouble hash t =
      if (swapped hash t).oldBuckets.size < maxNumLocks then
        { swapped hash t with
          buckets := (List.range (swapped hash t).oldBuckets.size).foldl (moveBucket hash (swapped hash t).oldBuckets)
            (swapped hash t).buckets
          numRemaining := 0 }
      else { swapped hash t with isMigrated := fun _ => false, numRemaining := (swapped hash t).locks } := rfl
  rw [cases]
  split
  · rename_i small
    exact spec.at_once small
  · rename_i large
    exact spec.lazily large

end Pacon.Cuckoo
