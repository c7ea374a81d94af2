import Pacon.Cuckoo.Contents

namespace Pacon.Cuckoo
open Function Lib
variable {κ α : Type*} {hash : κ → BitVec 64} {t u v : Table κ α} {l : Nat}

theorem mem_controlled {size b : Nat} (lock : l < maxNumLocks) :
    b ∈ controlled size l ↔ b < size ∧ lockInd b = l := by
  rw [controlled, List.mem_range', lockInd_eq]
  simp only [maxNumLocks] at *
  constructor
  · rintro ⟨i, few, rfl⟩
    omega
  · rintro ⟨inside, rfl⟩
    refine ⟨b / 2 ^ 16, by omega, by omega⟩

structure Valid (hash : κ → BitVec 64) (t : Table κ α) : Prop where
  arranged : Arranged Item.key (Fits hash t.buckets.hashpower t.oldBuckets.hashpower) t.place
  locks : t.locks = min (hashsize t.buckets.hashpower) maxNumLocks
  doubled : ∀ l, t.isMigrated l = false → t.oldBuckets.hashpower + 1 = t.buckets.hashpower
  large : ∀ l, t.isMigrated l = false → maxNumLocks ≤ t.oldBuckets.size
  untouched : ∀ b s, t.isMigrated (lockInd b) = false → t.buckets.slots b s = none

def Remaining (t : Table κ α) : Prop := t.numRemaining = (List.range t.locks).countP fun l => !t.isMigrated l

structure Tidied (hash : κ → BitVec 64) (t u : Table κ α) : Prop where
  moved : Moved (Fits hash t.buckets.hashpower t.oldBuckets.hashpower) t.place u.place
  hashpower : u.buckets.hashpower = t.buckets.hashpower
  oldHashpower : u.oldBuckets.hashpower = t.oldBuckets.hashpower
  locks : u.locks = t.locks
  elemCounter : u.elemCounter = t.elemCounter
  migrated : ∀ l, t.isMigrated l = true → u.isMigrated l = true
  frame : ∀ i, t.isMigrated (lockInd i) = true → u.buckets.slots i = t.buckets.slots i

theorem Tidied.refl : Tidied hash t t :=
  ⟨.refl, rfl, rfl, rfl, rfl, fun _ => id, fun _ _ => rfl⟩

theorem Tidied.trans (first : Tidied hash t u) (second : Tidied hash u v) : Tidied hash t v where
  moved := first.moved.trans (by
    have moved := second.moved
    rwa [first.hashpower, first.oldHashpower] at moved)
  hashpower := second.hashpower.trans first.hashpower
  oldHashpower := second.oldHashpower.trans first.oldHashpower
  locks := second.locks.trans first.locks
  elemCounter := second.elemCounter.trans first.elemCounter
  migrated l taken := second.migrated l (first.migrated l taken)
  frame i taken := (second.frame i (first.migrated _ taken)).trans (first.frame i taken)

theorem Tidied.size (tidied : Tidied hash t u) : u.size = t.size := by
  rw [Table.size, Table.size, tidied.locks, tidied.elemCounter]

theorem Tidied.holds (tidied : Tidied hash t u) {x : Item κ α} : Holds u.place x ↔ Holds t.place x :=
  tidied.moved.holds

theorem controlled_nodup (size : Nat) : (controlled size l).Nodup :=
  List.nodup_range' maxNumLocks (Nat.two_pow_pos 16)

theorem lockInd_upper {old : Buckets κ α} {b : Nat} (large : maxNumLocks ≤ old.size) : lockInd (upper old b) = lockInd b := by
  have whole : maxNumLocks ∣ old.size := Nat.pow_dvd_pow 2 ((Nat.pow_le_pow_iff_right (Nat.lt_succ_self 1)).mp large)
  obtain ⟨k, multiple⟩ := whole
  rw [lockInd_eq, lockInd_eq, upper, multiple, maxNumLocks, Nat.add_mul_mod_self_left]

theorem transfers_lock (valid : Valid hash t) (lock : l < maxNumLocks) (waits : t.isMigrated l = false) :
    Transfers hash t.oldBuckets t.buckets
      ((controlled t.oldBuckets.size l).foldl (moveBucket hash t.oldBuckets) t.buckets)
      (fun b _ => !t.isMigrated (lockInd b))
      ((controlled t.oldBuckets.size l).foldl doneBucket fun b _ => !t.isMigrated (lockInd b))
      fun i => ∃ b ∈ controlled t.oldBuckets.size l, Touched t.oldBuckets b i := by
  have below {b : Nat} (member : b ∈ controlled t.oldBuckets.size l) : t.isMigrated (lockInd b) = false := by
    rw [((mem_controlled lock).mp member).2, waits]
  apply moveBuckets_transfers (valid.doubled l waits) (controlled_nodup _)
    (fun b member => ((mem_controlled lock).mp member).1) (fun b member _ => by rw [below member]; rfl) _ valid.arranged
  intro b member i touched s
  apply valid.untouched
  rcases touched with rfl | rfl
  · exact below member
  · rw [lockInd_upper (valid.large l waits)]
    exact below member

theorem placed_taken (valid : Valid hash t) (lock : l < maxNumLocks) (waits : t.isMigrated l = false)
    (new : Buckets κ α) :
    placed new t.oldBuckets ((controlled t.oldBuckets.size l).foldl doneBucket fun b _ => !t.isMigrated (lockInd b)) =
      placed new t.oldBuckets fun b _ => !update t.isMigrated l true (lockInd b) := by
  funext p
  cases p with
  | now b s => rw [placed, placed]
  | old b s =>
      rw [placed, placed, foldl_doneBucket]
      by_cases below : lockInd b = l
      · rw [below, update_self, waits]
        by_cases inside : b < t.oldBuckets.size
        · simp [(mem_controlled lock).mpr ⟨inside, below⟩]
        · simp [old_outside valid.arranged (by rw [below, waits]; rfl) inside]
      · have outside : b ∉ controlled t.oldBuckets.size l := fun member => below ((mem_controlled lock).mp member).2
        rw [update_of_ne below, decide_eq_false outside, Bool.not_false, Bool.and_true]

theorem rehashLock_waiting (waits : t.isMigrated l = false) : rehashLock hash false t l = { t with
    buckets := (controlled t.oldBuckets.size l).foldl (moveBucket hash t.oldBuckets) t.buckets
    isMigrated := update t.isMigrated l true } := by
  simp only [rehashLock, waits, Bool.false_eq_true, if_false]

theorem rehashLock_tidied (valid : Valid hash t) (lock : l < maxNumLocks) :
    Tidied hash t (rehashLock hash false t l) := by
  by_cases taken : t.isMigrated l = true
  · rw [rehashLock, if_pos taken]
    exact .refl
  · have waits : t.isMigrated l = false := Bool.not_eq_true _ ▸ taken
    have transfers := transfers_lock valid lock waits
    rw [rehashLock_waiting waits]
    constructor
    · have moved := transfers.moved
      rw [placed_taken valid lock waits] at moved
      exact moved
    · exact transfers.hashpower
    · rfl
    · rfl
    · rfl
    · intro l' taken
      simp only [update_apply]
      split <;> [rfl; exact taken]
    · intro i taken
      apply transfers.frame
      rintro ⟨b, member, touched⟩
      have below : lockInd i = l := by
        rw [← ((mem_controlled lock).mp member).2]
        rcases touched with rfl | rfl
        · rfl
        · exact lockInd_upper (valid.large l waits)
      rw [below, waits] at taken
      cases taken

theorem isMigrated_rehashLock {isLazy : Bool} :
    (rehashLock hash isLazy t l).isMigrated = update t.isMigrated l true := by
  rw [rehashLock]
  split
  · rename_i taken
    rw [update_eq_self_iff.mpr taken.symm]
  · cases isLazy <;> rfl

theorem Tidied.valid (tidied : Tidied hash t u) (valid : Valid hash t)
    (untouched : ∀ b s, u.isMigrated (lockInd b) = false → u.buckets.slots b s = none) : Valid hash u where
  arranged := by
    rw [tidied.hashpower, tidied.oldHashpower]
    exact tidied.moved.arranged valid.arranged
  locks := by rw [tidied.locks, tidied.hashpower, valid.locks]
  doubled l waits := by
    rw [tidied.oldHashpower, tidied.hashpower]
    exact valid.doubled l (Bool.eq_false_iff.mpr fun taken => Bool.eq_false_iff.mp waits (tidied.migrated l taken))
  large l waits := by
    rw [Buckets.size, tidied.oldHashpower]
    exact valid.large l (Bool.eq_false_iff.mpr fun taken => Bool.eq_false_iff.mp waits (tidied.migrated l taken))
  untouched := untouched

theorem rehashLock_valid (valid : Valid hash t) (lock : l < maxNumLocks) : Valid hash (rehashLock hash false t l) := by
  apply (rehashLock_tidied valid lock).valid valid
  intro b s waits
  rw [isMigrated_rehashLock] at waits
  by_cases taken : t.isMigrated l = true
  · rw [update_eq_self_iff.mpr taken.symm] at waits
    rw [rehashLock, if_pos taken]
    exact valid.untouched b s waits
  · have unmigrated : t.isMigrated l = false := Bool.not_eq_true _ ▸ taken
    have other : lockInd b ≠ l := by
      intro same
      rw [same, update_self] at waits
      cases waits
    rw [update_of_ne other] at waits
    have frame := (transfers_lock valid lock unmigrated).frame b
    rw [rehashLock_waiting unmigrated]
    generalize (controlled t.oldBuckets.size l).foldl (moveBucket hash t.oldBuckets) t.buckets = moved at frame ⊢
    -- the buckets that have been touched are below the lock
    have same : moved.slots b = t.buckets.slots b := by
      apply frame
      rintro ⟨b', member, touched⟩
      apply other
      rw [← ((mem_controlled lock).mp member).2]
      rcases touched with rfl | rfl
      · rfl
      · exact lockInd_upper (valid.large l unmigrated)
    exact (congrFun same s).trans (valid.untouched b s waits)

theorem Valid.lock_lt (valid : Valid hash t) (waits : t.isMigrated l = false) : t.locks = maxNumLocks := by
  rw [valid.locks, Nat.min_eq_right]
  have large := valid.large l waits
  have double := valid.doubled l waits
  rw [Buckets.size, hashsize] at large
  rw [hashsize, ← double, pow_succ]
  omega

theorem countP_update {f : Nat → Bool} (n : Nat) (inside : l < n) (waits : f l = false) :
    (List.range n).countP (fun i => !update f l true i) + 1 = (List.range n).countP fun i => !f i := by
  induction n with
  | zero => omega
  | succ n ih =>
      rw [List.range_succ, List.countP_append, List.countP_append]
      by_cases last : n = l
      · subst last
        have same : (List.range n).countP (fun i => !update f n true i) = (List.range n).countP fun i => !f i := by
          apply List.countP_congr
          intro i member
          rw [update_of_ne (Nat.ne_of_lt (List.mem_range.mp member))]
        rw [same]
        simp [waits]
      · have below := ih (by omega)
        simp only [List.countP_cons, List.countP_nil, update_of_ne last]
        omega

theorem decrementRemaining_place (remaining : t.numRemaining = ((List.range t.locks).countP fun l => !t.isMigrated l) + 1)
    (locks : t.locks = maxNumLocks) : (decrementRemaining t).place = t.place := by
  funext p
  cases p with
  | now b s => rfl
  | old b s =>
      rw [Table.place, Table.place, placed, placed]
      by_cases last : t.numRemaining = 1
      · -- every lock has been taken
        have none : (List.range t.locks).countP (fun l => !t.isMigrated l) = 0 := by omega
        have taken := List.countP_eq_zero.mp none (lockInd b) (List.mem_range.mpr (locks ▸ lockInd_lt b))
        have migrated : t.isMigrated (lockInd b) = true := by simpa using taken
        rw [show (decrementRemaining t).isMigrated = t.isMigrated from rfl, migrated]
        rfl
      · rw [show (decrementRemaining t).oldBuckets = t.oldBuckets from if_neg last]
        rfl

theorem rehashLock_lazy (valid : Valid hash t) (remaining : Remaining t) (lock : l < maxNumLocks) :
    Valid hash (rehashLock hash true t l) ∧ Remaining (rehashLock hash true t l) ∧
      Tidied hash t (rehashLock hash true t l) := by
  by_cases taken : t.isMigrated l = true
  · rw [rehashLock, if_pos taken]
    exact ⟨valid, remaining, .refl⟩
  have waits : t.isMigrated l = false := Bool.not_eq_true _ ▸ taken
  have step : rehashLock hash true t l = decrementRemaining (rehashLock hash false t l) := by
    rw [rehashLock, rehashLock, if_neg taken, if_neg taken]
    rfl
  have tidied := rehashLock_tidied valid lock
  have valid' := rehashLock_valid valid lock
  have locks : (rehashLock hash false t l).locks = maxNumLocks := tidied.locks.trans (valid.lock_lt waits)
  have numRemaining : (rehashLock hash false t l).numRemaining = t.numRemaining := by
    rw [rehashLock, if_neg taken]
    rfl
  have counted : (rehashLock hash false t l).numRemaining =
      ((List.range (rehashLock hash false t l).locks).countP fun i => !(rehashLock hash false t l).isMigrated i) + 1 := by
    rw [numRemaining, isMigrated_rehashLock, tidied.locks, countP_update _ _ waits]
    · exact remaining
    · rw [valid.lock_lt waits]
      exact lock
  have place := decrementRemaining_place counted locks
  have oldHashpower : (decrementRemaining (rehashLock hash false t l)).oldBuckets.hashpower =
      (rehashLock hash false t l).oldBuckets.hashpower := by
    rw [decrementRemaining]
    split <;> rfl
  have tidied' : Tidied hash t (decrementRemaining (rehashLock hash false t l)) := {
    moved := by
      rw [place]
      exact tidied.moved
    hashpower := tidied.hashpower
    oldHashpower := oldHashpower.trans tidied.oldHashpower
    locks := tidied.locks
    elemCounter := tidied.elemCounter
    migrated := tidied.migrated
    frame := tidied.frame }
  rw [step]
  refine ⟨tidied'.valid valid valid'.untouched, ?_, tidied'⟩
  rw [Remaining]
  exact Nat.sub_eq_of_eq_add counted

structure Locked (hash : κ → BitVec 64) (t u : Table κ α) : Prop where
  valid : Valid hash u
  remaining : Remaining u
  tidied : Tidied hash t u

theorem Locked.refl (valid : Valid hash t) (remaining : Remaining t) : Locked hash t t :=
  ⟨valid, remaining, .refl⟩

theorem Locked.trans (first : Locked hash t u) (second : Locked hash u v) : Locked hash t v :=
  ⟨second.valid, second.remaining, first.tidied.trans second.tidied⟩

theorem foldl_rehashLock (valid : Valid hash t) (remaining : Remaining t) {locks : List Nat}
    (inside : ∀ l ∈ locks, l < maxNumLocks) :
    Locked hash t (locks.foldl (rehashLock hash true) t) ∧
      ∀ l ∈ locks, (locks.foldl (rehashLock hash true) t).isMigrated l = true := by
  induction locks generalizing t with
  | nil => exact ⟨.refl valid remaining, fun _ member => by cases member⟩
  | cons l locks ih =>
      obtain ⟨valid', remaining', tidied⟩ := rehashLock_lazy valid remaining (inside l List.mem_cons_self)
      obtain ⟨rest, taken⟩ := ih valid' remaining' fun l' member => inside l' (List.mem_cons_of_mem _ member)
      refine ⟨.trans ⟨valid', remaining', tidied⟩ rest, ?_⟩
      intro l' member
      rcases List.mem_cons.mp member with rfl | member
      · apply rest.tidied.migrated
        rw [isMigrated_rehashLock, update_self]
      · exact taken l' member

def Ready (t : Table κ α) (i : Nat) : Prop := t.isMigrated (lockInd i) = true

theorem Locked.ready (locked : Locked hash t u) {i : Nat} (ready : Ready t i) : Ready u i :=
  locked.tidied.migrated _ ready

theorem lockOne_locked (valid : Valid hash t) (remaining : Remaining t) (i : Nat) :
    Locked hash t (lockOne hash t i) ∧ Ready (lockOne hash t i) i := by
  have locked := foldl_rehashLock valid remaining fun l (member : l ∈ [lockInd i]) => by
    rw [List.mem_singleton.mp member]
    exact lockInd_lt i
  exact ⟨locked.1, locked.2 _ (List.mem_singleton_self _)⟩

theorem lockTwo_locked (valid : Valid hash t) (remaining : Remaining t) (i₁ i₂ : Nat) :
    Locked hash t (lockTwo hash t i₁ i₂) ∧ Ready (lockTwo hash t i₁ i₂) i₁ ∧ Ready (lockTwo hash t i₁ i₂) i₂ := by
  obtain ⟨locked, taken⟩ := foldl_rehashLock valid remaining
    fun l (member : l ∈ [min (lockInd i₁) (lockInd i₂), max (lockInd i₁) (lockInd i₂)]) => by
      have first := lockInd_lt i₁
      have second := lockInd_lt i₂
      simp only [List.mem_cons, List.not_mem_nil, or_false] at member
      omega
  refine ⟨locked, taken _ ?_, taken _ ?_⟩ <;> simp only [List.mem_cons, List.not_mem_nil, or_false] <;> omega

theorem foldl_ready {locks : List Nat} (taken : ∀ l ∈ locks, t.isMigrated l = true) :
    locks.foldl (rehashLock hash true) t = t := by
  induction locks with
  | nil => rfl
  | cons l locks ih =>
      rw [List.foldl_cons, rehashLock, if_pos (taken l List.mem_cons_self)]
      exact ih fun l' member => taken l' (List.mem_cons_of_mem _ member)

theorem lockOne_ready {i : Nat} (ready : Ready t i) : lockOne hash t i = t :=
  if_pos ready

theorem lockTwo_ready {i₁ i₂ : Nat} (ready₁ : Ready t i₁) (ready₂ : Ready t i₂) : lockTwo hash t i₁ i₂ = t := by
  apply foldl_ready
  intro l member
  have either : l = lockInd i₁ ∨ l = lockInd i₂ := by
    simp only [List.mem_cons, List.not_mem_nil, or_false] at member
    omega
  rcases either with rfl | rfl
  · exact ready₁
  · exact ready₂

theorem lockThree_ready {i₁ i₂ i₃ : Nat} (ready₁ : Ready t i₁) (ready₂ : Ready t i₂) (ready₃ : Ready t i₃) :
    lockThree hash t i₁ i₂ i₃ = t := by
  apply foldl_ready
  intro l member
  simp only [List.mem_mergeSort, List.mem_cons, List.not_mem_nil, or_false] at member
  rcases member with rfl | rfl | rfl
  · exact ready₁
  · exact ready₂
  · exact ready₃

end Pacon.Cuckoo
