import Mathlib.Data.Finset.Card
import Mathlib.Data.Finset.Insert
import Pacon.Cuckoo.Doubling
import Pacon.Cuckoo.Inserting

/-!
# The tables are maps

Whatever a client does to one of its tables, in whatever order, it gets the answers of a map in which the first
value of a key stays until the table is cleared.
-/

namespace Pacon.Cuckoo
open Function Lib
variable {κ α : Type*} {hash : κ → BitVec 64} {t u : Table κ α} {key : κ} {value : α} {i₁ i₂ : Nat}

theorem sum_range_update {f : Nat → Int} {l n : Nat} (inside : l < n) :
    ((List.range n).map (update f l (f l + 1))).sum = ((List.range n).map f).sum + 1 := by
  induction n with
  | zero => omega
  | succ n ih =>
      simp only [List.range_succ, List.map_append, List.map_cons, List.map_nil, List.sum_append_int, List.sum_cons,
        List.sum_nil]
      by_cases last : n = l
      · subst last
        have same : (List.range n).map (update f n (f n + 1)) = (List.range n).map f := by
          apply List.map_congr_left
          intro i member
          rw [update_of_ne (Nat.ne_of_lt (List.mem_range.mp member))]
        rw [same, update_self]
        omega
      · rw [ih (by omega), update_of_ne last]
        omega

theorem lockInd_inside (valid : Valid hash t) {b : Nat} (inside : b < 2 ^ t.buckets.hashpower) : lockInd b < t.locks := by
  have small := lockInd_lt b
  have less : lockInd b ≤ b := by
    rw [lockInd_eq]
    exact Nat.mod_le ..
  rw [valid.locks, hashsize]
  omega

theorem addToBucket_spec (valid : Valid hash t) (remaining : Remaining t) (secured : Secured hash t key i₁ i₂)
    {b : Nat} {s : Slot} (either : b = i₁ ∨ b = i₂) (free : t.buckets.slots b s = none)
    (new : ∀ x, Holds t.place x → x.key ≠ key) :
    Valid hash (addToBucket hash t (b, s) key value) ∧ Remaining (addToBucket hash t (b, s) key value) ∧
      (∀ x, Holds (addToBucket hash t (b, s) key value).place x ↔ x = ⟨tagOf (hash key), key, value⟩ ∨ Holds t.place x) ∧
      (addToBucket hash t (b, s) key value).size = t.size + 1 := by
  have home := secured.home.mpr either
  have place : (addToBucket hash t (b, s) key value).place =
      update t.place (.now b s) (some ⟨tagOf (hash key), key, value⟩) := placed_set
  have empty : t.place (.now b s) = none := free
  have ready : Ready t b := by
    rcases either with rfl | rfl
    · exact secured.first
    · exact secured.second
  refine ⟨⟨?_, valid.locks, valid.doubled, valid.large, ?_⟩, remaining, ?_, sum_range_update (lockInd_inside valid home.lt)⟩
  · rw [place]
    exact valid.arranged.put ⟨rfl, home⟩ new
  · intro b' s' waits
    have other : b' ≠ b := by
      intro same
      have taken : t.isMigrated (lockInd b') = true := same ▸ ready
      exact Bool.false_ne_true (waits.symm.trans taken)
    exact (congrFun (slots_setKV_of_ne other) s').trans (valid.untouched b' s' waits)
  · intro x
    rw [place, holds_put empty]

structure Good (hash : κ → BitVec 64) (t : Table κ α) : Prop where
  valid : Valid hash t
  remaining : Remaining t

structure Represents (hash : κ → BitVec 64) (t : Table κ α) (m : κ → Option α) : Prop where
  good : Good hash t
  has : ∀ k v, Has t k v ↔ m k = some v
  size : ∃ keys : Finset κ, (∀ k, k ∈ keys ↔ m k ≠ none) ∧ t.size = keys.card

variable {m : κ → Option α}

theorem Represents.held (represents : Represents hash t m) : (∃ x, Holds t.place x ∧ x.key = key) ↔ m key ≠ none := by
  rw [Option.ne_none_iff_exists']
  constructor
  · rintro ⟨x, held, same⟩
    exact ⟨x.mapped, (represents.has _ _).mp ⟨x, held, same, rfl⟩⟩
  · rintro ⟨value, mapped⟩
    obtain ⟨x, held, same, -⟩ := (represents.has _ _).mpr mapped
    exact ⟨x, held, same⟩

theorem empty_represents (locks : t.locks = min (hashsize t.buckets.hashpower) maxNumLocks)
    (taken : ∀ l, t.isMigrated l = true) (remaining : t.numRemaining = 0) (buckets : ∀ b s, t.buckets.slots b s = none)
    (counters : ∀ l, t.elemCounter l = 0) : Represents hash t fun _ => none := by
  have nothing (p : Place) : t.place p = none := by
    cases p with
    | now b s => exact buckets b s
    | old b s =>
        rw [Table.place, placed, taken]
        rfl
  have unlocked {l : Nat} (waits : t.isMigrated l = false) : False := by
    rw [taken l] at waits
    cases waits
  refine ⟨⟨⟨⟨?_, ?_⟩, locks, ?_, ?_, ?_⟩, ?_⟩, ?_, ∅, ?_, ?_⟩
  · intro p x place
    rw [nothing] at place
    cases place
  · intro p q x y place
    rw [nothing] at place
    cases place
  · exact fun l waits => (unlocked waits).elim
  · exact fun l waits => (unlocked waits).elim
  · exact fun b s waits => (unlocked waits).elim
  · rw [Remaining, remaining]
    symm
    apply List.countP_eq_zero.mpr
    intro l _
    rw [taken l]
    exact Bool.false_ne_true
  · intro k v
    constructor
    · rintro ⟨x, ⟨p, place⟩, -⟩
      rw [nothing] at place
      cases place
    · intro none
      cases none
  · intro k
    simp
  · rw [Table.size, List.map_congr_left fun l _ => counters l]
    simp

theorem new_represents (n : Nat) : Represents hash (new n : Table κ α) fun _ => none :=
  empty_represents rfl (fun _ => rfl) rfl (fun _ _ => rfl) fun _ => rfl

theorem clear_represents (represents : Represents hash t m) : Represents hash (cuckooClear t) fun _ => none :=
  empty_represents represents.good.valid.locks (fun _ => rfl) rfl (fun _ _ => rfl) fun _ => rfl

structure Ended (hash : κ → BitVec 64) (t : Table κ α) (key : κ) (value : α) (result : Inserted) (u : Table κ α) : Prop where
  good : Good hash u
  holds : ∀ x, Holds u.place x ↔
    result = .added ∧ x = ⟨tagOf (hash key), key, value⟩ ∨ Holds t.place x
  size : u.size = if result = .added then t.size + 1 else t.size
  present : (∃ x, Holds t.place x ∧ x.key = key) ↔ result = .present
  full : result = .loadFactorTooLow → loadTooLow u ∧ Full u (bucketsOf hash u key).1 (bucketsOf hash u key).2

theorem ended_of_free (kept : Kept hash t u) (secured : Secured hash u key i₁ i₂) {b : Nat} {s : Slot}
    (either : b = i₁ ∨ b = i₂) (free : u.buckets.slots b s = none) (new : ∀ x, Holds u.place x → x.key ≠ key) :
    Ended hash t key value .added (addToBucket hash u (b, s) key value) := by
  obtain ⟨valid, remaining, holds, size⟩ := addToBucket_spec kept.valid kept.remaining secured either free new
  refine ⟨⟨valid, remaining⟩, ?_, ?_, ?_, ?_⟩
  · intro x
    rw [holds, kept.holds]
    simp
  · rw [size, kept.size, if_pos rfl]
  · constructor
    · rintro ⟨x, held, same⟩
      exact absurd same (new x ((kept.holds x).mpr held))
    · intro none
      cases none
  · intro none
    cases none

theorem ended_of_there (kept : Kept hash t u) (there : ∃ x, Holds u.place x ∧ x.key = key) :
    Ended hash t key value .present u := by
  obtain ⟨x, held, same⟩ := there
  refine ⟨⟨kept.valid, kept.remaining⟩, ?_, ?_, ?_, ?_⟩
  · intro x
    rw [kept.holds]
    simp
  · rw [kept.size]
    rfl
  · exact iff_of_true ⟨x, (kept.holds x).mp held, same⟩ rfl
  · intro none
    cases none

theorem ended_of_full (kept : Kept hash t u) (new : ∀ x, Holds u.place x → x.key ≠ key) (low : loadTooLow u)
    (full : Full u (bucketsOf hash u key).1 (bucketsOf hash u key).2) :
    Ended hash t key value .loadFactorTooLow u := by
  refine ⟨⟨kept.valid, kept.remaining⟩, ?_, ?_, ?_, fun _ => ⟨low, full⟩⟩
  · intro x
    rw [kept.holds]
    simp
  · rw [kept.size]
    rfl
  · refine iff_of_false ?_ (by simp)
    rintro ⟨x, held, same⟩
    exact new x ((kept.holds x).mpr held) same

theorem Ended.of_double {v : Table κ α} {result : Inserted} (kept : Kept hash t v)
    (double : DoubledTo hash v (fastDouble hash v)) (ended : Ended hash (fastDouble hash v) key value result u) :
    Ended hash t key value result u := by
  refine ⟨ended.good, ?_, ?_, ?_, ended.full⟩
  · intro x
    rw [ended.holds, double.holds, kept.holds]
  · rw [ended.size, double.size, kept.size]
  · rw [← ended.present]
    simp only [double.holds, kept.holds]

theorem Ended.represents {result : Inserted} (ended : Ended hash t key value result u) (represents : Represents hash t m)
    (other : result ≠ .added) : Represents hash u m := by
  obtain ⟨keys, counts, size⟩ := represents.size
  refine ⟨ended.good, ?_, keys, counts, ?_⟩
  · intro k v
    rw [← represents.has, Has, Has]
    simp only [ended.holds, other, false_and, false_or]
  · rw [ended.size, if_neg other, size]

theorem Ended.absent {result : Inserted} (ended : Ended hash t key value result u) (represents : Represents hash t m) :
    m key = none ↔ result ≠ .present := by
  rw [← not_iff_not, ← ne_eq, ← represents.held, ended.present, ne_eq, not_not]

theorem buckets_le {n : Nat} (size : t.size = n) (high : ¬loadTooLow t) : 2 ^ t.buckets.hashpower ≤ 5 * n := by
  have few := Int.not_lt.mp high
  rw [size, Table.capacity, Buckets.size, hashsize] at few
  norm_cast at few
  simp only [slotPerBucket] at few
  omega

variable [DecidableEq κ]

theorem insertLoop_spec (good : Good hash t) {n : Nat} (size : t.size = n) {fuel : Nat} (some : 0 < fuel)
    (enough : 5 * n + 2 ≤ fuel + 2 ^ t.buckets.hashpower) :
    ∃ result u, insertLoop hash fuel t key value = .some (result, u) ∧ Ended hash t key value result u := by
  induction fuel generalizing t with
  | zero => omega
  | succ fuel ih =>
      obtain ⟨locked, secured⟩ := snapshotAndLockTwo_locked good.valid good.remaining key
      obtain ⟨v, status, attempt, kept', after⟩ := cuckooInsert_spec locked.valid locked.remaining secured fuel
      have kept := locked.kept.trans kept'
      have secured' := kept'.secured secured
      rw [insertLoop, attempt]
      cases status with
      | ok position =>
          obtain ⟨either, free, new⟩ := after
          exact ⟨_, _, rfl, ended_of_free kept secured' either free new⟩
      | duplicated position => exact ⟨_, _, rfl, ended_of_there kept after⟩
      | tableFull =>
          obtain ⟨full, new⟩ := after
          by_cases low : loadTooLow v
          · refine ⟨.loadFactorTooLow, v, ?_, ended_of_full kept new low ?_⟩
            · simp only [low, if_true]
            · have buckets := secured'.buckets
              rwa [buckets]
          · have double := fastDouble_spec kept.valid
            -- the load factor bounds the number of doublings
            have more : 2 ^ v.buckets.hashpower ≤ 5 * n := buckets_le (kept.size.trans size) low
            rw [← kept.hashpower] at enough
            have enough' : 5 * n + 2 ≤ fuel + 2 ^ (fastDouble hash v).buckets.hashpower := by
              have positive := Nat.two_pow_pos v.buckets.hashpower
              rw [double.hashpower, pow_succ]
              omega
            obtain ⟨result, u, runs, ended⟩ := ih ⟨double.valid, double.remaining⟩
              (by rw [double.size, kept.size, size]) (by omega) enough'
            refine ⟨result, u, ?_, ended.of_double kept double⟩
            simp only [low, if_false]
            exact runs

def putNew (m : κ → Option α) (key : κ) (value : α) : κ → Option α :=
  if m key = none then update m key (some value) else m

theorem find_represents (represents : Represents hash t m) (key : κ) :
    (find hash t key).1 = m key ∧ Represents hash (find hash t key).2 m := by
  have good := represents.good
  have locked : Locked hash t (find hash t key).2 := find_locked good.valid good.remaining
  constructor
  · apply Option.ext
    intro value
    rw [find_eq_some good.valid good.remaining, represents.has]
  · refine ⟨⟨locked.valid, locked.remaining⟩, ?_, ?_⟩
    · intro k v
      rw [locked.has, represents.has]
    · rw [locked.tidied.size]
      exact represents.size

structure Crowded (hash : κ → BitVec 64) (t : Table κ α) (m : κ → Option α) (key : κ) : Prop where
  new : m key = none
  represents : Represents hash t m
  low : loadTooLow t
  full : Full t (bucketsOf hash t key).1 (bucketsOf hash t key).2

theorem Ended.update_represents (ended : Ended hash t key value .added u) (represents : Represents hash t m)
    (absent : m key = none) : Represents hash u (update m key (some value)) := by
  obtain ⟨keys, counts, size⟩ := represents.size
  have fresh : key ∉ keys := fun member => (counts key).mp member absent
  refine ⟨ended.good, ?_, Insert.insert key keys, ?_, ?_⟩
  · intro k v
    rw [update_apply]
    constructor
    · rintro ⟨x, held, rfl, rfl⟩
      rcases (ended.holds x).mp held with ⟨-, rfl⟩ | held
      · rw [if_pos rfl]
      · have old := (represents.has _ _).mp ⟨x, held, rfl, rfl⟩
        rw [if_neg, old]
        intro same
        rw [same, absent] at old
        cases old
    · intro mapped
      split at mapped
      · rename_i same
        cases mapped
        exact ⟨_, (ended.holds _).mpr (.inl ⟨rfl, rfl⟩), same.symm, rfl⟩
      · obtain ⟨x, held, same⟩ := (represents.has k v).mpr mapped
        exact ⟨x, (ended.holds x).mpr (.inr held), same⟩
  · intro k
    rw [Finset.mem_insert, counts, update_apply]
    split
    · rename_i same
      simp [same]
    · rename_i other
      simp [other]
  · rw [ended.size, if_pos rfl, size, Finset.card_insert_of_notMem fresh]
    rfl

theorem insert_represents (represents : Represents hash t m) (key : κ) (value : α) :
    ∃ result u, insert hash t key value = some (result, u) ∧
      (result = .loadFactorTooLow ∧ Crowded hash u m key ∨
        result ≠ .loadFactorTooLow ∧ Represents hash u (putNew m key value)) := by
  obtain ⟨keys, -, size⟩ := represents.size
  have positive := Nat.two_pow_pos t.buckets.hashpower
  have fuel : 5 * t.size.toNat + 1 = 5 * keys.card + 1 := by rw [size, Int.toNat_natCast]
  obtain ⟨result, u, runs, ended⟩ : ∃ result u,
      insertLoop hash (5 * keys.card + 1) t key value = .some (result, u) ∧ Ended hash t key value result u :=
    insertLoop_spec represents.good size (Nat.succ_pos _) (by omega)
  refine ⟨result, u, by rw [insert, fuel]; exact runs, ?_⟩
  have absent := ended.absent represents
  cases result with
  | loadFactorTooLow =>
      obtain ⟨low, around⟩ := ended.full rfl
      exact .inl ⟨rfl, absent.mpr (by simp), ended.represents represents (by simp), low, around⟩
  | present =>
      refine .inr ⟨by simp, ?_⟩
      rw [putNew, if_neg fun none => absent.mp none rfl]
      exact ended.represents represents (by simp)
  | added =>
      have none := absent.mpr (by simp)
      refine .inr ⟨by simp, ?_⟩
      rw [putNew, if_pos none]
      exact ended.update_represents represents none

end Pacon.Cuckoo
