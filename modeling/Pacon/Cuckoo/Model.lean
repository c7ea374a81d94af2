import Mathlib.Algebra.Ring.Int.Defs
import Mathlib.Data.Fin.Basic
import Mathlib.Data.Nat.Log
import Mathlib.Logic.Function.Basic
import Pacon.Lib.CString
import Pacon.Lib.Search

/-!
# The hash tables of a client

`hash_table.cc` keeps three tables of libcuckoo, each used by one thread. A key is in one of two buckets of four
slots. Where both are full, others make room by moving to their other bucket; where that does not help either, the
table doubles, and what the old buckets hold moves when the lock of its bucket is taken next. The locks of an
unused thread never block, and the hashpower read before them is that behind them.
-/

namespace Pacon.Cuckoo
open Function Lib

abbrev slotPerBucket : Nat := 4

def maxNumLocks : Nat := 2 ^ 16

def maxBfsPathLen : Nat := 5

def defaultSize : Nat := 2 ^ 16 * slotPerBucket

abbrev Slot := Fin slotPerBucket

/-- Twice as many entries as a path of `MAX_BFS_PATH_LEN` buckets can begin with. -/
def maxCuckooCount : Nat := 2 * ((slotPerBucket ^ maxBfsPathLen - 1) / (slotPerBucket - 1))

/-! ### Hashes -/

def tagOf (hash : BitVec 64) : BitVec 8 :=
  let hash32 := hash.truncate 32 ^^^ (hash >>> 32).truncate 32
  let hash16 := hash32.truncate 16 ^^^ (hash32 >>> 16).truncate 16
  hash16.truncate 8 ^^^ (hash16 >>> 8).truncate 8

def hashsize (hp : Nat) : Nat := 2 ^ hp

def hashmask (hp : Nat) : Nat := hashsize hp - 1

def indexHash (hp : Nat) (hash : BitVec 64) : Nat := hash.toNat &&& hashmask hp

def altIndex (hp : Nat) (tag : BitVec 8) (index : Nat) : Nat :=
  (index ^^^ ((tag.toNat + 1) * 0xc6a4a7935bd1e995 % 2 ^ 64)) &&& hashmask hp

def lockInd (bucket : Nat) : Nat := bucket &&& (maxNumLocks - 1)

/-! ### Buckets -/

structure Item (κ α : Type*) where
  tag : BitVec 8
  key : κ
  mapped : α

structure Buckets (κ α : Type*) where
  hashpower : Nat
  slots : Nat → Slot → Option (Item κ α)

variable {κ α : Type*}

abbrev Bucket (κ α : Type*) := Slot → Option (Item κ α)

namespace Buckets

def size (x : Buckets κ α) : Nat := hashsize x.hashpower

def empty (hp : Nat) : Buckets κ α := ⟨hp, fun _ _ => none⟩

def set (x : Buckets κ α) (b : Nat) (s : Slot) (item : Option (Item κ α)) : Buckets κ α :=
  { x with slots := update x.slots b (update (x.slots b) s item) }

def setKV (x : Buckets κ α) (b : Nat) (s : Slot) (item : Item κ α) : Buckets κ α := x.set b s (some item)

def eraseKV (x : Buckets κ α) (b : Nat) (s : Slot) : Buckets κ α := x.set b s none

def clear (x : Buckets κ α) : Buckets κ α := empty x.hashpower

end Buckets

structure Table (κ α : Type*) where
  buckets : Buckets κ α
  oldBuckets : Buckets κ α
  locks : Nat
  elemCounter : Nat → Int
  isMigrated : Nat → Bool
  numRemaining : Nat

namespace Table

def size (t : Table κ α) : Int := ((List.range t.locks).map t.elemCounter).sum

def capacity (t : Table κ α) : Nat := t.buckets.size * slotPerBucket

end Table

def reserveCalc (n : Nat) : Nat := Nat.clog 2 ((n + slotPerBucket - 1) / slotPerBucket)

def new (n : Nat) : Table κ α where
  buckets := .empty (reserveCalc n)
  oldBuckets := .empty 0
  locks := min (hashsize (reserveCalc n)) maxNumLocks
  elemCounter _ := 0
  isMigrated _ := true
  numRemaining := 0

/-- `cuckoo_clear`; the store of the number of remaining locks returns before it can free the old buckets. -/
def cuckooClear (t : Table κ α) : Table κ α :=
  { t with buckets := t.buckets.clear, numRemaining := 0, elemCounter := fun _ => 0, isMigrated := fun _ => true }

section
variable (hash : κ → BitVec 64)

/-! ### Moving old buckets -/

/-- An old slot goes to the same place, or to the first free slot of the bucket that the new bit makes. -/
def moveSlot (old : Buckets κ α) (b : Nat) (x : Buckets κ α × Nat) (s : Slot) : Buckets κ α × Nat :=
  match old.slots b s with
  | none => x
  | some item =>
      let h := hash item.key
      let oldIhash := indexHash old.hashpower h
      let oldAhash := altIndex old.hashpower (tagOf h) oldIhash
      let newIhash := indexHash x.1.hashpower h
      let newAhash := altIndex x.1.hashpower (tagOf h) newIhash
      let newBucket := b + hashsize old.hashpower
      if b = oldIhash ∧ newIhash = newBucket ∨ b = oldAhash ∧ newAhash = newBucket then
        (x.1.setKV newBucket (Fin.ofNat slotPerBucket x.2) item, x.2 + 1)
      else (x.1.setKV b s item, x.2)

def moveBucket (old new : Buckets κ α) (b : Nat) : Buckets κ α :=
  ((List.finRange slotPerBucket).foldl (moveSlot hash old b) (new, 0)).1

def controlled (size l : Nat) : List Nat := List.range' l ((size + maxNumLocks - 1 - l) / maxNumLocks) maxNumLocks

def decrementRemaining (t : Table κ α) : Table κ α :=
  { t with
    numRemaining := t.numRemaining - 1
    oldBuckets := if t.numRemaining = 1 then .empty t.oldBuckets.hashpower else t.oldBuckets }

def rehashLock (isLazy : Bool) (t : Table κ α) (l : Nat) : Table κ α :=
  if t.isMigrated l then t
  else
    let moved := { t with
      buckets := (controlled t.oldBuckets.size l).foldl (moveBucket hash t.oldBuckets) t.buckets
      isMigrated := update t.isMigrated l true }
    if isLazy then decrementRemaining moved else moved

def lockOne (t : Table κ α) (i : Nat) : Table κ α := rehashLock hash true t (lockInd i)

def lockTwo (t : Table κ α) (i₁ i₂ : Nat) : Table κ α :=
  [min (lockInd i₁) (lockInd i₂), max (lockInd i₁) (lockInd i₂)].foldl (rehashLock hash true) t

def lockThree (t : Table κ α) (i₁ i₂ i₃ : Nat) : Table κ α :=
  ([lockInd i₁, lockInd i₂, lockInd i₃].mergeSort).foldl (rehashLock hash true) t

def bucketsOf (t : Table κ α) (key : κ) : Nat × Nat :=
  let i₁ := indexHash t.buckets.hashpower (hash key)
  (i₁, altIndex t.buckets.hashpower (tagOf (hash key)) i₁)

def snapshotAndLockTwo (t : Table κ α) (key : κ) : Table κ α :=
  lockTwo hash t (bucketsOf hash t key).1 (bucketsOf hash t key).2

/-! ### Finding -/

variable [DecidableEq κ]

def tryReadFromBucket (b : Bucket κ α) (key : κ) : Option Slot :=
  (List.finRange slotPerBucket).find? fun s =>
    match b s with
    | none => false
    | some item => tagOf (hash key) = item.tag ∧ item.key = key

def cuckooFind (t : Table κ α) (key : κ) (i₁ i₂ : Nat) : Option (Nat × Slot) :=
  match tryReadFromBucket hash (t.buckets.slots i₁) key with
  | some s => some (i₁, s)
  | none => (tryReadFromBucket hash (t.buckets.slots i₂) key).map fun s => (i₂, s)

def mappedAt (t : Table κ α) (position : Nat × Slot) : Option α :=
  (t.buckets.slots position.1 position.2).map Item.mapped

def find (t : Table κ α) (key : κ) : Option α × Table κ α :=
  let locked := snapshotAndLockTwo hash t key
  ((cuckooFind hash locked key (bucketsOf hash t key).1 (bucketsOf hash t key).2).bind (mappedAt locked), locked)

/-! ### Making room -/

/-- A slot with the key, or else the last empty slot if there is one. -/
def tryFindInsertBucket (b : Bucket κ α) (key : κ) : List Slot → Option Slot → Except Slot (Option Slot)
  | [], slot => .ok slot
  | s :: rest, slot =>
      match b s with
      | none => tryFindInsertBucket b key rest (some s)
      | some item =>
          if tagOf (hash key) = item.tag ∧ item.key = key then .error s else tryFindInsertBucket b key rest slot

structure BSlot where
  bucket : Nat
  pathcode : Nat
  depth : Nat

/-- The slots of a bucket in the order in which the search looks at them. -/
def slotOrder (x : BSlot) : List Slot :=
  (List.finRange slotPerBucket).map fun (i : Slot) => Fin.ofNat slotPerBucket (x.pathcode % slotPerBucket + i.val)

def kicked (hp : Nat) (x : BSlot) (s : Slot) (item : Item κ α) : BSlot where
  bucket := altIndex hp item.tag x.bucket
  pathcode := x.pathcode * slotPerBucket + s.val
  depth := x.depth + 1

def examine (hp : Nat) (b : Bucket κ α) (x : BSlot) : List Slot → Except BSlot (List BSlot)
  | [] => .ok []
  | s :: rest =>
      match b s with
      | none => .error { x with pathcode := x.pathcode * slotPerBucket + s.val }
      | some item =>
          (examine hp b x rest).map fun next => if x.depth < maxBfsPathLen - 1 then kicked hp x s item :: next else next

def slotSearch (hp : Nat) (t : Table κ α) (i₁ i₂ : Nat) : Table κ α × Option BSlot :=
  search (fun t (x : BSlot) => lockOne hash t x.bucket)
    (fun t x => examine hp (t.buckets.slots x.bucket) x (slotOrder x)) maxCuckooCount t [⟨i₁, 0, 0⟩, ⟨i₂, 1, 0⟩]

def unpack : Nat → Nat → List Slot × Nat
  | 0, pathcode => ([], pathcode)
  | n + 1, pathcode =>
      let rest := unpack n (pathcode / slotPerBucket)
      (rest.1 ++ [Fin.ofNat slotPerBucket pathcode], rest.2)

structure CuckooRecord where
  bucket : Nat
  slot : Slot
  hv : Option (BitVec 64)

def follow (hp : Nat) (t : Table κ α) (b : Nat) : List Slot → Table κ α × List CuckooRecord
  | [] => (t, [])
  | s :: rest =>
      let locked := lockOne hash t b
      match locked.buckets.slots b s with
      | none => (locked, [⟨b, s, none⟩])
      | some item =>
          let h := hash item.key
          let next := follow hp locked (altIndex hp (tagOf h) b) rest
          (next.1, ⟨b, s, some h⟩ :: next.2)

def cuckoopathSearch (hp : Nat) (t : Table κ α) (i₁ i₂ : Nat) : Table κ α × Option (List CuckooRecord) :=
  match slotSearch hash hp t i₁ i₂ with
  | (t, none) => (t, none)
  | (t, some x) =>
      let path := unpack (x.depth + 1) x.pathcode
      let records := follow hash hp t (if path.2 = 0 then i₁ else i₂) path.1
      (records.1, some records.2)

/-- The items move one after the other, from the end of the path. -/
def moveBack (t : Table κ α) (i₁ i₂ : Nat) : List CuckooRecord → Table κ α × Bool
  | target :: source :: rest =>
      let locked :=
        if rest = [] then lockThree hash t i₁ i₂ target.bucket else lockTwo hash t source.bucket target.bucket
      match locked.buckets.slots target.bucket target.slot, locked.buckets.slots source.bucket source.slot with
      | none, some item =>
          if some (hash item.key) = source.hv then
            let buckets := (locked.buckets.setKV target.bucket target.slot item).eraseKV source.bucket source.slot
            moveBack { locked with buckets } i₁ i₂ (source :: rest)
          else (locked, false)
      | _, _ => (locked, false)
  | _ => (t, true)

def cuckoopathMove (t : Table κ α) (i₁ i₂ : Nat) : List CuckooRecord → Table κ α × Bool
  | [only] =>
      let locked := lockTwo hash t i₁ i₂
      (locked, (locked.buckets.slots only.bucket only.slot).isNone)
  | path => moveBack hash t i₁ i₂ path.reverse

/-- A free position, or none; nothing if the loop runs out of its `fuel`. -/
def runCuckoo (hp i₁ i₂ : Nat) : Nat → Table κ α → Option (Table κ α × Option (Nat × Slot))
  | 0, _ => none
  | fuel + 1, t =>
      match cuckoopathSearch hash hp t i₁ i₂ with
      | (t, none) => some (t, none)
      | (t, some path) =>
          match cuckoopathMove hash t i₁ i₂ path with
          | (t, true) => some (t, path.head?.map fun first => (first.bucket, first.slot))
          | (t, false) => runCuckoo hp i₁ i₂ fuel t

/-! ### Inserting -/

inductive Status where
  | ok (position : Nat × Slot)
  | duplicated (position : Nat × Slot)
  | tableFull

def cuckooInsert (fuel : Nat) (t : Table κ α) (key : κ) (i₁ i₂ : Nat) : Option (Table κ α × Status) :=
  match tryFindInsertBucket hash (t.buckets.slots i₁) key (List.finRange slotPerBucket) none with
  | .error s => some (t, .duplicated (i₁, s))
  | .ok res₁ =>
      match tryFindInsertBucket hash (t.buckets.slots i₂) key (List.finRange slotPerBucket) none with
      | .error s => some (t, .duplicated (i₂, s))
      | .ok res₂ =>
          match res₁, res₂ with
          | some s, _ => some (t, .ok (i₁, s))
          | none, some s => some (t, .ok (i₂, s))
          | none, none =>
              (runCuckoo hash t.buckets.hashpower i₁ i₂ fuel t).map fun (t, free) =>
                match free with
                | none => (t, .tableFull)
                | some position =>
                    match cuckooFind hash t key i₁ i₂ with
                    | some other => (t, .duplicated other)
                    | none => (t, .ok position)

/-- `load_factor() < minimum_load_factor()`: the number of elements is below a twentieth of the capacity. -/
def loadTooLow (t : Table κ α) : Prop := 20 * t.size < t.capacity

instance (t : Table κ α) : Decidable (loadTooLow t) := inferInstanceAs (Decidable (_ < _))

/-- A larger array of locks has the old counters, and further locks like new. -/
def maybeResizeLocks (t : Table κ α) (bucketCount : Nat) : Table κ α :=
  if t.locks < maxNumLocks ∧ t.locks < bucketCount then
    { t with
      locks := min maxNumLocks bucketCount
      elemCounter := fun l => if l < t.locks then t.elemCounter l else 0
      isMigrated := fun l => if l < t.locks then t.isMigrated l else true }
  else t

def fastDouble (t : Table κ α) : Table κ α :=
  let done := { (List.range t.locks).foldl (rehashLock hash false) t with numRemaining := 0 }
  let resized := maybeResizeLocks done (hashsize (t.buckets.hashpower + 1))
  let old := resized.buckets
  let fresh := { resized with oldBuckets := old, buckets := .empty (t.buckets.hashpower + 1) }
  if old.size < maxNumLocks then
    { fresh with buckets := (List.range old.size).foldl (moveBucket hash old) fresh.buckets, numRemaining := 0 }
  else { fresh with isMigrated := fun _ => false, numRemaining := fresh.locks }

/-- How an insertion ends: with a new element, at one that was there, or by an exception. -/
inductive Inserted where
  | added
  | present
  | loadFactorTooLow
  deriving DecidableEq

def addToBucket (t : Table κ α) (position : Nat × Slot) (key : κ) (mapped : α) : Table κ α :=
  { t with
    buckets := t.buckets.setKV position.1 position.2 ⟨tagOf (hash key), key, mapped⟩
    elemCounter := update t.elemCounter (lockInd position.1) (t.elemCounter (lockInd position.1) + 1) }

/-- `insert`: the locks of the buckets are taken, and `cuckoo_insert_loop` runs. -/
def insertLoop : Nat → Table κ α → κ → α → Option (Inserted × Table κ α)
  | 0, _, _, _ => none
  | fuel + 1, t, key, mapped =>
      match cuckooInsert hash (fuel + 1) (snapshotAndLockTwo hash t key) key (bucketsOf hash t key).1
          (bucketsOf hash t key).2 with
      | none => none
      | some (t, .ok position) => some (.added, addToBucket hash t position key mapped)
      | some (t, .duplicated _) => some (.present, t)
      | some (t, .tableFull) =>
          if loadTooLow t then some (.loadFactorTooLow, t) else insertLoop fuel (fastDouble hash t) key mapped

/-- Each doubling halves the load factor, and there is an end to that. -/
def insert (t : Table κ α) (key : κ) (mapped : α) : Option (Inserted × Table κ α) :=
  insertLoop hash (5 * t.size.toNat + 1) t key mapped

end
end Pacon.Cuckoo
