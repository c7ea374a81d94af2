import Pacon.Barrier.Payload
import Mathlib.Data.BitVec

/-!
# The messages of the clients

A message is a path, an operation code and a timestamp, one after the other. The calls that go
through the local RPC print the barrier id in front of the path, two of them do not.
-/

namespace Pacon.Message
open Lib Barrier

/-- `PATH_MAX`, of `pacon.h` and of `pacon_server.h`. -/
def pathMax : Nat := 128

def timestampSize : Nat := 11

inductive OptType
  | checkpoint | mkdir | create | rm | rmdir | readdir | owrite | fsync | write | barrier | rename
  | flushdir
  deriving DecidableEq

def OptType.code : OptType → Char
  | .checkpoint => '0'
  | .mkdir => '1'
  | .create => '2'
  | .rm => '3'
  | .rmdir => '4'
  | .readdir => '5'
  | .owrite => '6'
  | .fsync => '7'
  | .write => '8'
  | .barrier => '9'
  | .rename => 'A'
  | .flushdir => 'B'

def OptType.text (opt : OptType) : CString := [':', opt.code]

/-- `sprintf(ts, "%d", timestamp)`: the unsigned timestamp is printed as an `int`. -/
def timestampText (timestamp : BitVec 32) : CString := printInt timestamp.toInt

structure Stored where
  text : CString
  size : Nat

def Stored.Fits (w : Stored) : Prop := w.text.length + 1 ≤ w.size

structure Formatted where
  stored : List Stored
  sent : Option CString

def receivedIn (mesg : CString) : Stored := ⟨mesg, pathMax⟩

def Formatted.Fits (f : Formatted) : Prop :=
  (∀ w ∈ f.stored, w.Fits) ∧ ∀ mesg ∈ f.sent, (receivedIn mesg).Fits

def Formatted.after (w : Stored) (f : Formatted) : Formatted := ⟨w :: f.stored, f.sent⟩

def addToMq (path : CString) (opt : OptType) (timestamp : BitVec 32) : Formatted :=
  if path.length + 3 > pathMax then ⟨[], none⟩
  else
    let ts := timestampText timestamp
    let mesg := path ++ opt.text ++ ts
    ⟨[⟨ts, timestampSize⟩, ⟨mesg, pathMax + timestampSize⟩], some mesg⟩

def addToLocalRpc (path : CString) (opt : OptType) (timestamp : BitVec 32) : Formatted :=
  if path.length + 3 > pathMax then ⟨[], none⟩
  else
    let ts := timestampText timestamp
    let mesg := path ++ opt.text ++ ts
    ⟨[⟨ts, timestampSize⟩, ⟨mesg, pathMax⟩], some mesg⟩

/-! ### The calls -/

section Calls
variable (currentBarrierId : BitVec 32)

/-- `sprintf(path_new, "%d%s", current_barrier_id, path)` and the request with it. -/
def prefixedRpc (path : CString) (opt : OptType) (timestamp : BitVec 32) : Formatted :=
  let pathNew := printInt currentBarrierId.toInt ++ path
  .after ⟨pathNew, pathMax⟩ (addToLocalRpc pathNew opt timestamp)

def paconRmdir (path : CString) (timestamp : BitVec 32) : Formatted :=
  prefixedRpc currentBarrierId path .rmdir timestamp

def paconOpendir (path : CString) (timestamp : BitVec 32) : Formatted :=
  prefixedRpc currentBarrierId path .readdir timestamp

def jointPath (path newpath : CString) : CString := path ++ '-' :: newpath

def paconRename (path newpath : CString) (timestamp : BitVec 32) : Formatted :=
  if path.length > pathMax / 2 ∨ newpath.length > pathMax / 2 then ⟨[], none⟩
  else
    .after ⟨jointPath path newpath, pathMax⟩
      (prefixedRpc currentBarrierId (jointPath path newpath) .rename timestamp)

def flushDir (path : CString) (timestamp : BitVec 32) : Formatted :=
  addToLocalRpc path .flushdir timestamp

def cregionCheckpoint (mountPath : CString) (timestamp : BitVec 32) : Formatted :=
  addToLocalRpc mountPath .checkpoint timestamp

def paconBarrier (optNum timestamp : BitVec 32) : BitVec 32 × Formatted :=
  let id := currentBarrierId + 1
  if barrierIdMax ≤ id.toInt then (id, ⟨[], none⟩)
  else
    let payload := printInt optNum.toInt ++ '|' :: printInt id.toInt
    (id, .after ⟨payload, pathMax⟩ (addToMq payload .barrier timestamp))

end Calls

/-- `current_barrier_id` after some calls of `pacon_barrier`. -/
def barrierIdAfter (calls : List (BitVec 32 × BitVec 32)) : BitVec 32 :=
  calls.foldl (fun id call => (paconBarrier id call.1 call.2).1) 0

/-- A call and the string arguments its message is made of. -/
inductive Request
  | mq (path : CString) (opt : OptType)
  | rmdir (path : CString)
  | opendir (path : CString)
  | rename (path newpath : CString)
  | flushDir (path : CString)
  | checkpoint (mountPath : CString)
  | barrier (optNum : BitVec 32)

def Request.format (currentBarrierId timestamp : BitVec 32) : Request → Formatted
  | .mq path opt => addToMq path opt timestamp
  | .rmdir path => paconRmdir currentBarrierId path timestamp
  | .opendir path => paconOpendir currentBarrierId path timestamp
  | .rename path newpath => paconRename currentBarrierId path newpath timestamp
  | .flushDir path => Message.flushDir path timestamp
  | .checkpoint mountPath => cregionCheckpoint mountPath timestamp
  | .barrier optNum => (paconBarrier currentBarrierId optNum timestamp).2

/-! ### What fits -/

def ShortTimestamp (timestamp : BitVec 32) : Prop :=
  timestamp.toNat < 2 ^ 31 ∨ 2 ^ 32 - 10 ^ 9 < timestamp.toNat

def Room (n : Nat) (timestamp : BitVec 32) : Prop :=
  n + 3 ≤ pathMax → ShortTimestamp timestamp ∧ n + 2 + (timestampText timestamp).length < pathMax

def PrefixRoom (currentBarrierId : BitVec 32) (n : Nat) (timestamp : BitVec 32) : Prop :=
  (printInt currentBarrierId.toInt).length + n < pathMax ∧
    Room ((printInt currentBarrierId.toInt).length + n) timestamp

def Request.Room (currentBarrierId timestamp : BitVec 32) : Request → Prop
  | .mq path _ | .flushDir path | .checkpoint path => Message.Room path.length timestamp
  | .rmdir path | .opendir path => PrefixRoom currentBarrierId path.length timestamp
  | .rename path newpath => path.length ≤ pathMax / 2 → newpath.length ≤ pathMax / 2 →
      PrefixRoom currentBarrierId (path.length + 1 + newpath.length) timestamp
  | .barrier _ => (currentBarrierId + 1).toInt < barrierIdMax → ShortTimestamp timestamp

theorem length_printInt {i : Int} {k : Nat} (pos : 0 < k) :
    (printInt i).length ≤ k + 1 ↔ i < 10 ^ (k + 1) ∧ -(10 ^ k : Nat) < i := by
  cases i with
  | ofNat n =>
      show (decimal n).length ≤ k + 1 ↔ _
      rw [length_decimal_le (Nat.succ_pos k), Int.ofNat_eq_natCast]
      constructor
      · intro less
        have : (0 : Int) < (10 ^ k : Nat) := by exact_mod_cast Nat.pow_pos (by decide)
        exact ⟨by exact_mod_cast less, by omega⟩
      · rintro ⟨less, -⟩
        exact_mod_cast less
  | negSucc n =>
      show ('-' :: decimal (n + 1)).length ≤ k + 1 ↔ _
      rw [List.length_cons, Nat.add_le_add_iff_right, length_decimal_le pos]
      have : (0 : Int) < 10 ^ (k + 1) := Int.pow_pos (by decide)
      omega

theorem length_printInt_toInt (w : BitVec 32) : (printInt w.toInt).length ≤ 11 := by
  have low := w.le_toInt
  have high := w.toInt_lt
  apply (length_printInt (by decide)).mpr
  omega

theorem shortTimestamp_iff (timestamp : BitVec 32) :
    ShortTimestamp timestamp ↔ (timestampText timestamp).length + 1 ≤ timestampSize := by
  have bound := timestamp.isLt
  have text : (timestampText timestamp).length + 1 ≤ timestampSize ↔
      (printInt timestamp.toInt).length ≤ 9 + 1 := Nat.add_le_add_iff_right
  rw [text, length_printInt (by decide), BitVec.toInt_eq_toNat_cond, ShortTimestamp]
  split <;> omega

theorem Formatted.fits_after (w : Stored) (f : Formatted) : (f.after w).Fits ↔ w.Fits ∧ f.Fits := by
  simp [Formatted.Fits, Formatted.after, and_assoc]

theorem mesg_fits {path : CString} (guard : ¬path.length + 3 > pathMax) (opt : OptType) (timestamp : BitVec 32)
    {size : Nat} (large : pathMax ≤ size) :
    (⟨[⟨timestampText timestamp, timestampSize⟩, ⟨path ++ opt.text ++ timestampText timestamp, size⟩],
      some (path ++ opt.text ++ timestampText timestamp)⟩ : Formatted).Fits ↔ Room path.length timestamp := by
  simp only [Formatted.Fits, Room, shortTimestamp_iff]
  simp [Stored.Fits, receivedIn, OptType.text, pathMax, timestampSize] at *
  omega

theorem nothing_fits {path : CString} (guard : path.length + 3 > pathMax) (timestamp : BitVec 32) :
    (⟨[], none⟩ : Formatted).Fits ↔ Room path.length timestamp := by
  simp [Formatted.Fits, Room, pathMax] at *
  omega

theorem addToMq_fits (path : CString) (opt : OptType) (timestamp : BitVec 32) :
    (addToMq path opt timestamp).Fits ↔ Room path.length timestamp := by
  unfold addToMq
  split
  · rename_i long
    exact nothing_fits long timestamp
  · rename_i short
    exact mesg_fits short opt timestamp (Nat.le_add_right _ _)

theorem addToLocalRpc_fits (path : CString) (opt : OptType) (timestamp : BitVec 32) :
    (addToLocalRpc path opt timestamp).Fits ↔ Room path.length timestamp := by
  unfold addToLocalRpc
  split
  · rename_i long
    exact nothing_fits long timestamp
  · rename_i short
    exact mesg_fits short opt timestamp le_rfl

theorem prefixedRpc_fits (id : BitVec 32) (path : CString) (opt : OptType) (timestamp : BitVec 32) :
    (prefixedRpc id path opt timestamp).Fits ↔ PrefixRoom id path.length timestamp := by
  rw [prefixedRpc, Formatted.fits_after, addToLocalRpc_fits, List.length_append]
  simp only [Stored.Fits, PrefixRoom, List.length_append, Nat.lt_iff_add_one_le]

theorem paconRename_fits (id : BitVec 32) (path newpath : CString) (timestamp : BitVec 32) :
    (paconRename id path newpath timestamp).Fits ↔
      (Request.rename path newpath).Room id timestamp := by
  have joint : (jointPath path newpath).length = path.length + 1 + newpath.length := by
    simp [jointPath]
    omega
  unfold paconRename
  split
  · simp [Formatted.Fits, Request.Room] at *
    omega
  · rename_i short
    rw [Formatted.fits_after, prefixedRpc_fits, joint]
    simp only [Stored.Fits, Request.Room, joint, PrefixRoom]
    constructor
    · rintro ⟨-, fits⟩ - -
      exact fits
    · intro fits
      obtain ⟨fits, room⟩ := fits (by omega) (by omega)
      exact ⟨by omega, fits, room⟩

theorem paconBarrier_fits (id optNum timestamp : BitVec 32) :
    (paconBarrier id optNum timestamp).2.Fits ↔ (Request.barrier optNum).Room id timestamp := by
  unfold paconBarrier
  dsimp only
  split
  · simp [Formatted.Fits, Request.Room] at *
    omega
  · rename_i below
    have optNum_text := length_printInt_toInt optNum
    have id_text := length_printInt_toInt (id + 1)
    have ts_text := length_printInt_toInt timestamp
    rw [Formatted.fits_after, addToMq_fits]
    simp only [Stored.Fits, Request.Room, Room, timestampText, pathMax, List.length_append,
      List.length_cons]
    constructor
    · rintro ⟨-, room⟩ -
      exact (room (by omega)).1
    · intro short
      exact ⟨by omega, fun _ => ⟨short (by omega), by omega⟩⟩

/-- Every buffer of a call, the server's included, holds what is written to it exactly if the
timestamp is short and leaves the call room for it. -/
theorem message_fits_iff (currentBarrierId timestamp : BitVec 32) (request : Request) :
    (request.format currentBarrierId timestamp).Fits ↔ request.Room currentBarrierId timestamp := by
  cases request with
  | mq path opt => exact addToMq_fits path opt timestamp
  | rmdir path => exact prefixedRpc_fits currentBarrierId path .rmdir timestamp
  | opendir path => exact prefixedRpc_fits currentBarrierId path .readdir timestamp
  | rename path newpath => exact paconRename_fits currentBarrierId path newpath timestamp
  | flushDir path => exact addToLocalRpc_fits path .flushdir timestamp
  | checkpoint mountPath => exact addToLocalRpc_fits mountPath .checkpoint timestamp
  | barrier optNum => exact paconBarrier_fits currentBarrierId optNum timestamp

def longPath : CString := '/' :: List.replicate 115 'a'

theorem message_overruns :
    (longPath.length + 3 ≤ pathMax ∧ ¬ ((Request.mq longPath .create).format 0 1700000000).Fits) ∧
    ¬ ((Request.mq ['/', 'a'] .create).format 0 (BitVec.ofNat 32 (2 ^ 31))).Fits := by
  refine ⟨⟨by decide, ?_⟩, ?_⟩
  · rw [Request.format, addToMq_fits]
    exact fun room => absurd (room (by decide)).2 (by decide)
  · rw [Request.format, addToMq_fits]
    exact fun room => absurd (room (by decide)).1 (by unfold ShortTimestamp; decide)

end Pacon.Message
