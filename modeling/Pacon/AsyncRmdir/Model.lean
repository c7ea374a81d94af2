import Pacon.Server.Requests

/-!
# The record of asynchronous rmdirs

With `ASYNC_RPC` a server keeps the directories that are being removed in shared memory, in segments
of 128 entries, and the clients look there. The first segment has the number of entries and of
segments; further segments are there whenever they are asked for.
-/

set_option linter.unusedSectionVars false

namespace Pacon.AsyncRmdir
open Lib Function Commit

def rmdirlistMax : Nat := 128

/-- `struct rmdir_record` of all segments; a segment goes by its key, the first one by `SHMKEY`. -/
structure RmdirRecord where
  rmdirNum : Nat
  shmidCount : Nat
  rmdirList : Nat → Nat → CString

def shmkey : Nat := 1

def RmdirRecord.set (r : RmdirRecord) (segment slot : Nat) (path : CString) : RmdirRecord :=
  { r with rmdirList := update r.rmdirList segment (update (r.rmdirList segment) slot path) }

/-- `none` where the path is written behind its place in the array. -/
def rmdirPre (r : RmdirRecord) (path : CString) (remote : Bool) (broadcast : Int) : Option (Int × RmdirRecord) :=
  let grows := r.shmidCount * rmdirlistMax < r.rmdirNum + 1
  let key := if grows then r.shmidCount + 1 else r.shmidCount
  let segment := if grows then key else shmkey
  let loc := if grows then r.rmdirNum % rmdirlistMax else r.rmdirNum
  if loc < rmdirlistMax ∧ path.length < Message.pathMax then
    let r := { r.set segment loc path with rmdirNum := r.rmdirNum + 1 }
    let r :=
      if r.rmdirNum ≤ (key - 1) * rmdirlistMax ∧ 1 < key then { r with shmidCount := r.shmidCount + 1 } else r
    some (if remote = false ∧ broadcast ≠ 0 then -1 else 0, r)
  else none

/-! ### `rmdir_post` -/

/-- What happens at an entry that is the path; `last` is the key of the last segment before the loop. -/
def takeOut (last pos : Nat) (r : RmdirRecord) : RmdirRecord :=
  let segment := if 1 < last then last else shmkey
  let lastPos := r.rmdirNum % rmdirlistMax
  let moved := if last = 1 ∧ pos = lastPos then r else r.set shmkey pos (r.rmdirList segment lastPos)
  let r := { moved.set segment lastPos [] with rmdirNum := r.rmdirNum - 1 }
  if r.rmdirNum ≤ (last - 1) * rmdirlistMax ∧ 1 < last then { r with shmidCount := r.shmidCount - 1 } else r

/-- The inner loop from `j` on; `none` where it reads behind the array. -/
def innerLoop (path : CString) (last : Nat) : Nat → Nat → RmdirRecord → Option RmdirRecord
  | 0, _, r => some r
  | turns + 1, j, r =>
      if j < r.rmdirNum then
        if j < rmdirlistMax then
          innerLoop path last turns (j + 1)
            (if childCmpNew path (r.rmdirList shmkey j) = 2 then takeOut last j r else r)
        else none
      else some r

/-- The outer loop sets `i` back to 1 in every turn, so it ends behind a turn with at most one segment.
A turn that takes nothing out is repeated for ever. -/
def outerLoop (path : CString) (last : Nat) : Nat → RmdirRecord → Option RmdirRecord
  | 0, _ => none
  | n + 1, r =>
      if r.shmidCount < 1 then some r
      else (innerLoop path last r.rmdirNum 0 r).bind fun r => if r.shmidCount < 2 then some r else outerLoop path last n r

section
variable {ι κ : Type}

/-- The result is missing where the function ends without a return statement. -/
def rmdirPost (d : Server.Disk) (r : RmdirRecord) (s : Commit.State ι κ) (path : CString) (remote : Bool)
    (broadcast : Int) : Option (Option Int × RmdirRecord × Commit.State ι κ) :=
  match Server.traversedirDmkvDel (d.spelled path) (resolve d.cwd path) s with
  | none => none
  | some s => (outerLoop path r.shmidCount (r.rmdirNum + 1) r).map fun r =>
      (if remote = false ∧ broadcast ≠ 0 then some (-1) else none, r, s)

end

/-! ### The client -/

/-- The entries of the last segment are counted by the rest. -/
def checkRmdirList (r : RmdirRecord) (path : CString) : Int :=
  let found := (List.range r.shmidCount).any fun i =>
    (List.range (if i + 1 < r.shmidCount then rmdirlistMax else r.rmdirNum % rmdirlistMax)).any fun j =>
      childCmpNew path (r.rmdirList (i + 1) j) ≠ 0
  if found then -1 else 0

/-! ### The calls of a server -/

structure State (ι κ : Type) where
  record : RmdirRecord
  base : Commit.State ι κ
  /-- History only: the directories that `rmdir_pre` has recorded and `rmdir_post` has not taken out. -/
  recorded : List Path

inductive Event
  | pre (p : Path) (remote : Bool) (broadcast : Int)
  | post (p : Path) (d : Server.Disk) (remote : Bool) (broadcast : Int)

section
variable {ι κ : Type}

def step (s : State ι κ) : Event → Option (State ι κ)
  | .pre p remote broadcast => (rmdirPre s.record (text p) remote broadcast).map fun x =>
      ⟨x.2, s.base, s.recorded ++ [p]⟩
  | .post p d remote broadcast => (rmdirPost d s.record s.base (text p) remote broadcast).map fun x =>
      ⟨x.2.1, x.2.2, s.recorded.erase p⟩

/-- A client has run `init_pacon`; what the segments hold is open. -/
structure Initial (s : State ι κ) : Prop where
  num : s.record.rmdirNum = 0
  count : s.record.shmidCount = 1
  recorded : s.recorded = []

def system (ι κ : Type) : System (State ι κ) Event := ⟨Initial, step⟩

end
end Pacon.AsyncRmdir
