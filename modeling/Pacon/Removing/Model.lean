import Pacon.Message.Parse
import Pacon.PathText

/-!
# The directories that are being removed

A server keeps the directories of the RMDIR requests that are under way anywhere in the cluster. While
a directory is in the list, its commit thread throws away the MKDIR and CREATE messages below it.
-/

namespace Pacon.Removing
open Lib Function

/-- `struct removing_dirs` -/
structure RemovingDirs where
  count : Nat
  list : Nat → CString

def childCmp (path pPath : CString) : Nat := childCmpNew path pPath

/-! ### MKDIR and CREATE -/

def sIfdir : BitVec 32 := 0o040000

def sIfreg : BitVec 32 := 0o100000

structure ServerInfo where
  batchDirMode : BitVec 32
  batchFileMode : BitVec 32
  removingDirs : RemovingDirs

def startPaconServer : ServerInfo where
  batchDirMode := sIfdir ||| 0o755
  batchFileMode := sIfreg ||| 0o644
  removingDirs := ⟨0, fun _ => []⟩

/-- The loop of the two cases has `pos` in its head, but counts `i`, which stands at the ':' behind
the path. -/
def filterLoop (r : RemovingDirs) (path : CString) (pos : Nat) : Nat → Bool
  | 0 => false
  | turns + 1 => if childCmp path (r.list pos) = 1 then true else filterLoop r path pos turns

def filtered (r : RemovingDirs) (path : CString) : Bool :=
  decide (0 < r.count) && filterLoop r path 0 (r.count - 1 - path.length)

/-- How `commit_to_fs` comes out; `made` has the mode of the call that succeeded. -/
inductive Committed
  | discarded
  | permissionError
  | made (kind : Kind) (mode : BitVec 32)
  | retrying
  deriving DecidableEq

/-- The first `mkdir` or `creat`; both settings of `sp_permission` make the same. -/
def firstMode : Kind → BitVec 32
  | .dir => sIfdir ||| 0o755
  | .file => sIfreg ||| 0o644

/-- `retry_commit` calls `creat` with `batch_dir_mode`, too. -/
def retryMode (info : ServerInfo) : Kind → BitVec 32
  | .dir | .file => info.batchDirMode

/-- `failures` is how many calls on the DFS fail before one succeeds, `none` if none ever does. -/
def commitMake (info : ServerInfo) (spPermission : Int) (failures : Option Nat) (kind : Kind)
    (path : CString) : Committed :=
  if filtered info.removingDirs path then .discarded
  else if spPermission = 0 ∨ spPermission = 1 then
    match failures with
    | none => .retrying
    | some 0 => .made kind (firstMode kind)
    | some (_ + 1) => .made kind (retryMode info kind)
  else .permissionError

/-- The cases MKDIR and CREATE, once the loop on `barrier[waiting_barrier_id]` is left. -/
def commitToFs (info : ServerInfo) (spPermission : Int) (failures : Option Nat) (mesg : CString) :
    Option Committed :=
  match (Message.commitToFs mesg).2 with
  | some '1' => some (commitMake info spPermission failures .dir (Message.commitToFs mesg).1)
  | some '2' => some (commitMake info spPermission failures .file (Message.commitToFs mesg).1)
  | _ => none

/-! ### The list -/

/-- `none` where the new entry is behind the array. -/
def addRemovingDir (r : RemovingDirs) (path : CString) : Option RemovingDirs :=
  if r.count < Barrier.barrierIdMax then some ⟨r.count + 1, update r.list r.count path⟩ else none

/-- The entry at `pos` gets the last one and then the empty string. -/
def delAt (r : RemovingDirs) (pos : Nat) : RemovingDirs :=
  let list := if pos + 1 ≠ r.count then update r.list pos (r.list (r.count - 1)) else r.list
  ⟨r.count - 1, update list pos []⟩

def delLoop (r : RemovingDirs) (path : CString) : Nat → RemovingDirs
  | 0 => r
  | pos + 1 => if childCmp (r.list pos) path = 2 then delAt r pos else delLoop r path pos

def delRemovingDir (r : RemovingDirs) (path : CString) : RemovingDirs := delLoop r path r.count

def entries (r : RemovingDirs) : List CString := (List.range r.count).map r.list

end Pacon.Removing
