import Pacon.Calls.Model
import Pacon.FileAccess

/-!
# The calls on what is there

The interface calls that read, write, remove and rename, and the joint of other regions. `serve` is
what the server does with a request of the local RPC and the character it replies.
-/

namespace Pacon.Calls
open Lib Function Commit InlineWrite FileAccess

inductive Fd
  | file
  | unlinked (content : List UInt8)

/-- `struct pacon_file`; `fd` is -1 where it is `none`. -/
structure PFile where
  fd : Option Fd
  hitRemoteCr : Bool

def Server (ι κ : Type) := CString → State ι κ → Option (Char × State ι κ)

section
variable {ι κ : Type} [DecidableEq ι] [DecidableEq κ] (cfg : Config ι κ)

def viaJoined (s : State ι κ) (w : World) : Int × State ι κ :=
  match w.joined with
  | none => (-1, s)
  | some (ret, dfs) => (if ret = 0 then 0 else -1, { s with dfs := dfs })

def paconGetattr (s : State ι κ) (w : World) (p : Path) : Int × State ι κ :=
  if w.permitted .read then
    match s.cache p with
    | none =>
        if inWorkspace cfg p then
          match s.dfs p with
          | some node => (0, (dmkvAdd s p (Evict.getattrValue w.env node)).getD s)
          | none => viaJoined s w
        else viaJoined s w
    | some e => if getStatFlag e.value.stat .rm then (-1, s) else (0, s)
  else (-1, s)

/-- `none` where the retry after a failed add never ends. -/
def paconOpen (s : State ι κ) (w : World) (p : Path) (flags : Evict.OpenFlags) (file : PFile) :
    Option (Int × State ι κ × PFile) :=
  if w.permitted .rw then
    let file := { file with hitRemoteCr := false }
    match s.cache p with
    | none =>
        if inWorkspace cfg p then
          match Evict.openCall s.dfs flags p, s.dfs p with
          | none, _ => some (-1, s, file)
          | some dfs, none => some (-1, { s with dfs := dfs }, file)
          | some dfs, some node =>
              (dmkvAdd { s with dfs := dfs } p (Evict.openedValue w.env node)).map
                fun t => (0, t, { file with fd := some .file })
        else
          match viaJoined s w with
          | (0, t) => some (0, t, { file with hitRemoteCr := true })
          | (_, t) => some (-1, t, file)
    | some e =>
        if getStatFlag e.value.stat .fileCreated ∧ ¬getStatFlag e.value.stat .inline ∧
            0 < e.value.stat.size.toNat then
          match Evict.openCall s.dfs flags p with
          | none => some (-1, s, file)
          | some dfs =>
              some (0, store { s with dfs := dfs } p (Evict.counted e.value), { file with fd := some .file })
        else some (0, s, { file with fd := none })
  else some (-1, s, file)

def fdContent (s : State ι κ) (p : Path) : Fd → List UInt8
  | .unlinked content => content
  | .file =>
      match s.dfs p with
      | some (.file content) => content
      | _ => []

def readDfs (s : State ι κ) (p : Path) (file : PFile) (size offset : Nat) : Option (List UInt8) × PFile :=
  match s.dfs p with
  | some (.file content) => (some (pread content size offset), { file with fd := some .file })
  | _ => (none, { file with fd := none })

/-- `remote` is what the read of a joined region's file returns and makes of `p_file`. -/
def paconReadNew (s : State ι κ) (w : World) (p : Path) (file : PFile) (remote : Int × PFile)
    (size offset : Nat) : Option (List UInt8) × PFile :=
  if w.permitted .read then
    let file' := if file.hitRemoteCr then remote.2 else file
    if file.hitRemoteCr ∧ remote.1 = -1 then readDfs s p file' size offset
    else
      match file'.fd with
      | some fd => (some (pread (fdContent s p fd) size offset), file')
      | none =>
          match s.cache p with
          | none => (none, file')
          | some e =>
              if getStatFlag e.value.stat .inline then
                if e.value.stat.size.toNat < offset + size then (none, file')
                else (some (pread (strcpy w.env.inlineData e.value.data) size offset), file')
              else readDfs s p file' size offset
  else (none, file)

def writeFd (s : State ι κ) (p : Path) (wr : Write) : Fd → State ι κ × Fd
  | .unlinked content => (s, .unlinked (pwrite content wr.data wr.offset))
  | .file =>
      match s.dfs p with
      | some (.file content) =>
          ({ s with dfs := update s.dfs p (some (.file (pwrite content wr.data wr.offset))) }, .file)
      | _ => (s, .file)

/-- `none` where the copy overruns `new_data` and where the file never comes to the DFS. What is set
at `update` is not serialised again. -/
def paconWriteNew (s : State ι κ) (c : κ) (w : World) (p : Path) (file : PFile) (wr : Write) :
    Option (Int × State ι κ × PFile) :=
  if ¬w.permitted .write then some (-1, s, file)
  else if wr.size < (wr.buf.takeWhile (· ≠ 0)).length then some (-1, s, file)
  else
    match s.cache p with
    | none =>
        match s.dfs p with
        | some (.file content) =>
            some (wr.size,
              { s with dfs := update s.dfs p (some (.file (pwrite content wr.data wr.offset))) }, file)
        | _ => some (-1, s, file)
    | some e =>
        match file.fd with
        | some fd =>
            let (t, fd') := writeFd s p wr fd
            some (wr.size, store t p (recordAlone e.value), { file with fd := some fd' })
        | none =>
            if e.value.stat.size.toNat < wr.offset then some (-1, s, file)
            else if newSizeInt e.value wr.data wr.offset < inlineMax - 1 then
              if newSize e.value wr.data wr.offset < inlineMax - 1 then
                let t := store s p (writtenValue w.env e.value wr.data wr.offset)
                some (wr.size, (addToMq t c ⟨.write, p⟩).2, file)
              else none
            else
              match s.dfs p with
              | some (.file content) =>
                  let content :=
                    if getStatFlag e.value.stat .inline then
                      pwrite content ((strcpy w.env.inlineData e.value.data).take e.value.stat.size.toNat) 0
                    else content
                  let t := { s with dfs := update s.dfs p (some (.file (pwrite content wr.data wr.offset))) }
                  some (wr.size, store t p (recordAlone e.value), { file with fd := some .file })
              | _ => none

def paconRm (s : State ι κ) (c : κ) (w : World) (p : Path) : Option (Int × State ι κ) :=
  if w.permitted .rm then
    match getOrLoad cfg s w p with
    | (0, t) =>
        match t.cache p with
        | none => none
        | some e => some (addToMq (store t p (flagged e.value .rm)) c ⟨.rm, p⟩)
    | (_, t) => some (-1, t)
  else some (-1, s)

/-- `add_to_local_rpc` with the message it makes; `none` where the server never replies. -/
def addToLocalRpc (serve : Server ι κ) (s : State ι κ) (message : Message.Formatted) :
    Option (Int × State ι κ) :=
  match message.sent with
  | none => some (-1, s)
  | some mesg => (serve mesg s).map fun x => (if x.1 = '0' then 0 else -1, x.2)

def paconOpendir (serve : Server ι κ) (s : State ι κ) (w : World) (p : Path) : Option (Int × State ι κ) :=
  if w.permitted .readdir then
    match getOrLoad cfg s w p with
    | (0, t) =>
        match addToLocalRpc serve t (Message.paconOpendir w.barrierId (text p) w.timestamp) with
        | some (0, u) => some (if u.dfs p = some .dir then 1 else 0, u)
        | other => other
    | (_, t) => some (-1, t)
  else some (-1, s)

def paconRmdir (serve : Server ι κ) (s : State ι κ) (w : World) (p : Path) : Option (Int × State ι κ) :=
  if w.permitted .rmdir then
    match getOrLoad cfg s w p with
    | (0, t) =>
        match addToLocalRpc serve t (Message.paconRmdir w.barrierId (text p) w.timestamp) with
        | some (0, u) => some (if u.cache p = none then -1 else 0, dmkvDel u p)
        | other => other
    | (_, t) => some (-1, t)
  else some (-1, s)

/-- How `pacon_rename` comes out before it looks at the lengths, by the message it prints. -/
inductive RenameCheck (ι κ : Type)
  | denied
  | missing (t : State ι κ)
  | newNameExisted (t : State ι κ)
  | passed (t : State ι κ)

def checkRename (s : State ι κ) (w : World) (p newp : Path) : RenameCheck ι κ :=
  if w.permitted .rename then
    match getOrLoad cfg s w p with
    | (0, t) =>
        if (t.cache newp).isSome then .newNameExisted t
        else
          match loadToPacon cfg t w newp with
          | (-1, u) => .passed u
          | (_, u) => .newNameExisted u
    | (_, t) => .missing t
  else .denied

def paconRename (serve : Server ι κ) (s : State ι κ) (w : World) (p newp : Path) : Option (Int × State ι κ) :=
  match checkRename cfg s w p newp with
  | .denied => some (-1, s)
  | .missing t | .newNameExisted t => some (-1, t)
  | .passed t =>
      addToLocalRpc serve t (Message.paconRename w.barrierId (text p) (text newp) w.timestamp)

def crJointMax : Nat := 8

/-- `mount_path` of a new struct: the end of the copied root is compared with a NUL and not set, so what the
memory holds follows. -/
def setRootPath (memory rPath : CString) : CString := rPath ++ memory

def remoteMounts (roots : List Path) (memory : Nat → CString) : List Path :=
  roots.mapIdx fun i root => resolve [] (setRootPath (memory i) (text root))

def initRemotes (s : State ι κ) (c : κ) : List Path → Int × State ι κ
  | [] => (0, s)
  | mount :: mounts => if s.dfs mount = none then (-1, s) else initRemotes (addToDirCheckTable s c mount) c mounts

/-- `roots` is what `remote_cr_root` holds of the first `remote_cr_num` regions. -/
def cregionJoint (s : State ι κ) (c : κ) (roots : List Path) (memory : Nat → CString) : Int × State ι κ :=
  if roots.length < 1 ∨ crJointMax < roots.length then (-1, s) else initRemotes s c (remoteMounts roots memory)

def cregionSplit (s : State ι κ) : Int × State ι κ := (0, s)

end
end Pacon.Calls
