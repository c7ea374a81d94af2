import Pacon.Calls.Files
import Pacon.Lib.Listing
import Pacon.Message.Parse

/-!
# The requests of the local RPC

What the server does for a request once the barrier is reached: the walk of RMDIR, which deletes and
removes, that of RENAME, which deletes only, that of FLUSHDIR, and the reply. A walk that runs
`readdir` on the NULL of a failed `opendir` does not come back. The paths below the directory of a walk
are taken to stay in their buffers.
-/

namespace Pacon.Server
open Lib Function Commit Calls

structure Disk where
  opendir : Path → Bool
  remove : Path → Bool
  rmdir : Path → Bool
  rename : Bool
  dmkvDel : Path → Bool
  listing : Path → Listing CString
  distinct : ∀ q, (listing q).Distinct
  vacant : Bool
  cwd : Path

def Disk.spelled (d : Disk) (str : CString) : Disk :=
  if str = below (resolve d.cwd str) then d else { d with dmkvDel := fun _ => true }

section
variable {ι κ : Type} (d : Disk)

def delKey (s : State ι κ) (p : Path) : Option (State ι κ) :=
  if d.dmkvDel p ∨ s.cache p = none then none else some (dmkvDel s p)

theorem delKey_dfs {s t : State ι κ} {p : Path} (del : delKey d s p = some t) : t.dfs = s.dfs := by
  unfold delKey at del
  split at del
  · cases del
  · cases del
    rfl

theorem delKey_getD_dfs (s : State ι κ) (p : Path) : ((delKey d s p).getD s).dfs = s.dfs := by
  cases del : delKey d s p with
  | none => rfl
  | some t => exact delKey_dfs d del

def removeNode (s : State ι κ) (p : Path) : State ι κ :=
  unlinked s (fun q => decide (q = p)) (update s.dfs p none)

theorem removeNode_dfs (s : State ι κ) (p : Path) : (removeNode s p).dfs = update s.dfs p none := rfl

/-! ### RMDIR -/

def rmdirCall (q : Path) (x : State ι κ × Bool) : State ι κ × Bool :=
  if x.2 ∧ ¬d.rmdir q then (removeNode x.1 q, true) else (x.1, false)

/-- The loop of `traversedir_dmkv_del`. It returns at a file that it cannot remove, without the
`rmdir`, which would find that file in the directory. -/
def delLoop (q : Path) : Listing CString → State ι κ → Option (State ι κ × Bool)
  | .nil, s => some (s, true)
  | .file name rest, s =>
      let t := (delKey d s (name :: q)).getD s
      if d.remove (name :: q) then some (t, false) else delLoop q rest (removeNode t (name :: q))
  | .dir name sub rest, s =>
      let t := (delKey d s (name :: q)).getD s
      if d.opendir (name :: q) then none
      else
        match delLoop (name :: q) sub t with
        | none => none
        | some x =>
            let y := rmdirCall d (name :: q) x
            (delLoop q rest y.1).map fun z => (z.1, y.2 && z.2)

def opens (s : State ι κ) (q : Path) : Prop := s.dfs q = some .dir ∧ d.opendir q = false

instance (s : State ι κ) (q : Path) : Decidable (opens d s q) := inferInstanceAs (Decidable (_ ∧ _))

def traversedirDmkvDel (q : Path) (s : State ι κ) : Option (State ι κ) :=
  if opens d s q then (delLoop d q (d.listing q) s).map fun x => (rmdirCall d q x).1 else none

/-! ### FLUSHDIR -/

def flushLoop (q : Path) : Listing CString → State ι κ → Option (State ι κ)
  | .nil, s => some s
  | .file name rest, s => flushLoop q rest ((delKey d s (name :: q)).getD s)
  | .dir name sub rest, s =>
      if d.opendir (name :: q) then none
      else (flushLoop (name :: q) sub ((delKey d s (name :: q)).getD s)).bind (flushLoop q rest)

def traversedirDmkvFlush (q : Path) (s : State ι κ) : Option (State ι κ) :=
  if opens d s q then flushLoop d q (d.listing q) s else none

/-! ### RENAME -/

/-- The loop of `traversedir_dmkv_rename` returns at the first key that it cannot delete. -/
def renameLoop (q : Path) : Listing CString → State ι κ → Option (State ι κ)
  | .nil, s => some s
  | .file name rest, s =>
      match delKey d s (name :: q) with
      | none => some s
      | some t => renameLoop q rest t
  | .dir name sub rest, s =>
      match delKey d s (name :: q) with
      | none => some s
      | some t =>
          if d.opendir (name :: q) then none else (renameLoop (name :: q) sub t).bind (renameLoop q rest)

def traversedirDmkvRename (q : Path) (s : State ι κ) : Option (State ι κ) :=
  if opens d s q then renameLoop d q (d.listing q) s else none

def moved (dfs : Path → Option Node) (old new : Path) : Path → Option Node := fun p =>
  if new <:+ p then dfs (p.take (p.length - new.length) ++ old)
  else if old <:+ p then none
  else dfs p

/-- `rename` takes the place of a file or of an empty directory. -/
def Replaces (node : Node) (there : Option Node) : Prop :=
  match node, there with
  | _, none => True
  | .file _, some (.file _) => True
  | .dir, some .dir => d.vacant = true
  | .file _, some .dir | .dir, some (.file _) => False

instance (node : Node) (there : Option Node) : Decidable (Replaces d node there) := by
  unfold Replaces
  split <;> infer_instance

def renameCall (dfs : Path → Option Node) (old new : Path) : Option (Path → Option Node) :=
  if d.rename then none
  else
    match dfs old with
    | none => none
    | some node =>
        if old = new then some dfs
        else if old <:+ new ∨ new <:+ old then none
        else if dfs new.tail = some .dir ∧ Replaces d node (dfs new) then some (moved dfs old new)
        else none

def renames (old new : Path) (p : Path) : Bool := old ≠ new ∧ (old <:+ p ∨ new <:+ p)

theorem unlinked_renames_self (s : State ι κ) (p : Path) : unlinked s (renames p p) s.dfs = s := by
  simp [unlinked, renames]

/-- The two names of `rename_update_dc`: up to the first '-' and behind the last one. -/
def oldName (path : CString) : CString := path.takeWhile (· ≠ '-')

def newName (path : CString) : CString := (path.reverse.takeWhile (· ≠ '-')).reverse

def halfMax : Nat := Message.pathMax / 2

/-- There are two names, each is in its buffer, and so is every '-' in that of the old name, which is not
empty: `opendir` would fail. -/
def NamesFit (path : CString) : Prop :=
  '-' ∈ path ∧ oldName path ≠ [] ∧ path.length - (newName path).length ≤ halfMax ∧ (newName path).length < halfMax

instance (path : CString) : Decidable (NamesFit path) := inferInstanceAs (Decidable (_ ∧ _))

/-- `rename` of the two names; nothing can have the empty one. -/
def renameNames (dfs : Path → Option Node) (path : CString) : Option (Path → Option Node) :=
  if newName path = [] then none
  else renameCall d dfs (resolve d.cwd (oldName path)) (resolve d.cwd (newName path))

def renameUpdateDc (path : CString) (s : State ι κ) : Option (State ι κ) :=
  if path.length ≤ 1 then some s
  else if NamesFit path then
    let old := resolve d.cwd (oldName path)
    (traversedirDmkvRename (d.spelled (oldName path)) old s).map fun t =>
      match renameNames d t.dfs path with
      | none => t
      | some dfs => unlinked t (renames old (resolve d.cwd (newName path))) dfs
  else none

/-! ### The reply -/

/-- The barrier is waited for at both ends and never fails; a checkpoint is a copy elsewhere. -/
def commitToFsBarrier (mesg : CString) (s : State ι κ) : Option (Int × State ι κ) :=
  match Message.commitToFsBarrier mesg with
  | none => none
  | some request =>
      let dir := resolve d.cwd request.path
      match request.opt with
      | some '4' => (traversedirDmkvDel (d.spelled request.path) dir s).map fun t => (0, t)
      | some '5' | some '0' => some (0, s)
      | some 'A' => (renameUpdateDc d request.path s).map fun t => (0, t)
      | some 'B' => (traversedirDmkvFlush (d.spelled request.path) dir s).map fun t => (0, t)
      | _ => some (-1, s)

def listenLocalRpc : Server ι κ := fun mesg s =>
  match Message.received mesg with
  | none => none
  | some mesg => (commitToFsBarrier d mesg s).map fun x => (if x.1 = 0 then '0' else '1', x.2)

end
end Pacon.Server
