import Pacon.Calls.Files
import Pacon.Lib.Listing
import Pacon.Lib.Erase

/-!
# Walks over a directory tree, with the strings they build

`traversedir_dmkv_del` of the server and `flush_dir_new` of the client. memcached has the strings of the
callers for keys, and the DFS takes a string for the path that it names; the walks put the two together,
with a '/' and a name behind the string they were given.
-/

namespace Pacon.Subtree
open Lib Function Commit

/-- memcached, where no key is empty, and the DFS. -/
structure State where
  cache : CString → Option Entry
  noEmptyKey : cache [] = none
  dfs : Path → Option Node

/-- Which calls on the DFS fail, the working directory, and what a walk below a directory finds. -/
structure Disk where
  opendir : Path → Bool
  remove : Path → Bool
  rmdir : Path → Bool
  cwd : Path
  listing : Path → Listing CString

/-- `dmkv_get` and `dmkv_del` leave out one '/' at the end. -/
def memcKey (key : CString) : CString := if key.getLast? = some '/' then key.dropLast else key

def dmkvGet (s : State) (key : CString) : Option Entry := s.cache (memcKey key)

def dmkvDel (s : State) (key : CString) : State where
  cache := update s.cache (memcKey key) none
  noEmptyKey := by
    by_cases empty : ([] : CString) = memcKey key
    · rw [empty, update_self]
    · rw [update_of_ne empty, s.noEmptyKey]
  dfs := s.dfs

@[simp] theorem dmkvDel_dfs (s : State) (key : CString) : (dmkvDel s key).dfs = s.dfs := rfl

@[simp] theorem dmkvDel_cache (s : State) (key : CString) : (dmkvDel s key).cache = update s.cache (memcKey key) none := rfl

def removeNode (s : State) (p : Path) : State := { s with dfs := update s.dfs p none }

@[simp] theorem removeNode_cache (s : State) (p : Path) : (removeNode s p).cache = s.cache := rfl

@[simp] theorem removeNode_dfs (s : State) (p : Path) : (removeNode s p).dfs = update s.dfs p none := rfl

/-- What is put together in `dir_new`; `none` where it does not fit. -/
def dirNew (path name : CString) : Option CString :=
  if (path ++ '/' :: name).length < Message.pathMax then some (path ++ '/' :: name) else none

section
variable (d : Disk)

def opens (s : State) (path : CString) : Prop :=
  path ≠ [] ∧ s.dfs (resolve d.cwd path) = some .dir ∧ d.opendir (resolve d.cwd path) = false

instance (s : State) (path : CString) : Decidable (opens d s path) := inferInstanceAs (Decidable (_ ∧ _ ∧ _))

/-! ### traversedir_dmkv_del -/

def rmdirCall (path : CString) (x : State × Bool) : State × Bool :=
  if x.2 ∧ ¬d.rmdir (resolve d.cwd path) then (removeNode x.1 (resolve d.cwd path), true) else (x.1, false)

/-- The loop over the entries. It returns at a file that it cannot remove, and does not come back from a
directory that it cannot open. -/
def delLoop (path : CString) : Listing CString → State → Option (State × Bool)
  | .nil, s => some (s, true)
  | .file name rest, s =>
      match dirNew path name with
      | none => none
      | some new =>
          let t := dmkvDel s new
          if d.remove (resolve d.cwd new) then some (t, false)
          else delLoop path rest (removeNode t (resolve d.cwd new))
  | .dir name sub rest, s =>
      match dirNew path name with
      | none => none
      | some new =>
          let t := dmkvDel s new
          if opens d t new then
            match delLoop new sub t with
            | none => none
            | some x =>
                let y := rmdirCall d new x
                (delLoop path rest y.1).map fun z => (z.1, y.2 && z.2)
          else none

def traversedirDmkvDel (path : CString) (s : State) : Option State :=
  if opens d s path then
    (delLoop d path (d.listing (resolve d.cwd path)) s).map fun x => (rmdirCall d path x).1
  else none

/-- What `pacon_rmdir` adds once the server has replied. -/
def removeDirectory (path : CString) (s : State) : Option State :=
  (traversedirDmkvDel d path s).map fun t => dmkvDel t path

/-! ### flush_dir_new -/

def testEntryExist (s : State) (path : CString) : Int :=
  match dmkvGet s path with
  | none => -1
  | some e => if getStatFlag e.value.stat .rm then 0 else 1

def flushEntry (s : State) (path : CString) : State :=
  if testEntryExist s path = 1 then dmkvDel s path else s

def flushLoop (path : CString) : Listing CString → State → Option State
  | .nil, s => some s
  | .file name rest, s =>
      match dirNew path name with
      | none => none
      | some new => flushLoop path rest (flushEntry s new)
  | .dir name sub rest, s =>
      match dirNew path name with
      | none => none
      | some new =>
          let t := flushEntry s new
          if opens d t new then (flushLoop new sub t).bind (flushLoop path rest) else none

def flushDirNew (path : CString) (s : State) : Option State :=
  if opens d s path then flushLoop d path (d.listing (resolve d.cwd path)) s else none

end
end Pacon.Subtree
