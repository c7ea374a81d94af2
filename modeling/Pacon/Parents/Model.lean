import Pacon.Evict.Model
import Pacon.Server.Requests

/-!
# Directories that are removed or renamed

Beside what the clients and agents of the eviction system do, a client can call `pacon_rmdir` or
`pacon_rename`, with the walk of the server that serves the request, one access a step, and
`pacon_rmdir_clean`. The paths arrive as they were sent, barriers play no part, and requests are served
side by side.
-/

set_option linter.unusedSectionVars false

namespace Pacon.Parents
open Function Lib Commit Server

inductive Request
  | rmdir (p : Path)
  | rename (p newp : Path)
  deriving DecidableEq

def Request.path : Request → Path
  | .rmdir p | .rename p _ => p

/-- Where a request stands. The walk has the directories `dirs` open, the innermost first. -/
inductive RequestPc
  | idle
  | get (r : Request)
  | stat (r : Request)
  | add (r : Request) (v : Value)
  | newGet (p newp : Path)
  | newStat (p newp : Path)
  | newAdd (p newp : Path) (v : Value)
  | opendir (r : Request) (dirs : List Path)
  | readdir (r : Request) (dirs : List Path)
  | entryDel (r : Request) (dirs : List Path) (p : Path) (dir : Bool)
  | remove (r : Request) (dirs : List Path) (p : Path)
  | rmdir (r : Request) (dirs : List Path) (p : Path)
  | rename (p newp : Path)
  | del (p : Path)
  | returning (result : Int)
  | beyond
  deriving DecidableEq

structure State (ι κ α : Type) where
  base : Evict.State ι κ α
  request : κ → RequestPc
  /-- `fd_table`, one for every client process. -/
  fdTable : κ → Path → Option Int
  /-- History only: another client has called `pacon_rmdir` since this one called `pacon_rmdir_clean`. -/
  owes : κ → Bool

inductive Event (κ ι α : Type)
  | base (e : Evict.Event κ ι α)
  | start (c : κ) (r : Request)
  /-- `dir` is the type that `readdir` tells of the entry. -/
  | request (c : κ) (env : Env) (dir : Bool) (d : Disk)
  | clean (c : κ)

/-- The path is cached: RMDIR is sent, a rename goes on to its new name. -/
def Request.found : Request → RequestPc
  | .rmdir p => .opendir (.rmdir p) [p]
  | .rename p newp => .newGet p newp

/-- Back in the innermost directory; without one the walk is over. -/
def Request.resume : Request → List Path → RequestPc
  | .rmdir p, [] => .del p
  | .rename p newp, [] => .rename p newp
  | r, dirs => .readdir r dirs

def Request.closed (r : Request) (q : Path) (outer : List Path) : RequestPc :=
  match r with
  | .rmdir _ => .rmdir r outer q
  | .rename _ _ => r.resume outer

/-- What follows on the deletion of an entry's key; RENAME leaves the directory when it fails. -/
def Request.deleted (r : Request) (dirs : List Path) (p : Path) (dir fails : Bool) : RequestPc :=
  match r with
  | .rmdir _ => if dir then .opendir r (p :: dirs) else .remove r dirs p
  | .rename _ _ =>
      if fails then r.resume dirs.tail else if dir then .opendir r (p :: dirs) else .readdir r dirs

section
variable {ι κ α : Type} [DecidableEq ι] [DecidableEq κ] [DecidableEq α] (cfg : Config ι κ)

def setRequest (s : State ι κ α) (c : κ) (pc : RequestPc) : State ι κ α :=
  { s with request := update s.request c pc }

def setBase (s : State ι κ α) (b : Commit.State ι κ) : State ι κ α :=
  { s with base := Evict.setBase s.base b }

def fdhtClean (s : State ι κ α) (c : κ) : State ι κ α :=
  { s with fdTable := update s.fdTable c fun _ => none }

def paconRmdirClean (s : State ι κ α) (c : κ) : State ι κ α :=
  { fdhtClean s c with owes := update s.owes c false }

def removeCall (d : Disk) (dfs : Path → Option Node) (vacant : Bool) (p : Path) : Option (Path → Option Node) :=
  if d.remove p then none else dfsCall dfs vacant ⟨.rm, p⟩

def rmdirCall (d : Disk) (dfs : Path → Option Node) (vacant : Bool) (p : Path) : Option (Path → Option Node) :=
  if dfs p = some .dir ∧ vacant ∧ ¬d.rmdir p then some (update dfs p none) else none

def requestStep (s : State ι κ α) (c : κ) (env : Env) (dir : Bool) (d : Disk) : Option (State ι κ α) :=
  let b := s.base.base
  match s.request c with
  | .idle | .beyond => none
  | .get r => some <| setRequest s c <|
      match b.cache r.path with
      | none => if InWorkspace cfg r.path then .stat r else .returning (-1)
      | some _ => r.found
  | .stat r => some <| setRequest s c <|
      match b.dfs r.path with
      | none => .returning (-1)
      | some node => .add r (loadedValue env node)
  | .add r v => some (setRequest (setBase s ((dmkvAdd b r.path v).getD b)) c r.found)
  | .newGet p newp => some <| setRequest s c <|
      match b.cache newp with
      | some _ => .returning (-1)
      | none => if InWorkspace cfg newp then .newStat p newp else .opendir (.rename p newp) [p]
  | .newStat p newp => some <| setRequest s c <|
      match b.dfs newp with
      | none => .opendir (.rename p newp) [p]
      | some node => .newAdd p newp (loadedValue env node)
  | .newAdd _ newp v => some (setRequest (setBase s ((dmkvAdd b newp v).getD b)) c (.returning (-1)))
  | .opendir r dirs => some <| setRequest s c <|
      match dirs with
      | q :: _ => if opens d b q then .readdir r dirs else .beyond
      | [] => .beyond
  | .readdir r dirs => some <| setRequest s c <|
      match dirs, env.entry with
      | q :: _, some name => .entryDel r dirs (name :: q) dir
      | q :: outer, none => r.closed q outer
      | [], _ => .beyond
  | .entryDel r dirs p dir => some <|
      match delKey d b p with
      | some t => setRequest (setBase s t) c (r.deleted dirs p dir false)
      | none => setRequest s c (r.deleted dirs p dir true)
  -- a file that cannot be removed ends the loop without the `rmdir`
  | .remove r dirs p => some <|
      match removeCall d b.dfs env.vacant p with
      | some dfs =>
          setRequest (setBase s (unlinked b (fun q => decide (q = p)) dfs)) c (.readdir r dirs)
      | none => setRequest s c (r.resume dirs.tail)
  | .rmdir r dirs p => some <|
      match rmdirCall d b.dfs env.vacant p with
      | some dfs => setRequest (setBase s (unlinked b (fun q => decide (q = p)) dfs)) c (r.resume dirs)
      | none => setRequest s c (r.resume dirs)
  | .rename p newp => some <|
      match renameCall d b.dfs p newp with
      | some dfs => setRequest (setBase s (unlinked b (renames p newp) dfs)) c (.returning 0)
      | none => setRequest s c (.returning 0)
  | .del p => some <|
      match delKey d b p with
      | some t => setRequest (fdhtClean (setBase s t) c) c (.returning 0)
      | none => setRequest s c (.returning (-1))
  | .returning _ => some (setRequest s c .idle)

def Free (s : State ι κ α) (c : κ) : Prop := s.base.base.client c = .idle ∧ s.request c = .idle

instance (s : State ι κ α) (c : κ) : Decidable (Free s c) := inferInstanceAs (Decidable (_ ∧ _))

def begun (s : State ι κ α) (c : κ) (r : Request) : State ι κ α :=
  match r with
  | .rmdir _ => { setRequest s c (.get r) with owes := fun other => s.owes other || other ≠ c }
  | .rename _ _ => setRequest s c (.get r)

def step (s : State ι κ α) : Event κ ι α → Option (State ι κ α)
  | .base (.base (.start c call)) =>
      if Free s c then (Evict.step cfg s.base (.base (.start c call))).map fun b => { s with base := b } else none
  | .base e => (Evict.step cfg s.base e).map fun b => { s with base := b }
  | .start c r => if Free s c then some (begun s c r) else none
  | .request c env dir d => requestStep cfg s c env dir d
  | .clean c => if Free s c then some (paconRmdirClean s c) else none

structure Initial (s : State ι κ α) : Prop where
  base : Evict.Initial cfg s.base
  request : ∀ c, s.request c = .idle
  owes : ∀ c, s.owes c = false

def initialState (env : Env) : State ι κ α :=
  ⟨Evict.initialState cfg env, fun _ => .idle, fun _ _ => none, fun _ => false⟩

theorem initial_initialState (env : Env) (named : cfg.root ≠ []) :
    Initial cfg (initialState cfg env : State ι κ α) :=
  ⟨Evict.initial_initialState cfg env named, fun _ => rfl, fun _ => rfl⟩

def system : System (State ι κ α) (Event κ ι α) := ⟨Initial cfg, step cfg⟩

end
end Pacon.Parents
