import Pacon.Commit.Model

/-!
# Evictions and the calls that cache single records

Agents run beside the clients of the commit system: the evictions of `pacon.c` with the servers'
FLUSHDIR, `pacon_getattr` and `pacon_open`. The evict lock and the evict record only decide which
agent evicts which entry, so any agent may evict any; FLUSHDIR's barrier plays no part.
-/

set_option linter.unusedSectionVars false

namespace Pacon.Evict
open Function Lib Commit

structure OpenFlags where
  creat : Bool
  trunc : Bool
  write : Bool
  deriving DecidableEq

inductive Task
  | evictNew
  /-- `evict_metadata`, which leaves directories to the server. -/
  | evict
  | getattr (p : Path)
  | openFile (p : Path) (flags : OpenFlags)
  deriving DecidableEq

structure Walk where
  tests : Bool
  dirs : List Path
  deriving DecidableEq

inductive AgentPc
  | idle
  | pick (tests : Bool)
  | fileStat (p : Path)
  | flushStat (p : Path)
  | flushDel (p : Path)
  | opendir (w : Walk)
  | readdir (w : Walk)
  | entryGet (w : Walk) (p : Path) (dir : Bool)
  | entryDel (w : Walk) (p : Path) (dir : Bool)
  | getattrGet (p : Path)
  | getattrStat (p : Path)
  | getattrAdd (p : Path) (v : Value)
  | openGet (p : Path) (flags : OpenFlags)
  | openStat (p : Path) (flags : OpenFlags)
  | openDfs (p : Path) (flags : OpenFlags) (v : Option Value)
  | openAdd (p : Path) (flags : OpenFlags) (v : Value)
  | openCached (p : Path) (flags : OpenFlags) (v : Value) (cas : Nat)
  | openCas (p : Path) (v : Value) (cas : Nat)
  | openReget (p : Path)
  | returning (result : Int)
  | beyond
  deriving DecidableEq

structure State (ι κ α : Type) where
  base : Commit.State ι κ
  agent : α → AgentPc

inductive Event (κ ι α : Type)
  | base (e : Commit.Event κ ι)
  | start (a : α) (task : Task)
  /-- `dir` is the type that `readdir` tells of the entry. -/
  | agent (a : α) (env : Env) (dir : Bool)
  deriving DecidableEq

/-! ### Values -/

def statRecord (env : Env) : Node → PaconStat
  | .dir => { env.stat with flags := 0 }
  | .file content => { env.stat with flags := 0, size := .ofNat 32 content.length }

/-- `pacon_getattr` caches a record without a flag. -/
def getattrValue (env : Env) (node : Node) : Value := ⟨{ statRecord env node with openCounter := 0 }, []⟩

/-- One more open; the record alone is stored. -/
def counted (v : Value) : Value := ⟨{ v.stat with openCounter := v.stat.openCounter + 1 }, []⟩

/-- `pacon_open` sets STAT_file_created only, and counts on from what the counter held. -/
def openedValue (env : Env) (node : Node) : Value :=
  counted ⟨setStatFlag (statRecord env node) .fileCreated true, []⟩

section Step
variable {ι κ α : Type} [DecidableEq ι] [DecidableEq κ] [DecidableEq α] (cfg : Config ι κ)

/-! ### The agents -/

def Task.begin : Task → AgentPc
  | .evictNew => .pick true
  | .evict => .pick false
  | .getattr p => .getattrGet p
  | .openFile p flags => .openGet p flags

def picked (tests : Bool) (p : Path) (dir : Bool) : AgentPc :=
  if dir then .opendir ⟨tests, [p]⟩ else if tests then .fileStat p else .flushStat p

/-- Back in the innermost directory; without one it was `flush_file_new`, or all is done. -/
def Walk.resume (w : Walk) : AgentPc :=
  if w.dirs = [] then .returning 0 else .readdir w

def Walk.entry (w : Walk) (p : Path) (dir : Bool) : AgentPc :=
  if w.tests then .entryGet w p dir else .entryDel w p dir

def Walk.afterEntry (w : Walk) (p : Path) (dir : Bool) : AgentPc :=
  if dir then .opendir { w with dirs := p :: w.dirs } else w.resume

def testEntryExist (s : Commit.State ι κ) (p : Path) : Int :=
  match s.cache p with
  | none => -1
  | some e => if getStatFlag e.value.stat .rm then 0 else 1

/-- `pacon_getattr` with a cached value; the `stat` of a file that is on the DFS only fills the
caller's record. -/
def getattrCached (e : Entry) : AgentPc :=
  if getStatFlag e.value.stat .rm then .returning (-1) else .returning 0

def openFound (p : Path) (flags : OpenFlags) (e : Entry) : AgentPc :=
  if getStatFlag e.value.stat .fileCreated ∧ ¬getStatFlag e.value.stat .inline ∧
      0 < e.value.stat.size.toNat then
    .openCached p flags e.value e.cas
  else .returning 0

def openCall (dfs : Path → Option Node) (flags : OpenFlags) (p : Path) : Option (Path → Option Node) :=
  match p, dfs p with
  | _ :: q, none =>
      if flags.creat ∧ dfs q = some .dir then some (update dfs p (some (.file []))) else none
  | _, some (.file _) => some (if flags.trunc then update dfs p (some (.file [])) else dfs)
  | _, some .dir => if flags.creat ∨ flags.trunc ∨ flags.write then none else some dfs
  | [], none => none

def setAgent (s : State ι κ α) (a : α) (pc : AgentPc) : State ι κ α :=
  { s with agent := update s.agent a pc }

def setBase (s : State ι κ α) (b : Commit.State ι κ) : State ι κ α := { s with base := b }

@[simp] theorem setAgent_base (s : State ι κ α) (a : α) (pc : AgentPc) : (setAgent s a pc).base = s.base := rfl

@[simp] theorem setAgent_agent (s : State ι κ α) (a : α) (pc : AgentPc) :
    (setAgent s a pc).agent = update s.agent a pc := rfl

def agentStep (s : State ι κ α) (a : α) (env : Env) (dir : Bool) : Option (State ι κ α) :=
  match s.agent a with
  | .idle | .beyond => none
  | .pick tests => some <| setAgent s a <|
      match env.entry with
      | some name => picked tests (name :: cfg.root) dir
      | none => .returning 0
  | .fileStat p => some <| setAgent s a <|
      if s.base.dfs p = none then .returning 0 else .entryGet ⟨true, []⟩ p false
  -- the deletion is the body of the loop that waits for the file
  | .flushStat p => some <| setAgent s a <|
      if s.base.dfs p = none then .flushDel p else .returning 0
  | .flushDel p => some (setAgent (setBase s (dmkvDel s.base p)) a (.flushStat p))
  | .opendir w => some <| setAgent s a <|
      match w.dirs with
      | d :: _ => if s.base.dfs d = some .dir then .readdir w else .beyond
      | [] => .returning 0
  | .readdir w => some <| setAgent s a <|
      match w.dirs, env.entry with
      | d :: _, some name => w.entry (name :: d) dir
      | _ :: outer, none => Walk.resume { w with dirs := outer }
      | [], _ => .returning 0
  | .entryGet w p dir => some <| setAgent s a <|
      if testEntryExist s.base p = 1 then .entryDel w p dir else w.afterEntry p dir
  | .entryDel w p dir => some <| setAgent (setBase s (dmkvDel s.base p)) a <|
      if w.dirs = [] ∧ s.base.cache p = none then .returning (-1) else w.afterEntry p dir
  | .getattrGet p => some <| setAgent s a <|
      match s.base.cache p with
      | none => if InWorkspace cfg p then .getattrStat p else .returning (-1)
      | some e => getattrCached e
  | .getattrStat p => some <| setAgent s a <|
      match s.base.dfs p with
      | none => .returning (-1)
      | some node => .getattrAdd p (getattrValue env node)
  | .getattrAdd p v => some (setAgent (setBase s ((dmkvAdd s.base p v).getD s.base)) a (.returning 0))
  | .openGet p flags => some <| setAgent s a <|
      match s.base.cache p with
      | none => if InWorkspace cfg p then .openStat p flags else .returning (-1)
      | some e => openFound p flags e
  | .openStat p flags => some (setAgent s a (.openDfs p flags ((s.base.dfs p).map (openedValue env))))
  | .openDfs p flags v => some <|
      match openCall s.base.dfs flags p with
      | none => setAgent s a (.returning (-1))
      | some dfs => setAgent (setBase s { s.base with dfs := dfs }) a <|
          match v with
          | none => .returning (-1)
          | some v => .openAdd p flags v
  | .openAdd p flags v => some <|
      match dmkvAdd s.base p v with
      | some t => setAgent (setBase s t) a (.returning 0)
      | none => setAgent s a (.openGet p flags)
  | .openCached p flags v cas => some <|
      match openCall s.base.dfs flags p with
      | none => setAgent s a (.returning (-1))
      | some dfs => setAgent (setBase s { s.base with dfs := dfs }) a (.openCas p (counted v) cas)
  | .openCas p v cas => some <|
      match dmkvCas s.base p cas with
      | .stored => setAgent (setBase s (store s.base p v)) a (.returning 0)
      | .dataExists => setAgent s a (.openReget p)
      | .notFound => setAgent s a (.returning (-1))
  | .openReget p => some <| setAgent s a <|
      match s.base.cache p with
      | none => .beyond
      | some e => .openCas p (counted e.value) e.cas
  | .returning _ => some (setAgent s a .idle)

def step (s : State ι κ α) : Event κ ι α → Option (State ι κ α)
  | .base e => (Commit.step cfg s.base e).map (setBase s)
  | .start a task => if s.agent a = .idle then some (setAgent s a task.begin) else none
  | .agent a env dir => agentStep cfg s a env dir

structure Initial (s : State ι κ α) : Prop where
  base : Commit.Initial cfg s.base
  agent : ∀ a, s.agent a = .idle

def initialState (env : Env) : State ι κ α := ⟨Commit.initialState cfg env, fun _ => .idle⟩

theorem initial_initialState (env : Env) (named : cfg.root ≠ []) :
    Initial cfg (initialState cfg env : State ι κ α) :=
  ⟨Commit.initial_initialState cfg env named, fun _ => rfl⟩

def system : System (State ι κ α) (Event κ ι α) := ⟨Initial cfg, step cfg⟩

end Step
end Pacon.Evict
