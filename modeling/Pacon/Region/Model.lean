import Pacon.Server.Requests

/-!
# A region with its clients and its servers

The clients call the interface, one call after the other, and the servers commit what they have sent,
step by step in between. Which paths a server changes on the DFS is on record.
-/

set_option linter.unusedSectionVars false

namespace Pacon.Region
open Lib Function Commit Calls Server

inductive Interface
  | make (m : Make) (p : Path)
  | rm (p : Path)
  | getattr (p : Path)
  | openFile (p : Path) (flags : Evict.OpenFlags) (file : PFile)
  | opendir (p : Path)
  | rmdir (p : Path)
  | rename (p newp : Path)
  | joint (roots : List Path) (memory : Nat → CString)
  | split

/-- The calls with a request of the local RPC; they change nothing on the DFS themselves. -/
def Interface.requests : Interface → Bool
  | .opendir _ | .rmdir _ | .rename _ _ => true
  | _ => false

def Interface.mounts : Interface → List Path
  | .joint roots memory => remoteMounts roots memory
  | _ => []

structure State (ι κ : Type) where
  base : Commit.State ι κ
  /-- History only: what a server has changed on the DFS, and the mount paths of the regions
  that a client has joined. -/
  changed : Path → Bool
  joined : κ → List Path

inductive Event (κ ι : Type)
  | call (c : κ) (w : World) (d : Disk) (call : Interface)
  | take (c : κ) (cwd : Path) (timestamp : BitVec 32)
  | server (i : ι) (env : Env)

def messageType : OptType → Message.OptType
  | .mkdir => .mkdir
  | .create => .create
  | .rm => .rm
  | .write => .write

/-- What a server reads of a message; `none` is not one of the four operations. -/
def readMessage (cwd : Path) (mesg : CString) : Option Msg :=
  let path := resolve cwd (Message.commitToFs mesg).1
  match (Message.commitToFs mesg).2 with
  | some '1' => some ⟨.mkdir, path⟩
  | some '2' => some ⟨.create, path⟩
  | some '3' => some ⟨.rm, path⟩
  | some '8' => some ⟨.write, path⟩
  | _ => none

section
variable {ι κ : Type} [DecidableEq ι] [DecidableEq κ] (cfg : Config ι κ)

def run (s : Commit.State ι κ) (c : κ) (w : World) (d : Disk) : Interface → Option (Int × Commit.State ι κ)
  | .make m p => create cfg s c w p m
  | .rm p => paconRm cfg s c w p
  | .getattr p => some (paconGetattr cfg s w p)
  | .openFile p flags file => (paconOpen cfg s w p flags file).map fun x => (x.1, x.2.1)
  | .opendir p => paconOpendir cfg (listenLocalRpc d) s w p
  | .rmdir p => paconRmdir cfg (listenLocalRpc d) s w p
  | .rename p newp => paconRename cfg (listenLocalRpc d) s w p newp
  | .joint roots memory => some (cregionJoint s c roots memory)
  | .split => some (cregionSplit s)

def differs (s t : Commit.State ι κ) (p : Path) : Bool := s.dfs p ≠ t.dfs p

def callStep (s : State ι κ) (c : κ) (w : World) (d : Disk) (call : Interface) : Option (State ι κ) :=
  (run cfg s.base c w d call).map fun x =>
    { base := x.2
      changed p := s.changed p || (call.requests && differs s.base x.2 p)
      joined := update s.joined c (s.joined c ++ call.mounts) }

def takeStep (s : Commit.State ι κ) (c : κ) (cwd : Path) (timestamp : BitVec 32) : Option (Commit.State ι κ) :=
  match s.server (cfg.home c), (s.out c)[s.done c]? with
  | .recv, some m =>
      match readMessage cwd (text m.path ++ (messageType m.opt).text ++ Message.timestampText timestamp) with
      | some m => some { s with server := update s.server (cfg.home c) (dispatch c m) }
      | none => some (finish s (cfg.home c) c)
  | _, _ => none

def step (s : State ι κ) : Event κ ι → Option (State ι κ)
  | .call c w d call => callStep cfg s c w d call
  | .take c cwd timestamp => (takeStep cfg s.base c cwd timestamp).map fun t => { s with base := t }
  | .server i env => (serverStep s.base i env).map fun t =>
      { s with base := t, changed := fun p => s.changed p || differs s.base t p }

/-- At most the root of the workspace is cached and checked; the DFS may hold anything. -/
structure Initial (s : State ι κ) : Prop where
  cache : ∀ p, p ≠ cfg.root → s.base.cache p = none
  table : ∀ c p, s.base.table c p = true → p = cfg.root
  out : ∀ c, s.base.out c = []
  done : ∀ c, s.base.done c = 0
  server : ∀ i, s.base.server i = .recv
  changed : ∀ p, s.changed p = false
  joined : ∀ c, s.joined c = []

def initialState (env : Env) : State ι κ := ⟨Commit.initialState cfg env, fun _ => false, fun _ => []⟩

theorem initial_initialState (env : Env) : Initial cfg (initialState cfg env) where
  cache p other := by simp [initialState, Commit.initialState, other]
  table c p := by simp [initialState, Commit.initialState]
  out _ := rfl
  done _ := rfl
  server _ := rfl
  changed _ := rfl
  joined _ := rfl

def system : System (State ι κ) (Event κ ι) := ⟨Initial cfg, step cfg⟩

end
end Pacon.Region
