import Pacon.Lib.Refinement
import Pacon.Barrier.Completeness
import Pacon.Commit.Agreement

/-!
# Directories that are opened behind a barrier

The clients and servers of the barrier system and those of the commit system are the same: a message
that a client sends is the operation on its commit queue, and a server that passes the barrier with an
operation in hand goes on to the DFS with it. The requests are READDIR, for which a server does nothing
between its barriers.
-/

namespace Pacon.Opendir
open Lib

structure Config (ι κ : Type) [DecidableEq ι] [Fintype κ] where
  barriers : Barrier.Config ι κ
  root : Commit.Path

structure State (ι κ : Type) where
  barriers : Barrier.State ι κ
  files : Commit.State ι κ

inductive Event (ι κ : Type)
  | start (c : κ) (call : Commit.Call)
  | client (c : κ) (env : Commit.Env)
  | barrier (c : κ)
  | opendir (c : κ) (p : Commit.Path)
  | receive (c : κ)
  | commit (i : ι) (ok : Bool)
  | server (i : ι) (env : Commit.Env)
  | take (c : κ) (garbage : Nat)
  | rpc (i : ι) (ok : Bool)
  | cluster (i sender : ι)
  deriving DecidableEq

section Step
variable {ι κ : Type} [DecidableEq ι] [DecidableEq κ] [Fintype κ] (cfg : Config ι κ)

def Config.files : Commit.Config ι κ := ⟨cfg.barriers.home, cfg.root⟩

def sends : Commit.ClientPc → Bool
  | .send _ => true
  | _ => false

def operationInHand : Barrier.CommitPc κ → Option κ
  | .hold c .op => some c
  | _ => none

def onBarriers (s : State ι κ) (e : Barrier.Event ι κ) : Option (State ι κ) :=
  (Barrier.step cfg.barriers s.barriers e).map fun b => { s with barriers := b }

def onFiles (s : State ι κ) (e : Commit.Event κ ι) : Option (State ι κ) :=
  (Commit.step cfg.files s.files e).map fun f => { s with files := f }

def onBoth (s : State ι κ) (e : Barrier.Event ι κ) (e' : Commit.Event κ ι) : Option (State ι κ) :=
  (onBarriers cfg s e).bind fun t => onFiles cfg t e'

/-- A client is in one call at a time; a server receives once it has finished, and passes the barrier
before it works on the DFS. -/
def step (s : State ι κ) : Event ι κ → Option (State ι κ)
  | .start c call => if s.barriers.call c = .none then onFiles cfg s (.start c call) else none
  | .client c env =>
      if sends (s.files.client c) then onBoth cfg s (.send c) (.client c env) else onFiles cfg s (.client c env)
  | .barrier c => if s.files.client c = .idle then onBarriers cfg s (.barrier c) else none
  | .opendir c p =>
      if s.files.client c = .idle ∧ (s.files.cache p).isSome then onBarriers cfg s (.request c .readdir) else none
  | .receive c =>
      if s.files.server (cfg.barriers.home c) = .recv then onBarriers cfg s (.receive c) else none
  | .commit i ok =>
      match operationInHand (s.barriers.commit i) with
      | some c => onBoth cfg s (.commit i ok) (.take c)
      | none => onBarriers cfg s (.commit i ok)
  | .server i env => onFiles cfg s (.server i env)
  | .take c garbage => onBarriers cfg s (.take c garbage)
  | .rpc i ok => onBarriers cfg s (.rpc i ok)
  | .cluster i sender => onBarriers cfg s (.cluster i sender)

def system : System (State ι κ) (Event ι κ) where
  init s := s.barriers = Barrier.initialState ∧ Commit.Initial cfg.files s.files
  step := step cfg

/-- The calls are `pacon_mkdir` and `pacon_create`. -/
def Making (_ : State ι κ) : Event ι κ → Prop
  | .start _ call => Commit.Makes call
  | _ => True

variable {cfg}

theorem onBarriers_eq {s t : State ι κ} {e : Barrier.Event ι κ} :
    onBarriers cfg s e = some t ↔ Barrier.step cfg.barriers s.barriers e = some t.barriers ∧ t.files = s.files := by
  obtain ⟨b, f⟩ := t
  simp [onBarriers, eq_comm]

theorem onFiles_eq {s t : State ι κ} {e : Commit.Event κ ι} :
    onFiles cfg s e = some t ↔ Commit.step cfg.files s.files e = some t.files ∧ t.barriers = s.barriers := by
  obtain ⟨b, f⟩ := t
  simp [onFiles, eq_comm]

theorem onBoth_eq {s t : State ι κ} {e : Barrier.Event ι κ} {e' : Commit.Event κ ι} :
    onBoth cfg s e e' = some t ↔ Barrier.step cfg.barriers s.barriers e = some t.barriers ∧
      Commit.step cfg.files s.files e' = some t.files := by
  simp only [onBoth, Option.bind_eq_some_iff, onBarriers_eq, onFiles_eq]
  constructor
  · rintro ⟨u, ⟨does, same⟩, does', same'⟩
    rw [same', ← same]
    exact ⟨does, does'⟩
  · intro both
    exact ⟨⟨t.barriers, s.files⟩, ⟨both.1, rfl⟩, both.2, rfl⟩

end Step
end Pacon.Opendir
