import Pacon.Evict.Model
import Pacon.Message.Format
import Pacon.Permission.Check

/-!
# The interface calls, one at a time

Each call of a client runs to its end on the state of the commit system, with nobody else in between:
what it returns and the state it leaves, `none` where it dereferences what memcached or the DFS did
not give it. memcached answers with success or with an existing key.
-/

namespace Pacon.Calls
open Lib Function Commit

/-- What a call takes from outside: clock and unset memory, what `check_permission` says, what
`readdir` lists of the parent, the counter of the barriers. `joined` is what the same call on the
joined region of the path returns and the DFS it leaves, `none` where no joined region has the path. -/
structure World where
  env : Env
  permitted : Permission.Opt → Bool
  entries : List CString
  barrierId : BitVec 32
  timestamp : BitVec 32
  joined : Option (Int × (Path → Option Node))

section
variable {ι κ : Type} [DecidableEq ι] [DecidableEq κ] (cfg : Config ι κ)

def inWorkspace (p : Path) : Bool := childCmpNew (text p) (text cfg.root) ≠ 0

def addToMq (s : State ι κ) (c : κ) (m : Msg) : Int × State ι κ :=
  if (text m.path).length + 3 > Message.pathMax then (-1, s)
  else (0, { s with out := update s.out c (s.out c ++ [m]) })

def loadToPacon (s : State ι κ) (w : World) (p : Path) : Int × State ι κ :=
  if inWorkspace cfg p then
    match s.dfs p with
    | none => (-1, s)
    | some node => (0, (dmkvAdd s p (loadedValue w.env node)).getD s)
  else (-1, s)

def getOrLoad (s : State ι κ) (w : World) (p : Path) : Int × State ι κ :=
  match s.cache p with
  | some _ => (0, s)
  | none => loadToPacon cfg s w p

/-! ### The creating calls -/

def loadChildren (w : World) (q : Path) : State ι κ → List CString → Int × State ι κ
  | s, [] => (0, s)
  | s, name :: names =>
      if (text q).length + name.length ≥ Message.pathMax - 1 then (-1, s)
      else
        match loadToPacon cfg s w (name :: q) with
        | (0, t) => loadChildren w q t names
        | (_, t) => (-1, t)

def addToDirCheckTable (s : State ι κ) (c : κ) (q : Path) : State ι κ :=
  { s with table := update s.table c (update (s.table c) q true) }

/-- `check_parent_dir` with the value of the directory `q`; nobody has changed it at the CAS. -/
def checkParentEntry (s : State ι κ) (c : κ) (w : World) (q : Path) (e : Entry) : Option (Int × State ι κ) :=
  if getStatFlag e.value.stat .type then some (-1, s)
  else if getStatFlag e.value.stat .existedinDfs ∧ ¬getStatFlag e.value.stat .childCheck then
    if s.dfs q = some .dir then
      match loadChildren cfg w q s w.entries with
      | (0, t) =>
          match dmkvCas t q e.cas with
          | .stored => some (0, addToDirCheckTable (store t q (flagged e.value .childCheck)) c q)
          | .dataExists | .notFound => some (-1, t)
      | (_, t) => some (-1, t)
    else none
  else some (0, addToDirCheckTable s c q)

def checkParentDir (s : State ι κ) (c : κ) (w : World) (p : Path) : Option (Int × State ι κ) :=
  if p = [] then some (0, s)
  else if (text p).length ≥ Message.pathMax then some (-1, s)
  else if s.table c p.tail then some (0, s)
  else
    match getOrLoad cfg s w p.tail with
    | (0, t) =>
        match t.cache p.tail with
        | none => none
        | some e => checkParentEntry cfg t c w p.tail e
    | (_, t) => some (-1, t)

def Make.permission : Make → Permission.Opt
  | .mkdir => .mkdir
  | .create | .createWrite _ => .create

def checked (s : State ι κ) (c : κ) (w : World) (m : Make) (p : Path) : Option (Int × State ι κ) :=
  if w.permitted (Make.permission m) then checkParentDir cfg s c w p else some (-1, s)

/-- The add of a creating call. `overMarked` follows on an entry with STAT_rm, which is set to the new
value, and `overLive` on any other. -/
def addNew (s : State ι κ) (c : κ) (w : World) (m : Make) (p : Path)
    (overMarked overLive : State ι κ → Int × State ι κ) : Int × State ι κ :=
  match dmkvAdd s p (newValue w.env m) with
  | some t => addToMq t c (Call.msg ⟨.make m, p⟩)
  | none =>
      match s.cache p with
      | none => (-1, s)
      | some e =>
          if getStatFlag e.value.stat .rm then overMarked (store s p (newValue w.env m)) else overLive s

def paconMkdir (s : State ι κ) (c : κ) (w : World) (p : Path) : Option (Int × State ι κ) :=
  match checked cfg s c w .mkdir p with
  | some (0, t) => some (addNew t c w .mkdir p (fun u => (0, u)) (fun u => (-1, u)))
  | other => other

def paconCreate (s : State ι κ) (c : κ) (w : World) (p : Path) : Option (Int × State ι κ) :=
  match checked cfg s c w .create p with
  | some (0, t) => some (addNew t c w .create p (fun u => addToMq u c ⟨.create, p⟩) (fun u => (-1, u)))
  | other => other

/-- Over a live entry the error is overwritten by what `add_to_mq` returns. -/
def paconCreateWrite (s : State ι κ) (c : κ) (w : World) (p : Path) (buf : List UInt8) :
    Option (Int × State ι κ) :=
  match checked cfg s c w (.createWrite buf) p with
  | some (0, t) =>
      if buf.length < inlineMax - 1 then
        some (addNew t c w (.createWrite buf) p (fun u => addToMq u c ⟨.create, p⟩)
          (fun u => addToMq u c ⟨.create, p⟩))
      else some (-1, t)
  | other => other

def create (s : State ι κ) (c : κ) (w : World) (p : Path) : Make → Option (Int × State ι κ)
  | .mkdir => paconMkdir cfg s c w p
  | .create => paconCreate cfg s c w p
  | .createWrite buf => paconCreateWrite cfg s c w p buf

end
end Pacon.Calls
