import Pacon.Lib.Transition
import Pacon.Lib.CString
import Pacon.Value

/-!
# The namespace: the clients' calls, the cache, the commit queues and the DFS

One step is one access to what others read too: a memcached request, a call on the DFS, a message.
Messages arrive as they were sent, as those of paths without ':' and of less than 126 characters do. The
clients make directories, create, remove and write files; barriers, batch permissions, eviction
and other regions play no part. `beyond` is where a call leaves the model: it dereferences what
memcached did not return, or it goes on to work on the DFS file itself.
-/

set_option linter.unusedSectionVars false

namespace Pacon.Commit
open Lib

/-- The names of a normalised absolute path, the last one first. -/
abbrev Path := List CString

structure Config (ι κ : Type) where
  home : κ → ι
  /-- `mount_path`, the root of the workspace. -/
  root : Path

def Config.oneNode (κ : Type) (root : Path) : Config Unit κ := ⟨fun _ => (), root⟩

def Config.twoNodes (root : Path) : Config Bool Bool := ⟨id, root⟩

/-- The calls that begin with `check_parent_dir`. -/
inductive Make
  | mkdir
  | create
  | createWrite (buf : List UInt8)
  deriving DecidableEq

/-- The interface calls; a buffer is a string of exactly the size that is passed with it. -/
inductive Op
  | make (m : Make)
  | rm
  | write (buf : List UInt8) (offset : Nat)
  deriving DecidableEq

structure Call where
  op : Op
  path : Path
  deriving DecidableEq

inductive OptType
  | mkdir | create | rm | write
  deriving DecidableEq

structure Msg where
  opt : OptType
  path : Path
  deriving DecidableEq

def Op.optType : Op → OptType
  | .make .mkdir => .mkdir
  | .make .create | .make (.createWrite _) => .create
  | .rm => .rm
  | .write _ _ => .write

def Call.msg (call : Call) : Msg := ⟨call.op.optType, call.path⟩

/-- What a call returns once its message is sent. -/
def Call.result (call : Call) : Int :=
  match call.op with
  | .write buf _ => buf.length
  | .make _ | .rm => 0

inductive Node
  | dir
  | file (content : List UInt8)
  deriving DecidableEq

structure Entry where
  cas : Nat
  value : Value
  deriving DecidableEq

/-- What `load_to_pacon` is called for: a parent directory, one of its entries, a file to remove. -/
inductive Load
  | parent (m : Make) (p : Path)
  | child (m : Make) (p : Path) (v : Value) (cas : Nat) (name : CString)
  | rm (p : Path)
  deriving DecidableEq

def Load.target : Load → Path
  | .parent _ p => p.tail
  | .child _ p _ _ name => name :: p.tail
  | .rm p => p

def Load.call : Load → Call
  | .parent m p | .child m p _ _ _ => ⟨.make m, p⟩
  | .rm p => ⟨.rm, p⟩

/-- Where a client stands, each time before its next access. -/
inductive ClientPc
  | idle
  | parentGet (m : Make) (p : Path)
  | parentReget (m : Make) (p : Path)
  | opendir (m : Make) (p : Path) (v : Value) (cas : Nat)
  | readdir (m : Make) (p : Path) (v : Value) (cas : Nat)
  | childCas (m : Make) (p : Path) (v : Value) (cas : Nat)
  | childReget (m : Make) (p : Path)
  | parentAdd (m : Make) (p : Path)
  | loadStat (l : Load)
  | loadAdd (l : Load) (v : Value)
  | add (m : Make) (p : Path)
  | addGet (m : Make) (p : Path) (v : Value)
  | addSet (m : Make) (p : Path) (v : Value)
  | rmGet (p : Path)
  | rmReget (p : Path)
  | rmCas (p : Path) (v : Value) (cas : Nat)
  | writeGet (p : Path) (buf : List UInt8) (offset : Nat)
  | writeCas (p : Path) (buf : List UInt8) (offset : Nat) (v : Value) (cas : Nat)
  | send (call : Call)
  | returning (call : Call) (result : Int)
  | beyond
  deriving DecidableEq

/-- Where a server's commit thread stands in `commit_to_fs`. -/
inductive ServerPc (κ : Type)
  | recv
  | rmGet (c : κ) (p : Path)
  | attempt (c : κ) (m : Msg)
  | retry (c : κ) (m : Msg)
  | rmDel (c : κ) (p : Path)
  | writeOpen (c : κ) (p : Path)
  | writeGet (c : κ) (p : Path) (generation : Nat)
  | writeBack (c : κ) (p : Path) (generation : Nat) (data : List UInt8)
  | overrun (c : κ) (p : Path)
  deriving DecidableEq

structure State (ι κ : Type) where
  cache : Path → Option Entry
  clock : Nat
  dfs : Path → Option Node
  /-- How often the name was taken away: an open descriptor stays with the file of its generation. -/
  generation : Path → Nat
  /-- `pdir_check_table`, one for every client process. -/
  table : κ → Path → Bool
  client : κ → ClientPc
  /-- All messages a client has sent; its server has finished the first `done c` of them. -/
  out : κ → List Msg
  done : κ → Nat
  server : ι → ServerPc κ
  /-- History only, read by no step: what the calls returned, the paths made on the DFS in order,
  and whether a file's data was written back after it was last created on the DFS. -/
  returned : κ → List (Call × Int)
  committed : List Path
  synced : Path → Bool

/-- What a step takes from outside: the clock and the ids of the process, what uninitialised memory
holds, the next directory entry, whether a directory is empty. -/
structure Env where
  stat : PaconStat
  inlineData : List UInt8
  val : List UInt8
  entry : Option CString
  vacant : Bool
  deriving DecidableEq

def Env.zero : Env := ⟨⟨0, 0, 0, 0, 0, 0, 0, 0, 0, 0, 0⟩, [], [], none, false⟩

inductive Event (κ ι : Type)
  | start (c : κ) (call : Call)
  | client (c : κ) (env : Env)
  | take (c : κ)
  | server (i : ι) (env : Env)
  deriving DecidableEq

/-! ### Values -/

/-- What `pacon_mkdir`, `pacon_create` and `pacon_create_write` have in common. -/
def newStat (st : PaconStat) (size : Nat) : PaconStat :=
  { st with flags := 0, size := .ofNat 32 size, nlink := 0, openCounter := 0 }

def newValue (env : Env) : Make → Value
  | .mkdir => ⟨newStat env.stat 0, []⟩
  | .create => ⟨setStatFlag (newStat env.stat 0) .type true, []⟩
  | .createWrite buf =>
      ⟨setStatFlag (setStatFlag (newStat env.stat buf.length) .type true) .inline true,
        (strcpy env.val buf).take buf.length⟩

def loadedValue (env : Env) : Node → Value
  | .dir =>
      let st := setStatFlag { env.stat with flags := 0, openCounter := 0 } .type false
      ⟨setStatFlag st .existedinDfs true, []⟩
  | .file content =>
      let st := { env.stat with flags := 0, size := .ofNat 32 content.length, openCounter := 0 }
      let st := setStatFlag (setStatFlag st .type true) .fileCreated true
      ⟨setStatFlag st .existedinDfs true, []⟩

def flagged (v : Value) (flag : StatFlag) : Value := ⟨setStatFlag v.stat flag true, []⟩

def newSize (v : Value) (buf : List UInt8) (offset : Nat) : Nat :=
  max (offset + buf.length) v.stat.size.toNat

def writtenValue (env : Env) (v : Value) (buf : List UInt8) (offset : Nat) : Value :=
  let size := newSize v buf offset
  let st := { v.stat with atime := env.stat.atime, mtime := env.stat.mtime, size := .ofNat 32 size }
  let data := newData (strcpy env.inlineData v.data) buf offset v.stat.size.toNat
  ⟨setStatFlag st .inline true, (strcpy env.val data).take size⟩

section Step
variable {ι κ : Type} [DecidableEq ι] [DecidableEq κ] (cfg : Config ι κ)
open Function

/-! ### memcached -/

def store (s : State ι κ) (p : Path) (v : Value) : State ι κ :=
  { s with cache := update s.cache p (some ⟨s.clock, v⟩)
           clock := s.clock + 1 }

theorem store_cache (s : State ι κ) (p : Path) (v : Value) :
    (store s p v).cache = update s.cache p (some ⟨s.clock, v⟩) := rfl

/-- `dmkv_add`; the key of the root directory is empty, which memcached refuses. -/
def dmkvAdd (s : State ι κ) (p : Path) (v : Value) : Option (State ι κ) :=
  if p = [] ∨ (s.cache p).isSome then none else some (store s p v)

inductive CasResult
  | stored | dataExists | notFound

def dmkvCas (s : State ι κ) (p : Path) (cas : Nat) : CasResult :=
  match s.cache p with
  | none => .notFound
  | some e => if e.cas = cas then .stored else .dataExists

def dmkvDel (s : State ι κ) (p : Path) : State ι κ :=
  { s with cache := update s.cache p none }

/-! ### The clients -/

def setPc (s : State ι κ) (c : κ) (pc : ClientPc) : State ι κ :=
  { s with client := update s.client c pc }

@[simp] theorem setPc_client (s : State ι κ) (c : κ) (pc : ClientPc) :
    (setPc s c pc).client = update s.client c pc := rfl

def Below (p : Path) : Prop := cfg.root <:+ p ∧ p ≠ cfg.root

instance (p : Path) : Decidable (Below cfg p) := inferInstanceAs (Decidable (_ ∧ _))

/-- `child_cmp_new` against the root of the workspace; below "/" it finds nothing. -/
def InWorkspace (p : Path) : Prop := cfg.root <:+ p ∧ (cfg.root = [] → p = [])

instance (p : Path) : Decidable (InWorkspace cfg p) := inferInstanceAs (Decidable (_ ∧ (_ → _)))

def afterParent (m : Make) (p : Path) : ClientPc :=
  match m with
  | .createWrite buf =>
      if buf.length < inlineMax - 1 then .add m p else .returning ⟨.make m, p⟩ (-1)
  | .mkdir | .create => .add m p

/-- A call up to its first access; the parent of the root directory is not checked. -/
def beginCall (table : Path → Bool) : Call → ClientPc
  | ⟨.make m, p⟩ => if p = [] ∨ table p.tail then afterParent m p else .parentGet m p
  | ⟨.rm, p⟩ => .rmGet p
  | ⟨.write buf offset, p⟩ => .writeGet p buf offset

def load (l : Load) : ClientPc :=
  if InWorkspace cfg l.target then .loadStat l else .returning l.call (-1)

def Load.next : Load → ClientPc
  | .parent m p => .parentReget m p
  | .child m p v cas _ => .readdir m p v cas
  | .rm p => .rmReget p

def parentFound (m : Make) (p : Path) (e : Entry) : ClientPc :=
  if getStatFlag e.value.stat .type then .returning ⟨.make m, p⟩ (-1)
  else if getStatFlag e.value.stat .existedinDfs ∧ ¬getStatFlag e.value.stat .childCheck then
    .opendir m p e.value e.cas
  else .parentAdd m p

/-- The add failed and an entry without STAT_rm is there; `pacon_create_write` goes on to send its
message all the same. -/
def addExisting (m : Make) (p : Path) : ClientPc :=
  match m with
  | .createWrite _ => .send ⟨.make m, p⟩
  | .mkdir | .create => .returning ⟨.make m, p⟩ (-1)

/-- The set over an entry with STAT_rm; `pacon_mkdir` returns its result. -/
def afterSet (m : Make) (p : Path) : ClientPc :=
  match m with
  | .mkdir => .returning ⟨.make m, p⟩ 0
  | .create | .createWrite _ => .send ⟨.make m, p⟩

/-- `pacon_write_new` with the value of the file, as far as it stays inline. -/
def writeFound (env : Env) (p : Path) (buf : List UInt8) (offset : Nat) (e : Entry) : ClientPc :=
  if e.value.stat.size.toNat < offset then .returning ⟨.write buf offset, p⟩ (-1)
  else if newSize e.value buf offset < inlineMax - 1 then
    .writeCas p buf offset (writtenValue env e.value buf offset) e.cas
  else .beyond

def clientStep (s : State ι κ) (c : κ) (env : Env) : Option (State ι κ) :=
  match s.client c with
  | .idle | .beyond => none
  | .parentGet m p => some <| setPc s c <|
      match s.cache p.tail with
      | none => load cfg (.parent m p)
      | some e => parentFound m p e
  | .parentReget m p => some <| setPc s c <|
      match s.cache p.tail with
      | none => .beyond
      | some e => parentFound m p e
  | .opendir m p v cas => some <| setPc s c <|
      if s.dfs p.tail = some .dir then .readdir m p v cas else .beyond
  | .readdir m p v cas => some <| setPc s c <|
      match env.entry with
      | some name => load cfg (.child m p v cas name)
      | none => .childCas m p (flagged v .childCheck) cas
  | .childCas m p v cas => some <|
      match dmkvCas s p.tail cas with
      | .stored => setPc (store s p.tail v) c (.parentAdd m p)
      | .dataExists => setPc s c (.childReget m p)
      | .notFound => setPc s c (.returning ⟨.make m, p⟩ (-1))
  | .childReget m p => some <| setPc s c <|
      match s.cache p.tail with
      | none => .beyond
      | some e => .childCas m p (flagged e.value .childCheck) e.cas
  | .parentAdd m p => some <| setPc
      { s with table := update s.table c (update (s.table c) p.tail true) } c (afterParent m p)
  | .loadStat l => some <| setPc s c <|
      match s.dfs l.target with
      | none => .returning l.call (-1)
      | some node => .loadAdd l (loadedValue env node)
  | .loadAdd l v => some <| setPc ((dmkvAdd s l.target v).getD s) c l.next
  | .add m p => some <|
      match dmkvAdd s p (newValue env m) with
      | some t => setPc t c (.send ⟨.make m, p⟩)
      | none => setPc s c (.addGet m p (newValue env m))
  | .addGet m p v => some <| setPc s c <|
      match s.cache p with
      | none => .returning ⟨.make m, p⟩ (-1)
      | some e => if getStatFlag e.value.stat .rm then .addSet m p v else addExisting m p
  | .addSet m p v => some <| setPc (store s p v) c (afterSet m p)
  | .rmGet p => some <| setPc s c <|
      match s.cache p with
      | none => load cfg (.rm p)
      | some e => .rmCas p (flagged e.value .rm) e.cas
  | .rmReget p => some <| setPc s c <|
      match s.cache p with
      | none => .beyond
      | some e => .rmCas p (flagged e.value .rm) e.cas
  | .rmCas p v cas => some <|
      match dmkvCas s p cas with
      | .stored => setPc (store s p v) c (.send ⟨.rm, p⟩)
      | .dataExists => setPc s c (.rmReget p)
      | .notFound => setPc s c (.send ⟨.rm, p⟩)
  | .writeGet p buf offset => some <| setPc s c <|
      match s.cache p with
      | none => .beyond
      | some e => writeFound env p buf offset e
  | .writeCas p buf offset v cas => some <|
      match dmkvCas s p cas with
      | .stored => setPc (store s p v) c (.send ⟨.write buf offset, p⟩)
      | .dataExists => setPc s c (.writeGet p buf offset)
      | .notFound => setPc s c (.returning ⟨.write buf offset, p⟩ (-1))
  | .send call => some <| setPc
      { s with out := update s.out c (s.out c ++ [call.msg]) } c (.returning call call.result)
  | .returning call result => some <| setPc
      { s with returned := update s.returned c (s.returned c ++ [(call, result)]) } c .idle

/-! ### The servers -/

/-- The call on the DFS for a message, with the file system after it; `none` when it fails. A
`creat` truncates the file that is there, `remove` takes a file or an empty directory. -/
def dfsCall (dfs : Path → Option Node) (vacant : Bool) (m : Msg) : Option (Path → Option Node) :=
  match m.opt, m.path, dfs m.path with
  | .mkdir, _ :: q, none => if dfs q = some .dir then some (update dfs m.path (some .dir)) else none
  | .create, _ :: q, none => if dfs q = some .dir then some (update dfs m.path (some (.file []))) else none
  | .create, _, some (.file _) => some (update dfs m.path (some (.file [])))
  | .rm, _, some (.file _) => some (update dfs m.path none)
  | .rm, _ :: _, some .dir => if vacant then some (update dfs m.path none) else none
  | _, _, _ => none

def dispatch (c : κ) (m : Msg) : ServerPc κ :=
  match m.opt with
  | .mkdir | .create => .attempt c m
  | .rm => .rmGet c m.path
  | .write => .writeOpen c m.path

def takeStep (s : State ι κ) (c : κ) : Option (State ι κ) :=
  match s.server (cfg.home c), (s.out c)[s.done c]? with
  | .recv, some m => some { s with server := update s.server (cfg.home c) (dispatch c m) }
  | _, _ => none

def finish (s : State ι κ) (i : ι) (c : κ) : State ι κ :=
  { s with server := update s.server i .recv
           done := update s.done c (s.done c + 1) }

theorem finish_client (s : State ι κ) (i : ι) (c : κ) : (finish s i c).client = s.client := rfl

/-- The DFS after a call that has taken `names` away. -/
def unlinked (s : State ι κ) (names : Path → Bool) (dfs : Path → Option Node) : State ι κ :=
  { s with dfs := dfs
           generation := fun p => if names p then s.generation p + 1 else s.generation p }

@[simp] theorem unlinked_dfs (s : State ι κ) (names : Path → Bool) (dfs : Path → Option Node) :
    (unlinked s names dfs).dfs = dfs := rfl

/-- The call on the DFS succeeded: an RM goes on to its cache entry. -/
def succeed (s : State ι κ) (i : ι) (c : κ) (m : Msg) (dfs : Path → Option Node) : State ι κ :=
  match m.opt with
  | .rm =>
      { unlinked s (fun p => decide (p = m.path)) dfs with server := update s.server i (.rmDel c m.path) }
  | .mkdir | .create | .write =>
      finish { s with dfs := dfs
                      committed := s.committed ++ [m.path]
                      synced := update s.synced m.path false } i c

theorem succeed_client (s : State ι κ) (i : ι) (c : κ) (m : Msg) (dfs : Path → Option Node) :
    (succeed s i c m dfs).client = s.client := by
  unfold succeed
  split <;> rfl

/-- `INLINE_MAX` of `server/pacon_server.h`, the size of the server's buffer for inline data. -/
def serverInlineMax : Nat := 468

/-- WRITE with the file's value; the copy of a longer string overruns the buffer. -/
def writeRead (env : Env) (c : κ) (p : Path) (g : Nat) (v : Value) : ServerPc κ :=
  if (v.data.takeWhile (· ≠ 0)).length < serverInlineMax then
    .writeBack c p g ((strcpy env.inlineData v.data).take v.stat.size.toNat)
  else .overrun c p

/-- What a descriptor that was opened on the path in generation `g` finds under it. -/
def opened (s : State ι κ) (p : Path) (g : Nat) : Option (List UInt8) :=
  match s.dfs p with
  | some (.file content) => if s.generation p = g then some content else none
  | _ => none

/-- `pwrite` of `data` at the start of the file; what goes to a file without a name is not seen. -/
def writeBack (s : State ι κ) (p : Path) (g : Nat) (data : List UInt8) : State ι κ :=
  match opened s p g with
  | some content =>
      { s with dfs := update s.dfs p (some (.file (overwrite content data 0)))
               synced := update s.synced p true }
  | none => s

theorem opened_eq_some {s : State ι κ} {p : Path} {g : Nat} {content : List UInt8} :
    opened s p g = some content ↔ s.dfs p = some (.file content) ∧ s.generation p = g := by
  unfold opened
  split
  · simp_all [and_comm]
  · simp_all

theorem writeBack_client (s : State ι κ) (p : Path) (g : Nat) (data : List UInt8) :
    (writeBack s p g data).client = s.client := by
  unfold writeBack
  split <;> rfl

def serverStep (s : State ι κ) (i : ι) (env : Env) : Option (State ι κ) :=
  match s.server i with
  | .recv | .overrun _ _ => none
  | .rmGet c p => some <|
      match s.cache p with
      | none => finish s i c
      | some _ => { s with server := update s.server i (.attempt c ⟨.rm, p⟩) }
  | .attempt c m => some <|
      match dfsCall s.dfs env.vacant m with
      | some dfs => succeed s i c m dfs
      | none => { s with server := update s.server i (.retry c m) }
  | .retry c m => some <|
      match dfsCall s.dfs env.vacant m with
      | some dfs => succeed s i c m dfs
      | none => s
  | .rmDel c p => some (finish (dmkvDel s p) i c)
  | .writeOpen c p => some <|
      match s.dfs p with
      | some (.file _) => { s with server := update s.server i (.writeGet c p (s.generation p)) }
      | _ => finish s i c
  | .writeGet c p g => some <|
      match s.cache p with
      | none => finish s i c
      | some e => { s with server := update s.server i (writeRead env c p g e.value) }
  | .writeBack c p g data => some (finish (writeBack s p g data) i c)

def step (s : State ι κ) : Event κ ι → Option (State ι κ)
  | .start c call =>
      if s.client c = .idle then some (setPc s c (beginCall (s.table c) call)) else none
  | .client c env => clientStep cfg s c env
  | .take c => takeStep cfg s c
  | .server i env => serverStep s i env

/-! ### The start -/

/-- Every client has run `init_pacon` on an empty workspace: the root is a directory, loaded into
the cache and put into the tables. What the DFS holds elsewhere is open. -/
structure Initial (s : State ι κ) : Prop where
  cache : ∀ p, p ≠ cfg.root → s.cache p = none
  rootCached : cfg.root ≠ [] →
    ∃ env e, s.cache cfg.root = some e ∧ e.value = loadedValue env .dir ∧ e.cas < s.clock
  rootKey : cfg.root = [] → s.cache cfg.root = none
  root : s.dfs cfg.root = some .dir
  empty : ∀ p, Below cfg p → s.dfs p = none
  table : ∀ c p, s.table c p = true ↔ p = cfg.root
  client : ∀ c, s.client c = .idle
  out : ∀ c, s.out c = []
  done : ∀ c, s.done c = 0
  server : ∀ i, s.server i = .recv
  returned : ∀ c, s.returned c = []
  committed : s.committed = []
  synced : ∀ p, s.synced p = false

/-- The start on a DFS that holds nothing but the root, for a root that is no `/`. -/
def initialState (env : Env) : State ι κ where
  cache := update (fun _ => none) cfg.root (some ⟨0, loadedValue env .dir⟩)
  clock := 1
  dfs := update (fun _ => none) cfg.root (some .dir)
  generation _ := 0
  table _ p := p = cfg.root
  client _ := .idle
  out _ := []
  done _ := 0
  server _ := .recv
  returned _ := []
  committed := []
  synced _ := false

theorem initial_initialState (env : Env) (named : cfg.root ≠ []) :
    Initial cfg (initialState cfg env) where
  cache p other := by simp [initialState, other]
  rootCached _ := ⟨env, ⟨0, loadedValue env .dir⟩, by simp [initialState], rfl, by simp [initialState]⟩
  rootKey none := absurd none named
  root := by simp [initialState]
  empty p below := by simp [initialState, below.2]
  table c p := by simp [initialState]
  client _ := rfl
  out _ := rfl
  done _ := rfl
  server _ := rfl
  returned _ := rfl
  committed := rfl
  synced _ := rfl

def system : System (State ι κ) (Event κ ι) := ⟨Initial cfg, step cfg⟩

end Step
end Pacon.Commit
