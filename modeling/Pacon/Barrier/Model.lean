import Pacon.Lib.Transition
import Pacon.Barrier.Payload
import Mathlib.Data.Fintype.Card

/-!
# Barriers: the clients, the three threads of every server, and the shared keys

One step is one access to memory that another thread reads: a memcached call, an access to the
`barrier` array or to `waiting_barrier_id`, a message. Slots are indices of the barrier arrays:
the round of barrier id `k` has slot `k - 1`. The list of removing directories plays no part here
and is left out, as is the effect of the operations on the file system.
-/

namespace Pacon.Barrier
open Lib

structure Config (ι κ : Type) [DecidableEq ι] [Fintype κ] where
  home : κ → ι
  nodeList : List ι
  nodup : nodeList.Nodup
  complete : ∀ i, i ∈ nodeList
  /-- `client_num` of `local_config`: the number of clients on the node. -/
  clientNum : ι → Nat
  clientNum_eq : ∀ i, clientNum i = (Finset.univ.filter fun c => home c = i).card
  /-- The `opt_num` that a client passes in its `k`-th `pacon_barrier`. -/
  optNum : κ → Nat → Nat

def Config.oneNode {κ : Type} [Fintype κ] (optNum : κ → Nat → Nat) : Config Unit κ where
  home _ := ()
  nodeList := [()]
  nodup := List.nodup_singleton ()
  complete _ := List.mem_singleton.mpr rfl
  clientNum _ := Fintype.card κ
  clientNum_eq _ := by simp
  optNum := optNum

def oneClient : Config Unit Unit := .oneNode fun _ _ => 1

def Config.twoNodes (optNum : Bool → Nat → Nat) : Config Bool Bool where
  home := id
  nodeList := [false, true]
  nodup := by simp
  complete := by simp
  clientNum _ := 1
  clientNum_eq i := by cases i <;> rfl
  optNum := optNum

inductive Opt
  | rmdir | readdir | rename | checkpoint | flushdir
  deriving DecidableEq

/-- `cregion_checkpoint` and `flush_dir` send the path alone. -/
def Opt.carriesId : Opt → Bool
  | .rmdir | .readdir | .rename => true
  | .checkpoint | .flushdir => false

/-- A message on the local RPC port. -/
structure Request (κ : Type) where
  client : κ
  opt : Opt
  barrierId : Option Nat
  deriving DecidableEq

/-- What a client waits for in `add_to_local_rpc`. -/
inductive Call (κ : Type)
  | none
  | sent (r : Request κ)
  | received (r : Request κ)
  deriving DecidableEq

/-- Messages on the commit queue; `op` stands for all that change the file system. -/
inductive Msg
  | op
  | barrier (path : CString)
  | flushdir
  deriving DecidableEq

/-- Where the commit thread stands in `listen_commit_mq` and `commit_to_fs`. -/
inductive CommitPc (κ : Type)
  | recv
  | hold (c : κ) (m : Msg)
  | getOptc (c : κ) (slot : Nat) (n : Int)
  | casOptc (c : κ) (slot : Nat) (n v : Int) (cas : Nat)
  | reach (c : κ) (slot : Nat)
  | setKey (c : κ) (slot : Nat)
  | reachBarrier (c : κ)
  deriving DecidableEq

/-- Where the RPC thread stands in `listen_local_rpc`, `commit_to_fs_barrier`,
`broadcast_barrier_begin_new` and `broadcast_barrier_end_new`. -/
inductive RpcPc (ι κ : Type)
  | recv
  | waitBarrier (r : Request κ) (slot : Nat)
  | waitNodes (r : Request κ) (slot : Nat) (rest : List ι)
  | opt (r : Request κ) (slot : Nat)
  | getOptc (r : Request κ) (slot : Nat)
  | casOptc (r : Request κ) (slot : Nat) (v : Int) (cas : Nat)
  | clear (r : Request κ) (slot : Nat)
  | reset (r : Request κ) (slot : Nat)
  | broadcast (r : Request κ) (slot : Nat) (rest : List ι)
  | advance (r : Request κ) (slot : Nat)
  | reply (r : Request κ)
  | undefined (r : Request κ)
  deriving DecidableEq

structure State (ι κ : Type) where
  currentBarrierId : κ → Nat
  issued : κ → Nat
  call : κ → Call κ
  /-- All messages a client has put on its commit queue; its server has finished the first
  `committed c` of them. -/
  mq : κ → List Msg
  committed : κ → Nat
  commit : ι → CommitPc κ
  rpc : ι → RpcPc ι κ
  /-- The sender of the DEL_BARRIER whose two assignments the cluster thread is between. -/
  cluster : ι → Option ι
  barrier : ι → Nat → Bool
  barrierInfo : ι → Nat → Nat
  waitingBarrierId : ι → Nat
  reachBarrier : ι → Nat
  nodeKey : ι → Nat → Bool
  optCount : Nat → Int
  optCas : Nat → Nat
  /-- History only, read by no step: barrier messages counted, operations executed, decrements
  made, and the slots cleared on each node in order. -/
  counted : κ → Nat
  executed : κ → Nat → Nat
  decremented : κ → Nat → Nat
  released : ι → List Nat

def State.request {ι κ : Type} (s : State ι κ) (c : κ) (opt : Opt) : Request κ :=
  ⟨c, opt, if opt.carriesId then some (s.currentBarrierId c) else none⟩

@[simp]
theorem State.request_client {ι κ : Type} (s : State ι κ) (c : κ) (opt : Opt) :
    (s.request c opt).client = c := rfl

theorem State.request_barrierId {ι κ : Type} (s : State ι κ) (c : κ) {opt : Opt} (h : opt.carriesId = true) :
    (s.request c opt).barrierId = some (s.currentBarrierId c) := if_pos h

inductive Event (ι κ : Type)
  | send (c : κ)
  | barrier (c : κ)
  | request (c : κ) (opt : Opt)
  | flush (c : κ)
  | receive (c : κ)
  | commit (i : ι) (ok : Bool)
  | take (c : κ) (garbage : Nat)
  | rpc (i : ι) (ok : Bool)
  | cluster (i sender : ι)
  deriving DecidableEq

section Step
variable {ι κ : Type} [DecidableEq ι] [DecidableEq κ] [Fintype κ] (cfg : Config ι κ)
open Function

def initialState : State ι κ where
  currentBarrierId := fun _ => 0
  issued := fun _ => 0
  call := fun _ => .none
  mq := fun _ => []
  committed := fun _ => 0
  commit := fun _ => .recv
  rpc := fun _ => .recv
  cluster := fun _ => none
  barrier := fun _ _ => false
  barrierInfo := fun _ _ => 0
  waitingBarrierId := fun _ => 0
  reachBarrier := fun _ => 0
  nodeKey := fun _ _ => false
  optCount := fun _ => 0
  optCas := fun _ => 0
  counted := fun _ => 0
  executed := fun _ _ => 0
  decremented := fun _ _ => 0
  released := fun _ => []

def set₂ {α β : Type} [DecidableEq α] (f : α → Nat → β) (a : α) (slot : Nat) (v : β) : α → Nat → β :=
  update f a (update (f a) slot v)

/-- `pacon_barrier`: past `BARRIER_ID_MAX` the id still grows but no message is sent. -/
def paconBarrier (s : State ι κ) (c : κ) : State ι κ :=
  let id := s.currentBarrierId c + 1
  { s with
    currentBarrierId := update s.currentBarrierId c id
    issued := update s.issued c 0
    mq := if id < barrierIdMax then
        update s.mq c (s.mq c ++ [.barrier (barrierPayload (cfg.optNum c id) id)])
      else s.mq }

def addToLocalRpc (s : State ι κ) (r : Request κ) : State ι κ :=
  { s with issued := update s.issued r.client (s.issued r.client + 1)
           call := update s.call r.client (.sent r) }

/-- `flush_dir`: FLUSHDIR on both queues. -/
def flushDir (s : State ι κ) (c : κ) : State ι κ :=
  { s with mq := update s.mq c (s.mq c ++ [.flushdir])
           call := update s.call c (.sent (s.request c .flushdir)) }

def finish (s : State ι κ) (i : ι) (c : κ) : State ι κ :=
  { s with commit := update s.commit i .recv
           committed := update s.committed c (s.committed c + 1) }

/-- The switch of `commit_to_fs`, once the loop on `barrier[waiting_barrier_id]` is left. A BARRIER
id outside the arrays has no behaviour: its counter key does not exist, or the index is wild. -/
def dispatch (s : State ι κ) (i : ι) (c : κ) : Msg → Option (State ι κ)
  | .op => some (finish s i c)
  | .flushdir => some { s with commit := update s.commit i (.reachBarrier c)
                               reachBarrier := update s.reachBarrier i 2 }
  | .barrier path => (barrierIndex path).map fun slot =>
      let pc := if declaresOpts path then .getOptc c slot (barrierOptNum path) else .reach c slot
      { s with commit := update s.commit i pc }

def counting (s : State ι κ) (i : ι) (c : κ) (slot : Nat) : State ι κ :=
  { s with counted := update s.counted c (s.counted c + 1)
           barrierInfo := set₂ s.barrierInfo i slot (s.barrierInfo i slot + 1) }

/-- The end of the BARRIER case: the last client of the node sets `barrier[id]`. -/
def countBarrier (s : State ι κ) (i : ι) (c : κ) (slot : Nat) : State ι κ :=
  if s.barrierInfo i slot + 1 = cfg.clientNum i then
    { counting s i c slot with barrier := set₂ s.barrier i slot true
                               commit := update s.commit i (.setKey c slot) }
  else finish (counting s i c slot) i c

def commitStep (s : State ι κ) (i : ι) (ok : Bool) : Option (State ι κ) :=
  match s.commit i with
  | .recv => none
  | .hold c m => if s.barrier i (s.waitingBarrierId i) then none else dispatch s i c m
  | .getOptc c slot n =>
      some { s with commit := update s.commit i (.casOptc c slot n (s.optCount slot) (s.optCas slot)) }
  | .casOptc c slot n v cas =>
      if ok ∧ s.optCas slot = cas then
        some { s with optCount := update s.optCount slot (v + n)
                      optCas := update s.optCas slot (cas + 1)
                      commit := update s.commit i (.reach c slot) }
      else some { s with commit := update s.commit i (.getOptc c slot n) }
  | .reach c slot => some (countBarrier cfg s i c slot)
  | .setKey c slot =>
      some (finish { s with nodeKey := if ok then set₂ s.nodeKey i slot true else s.nodeKey } i c)
  | .reachBarrier c => if s.reachBarrier i = 0 then some (finish s i c) else none

/-- `barrier_id` of `commit_to_fs_barrier`: an uninitialised variable if the path has no prefix. -/
def optBarrierId (r : Request κ) (garbage : Nat) : Option Nat :=
  let slot := match r.barrierId with
    | some 0 => none
    | some (k + 1) => some k
    | none => some garbage
  slot.filter fun slot => slot < barrierIdMax

def takeStep (s : State ι κ) (c : κ) (garbage : Nat) : Option (State ι κ) :=
  match s.call c, s.rpc (cfg.home c) with
  | .sent r, .recv =>
      let pc := match optBarrierId r garbage with
        | some slot => .waitBarrier r slot
        | none => .undefined r
      some { s with call := update s.call c (.received r)
                    rpc := update s.rpc (cfg.home c) pc }
  | _, _ => none

def others (i : ι) : List ι := cfg.nodeList.filter (· ≠ i)

/-- The decrement of `broadcast_barrier_end_new` once its CAS succeeded. -/
def decrement (s : State ι κ) (i : ι) (r : Request κ) (slot : Nat) (v : Int) : State ι κ :=
  { s with optCount := update s.optCount slot (v - 1)
           optCas := update s.optCas slot (s.optCas slot + 1)
           decremented := set₂ s.decremented r.client slot (s.decremented r.client slot + 1)
           rpc := update s.rpc i (if v - 1 = 0 then .clear r slot else .reply r) }

def rpcStep (s : State ι κ) (i : ι) (ok : Bool) : Option (State ι κ) :=
  match s.rpc i with
  | .recv | .undefined _ => none
  | .waitBarrier r slot =>
      if s.barrier i slot then
        some { s with rpc := update s.rpc i (.waitNodes r slot (others cfg i)) }
      else none
  | .waitNodes r slot (j :: rest) =>
      if s.nodeKey j slot then some { s with rpc := update s.rpc i (.waitNodes r slot rest) } else none
  | .waitNodes r slot [] => some { s with rpc := update s.rpc i (.opt r slot) }
  | .opt r slot =>
      some { s with executed := set₂ s.executed r.client slot (s.executed r.client slot + 1)
                    rpc := update s.rpc i (.getOptc r slot) }
  | .getOptc r slot =>
      some { s with rpc := update s.rpc i (.casOptc r slot (s.optCount slot) (s.optCas slot)) }
  | .casOptc r slot v cas =>
      if ok ∧ s.optCas slot = cas then some (decrement s i r slot v)
      else some { s with rpc := update s.rpc i (.getOptc r slot) }
  | .clear r slot =>
      some { s with barrier := set₂ s.barrier i slot false
                    released := update s.released i (s.released i ++ [slot])
                    rpc := update s.rpc i (.reset r slot) }
  | .reset r slot =>
      if ok then
        some { s with nodeKey := set₂ s.nodeKey i slot false
                      rpc := update s.rpc i (.broadcast r slot (others cfg i)) }
      else none
  | .broadcast _ _ (_ :: _) => none
  | .broadcast r slot [] => some { s with rpc := update s.rpc i (.advance r slot) }
  | .advance r _ =>
      some { s with waitingBarrierId := update s.waitingBarrierId i (s.waitingBarrierId i + 1)
                    rpc := update s.rpc i (.reply r) }
  | .reply r =>
      some { s with call := update s.call r.client .none
                    rpc := update s.rpc i .recv }

/-- The DEL_BARRIER case of `handle_cluster_mesg` on node `i`, one assignment a step; the reply that
lets the sender's `server_broadcast` go on leaves with the second. -/
def clusterStep (s : State ι κ) (i sender : ι) : Option (State ι κ) :=
  match s.rpc sender with
  | .broadcast r slot (j :: rest) =>
      if j ≠ i then none
      else match s.cluster i with
        | none =>
            some { s with barrier := set₂ s.barrier i (s.waitingBarrierId i) false
                          released := update s.released i (s.released i ++ [s.waitingBarrierId i])
                          cluster := update s.cluster i (some sender) }
        | some from' =>
            if from' = sender then
              some { s with waitingBarrierId := update s.waitingBarrierId i (s.waitingBarrierId i + 1)
                            cluster := update s.cluster i none
                            rpc := update s.rpc sender (.broadcast r slot rest) }
            else none
  | _ => none

def step (s : State ι κ) : Event ι κ → Option (State ι κ)
  | .send c => if s.call c = .none then some { s with mq := update s.mq c (s.mq c ++ [.op]) } else none
  | .barrier c => if s.call c = .none then some (paconBarrier cfg s c) else none
  | .request c opt =>
      if s.call c = .none ∧ opt ≠ .flushdir then
        some (addToLocalRpc s (s.request c opt))
      else none
  | .flush c => if s.call c = .none then some (flushDir s c) else none
  | .receive c =>
      if s.commit (cfg.home c) = .recv then
        (s.mq c)[s.committed c]?.map fun m =>
          { s with commit := update s.commit (cfg.home c) (.hold c m) }
      else none
  | .commit i ok => commitStep cfg s i ok
  | .take c garbage => takeStep cfg s c garbage
  | .rpc i ok => rpcStep cfg s i ok
  | .cluster i sender => clusterStep s i sender

def system : System (State ι κ) (Event ι κ) where
  init s := s = initialState
  step := step cfg

end Step
end Pacon.Barrier
