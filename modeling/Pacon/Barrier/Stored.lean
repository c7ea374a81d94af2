import Pacon.Barrier.Model
import Pacon.Lib.Separator
import Pacon.Keys

/-!
# The barriers in memcached

What the servers share of the barriers they keep as text in memcached, under keys that they print: the
operations left of each round, which they change by compare-and-swap, and for each node and round whether
all its clients have reached the barrier.
-/

set_option linter.unusedSectionVars false

namespace Pacon.Barrier
open Function Lib KeyValue Keys

/-- `sprintf(key, "%s%c%d", name, '.', slot)` -/
def barrierKey (name : CString) (slot : Nat) : CString := name ++ '.' :: decimal slot

def optCountName : CString := "barrier_opt_count".toList

structure Stored (ι κ : Type) where
  /-- Its `nodeKey`, `optCount` and `optCas` are not used: what they stand for is in memcached. -/
  servers : State ι κ
  memcached : Memcached

abbrev StoredEvent (ι κ : Type) := Event ι κ × Option Fault

section
variable {ι κ : Type} [DecidableEq ι] [DecidableEq κ] [Fintype κ] (cfg : Config ι κ) (address : ι → CString)

def Stored.setCommit (s : Stored ι κ) (i : ι) (pc : CommitPc κ) : Stored ι κ :=
  { s with servers := { s.servers with commit := update s.servers.commit i pc } }

def Stored.setRpc (s : Stored ι κ) (i : ι) (pc : RpcPc ι κ) : Stored ι κ :=
  { s with servers := { s.servers with rpc := update s.servers.rpc i pc } }

def storedCommitStep (s : Stored ι κ) (i : ι) (ok : Bool) (fault : Option Fault) : Option (Stored ι κ) :=
  match s.servers.commit i with
  | .getOptc c slot n => do
      match ← memcGetCas s.memcached fault (barrierKey optCountName slot) with
      | none => some s
      | some (val, cas) => some (s.setCommit i (.casOptc c slot n (atoi val) cas))
  | .casOptc c slot n v cas => do
      let r ← memcCas s.memcached fault (barrierKey optCountName slot) (printInt (v + n)) cas
      let pc := if r.1 = 0 then CommitPc.reach c slot else .getOptc c slot n
      some { s.setCommit i pc with memcached := r.2 }
  | .setKey c slot => do
      let r ← memcPut s.memcached fault (barrierKey (address i) slot) ['1']
      some ⟨finish s.servers i c, r.2⟩
  | _ => (commitStep cfg s.servers i ok).map fun t => { s with servers := t }

def reachOf (val : Option CString) : Int := val.elim 0 atoi

def decremented (s : State ι κ) (i : ι) (r : Request κ) (slot : Nat) (v : Int) : State ι κ :=
  { s with decremented := set₂ s.decremented r.client slot (s.decremented r.client slot + 1)
           rpc := update s.rpc i (if v - 1 = 0 then .clear r slot else .reply r) }

def storedRpcStep (s : Stored ι κ) (i : ι) (ok : Bool) (fault : Option Fault) : Option (Stored ι κ) :=
  match s.servers.rpc i with
  | .waitNodes r slot (j :: rest) => do
      let val ← memcGet s.memcached fault (barrierKey (address j) slot)
      some (if reachOf val = 0 then s else s.setRpc i (.waitNodes r slot rest))
  | .getOptc r slot => do
      match ← memcGetCas s.memcached fault (barrierKey optCountName slot) with
      | none => some s
      | some (val, cas) => some (s.setRpc i (.casOptc r slot (atoi val) cas))
  | .casOptc r slot v cas => do
      let put ← memcCas s.memcached fault (barrierKey optCountName slot) (printInt (v - 1)) cas
      some ⟨if put.1 = 0 then decremented s.servers i r slot v else (s.setRpc i (.getOptc r slot)).servers, put.2⟩
  | .reset r slot => do
      let put ← memcPut s.memcached fault (barrierKey (address i) slot) ['0']
      let pc := if put.1 = 0 then RpcPc.broadcast r slot (others cfg i) else .reset r slot
      some { s.setRpc i pc with memcached := put.2 }
  | _ => (rpcStep cfg s.servers i ok).map fun t => { s with servers := t }

def storedStep (s : Stored ι κ) : StoredEvent ι κ → Option (Stored ι κ)
  | (.commit i ok, fault) => storedCommitStep cfg address s i ok fault
  | (.rpc i ok, fault) => storedRpcStep cfg address s i ok fault
  | (e, _) => (step cfg s.servers e).map fun t => { s with servers := t }

def startKeys (ip : CString) : List CString :=
  (List.range barrierIdMax).map (barrierKey optCountName) ++ (List.range barrierIdMax).map (barrierKey ip)

def setZeros (m : Memcached) (keys : List CString) : Option Memcached :=
  keys.foldlM (fun m key => (memcPut m none key ['0']).map Prod.snd) m

structure StoredInitial (s : Stored ι κ) : Prop where
  servers : s.servers = initialState
  memcached : ∃ (before : Memcached) (order : List ι), before.Numbered ∧ (∀ i, i ∈ order) ∧
    setZeros before (order.flatMap fun i => startKeys (address i)) = some s.memcached

def storedSystem : System (Stored ι κ) (StoredEvent ι κ) where
  init := StoredInitial address
  step := storedStep cfg address

end

variable {name : CString} {slot : Nat}

theorem barrierKey_last (name : CString) (slot : Nat) : (barrierKey name slot).getLast? ≠ some '/' := by
  have other := decimal_ne_nil slot
  rw [barrierKey, List.getLast?_append_of_ne_nil _ (List.cons_ne_nil _ _), List.getLast?_cons_of_ne_nil other]
  exact fun last => noSlash_decimal slot (List.mem_of_getLast? last)

theorem barrierKey_ne_nil (name : CString) (slot : Nat) : barrierKey name slot ≠ [] := by
  simp [barrierKey]

theorem cutKey_barrierKey (name : CString) (slot : Nat) : cutKey (barrierKey name slot) = some (barrierKey name slot) :=
  cutKey_plain (barrierKey_ne_nil name slot) (barrierKey_last name slot)

theorem putKey_barrierKey (name : CString) (slot : Nat) : putKey (barrierKey name slot) = some (barrierKey name slot) := by
  have whole := putKey_split (n := 0) (barrierKey_last name slot)
  rwa [List.replicate_zero, List.append_nil, if_neg (barrierKey_ne_nil name slot)] at whole

theorem barrierKey_inj {name' : CString} {slot' : Nat} (same : barrierKey name slot = barrierKey name' slot') :
    name = name' ∧ slot = slot' := by
  have noDot (n : Nat) : '.' ∉ decimal n := fun member => absurd (isDigit_of_mem_decimal member) (by decide)
  obtain ⟨names, numbers⟩ := append_sep_inj (noDot slot) (noDot slot') same
  exact ⟨names, decimal_injective numbers⟩

/-- A request that fails leaves everything as it is. -/
def Harmless (fault : Option Fault) : Prop := ∀ f ∈ fault, f.effect = .nothing

variable {m : Memcached} {fault : Option Fault} {key val : CString} {cas : Nat}

def answered (m : Memcached) (fault : Option Fault) (key : CString) : Option (Cell CString) :=
  if fault = none then m.items key else none

theorem found_get (m : Memcached) (fault : Option Fault) (key : CString) : found (m.get fault key) = answered m fault key := by
  cases fault with
  | some f => cases f with | mk failure effect => cases failure <;> rfl
  | none =>
      rw [answered, if_pos rfl]
      cases item : m.items key <;> simp [found, Store.get, item]

theorem memcGet_barrierKey (m : Memcached) (fault : Option Fault) (name : CString) (slot : Nat) :
    memcGet m fault (barrierKey name slot) = some ((answered m fault (barrierKey name slot)).map Cell.value) := by
  simp only [memcGet, cutKey_barrierKey, Option.bind_eq_bind, Option.bind_some, memcachedGet,
    if_neg (barrierKey_ne_nil name slot), found_get]

theorem memcGetCas_barrierKey (m : Memcached) (fault : Option Fault) (name : CString) (slot : Nat) :
    memcGetCas m fault (barrierKey name slot) =
      some ((answered m fault (barrierKey name slot)).map fun cell => (cell.value, cell.cas)) := by
  simp only [memcGetCas, cutKey_barrierKey, Option.bind_eq_bind, Option.bind_some, memcachedGet,
    if_neg (barrierKey_ne_nil name slot), found_get]

theorem memcPut_barrierKey (harmless : Harmless fault) (m : Memcached) (name : CString) (slot : Nat) (val : CString) :
    ∃ ret, memcPut m fault (barrierKey name slot) val =
        some (ret, if fault = none then m.write (barrierKey name slot) val else m) ∧ (ret = 0 ↔ fault = none) := by
  simp only [memcPut, putKey_barrierKey, Option.bind_eq_bind, Option.bind_some, memcachedSet,
    if_neg (barrierKey_ne_nil name slot)]
  cases fault with
  | none => exact ⟨0, rfl, by simp⟩
  | some f =>
      obtain ⟨failure, effect⟩ := f
      cases harmless _ rfl
      cases failure
      · exact ⟨-2, rfl, by simp⟩
      · exact ⟨-1, rfl, by simp⟩
      · exact ⟨-1, rfl, by simp⟩

theorem memcCas_barrierKey (harmless : Harmless fault) {cell : Cell CString}
    (there : m.items (barrierKey name slot) = some cell) (val : CString) (cas : Nat) :
    ∃ ret, memcCas m fault (barrierKey name slot) val cas =
        some (ret, if fault = none ∧ cell.cas = cas then m.write (barrierKey name slot) val else m) ∧
      (ret = 0 ↔ fault = none ∧ cell.cas = cas) := by
  simp only [memcCas, cutKey_barrierKey, Option.bind_eq_bind, Option.bind_some, memcachedCas,
    if_neg (barrierKey_ne_nil name slot), Store.cas, there]
  cases fault with
  | none =>
      by_cases current : cell.cas = cas
      · exact ⟨0, by simp [Store.answer, current, casCode], by simp [current]⟩
      · exact ⟨1, by simp [Store.answer, current, casCode], by simp [current]⟩
  | some f =>
      obtain ⟨failure, effect⟩ := f
      cases harmless _ rfl
      cases failure
      · exact ⟨-2, rfl, by simp⟩
      · exact ⟨-1, rfl, by simp⟩
      · exact ⟨-1, rfl, by simp⟩

end Pacon.Barrier
