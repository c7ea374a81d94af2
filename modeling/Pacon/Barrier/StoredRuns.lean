import Pacon.Lib.Refinement
import Pacon.Barrier.Nodes
import Pacon.Barrier.Protocol
import Pacon.Barrier.StoredView

/-!
# The barriers in memcached are those of the model

Every run with the text in memcached is a run of the system with the counters and flags themselves. The
versions that a thread remembers are other numbers there, counted for each round.
-/

set_option linter.unusedSectionVars false

namespace Pacon.Barrier
open Function Lib KeyValue Keys

section
variable {ι κ : Type}

def flagText (reached : Bool) : CString := if reached then ['1'] else ['0']

def Known (version : Nat → Nat) (m : Memcached) (remembers : Option (Nat × Nat)) : Prop :=
  ∀ slot cas, remembers = some (slot, cas) → cas < m.next ∧
    ∃ cell, m.items (barrierKey optCountName slot) = some cell ∧ version cas ≤ version cell.cas ∧
      (version cas = version cell.cas → cas = cell.cas)

structure Holds (address : ι → CString) (version : Nat → Nat) (m : Memcached) (a : State ι κ) : Prop where
  numbered : m.Numbered
  count : ∀ slot < barrierIdMax, ∃ cas, version cas = a.optCas slot ∧
    m.items (barrierKey optCountName slot) = some ⟨printInt (a.optCount slot), cas⟩
  flag : ∀ i, ∀ slot < barrierIdMax, ∃ cas,
    m.items (barrierKey (address i) slot) = some ⟨flagText (a.nodeKey i slot), cas⟩

structure Beside (address : ι → CString) (version : Nat → Nat) (s : Stored ι κ) (a : State ι κ) : Prop where
  holds : Holds address version s.memcached a
  commit : ∀ i, Known version s.memcached (s.servers.commit i).remembers
  rpc : ∀ i, Known version s.memcached (s.servers.rpc i).remembers

structure Addresses (address : ι → CString) : Prop where
  injective : Injective address
  other : ∀ i, address i ≠ optCountName

end

section
variable {ι κ : Type} [DecidableEq ι] [DecidableEq κ] [Fintype κ] {cfg : Config ι κ} {version : Nat → Nat}
  {a s t : State ι κ}

variable {address : ι → CString} {m : Memcached} {version' : Nat → Nat}

theorem Known.none : Known version m none := by
  intro slot cas remembers
  cases remembers

theorem CommitPc.renumber_congr {pc : CommitPc κ} (known : Known version m pc.remembers)
    (agrees : ∀ cas < m.next, version' cas = version cas) : pc.renumber version' = pc.renumber version := by
  cases pc with
  | casOptc c slot n v cas => rw [renumber, renumber, agrees cas (known slot cas rfl).1]
  | _ => rfl

theorem RpcPc.renumber_congr {pc : RpcPc ι κ} (known : Known version m pc.remembers)
    (agrees : ∀ cas < m.next, version' cas = version cas) : pc.renumber version' = pc.renumber version := by
  cases pc with
  | casOptc r slot v cas => rw [renumber, renumber, agrees cas (known slot cas rfl).1]
  | _ => rfl

theorem Known.write {remembers : Option (Nat × Nat)} (known : Known version m remembers) (numbered : m.Numbered)
    (agrees : ∀ cas < m.next, version' cas = version cas) {key : CString} (val : CString)
    (newer : ∀ slot cell, key = barrierKey optCountName slot → m.items key = some cell →
      version cell.cas < version' m.next) : Known version' (m.write key val) remembers := by
  intro slot cas remember
  obtain ⟨early, cell, item, behind, current⟩ := known slot cas remember
  refine ⟨Nat.lt_succ_of_lt early, ?_⟩
  rw [agrees cas early]
  by_cases here : barrierKey optCountName slot = key
  · subst here
    have later := behind.trans_lt (newer slot cell rfl item)
    exact ⟨_, Store.items_write_self, later.le, fun same => absurd same later.ne⟩
  · refine ⟨cell, (Store.items_write_of_ne here).trans item, ?_⟩
    rw [agrees cell.cas (numbered _ _ item)]
    exact ⟨behind, current⟩

def nextVersion (version : Nat → Nat) (m : Memcached) (cas : Nat) : Nat → Nat :=
  update version m.next (version cas + 1)

theorem nextVersion_agrees {n cas : Nat} (early : cas < m.next) : nextVersion version m n cas = version cas :=
  update_of_ne (Nat.ne_of_lt early) ..

theorem Holds.writeCount (h : Holds address version m a) (addresses : Addresses address) {b : State ι κ} {slot cas : Nat}
    {v : Int} (keys : b.nodeKey = a.nodeKey) (count : b.optCount = update a.optCount slot v)
    (next : b.optCas = update a.optCas slot (version cas + 1)) :
    Holds address (nextVersion version m cas) (m.write (barrierKey optCountName slot) (printInt v)) b where
  numbered := h.numbered.write _ _
  count other inside := by
    rw [count, next]
    by_cases here : other = slot
    · subst here
      rw [update_self, update_self]
      exact ⟨m.next, update_self .., Store.items_write_self⟩
    · have apart : barrierKey optCountName other ≠ barrierKey optCountName slot := fun same => here (barrierKey_inj same).2
      obtain ⟨cas', version', item⟩ := h.count other inside
      rw [update_of_ne here, update_of_ne here]
      refine ⟨cas', ?_, (Store.items_write_of_ne apart).trans item⟩
      rw [nextVersion_agrees (h.numbered _ _ item), version']
  flag i other inside := by
    have apart : barrierKey (address i) other ≠ barrierKey optCountName slot :=
      fun same => addresses.other i (barrierKey_inj same).1
    rw [keys, Store.items_write_of_ne apart]
    exact h.flag i other inside

theorem Holds.writeFlag (h : Holds address version m a) (addresses : Addresses address) {b : State ι κ} {i : ι}
    {slot : Nat} {reached : Bool} (keys : b.nodeKey = set₂ a.nodeKey i slot reached) (count : b.optCount = a.optCount)
    (next : b.optCas = a.optCas) : Holds address version (m.write (barrierKey (address i) slot) (flagText reached)) b where
  numbered := h.numbered.write _ _
  count other inside := by
    have apart : barrierKey optCountName other ≠ barrierKey (address i) slot :=
      fun same => addresses.other i (barrierKey_inj same).1.symm
    rw [count, next, Store.items_write_of_ne apart]
    exact h.count other inside
  flag j other inside := by
    rw [keys]
    by_cases here : j = i ∧ other = slot
    · obtain ⟨rfl, rfl⟩ := here
      rw [set₂, update_self, update_self]
      exact ⟨m.next, Store.items_write_self⟩
    · have apart : barrierKey (address j) other ≠ barrierKey (address i) slot :=
        fun same => here ⟨addresses.injective (barrierKey_inj same).1, (barrierKey_inj same).2⟩
      have same : set₂ a.nodeKey i slot reached j other = a.nodeKey j other := by
        by_cases node : j = i
        · subst node
          rw [set₂, update_self, update_of_ne fun slots => here ⟨rfl, slots⟩]
        · rw [set₂, update_of_ne node]
      rw [same, Store.items_write_of_ne apart]
      exact h.flag j other inside

theorem view_congr {b : State ι κ} (commit : ∀ i, Known version m (s.commit i).remembers)
    (rpc : ∀ i, Known version m (s.rpc i).remembers) (agrees : ∀ cas < m.next, version' cas = version cas) :
    view version' b s = view version b s := by
  have commits : (fun i => (s.commit i).renumber version') = fun i => (s.commit i).renumber version :=
    funext fun i => (s.commit i).renumber_congr (commit i) agrees
  have rpcs : (fun i => (s.rpc i).renumber version') = fun i => (s.rpc i).renumber version :=
    funext fun i => (s.rpc i).renumber_congr (rpc i) agrees
  rw [view, commits, rpcs]
  rfl

theorem known_commit (all : ∀ j, Known version m (s.commit j).remembers) (i : ι) {pc : CommitPc κ}
    (new : Known version m pc.remembers) (j : ι) : Known version m (update s.commit i pc j).remembers := by
  by_cases here : j = i
  · subst here
    rwa [update_self]
  · rw [update_of_ne here]
    exact all j

theorem known_rpc (all : ∀ j, Known version m (s.rpc j).remembers) (i : ι) {pc : RpcPc ι κ}
    (new : Known version m pc.remembers) (j : ι) : Known version m (update s.rpc i pc j).remembers := by
  by_cases here : j = i
  · subst here
    rwa [update_self]
  · rw [update_of_ne here]
    exact all j

variable {x y : Stored ι κ}

theorem Beside.alone (h : Beside address version x a) {e : Event ι κ} (alone : ¬Asks x.servers e)
    (does : step cfg x.servers e = some t) : Beside address version { x with servers := t } a where
  holds := h.holds
  commit i := by
    rcases (step_remembers alone does i).1 with same | none
    · exact same ▸ h.commit i
    · simp only [none]
      exact Known.none
  rpc i := by
    rcases (step_remembers alone does i).2 with same | none
    · exact same ▸ h.rpc i
    · simp only [none]
      exact Known.none

theorem storedStep_alone {e : Event ι κ} (alone : ¬Asks x.servers e) (fault : Option Fault) :
    storedStep cfg address x (e, fault) = (step cfg x.servers e).map fun t => { x with servers := t } := by
  cases e with
  | commit i ok =>
      simp only [storedStep, storedCommitStep, step]
      split <;> rename_i pc
      · exact absurd (by simp [Asks, pc]) alone
      · exact absurd (by simp [Asks, pc]) alone
      · exact absurd (by simp [Asks, pc]) alone
      · rfl
  | rpc i ok =>
      simp only [storedStep, storedRpcStep, step]
      split <;> rename_i pc
      · exact absurd (by simp [Asks, pc]) alone
      · exact absurd (by simp [Asks, pc]) alone
      · exact absurd (by simp [Asks, pc]) alone
      · exact absurd (by simp [Asks, pc]) alone
      · rfl
  | _ => rfl

theorem Beside.known (h : Beside address version x a) {slot : Nat} {cell : Cell CString}
    (item : x.memcached.items (barrierKey optCountName slot) = some cell) :
    Known version x.memcached (some (slot, cell.cas)) := by
  intro slot' cas same
  cases same
  exact ⟨h.holds.numbered _ _ item, cell, item, Nat.le_refl _, fun _ => rfl⟩

theorem Beside.read (h : Beside address version x a) {fault : Option Fault} {slot : Nat} (inside : slot < barrierIdMax)
    {cell : Cell CString} (found : answered x.memcached fault (barrierKey optCountName slot) = some cell) :
    x.memcached.items (barrierKey optCountName slot) = some cell ∧ atoi cell.value = a.optCount slot ∧
      version cell.cas = a.optCas slot := by
  simp only [answered, Option.ite_none_right_eq_some] at found
  obtain ⟨cas, current, item⟩ := h.holds.count slot inside
  cases found.2.symm.trans item
  exact ⟨item, atoi_printInt _, current⟩

theorem Beside.commit_getOptc (h : Beside address version x a) {i : ι} {ok : Bool} {fault : Option Fault} {c : κ}
    {slot : Nat} {n : Int} (inside : slot < barrierIdMax) (pc : x.servers.commit i = .getOptc c slot n)
    (does : storedCommitStep cfg address x i ok fault = some y) :
    y = x ∨ step cfg (view version a x.servers) (.commit i ok) = some (view version a y.servers) ∧
      Beside address version y a := by
  simp only [storedCommitStep, pc, memcGetCas_barrierKey, Option.bind_eq_bind, Option.bind_some] at does
  cases found : answered x.memcached fault (barrierKey optCountName slot) with
  | none =>
      rw [found] at does
      cases does
      exact .inl rfl
  | some cell =>
      rw [found] at does
      cases does
      obtain ⟨item, value, current⟩ := h.read inside found
      refine .inr ⟨?_, h.holds, known_commit h.commit i (h.known item), h.rpc⟩
      simp only [step, commitStep, view_commit pc rfl]
      simp only [view, Stored.setCommit, renumber_update_commit, CommitPc.renumber_casOptc, value, current]

theorem Beside.rpc_getOptc (h : Beside address version x a) {i : ι} {ok : Bool} {fault : Option Fault} {r : Request κ}
    {slot : Nat} (inside : slot < barrierIdMax) (pc : x.servers.rpc i = .getOptc r slot)
    (does : storedRpcStep cfg address x i ok fault = some y) :
    y = x ∨ step cfg (view version a x.servers) (.rpc i ok) = some (view version a y.servers) ∧
      Beside address version y a := by
  simp only [storedRpcStep, pc, memcGetCas_barrierKey, Option.bind_eq_bind, Option.bind_some] at does
  cases found : answered x.memcached fault (barrierKey optCountName slot) with
  | none =>
      rw [found] at does
      cases does
      exact .inl rfl
  | some cell =>
      rw [found] at does
      cases does
      obtain ⟨item, value, current⟩ := h.read inside found
      refine .inr ⟨?_, h.holds, h.commit, known_rpc h.rpc i (h.known item)⟩
      simp only [step, rpcStep, view_rpc pc rfl]
      simp only [view, Stored.setRpc, renumber_update_rpc, RpcPc.renumber_casOptc, value, current]

theorem Beside.rpc_waitNodes (h : Beside address version x a) {i j : ι} {ok : Bool} {fault : Option Fault}
    {r : Request κ} {slot : Nat} {rest : List ι} (inside : slot < barrierIdMax)
    (pc : x.servers.rpc i = .waitNodes r slot (j :: rest))
    (does : storedRpcStep cfg address x i ok fault = some y) :
    y = x ∨ step cfg (view version a x.servers) (.rpc i ok) = some (view version a y.servers) ∧
      Beside address version y a := by
  simp only [storedRpcStep, pc, memcGet_barrierKey, Option.bind_eq_bind, Option.bind_some, Option.some.injEq] at does
  split at does
  · exact .inl does.symm
  · rename_i reaches
    subst does
    have reached : a.nodeKey j slot = true := by
      cases found : answered x.memcached fault (barrierKey (address j) slot) with
      | none => simp [found, reachOf] at reaches
      | some cell =>
          simp only [answered, Option.ite_none_right_eq_some] at found
          obtain ⟨cas, item⟩ := h.holds.flag j slot inside
          cases flag : a.nodeKey j slot with
          | true => rfl
          | false =>
              rw [flag] at item
              simp only [answered, if_pos found.1, item] at reaches
              exact absurd (show atoi (flagText false) = 0 by decide) reaches
    refine .inr ⟨?_, h.holds, h.commit, known_rpc h.rpc i .none⟩
    simp only [step, rpcStep, view_rpc pc rfl]
    simpa [view, Stored.setRpc, reached] using (renumber_rpc rfl).symm

/-! The swaps of the counter: `cas` is current in memcached exactly if its number is current in the model. -/

theorem Known.current {slot cas : Nat} (known : Known version m (some (slot, cas))) (holds : Holds address version m a)
    (inside : slot < barrierIdMax) :
    ∃ cell, m.items (barrierKey optCountName slot) = some cell ∧ (cell.cas = cas ↔ a.optCas slot = version cas) := by
  obtain ⟨-, cell, item, -, same⟩ := known slot cas rfl
  obtain ⟨cas', version', item'⟩ := holds.count slot inside
  cases item.symm.trans item'
  refine ⟨_, item, ?_⟩
  rw [← version']
  exact ⟨congrArg version, fun current => (same current.symm).symm⟩

def swapped (version : Nat → Nat) (a : State ι κ) (slot : Nat) (v : Int) (cas : Nat) : State ι κ :=
  { a with optCount := update a.optCount slot v, optCas := update a.optCas slot (version cas + 1) }

theorem Beside.swap (h : Beside address version x a) (addresses : Addresses address) {slot cas : Nat} {cell : Cell CString}
    (item : x.memcached.items (barrierKey optCountName slot) = some cell) (current : cell.cas = cas) (v : Int)
    {t : State ι κ} (commit : ∀ i, Known version x.memcached (t.commit i).remembers)
    (rpc : ∀ i, Known version x.memcached (t.rpc i).remembers) :
    Beside address (nextVersion version x.memcached cas)
        ⟨t, x.memcached.write (barrierKey optCountName slot) (printInt v)⟩ (swapped version a slot v cas) ∧
      view (nextVersion version x.memcached cas) (swapped version a slot v cas) t =
        view version (swapped version a slot v cas) t := by
  have agrees (cas' : Nat) (early : cas' < x.memcached.next) :
      nextVersion version x.memcached cas cas' = version cas' := nextVersion_agrees early
  have newer (slot' : Nat) (cell' : Cell CString) (same : barrierKey optCountName slot = barrierKey optCountName slot')
      (item' : x.memcached.items (barrierKey optCountName slot) = some cell') :
      version cell'.cas < nextVersion version x.memcached cas x.memcached.next := by
    cases item.symm.trans item'
    rw [nextVersion, update_self, current]
    exact Nat.lt_succ_self _
  exact ⟨⟨h.holds.writeCount addresses rfl rfl rfl, fun i => (commit i).write h.holds.numbered agrees _ newer,
    fun i => (rpc i).write h.holds.numbered agrees _ newer⟩, view_congr commit rpc agrees⟩

def Taken (cfg : Config ι κ) (address : ι → CString) (version : Nat → Nat) (x : Stored ι κ) (a : State ι κ)
    (e : Event ι κ) (y : Stored ι κ) : Prop :=
  ∃ version' b, step cfg (view version a x.servers) e = some (view version' b y.servers) ∧ Beside address version' y b

theorem Beside.commit_casOptc (h : Beside address version x a) (addresses : Addresses address) {i : ι} {ok : Bool}
    {fault : Option Fault} (harmless : Harmless fault) {c : κ} {slot : Nat} {n v : Int} {cas : Nat}
    (inside : slot < barrierIdMax) (pc : x.servers.commit i = .casOptc c slot n v cas)
    (does : storedCommitStep cfg address x i ok fault = some y) :
    Taken cfg address version x a (.commit i (decide (fault = none))) y := by
  have known := h.commit i
  rw [pc] at known
  obtain ⟨cell, item, current⟩ := Known.current known h.holds inside
  obtain ⟨ret, answer, success⟩ := memcCas_barrierKey harmless item (printInt (v + n)) cas
  simp only [storedCommitStep, pc, answer, Option.bind_eq_bind, Option.bind_some, Option.some.injEq] at does
  subst does
  have here : (view version a x.servers).commit i = .casOptc c slot n v (version cas) := by
    simp only [view, pc, CommitPc.renumber_casOptc]
  by_cases wins : fault = none ∧ cell.cas = cas
  · rw [if_pos wins, if_pos (success.mpr wins)]
    obtain ⟨beside, same⟩ := h.swap (t := (x.setCommit i (.reach c slot)).servers) addresses item wins.2 (v + n)
      (known_commit h.commit i .none) h.rpc
    refine ⟨_, _, ?_, beside⟩
    rw [same]
    simp only [step, commitStep, here]
    simpa [view, wins.1, current.mp wins.2, Stored.setCommit, swapped] using (renumber_commit rfl).symm
  · rw [if_neg wins, if_neg fun zero => wins (success.mp zero)]
    refine ⟨version, a, ?_, h.holds, known_commit h.commit i .none, h.rpc⟩
    have loses : ¬(decide (fault = none) = true ∧ (view version a x.servers).optCas slot = version cas) := by
      rw [decide_eq_true_eq]
      exact fun both => wins ⟨both.1, current.mpr both.2⟩
    simp only [step, commitStep, here]
    rw [if_neg loses]
    simpa [view, Stored.setCommit] using (renumber_commit rfl).symm

theorem Beside.rpc_casOptc (h : Beside address version x a) (addresses : Addresses address) {i : ι} {ok : Bool}
    {fault : Option Fault} (harmless : Harmless fault) {r : Request κ} {slot : Nat} {v : Int} {cas : Nat}
    (inside : slot < barrierIdMax) (pc : x.servers.rpc i = .casOptc r slot v cas)
    (does : storedRpcStep cfg address x i ok fault = some y) :
    Taken cfg address version x a (.rpc i (decide (fault = none))) y := by
  have known := h.rpc i
  rw [pc] at known
  obtain ⟨cell, item, current⟩ := Known.current known h.holds inside
  obtain ⟨ret, answer, success⟩ := memcCas_barrierKey harmless item (printInt (v - 1)) cas
  simp only [storedRpcStep, pc, answer, Option.bind_eq_bind, Option.bind_some, Option.some.injEq] at does
  subst does
  have here : (view version a x.servers).rpc i = .casOptc r slot v (version cas) := by
    simp only [view, pc, RpcPc.renumber_casOptc]
  by_cases wins : fault = none ∧ cell.cas = cas
  · rw [if_pos wins, if_pos (success.mpr wins)]
    have forgets : (if v - 1 = 0 then RpcPc.clear r slot else .reply r : RpcPc ι κ).remembers = none := by
      split <;> rfl
    obtain ⟨beside, same⟩ := h.swap (t := decremented x.servers i r slot v) addresses item wins.2 (v - 1)
      h.commit (known_rpc h.rpc i (forgets ▸ .none))
    refine ⟨_, _, ?_, beside⟩
    rw [same]
    simp only [step, rpcStep, here]
    simpa [view, wins.1, current.mp wins.2, decrement, decremented, swapped] using (renumber_rpc forgets).symm
  · rw [if_neg wins, if_neg fun zero => wins (success.mp zero)]
    refine ⟨version, a, ?_, h.holds, h.commit, known_rpc h.rpc i .none⟩
    have loses : ¬(decide (fault = none) = true ∧ (view version a x.servers).optCas slot = version cas) := by
      rw [decide_eq_true_eq]
      exact fun both => wins ⟨both.1, current.mpr both.2⟩
    simp only [step, rpcStep, here]
    rw [if_neg loses]
    simpa [view, Stored.setRpc] using (renumber_rpc rfl).symm

theorem Beside.set (h : Beside address version x a) (addresses : Addresses address) (i : ι) (slot : Nat) (reached : Bool)
    {t : State ι κ} (commit : ∀ i, Known version x.memcached (t.commit i).remembers)
    (rpc : ∀ i, Known version x.memcached (t.rpc i).remembers) :
    Beside address version ⟨t, x.memcached.write (barrierKey (address i) slot) (flagText reached)⟩
      { a with nodeKey := set₂ a.nodeKey i slot reached } := by
  have newer (slot' : Nat) (cell' : Cell CString) (same : barrierKey (address i) slot = barrierKey optCountName slot')
      (item' : x.memcached.items (barrierKey (address i) slot) = some cell') :
      version cell'.cas < version x.memcached.next := absurd (barrierKey_inj same).1 (addresses.other i)
  exact ⟨h.holds.writeFlag addresses rfl rfl rfl,
    fun i => (commit i).write h.holds.numbered (fun _ _ => rfl) _ newer,
    fun i => (rpc i).write h.holds.numbered (fun _ _ => rfl) _ newer⟩

theorem Beside.commit_setKey (h : Beside address version x a) (addresses : Addresses address) {i : ι} {ok : Bool}
    {fault : Option Fault} (harmless : Harmless fault) {c : κ} {slot : Nat}
    (pc : x.servers.commit i = .setKey c slot) (does : storedCommitStep cfg address x i ok fault = some y) :
    Taken cfg address version x a (.commit i (decide (fault = none))) y := by
  obtain ⟨ret, answer, -⟩ := memcPut_barrierKey harmless x.memcached (address i) slot ['1']
  simp only [storedCommitStep, pc, answer, Option.bind_eq_bind, Option.bind_some, Option.some.injEq] at does
  subst does
  have commits : ∀ j, Known version x.memcached (update x.servers.commit i .recv j).remembers :=
    known_commit h.commit i .none
  by_cases fine : fault = none
  · rw [if_pos fine]
    refine ⟨version, { a with nodeKey := set₂ a.nodeKey i slot true }, ?_, h.set addresses i slot true commits h.rpc⟩
    simp only [step, commitStep, view_commit pc rfl]
    simpa [view, fine, finish] using (renumber_commit rfl).symm
  · rw [if_neg fine]
    refine ⟨version, a, ?_, h.holds, commits, h.rpc⟩
    simp only [step, commitStep, view_commit pc rfl]
    simpa [view, fine, finish] using (renumber_commit rfl).symm

theorem Beside.rpc_reset (h : Beside address version x a) (addresses : Addresses address) {i : ι} {ok : Bool}
    {fault : Option Fault} (harmless : Harmless fault) {r : Request κ} {slot : Nat}
    (pc : x.servers.rpc i = .reset r slot) (does : storedRpcStep cfg address x i ok fault = some y) :
    y = x ∨ Taken cfg address version x a (.rpc i true) y := by
  obtain ⟨ret, answer, success⟩ := memcPut_barrierKey harmless x.memcached (address i) slot ['0']
  simp only [storedRpcStep, pc, answer, Option.bind_eq_bind, Option.bind_some, Option.some.injEq] at does
  by_cases fine : fault = none
  · rw [if_pos fine, if_pos (success.mpr fine)] at does
    subst does
    refine .inr ⟨version, { a with nodeKey := set₂ a.nodeKey i slot false }, ?_,
      h.set addresses i slot false h.commit (known_rpc h.rpc i .none)⟩
    simp only [step, rpcStep, view_rpc pc rfl]
    simpa [view, Stored.setRpc] using (renumber_rpc rfl).symm
  · rw [if_neg fine, if_neg fun zero => fine (success.mp zero)] at does
    left
    rw [← does, Stored.setRpc, ← pc, update_eq_self]

inductive SameEvent : Event ι κ → Event ι κ → Prop
  | refl (e) : SameEvent e e
  | commit (i ok ok') : SameEvent (.commit i ok) (.commit i ok')
  | rpc (i ok ok') : SameEvent (.rpc i ok) (.rpc i ok')

theorem Beside.step (h : Beside address version x a) (addresses : Addresses address) (slots : Slots x.servers)
    {e : Event ι κ} {fault : Option Fault} (harmless : Harmless fault)
    (does : storedStep cfg address x (e, fault) = some y) :
    y = x ∨ ∃ e', SameEvent e e' ∧ Taken cfg address version x a e' y := by
  by_cases asks : Asks x.servers e
  · cases e with
    | commit i ok =>
        have inside := slots.commit i
        cases pc : x.servers.commit i with
        | getOptc c slot n =>
            rw [pc] at inside
            apply (h.commit_getOptc (inside slot rfl) pc does).imp_right
            exact fun taken => ⟨_, .refl _, version, a, taken⟩
        | casOptc c slot n v cas =>
            rw [pc] at inside
            exact .inr ⟨_, .commit i ok _, h.commit_casOptc addresses harmless (inside slot rfl) pc does⟩
        | setKey c slot => exact .inr ⟨_, .commit i ok _, h.commit_setKey addresses harmless pc does⟩
        | recv | hold | reach | reachBarrier =>
            simp only [Asks, pc] at asks
    | rpc i ok =>
        have inside := slots.rpc i
        cases pc : x.servers.rpc i with
        | waitNodes r slot rest =>
            cases rest with
            | nil => simp only [Asks, pc] at asks
            | cons j rest =>
                rw [pc] at inside
                apply (h.rpc_waitNodes (inside slot rfl) pc does).imp_right
                exact fun taken => ⟨_, .refl _, version, a, taken⟩
        | getOptc r slot =>
            rw [pc] at inside
            apply (h.rpc_getOptc (inside slot rfl) pc does).imp_right
            exact fun taken => ⟨_, .refl _, version, a, taken⟩
        | casOptc r slot v cas =>
            rw [pc] at inside
            exact .inr ⟨_, .rpc i ok _, h.rpc_casOptc addresses harmless (inside slot rfl) pc does⟩
        | reset r slot =>
            apply (h.rpc_reset addresses harmless pc does).imp_right
            exact fun taken => ⟨_, .rpc i ok _, taken⟩
        | recv | waitBarrier | opt | clear | broadcast | advance | reply | undefined =>
            simp only [Asks, pc] at asks
    | _ => exact asks.elim
  · rw [storedStep_alone asks] at does
    obtain ⟨t, step, rfl⟩ := Option.map_eq_some_iff.mp does
    exact .inr ⟨e, .refl e, version, a, step_view asks step, h.alone asks step⟩

theorem slots_view : Slots (view version a s) ↔ Slots s := by
  have commit (i : ι) : ((s.commit i).renumber version).slot = (s.commit i).slot := by
    cases s.commit i <;> rfl
  have rpc (i : ι) : ((s.rpc i).renumber version).slot = (s.rpc i).slot := by
    cases s.rpc i <;> rfl
  constructor
  · intro slots
    exact ⟨fun i => commit i ▸ slots.commit i, fun i => rpc i ▸ slots.rpc i⟩
  · intro slots
    exact ⟨fun i => (commit i).symm ▸ slots.commit i, fun i => (rpc i).symm ▸ slots.rpc i⟩

theorem setZeros_items {keys : List CString} (barrier : ∀ key ∈ keys, ∃ name slot, key = barrierKey name slot)
    {m m' : Memcached} (numbered : m.Numbered) (done : setZeros m keys = some m') :
    m'.Numbered ∧ ∀ key, (key ∈ keys → ∃ cas, m'.items key = some ⟨['0'], cas⟩) ∧
      (key ∉ keys → m'.items key = m.items key) := by
  induction keys generalizing m with
  | nil =>
      cases done
      exact ⟨numbered, fun key => ⟨fun member => absurd member List.not_mem_nil, fun _ => rfl⟩⟩
  | cons key keys ih =>
      obtain ⟨name, slot, rfl⟩ := barrier key List.mem_cons_self
      have harmless : Harmless none := by simp [Harmless]
      obtain ⟨ret, put, -⟩ := memcPut_barrierKey harmless m name slot ['0']
      rw [setZeros, List.foldlM_cons, put] at done
      obtain ⟨after, rest⟩ := ih (fun key member => barrier key (List.mem_cons_of_mem _ member))
        (numbered.write (barrierKey name slot) ['0']) done
      refine ⟨after, fun key => ⟨fun member => ?_, fun other => ?_⟩⟩
      · by_cases later : key ∈ keys
        · exact (rest key).1 later
        · cases (List.mem_cons.mp member).resolve_right later
          exact ⟨_, ((rest _).2 later).trans Store.items_write_self⟩
      · obtain ⟨first, later⟩ := not_or.mp (mt List.mem_cons.mpr other)
        exact ((rest key).2 later).trans (Store.items_write_of_ne first)

theorem mem_startKeys {ip key : CString} : key ∈ startKeys ip ↔
    ∃ slot < barrierIdMax, key = barrierKey optCountName slot ∨ key = barrierKey ip slot := by
  simp only [startKeys, List.mem_append, List.mem_map, List.mem_range]
  constructor
  · rintro (⟨slot, inside, rfl⟩ | ⟨slot, inside, rfl⟩)
    · exact ⟨slot, inside, .inl rfl⟩
    · exact ⟨slot, inside, .inr rfl⟩
  · rintro ⟨slot, inside, rfl | rfl⟩
    · exact .inl ⟨slot, inside, rfl⟩
    · exact .inr ⟨slot, inside, rfl⟩

theorem startKeys_barrier {ip : CString} : ∀ key ∈ startKeys ip, ∃ name slot, key = barrierKey name slot := by
  intro key member
  obtain ⟨slot, -, rfl | rfl⟩ := mem_startKeys.mp member
  · exact ⟨_, _, rfl⟩
  · exact ⟨_, _, rfl⟩

theorem beside_initial [Nonempty ι] (start : StoredInitial address x) :
    Beside address (fun _ => 0) x (initialState : State ι κ) := by
  obtain ⟨before, order, numbered, all, zeros⟩ := start.memcached
  have barrier : ∀ key ∈ order.flatMap fun i => startKeys (address i), ∃ name slot, key = barrierKey name slot := by
    intro key member
    obtain ⟨i, -, member⟩ := List.mem_flatMap.mp member
    exact startKeys_barrier key member
  obtain ⟨numbered, set⟩ := setZeros_items barrier numbered zeros
  have zero (i : ι) {key : CString} (member : key ∈ startKeys (address i)) :
      ∃ cas, x.memcached.items key = some ⟨['0'], cas⟩ :=
    (set key).1 (List.mem_flatMap.mpr ⟨i, all i, member⟩)
  refine ⟨⟨numbered, fun slot inside => ?_, fun i slot inside => ?_⟩, fun i => ?_, fun i => ?_⟩
  · obtain ⟨i⟩ := ‹Nonempty ι›
    obtain ⟨cas, item⟩ := zero i (mem_startKeys.mpr ⟨slot, inside, .inl rfl⟩)
    exact ⟨cas, rfl, item⟩
  · exact zero i (mem_startKeys.mpr ⟨slot, inside, .inr rfl⟩)
  · rw [start.servers]
    exact .none
  · rw [start.servers]
    exact .none

/-- A condition on the clients: what memcached holds and answers plays no part. -/
def Unseen (ok : State ι κ → Event ι κ → Prop) : Prop :=
  ∀ version a s e e', SameEvent e e' → ok s e → ok (view version a s) e'

/-- Failures in memcached change nothing there, and the events meet `ok`. -/
def StoredRun (ok : State ι κ → Event ι κ → Prop) (x : Stored ι κ) (e : StoredEvent ι κ) : Prop :=
  Harmless e.2 ∧ ok x.servers e.1

theorem unseen_protocol : Unseen (Protocol cfg) := by
  intro version a s e e' same protocol
  cases same with
  | refl => cases e <;> exact protocol
  | commit | rpc => trivial

variable {ok : State ι κ → Event ι κ → Prop}

theorem stored_simulates [Nonempty ι] (addresses : Addresses address) (unseen : Unseen ok) :
    (storedSystem cfg address).Simulates (StoredRun ok) (system cfg) ok fun x b =>
      ∃ version a, b = view version a x.servers ∧ Beside address version x a ∧ Slots x.servers where
  init start := by
    refine ⟨initialState, rfl, fun _ => 0, initialState, ?_, beside_initial start, ?_⟩
    · rw [start.servers]
      rfl
    · rw [start.servers]
      exact slots_initial
  step beside guard does := by
    obtain ⟨version, a, rfl, beside, slots⟩ := beside
    rcases beside.step addresses slots guard.1 does with rfl | ⟨e', same, version', b, taken, beside'⟩
    · exact .inl ⟨version, a, rfl, beside, slots⟩
    · have inside := slots_view.mp ((slots_view.mpr slots).step taken)
      exact .inr ⟨e', _, unseen _ _ _ _ _ same guard.2, taken, version', b, rfl, beside', inside⟩

theorem Deployment.addresses (d : Deployment ι κ) : Addresses d.address where
  injective := d.injective
  other i same := by
    have plain := d.plain i 'b'
    rw [same] at plain
    exact absurd (plain (by decide)) (by decide)

/-- Every run of the servers with the counters and flags as text in memcached is one of the model. The servers
are at the same places in it, with their numbers for the versions, and its counters and flags are what the
text under each key says. -/
theorem stored_refines [Nonempty ι] (d : Deployment ι κ) (unseen : Unseen ok)
    (h : (storedSystem d.nodes d.address).Reachable (StoredRun ok) x) :
    ∃ version a, (system d.nodes).Reachable ok (view version a x.servers) ∧ ∀ slot < barrierIdMax,
      (∃ cas, version cas = a.optCas slot ∧
        x.memcached.items (barrierKey optCountName slot) = some ⟨printInt (a.optCount slot), cas⟩) ∧
      ∀ i, ∃ cas, x.memcached.items (barrierKey (d.address i) slot) = some ⟨flagText (a.nodeKey i slot), cas⟩ := by
  obtain ⟨b, reach, version, a, rfl, beside, -⟩ := (stored_simulates d.addresses unseen).reachable h
  exact ⟨version, a, reach, fun slot inside => ⟨beside.holds.count slot inside, fun i => beside.holds.flag i slot inside⟩⟩

theorem exists_zeros {keys : List CString} (barrier : ∀ key ∈ keys, ∃ name slot, key = barrierKey name slot) (m : Memcached) :
    ∃ m', setZeros m keys = some m' := by
  induction keys generalizing m with
  | nil => exact ⟨m, rfl⟩
  | cons key keys ih =>
      obtain ⟨name, slot, rfl⟩ := barrier key List.mem_cons_self
      have harmless : Harmless none := by simp [Harmless]
      obtain ⟨ret, put, -⟩ := memcPut_barrierKey harmless m name slot ['0']
      rw [setZeros, List.foldlM_cons, put]
      exact ih (fun key member => barrier key (List.mem_cons_of_mem _ member)) _

theorem storedStep_getOptc {i : ι} {ok : Bool} {c : κ} {slot : Nat} {n : Int} {cell : Cell CString}
    (pc : x.servers.commit i = .getOptc c slot n) (item : x.memcached.items (barrierKey optCountName slot) = some cell) :
    storedStep cfg address x (.commit i ok, none) = some (x.setCommit i (.casOptc c slot n (atoi cell.value) cell.cas)) := by
  have found : answered x.memcached none (barrierKey optCountName slot) = some cell := (if_pos rfl).trans item
  simp only [storedStep, storedCommitStep, pc, memcGetCas_barrierKey, found]
  rfl

theorem storedStep_casOptc {i : ι} {ok : Bool} {c : κ} {slot cas : Nat} {n v : Int} {val : CString}
    (pc : x.servers.commit i = .casOptc c slot n v cas)
    (item : x.memcached.items (barrierKey optCountName slot) = some ⟨val, cas⟩) :
    storedStep cfg address x (.commit i ok, none) = some
      ⟨(x.setCommit i (.reach c slot)).servers, x.memcached.write (barrierKey optCountName slot) (printInt (v + n))⟩ := by
  have harmless : Harmless none := by simp [Harmless]
  obtain ⟨ret, answer, success⟩ := memcCas_barrierKey harmless item (printInt (v + n)) cas
  rw [if_pos ⟨rfl, rfl⟩] at answer
  have zero : ret = 0 := success.mpr ⟨rfl, rfl⟩
  simp only [storedStep, storedCommitStep, pc, answer, zero]
  rfl

def oneServer : Deployment Unit Unit where
  nodes := oneClient
  address _ := ['1']
  injective _ _ _ := rfl
  nonempty _ := by decide
  short _ := by decide
  plain _ := by simp [ClusterConfig.addressChar]
  config := ⟨[.address ['1'] (by decide) (by decide) (by simp [ClusterConfig.addressChar])], none⟩
  lists := rfl
  more _ := none

theorem stored_refines_counted : ∃ x, (storedSystem oneClient fun _ => ['1']).Reachable (StoredRun (Protocol oneClient)) x ∧
    (x.memcached.items (barrierKey optCountName 0)).map Cell.value = some ['1'] ∧
    ∃ version a, (system oneClient).Reachable (Protocol oneClient) (view version a x.servers) ∧ a.optCount 0 = 1 := by
  have starts : ∃ m, setZeros Store.empty (startKeys ['1']) = some m := exists_zeros startKeys_barrier _
  obtain ⟨m, zeros⟩ := starts
  have numbered : (Store.empty : Memcached).Numbered := by
    intro key cell item
    cases item
  have harmless : Harmless none := by simp [Harmless]
  have start : StoredInitial (fun _ => ['1']) (⟨initialState, m⟩ : Stored Unit Unit) := by
    refine ⟨rfl, Store.empty, [()], numbered, fun _ => List.mem_singleton.mpr rfl, ?_⟩
    rwa [List.flatMap_singleton]
  obtain ⟨cas, -, item⟩ := (beside_initial start).holds.count 0 (by decide)
  let sends : State Unit Unit := paconBarrier oneClient initialState ()
  let holds : State Unit Unit := { sends with commit := update sends.commit () (.hold () (.barrier (barrierPayload 1 1))) }
  have sent : StoredRun (Protocol oneClient) ⟨initialState, m⟩ (.barrier (), none) := ⟨harmless, .inl rfl⟩
  have served (x : Stored Unit Unit) : StoredRun (Protocol oneClient) x (.commit () true, none) := ⟨harmless, trivial⟩
  have received : StoredRun (Protocol oneClient) ⟨sends, m⟩ (.receive (), none) := ⟨harmless, trivial⟩
  have begins : (storedSystem oneClient fun _ => ['1']).Reachable (StoredRun (Protocol oneClient)) ⟨initialState, m⟩ :=
    .initial start
  have reach : (storedSystem oneClient fun _ => ['1']).Reachable (StoredRun (Protocol oneClient)) ⟨holds, m⟩ :=
    (begins.next sent rfl).next received rfl
  obtain ⟨x, counts, pc, memory⟩ : ∃ x, (storedSystem oneClient fun _ => ['1']).Reachable (StoredRun (Protocol oneClient)) x ∧
      x.servers.commit () = .getOptc () 0 1 ∧ x.memcached = m :=
    ⟨(⟨holds, m⟩ : Stored Unit Unit).setCommit () (.getOptc () 0 1), reach.next (served _) rfl, rfl, rfl⟩
  subst memory
  have reads : storedStep oneClient (fun _ => ['1']) x (.commit () true, none) =
      some (x.setCommit () (.casOptc () 0 1 0 cas)) := storedStep_getOptc pc item
  have swaps : (x.setCommit () (.casOptc () 0 1 0 cas)).servers.commit () = .casOptc () 0 1 0 cas := by
    simp [Stored.setCommit]
  have writes : storedStep oneClient (fun _ => ['1']) (x.setCommit () (.casOptc () 0 1 0 cas)) (.commit () true, none) =
      some _ := storedStep_casOptc swaps item
  have reach := (counts.next (served _) reads).next (served _) writes
  obtain ⟨version, a, runs, holds⟩ := stored_refines oneServer unseen_protocol reach
  refine ⟨_, reach, by rw [Store.items_write_self]; rfl, version, a, runs, ?_⟩
  obtain ⟨cas', -, item'⟩ := (holds 0 (by decide)).1
  rw [Store.items_write_self, Option.some.injEq, Cell.mk.injEq] at item'
  have value := congrArg atoi item'.1
  rw [atoi_printInt, atoi_printInt] at value
  exact value.symm

end
end Pacon.Barrier
