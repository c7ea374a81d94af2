import Pacon.Lib.Drain
import Pacon.Barrier.RpcThread
import Pacon.Barrier.Waiting

/-!
# The servers wait for clients only

Where the clients of a node keep in step and every round declares an operation, the threads of the
servers never wait for each other: once none can go on, each request left waits for a client that
has yet to call that barrier, and each message for an operation that a client has yet to request.
-/

set_option linter.unusedSectionVars false

namespace Pacon.Barrier
open Function Lib

section General
variable {ι κ : Type} [DecidableEq ι] [DecidableEq κ] [Fintype κ] (cfg : Config ι κ)

/-- The steps of the servers while memcached answers. -/
def Serves (_ : State ι κ) : Event ι κ → Prop
  | .receive _ | .take _ _ | .cluster _ _ => True
  | .commit _ ok | .rpc _ ok => ok = true
  | .send _ | .barrier _ | .request _ _ | .flush _ => False

def CommitPc.storesKey : CommitPc κ → Bool
  | .setKey _ _ => true
  | .recv | .hold _ _ | .getOptc _ _ _ | .casOptc _ _ _ _ _ | .reach _ _ | .reachBarrier _ => false

def KeyStored (s : State ι κ) : Event ι κ → Prop
  | .commit i ok => (s.commit i).storesKey = true → ok = true
  | _ => True

def SteadyRun (s : State ι κ) (e : Event ι κ) : Prop := InStepRun cfg s e ∧ KeyStored s e

def KeyKept (s : State ι κ) : Prop :=
  ∀ i slot, Reached cfg s i slot →
    s.nodeKey i slot = true ∨ (∃ c, s.commit i = .setKey c slot) ∨ slot ∈ s.released i

def Undefined (s : State ι κ) : Prop :=
  ∀ i r, s.rpc i = .undefined r → ∃ garbage, optBarrierId r garbage = none

def RpcPc.Blocked (s : State ι κ) (i : ι) : RpcPc ι κ → Prop
  | .recv | .undefined _ => True
  | .waitBarrier _ slot => s.barrier i slot = false
  | .waitNodes _ slot (j :: _) => s.nodeKey j slot = false
  | .waitNodes _ _ [] | .opt _ _ | .getOptc _ _ | .casOptc _ _ _ _ | .clear _ _ | .reset _ _
  | .broadcast _ _ _ | .advance _ _ | .reply _ => False

variable {cfg}

theorem KeyKept.commit {s t : State ι κ} {i : ι} {pc : CommitPc κ} (inv : KeyKept cfg s)
    (plain : (s.commit i).storesKey = false) (counted : t.counted = s.counted)
    (key : t.nodeKey = s.nodeKey) (released : t.released = s.released)
    (commit : t.commit = update s.commit i pc) : KeyKept cfg t := by
  intro j slot reached
  rw [key, released, commit]
  rcases inv j slot (reached.mono fun c => by rw [counted]) with set | ⟨c, setting⟩ | gone
  · exact .inl set
  · have other : j ≠ i := by
      rintro rfl
      rw [setting] at plain
      cases plain
    exact .inr (.inl ⟨c, by rw [update_of_ne other, setting]⟩)
  · exact .inr (.inr gone)

theorem KeyKept.count {s t : State ι κ} {i : ι} {c : κ} {pc : CommitPc κ} (inv : KeyKept cfg s)
    (before : Flags cfg s) (after : Flags cfg t) (at' : s.commit i = .reach c (s.counted c))
    (info : t.barrierInfo = set₂ s.barrierInfo i (s.counted c) (s.barrierInfo i (s.counted c) + 1))
    (key : t.nodeKey = s.nodeKey) (released : t.released = s.released)
    (commit : t.commit = update s.commit i pc)
    (last : Reached cfg t i (s.counted c) → pc = .setKey c (s.counted c)) : KeyKept cfg t := by
  intro j slot reached
  rw [key, released, commit]
  by_cases here : j = i ∧ slot = s.counted c
  · obtain ⟨rfl, rfl⟩ := here
    exact .inr (.inl ⟨c, by rw [update_self, last reached]⟩)
  · obtain ⟨d, home⟩ := reached.1
    have same : t.barrierInfo j slot = s.barrierInfo j slot := by
      rw [info]
      exact set₂_of_ne fun eq eq' => here ⟨eq, eq'⟩
    have old : Reached cfg s j slot := by
      rw [Flags.reached_iff before.info home, ← same, ← Flags.reached_iff after.info home]
      exact reached
    rcases inv j slot old with set | ⟨c', setting⟩ | gone
    · exact .inl set
    · have other : j ≠ i := by
        rintro rfl
        rw [at'] at setting
        cases setting
      exact .inr (.inl ⟨c', by rw [update_of_ne other, setting]⟩)
    · exact .inr (.inr gone)

theorem KeyKept.frame {s t : State ι κ} (inv : KeyKept cfg s) (counted : t.counted = s.counted)
    (key : t.nodeKey = s.nodeKey) (commit : t.commit = s.commit)
    (released : ∀ i, ∀ slot ∈ s.released i, slot ∈ t.released i) : KeyKept cfg t := by
  intro i slot reached
  rw [key, commit]
  rcases inv i slot (reached.mono fun c => by rw [counted]) with set | setting | gone
  · exact .inl set
  · exact .inr (.inl setting)
  · exact .inr (.inr (released i slot gone))

theorem mem_released_update {f : ι → List Nat} {i : ι} {slot : Nat} (j : ι) :
    ∀ slot' ∈ f j, slot' ∈ update f i (f i ++ [slot]) j := by
  intro slot' member
  by_cases same : j = i
  · subst same
    rw [update_self]
    exact List.mem_append_left _ member
  · rwa [update_of_ne same]

theorem KeyKept.move {s t : State ι κ} {e : Event ι κ} (inv : KeyKept cfg s) (orderly : Orderly cfg s)
    (after : Flags cfg t) (stored : KeyStored s e) (move : Move cfg s e t) : KeyKept cfg t := by
  have flags := orderly.sound.flags
  cases move with
  | receive pc => exact inv.commit (by rw [pc]; rfl) rfl rfl rfl rfl
  | commitOp pc => exact inv.commit (by rw [pc]; rfl) rfl rfl rfl rfl
  | commitFlushdir pc => exact inv.commit (by rw [pc]; rfl) rfl rfl rfl rfl
  | declare pc => exact inv.commit (by rw [pc]; rfl) rfl rfl rfl rfl
  | declareNone pc => exact inv.commit (by rw [pc]; rfl) rfl rfl rfl rfl
  | getOptc pc => exact inv.commit (by rw [pc]; rfl) rfl rfl rfl rfl
  | casOptc pc => exact inv.commit (by rw [pc]; rfl) rfl rfl rfl rfl
  | casOptcFail pc => exact inv.commit (by rw [pc]; rfl) rfl rfl rfl rfl
  | leaveReachBarrier pc => exact inv.commit (by rw [pc]; rfl) rfl rfl rfl rfl
  | @count i ok c slot pc more =>
      obtain ⟨home, rfl⟩ := orderly.sound.queues.slot_at_reach pc
      refine inv.count flags after pc rfl rfl rfl rfl fun reached => ?_
      rw [Flags.reached_iff after.info home] at reached
      exact absurd ((set₂_self ..).symm.trans reached) more
  | @countLast i ok c slot pc last =>
      obtain ⟨home, rfl⟩ := orderly.sound.queues.slot_at_reach pc
      exact inv.count flags after pc rfl rfl rfl rfl fun _ => rfl
  | @setKey i c slot pc =>
      intro j slot' reached
      by_cases here : j = i ∧ slot' = slot
      · obtain ⟨rfl, rfl⟩ := here
        exact .inl (set₂_self ..)
      · rcases inv j slot' reached with set | ⟨c', setting⟩ | gone
        · exact .inl ((set₂_of_ne fun eq eq' => here ⟨eq, eq'⟩).trans set)
        · have other : j ≠ i := by
            rintro rfl
            rw [pc] at setting
            cases setting
            exact here ⟨rfl, rfl⟩
          exact .inr (.inl ⟨c', (update_of_ne other ..).trans setting⟩)
        · exact .inr (.inr gone)
  | @setKeyFail i c slot pc => cases stored (by rw [pc]; rfl)
  | @reset i r slot pc =>
      intro j slot' reached
      by_cases here : j = i ∧ slot' = slot
      · obtain ⟨rfl, rfl⟩ := here
        obtain ⟨-, releasing⟩ := orderly.release.releaser (a := j)
          (show (s.rpc j).releasing = some slot' by rw [pc]; rfl)
        have progress := releasing.progress
        rw [pc] at progress
        have released : s.released j = List.range (slot' + 1) := progress.1.1
        exact .inr (.inr (by simp [released]))
      · rcases inv j slot' reached with set | setting | gone
        · exact .inl ((set₂_of_ne fun eq eq' => here ⟨eq, eq'⟩).trans set)
        · exact .inr (.inl setting)
        · exact .inr (.inr gone)
  | clear => exact inv.frame rfl rfl rfl mem_released_update
  | delClear => exact inv.frame rfl rfl rfl mem_released_update
  | _ => exact inv.frame rfl rfl rfl fun _ _ member => member

theorem Undefined.move {s t : State ι κ} {e : Event ι κ} (inv : Undefined s) (move : Move cfg s e t) :
    Undefined t := by
  have goOn {i : ι} {pc : RpcPc ι κ} (rpc : t.rpc = update s.rpc i pc)
      (new : ∀ r, pc = .undefined r → ∃ garbage, optBarrierId r garbage = none) : Undefined t := by
    intro j r at'
    rw [rpc] at at'
    by_cases same : j = i
    · subst same
      rw [update_self] at at'
      exact new r at'
    · rw [update_of_ne same] at at'
      exact inv j r at'
  cases move with
  | @takeUndefined c garbage r sent pc id =>
      refine goOn rfl ?_
      rintro r' ⟨⟩
      exact ⟨garbage, id⟩
  | take => exact goOn rfl nofun
  | waitBarrier => exact goOn rfl nofun
  | waitNode => exact goOn rfl nofun
  | begun => exact goOn rfl nofun
  | opt => exact goOn rfl nofun
  | endGetOptc => exact goOn rfl nofun
  | @decrement i ok r slot v cas =>
      refine goOn rfl ?_
      intro r'
      split <;> exact nofun
  | decrementFail => exact goOn rfl nofun
  | clear => exact goOn rfl nofun
  | reset => exact goOn rfl nofun
  | broadcasted => exact goOn rfl nofun
  | advance => exact goOn rfl nofun
  | reply => exact goOn rfl nofun
  | delAdvance => exact goOn rfl nofun
  | _ => exact inv

structure Steady (cfg : Config ι κ) (s : State ι κ) : Prop where
  orderly : Orderly cfg s
  accounts : Accounts cfg s
  ordered : Ordered cfg s
  keys : KeyKept cfg s
  undefined : Undefined s

theorem steady_of_reachable [Nonempty ι] {ok : State ι κ → Event ι κ → Prop}
    (steady : ∀ s e, ok s e → SteadyRun cfg s e) (digits : ∀ c k, cfg.optNum c k ≤ 9) {s : State ι κ}
    (h : (system cfg).Reachable ok s) : Steady cfg s := by
  have orderly {s} (h : (system cfg).Reachable ok s) : Orderly cfg s :=
    orderly_of_reachable (fun s e guard => (steady s e guard).1.1.2) digits h
  have accounts {s} (h : (system cfg).Reachable ok s) : Accounts cfg s :=
    accounts_of_reachable (fun s e guard => (steady s e guard).1.1) digits h
  apply h.invariant
  · rintro s rfl
    refine ⟨orderly (.initial rfl), accounts (.initial rfl), ?_, ?_, ?_⟩
    · intro c r k waits
      simp [initialState] at waits
    · rintro i slot ⟨⟨c, home⟩, all⟩
      exact absurd (all c home) (Nat.not_lt_zero _)
    · intro i r at'
      cases at'
  · intro s e t reach inv guard step
    have move := move_of_step step
    have after := orderly (.next reach guard step)
    obtain ⟨⟨⟨-, withId⟩, inStep⟩, stored⟩ := steady s e guard
    exact ⟨after, accounts (.next reach guard step),
      inv.ordered.move inv.accounts (accounts (.next reach guard step)) inStep withId move,
      inv.keys.move inv.orderly after.sound.flags stored move, inv.undefined.move move⟩
theorem Steady.sender {s : State ι κ} (steady : Steady cfg s) {a i : ι} {r : Request κ} {slot : Nat} {rest : List ι}
    (pc : s.rpc a = .broadcast r slot (i :: rest)) : s.cluster i = none ∨ s.cluster i = some a := by
  obtain ⟨-, releasing⟩ := steady.orderly.release.releaser (a := a)
    (show (s.rpc a).releasing = some slot by rw [pc]; rfl)
  have progress := releasing.progress
  rw [pc] at progress
  obtain ⟨-, -, -, -, -, left⟩ := progress
  rcases left i List.mem_cons_self with ⟨free, -⟩ | ⟨busy, -⟩
  · exact .inl free
  · exact .inr busy

theorem settled_rpc {s : State ι κ} (steady : Steady cfg s) (settled : (system cfg).Settled Serves s) (i : ι) :
    (s.rpc i).Blocked s i := by
  have halts : rpcStep cfg s i true = none := settled.step_eq_none (e := .rpc i true) rfl
  cases pc : s.rpc i with
  | recv => trivial
  | undefined r => trivial
  | waitBarrier r slot => simpa [rpcStep, pc, RpcPc.Blocked] using halts
  | waitNodes r slot rest =>
      cases rest with
      | nil => simp [rpcStep, pc] at halts
      | cons j rest => simpa [rpcStep, pc, RpcPc.Blocked] using halts
  | casOptc r slot v cas =>
      simp only [rpcStep, pc] at halts
      split at halts <;> cases halts
  | broadcast r slot rest =>
      cases rest with
      | nil => simp [rpcStep, pc] at halts
      | cons j rest =>
          have halts : clusterStep s j i = none := settled.step_eq_none (e := .cluster j i) trivial
          rcases steady.sender pc with free | busy
          · simp [clusterStep, pc, free] at halts
          · simp [clusterStep, pc, busy] at halts
  | opt r slot => simp [rpcStep, pc] at halts
  | getOptc r slot => simp [rpcStep, pc] at halts
  | clear r slot => simp [rpcStep, pc] at halts
  | reset r slot => simp [rpcStep, pc] at halts
  | advance r slot => simp [rpcStep, pc] at halts
  | reply r => simp [rpcStep, pc] at halts

theorem dispatch_isSome {s : State ι κ} (queues : Queues cfg s) (digits : ∀ c k, cfg.optNum c k ≤ 9) {i : ι}
    {c : κ} {m : Msg} (pc : s.commit i = .hold c m) : (dispatch s i c m).isSome = true := by
  have hold := queues.working i
  rw [pc] at hold
  cases m with
  | barrier path =>
      obtain ⟨-, bound, rfl⟩ := queues.path_in_hand hold.2
      simp [dispatch, barrierIndex_payload (digits _ _) (Nat.lt_of_lt_pred bound)]
  | op => rfl
  | flushdir => rfl

theorem settled_commit {s : State ι κ} (steady : Steady cfg s) (digits : ∀ c k, cfg.optNum c k ≤ 9)
    (settled : (system cfg).Settled Serves s) {c : κ} (left : s.committed c < (s.mq c).length) :
    s.barrier (cfg.home c) (s.waitingBarrierId (cfg.home c)) = true := by
  have halts : commitStep cfg s (cfg.home c) true = none :=
    settled.step_eq_none (e := .commit (cfg.home c) true) rfl
  cases pc : s.commit (cfg.home c) with
  | recv =>
      have idle : step cfg s (.receive c) = none := settled.step_eq_none (e := .receive c) trivial
      simp [step, pc, List.getElem?_eq_getElem left] at idle
  | hold d m =>
      by_contra clear
      have some' := dispatch_isSome steady.orderly.sound.queues digits pc
      simp only [commitStep, pc, if_neg clear] at halts
      rw [halts] at some'
      cases some'
  | casOptc d slot n v cas =>
      simp only [commitStep, pc] at halts
      split at halts <;> cases halts
  | reachBarrier d => exact absurd pc (never_reachBarrier steady.orderly _ d)
  | getOptc d slot n => simp [commitStep, pc] at halts
  | reach d slot => simp [commitStep, pc] at halts
  | setKey d slot => simp [commitStep, pc] at halts

theorem not_underWay {s : State ι κ} (steady : Steady cfg s) (settled : (system cfg).Settled Serves s) {i : ι}
    {slot : Nat} : ¬UnderWay s i slot := by
  intro underWay
  have blocked {a : ι} {pc : RpcPc ι κ} (at' : s.rpc a = pc) : pc.Blocked s a := at' ▸ settled_rpc steady settled a
  cases underWay with
  | clear pc => exact blocked pc
  | reset pc => exact blocked pc
  | broadcast pc => exact blocked pc

theorem settled_executed {s : State ι κ} (steady : Steady cfg s) (settled : (system cfg).Settled Serves s) (c : κ)
    (slot : Nat) : s.decremented c slot = s.executed c slot := by
  have same : outstanding cfg RpcPc.beforeDecrement s c = outstanding cfg RpcPc.beforeOpt s c := by
    have blocked := settled_rpc steady settled (cfg.home c)
    unfold outstanding
    cases s.call c with
    | received r =>
        cases pc : s.rpc (cfg.home c) with
        | getOptc r slot =>
            rw [pc] at blocked
            exact blocked.elim
        | casOptc r slot v cas =>
            rw [pc] at blocked
            exact blocked.elim
        | _ => rfl
    | _ => rfl
  have executed := steady.accounts.executed c slot
  have decremented := steady.accounts.decremented c slot
  rw [same] at decremented
  omega

theorem settled_message {s : State ι κ} (steady : Steady cfg s) (digits : ∀ c k, cfg.optNum c k ≤ 9)
    (declared : ∀ k, 1 ≤ k → 0 < ∑ c, cfg.optNum c k) (settled : (system cfg).Settled Serves s) {c : κ}
    (left : s.committed c < (s.mq c).length) :
    ∃ slot, Reached cfg s (cfg.home c) slot ∧ ∃ c', s.executed c' slot < cfg.optNum c' (slot + 1) := by
  have set := settled_commit steady digits settled left
  refine ⟨s.waitingBarrierId (cfg.home c), steady.orderly.sound.flags.flag _ _ set, ?_⟩
  obtain ⟨n, -, standing⟩ := steady.orderly.release.standing (cfg.home c)
  have blocked := settled_rpc steady settled (cfg.home c)
  cases standing with
  | unstarted at' fresh =>
      rw [at'.2]
      have total := declared (n + 1) (by omega)
      obtain ⟨c', less⟩ := exists_below_share (f := fun c => s.decremented c n)
        (show _ < ∑ c, cfg.optNum c (n + 1) by unfold Started at fresh; omega)
      exact ⟨c', settled_executed steady settled c' n ▸ less⟩
  | underWay at' release => exact absurd release (not_underWay steady settled)
  | window at' started busy =>
      obtain ⟨round, -, idle | ⟨a, slot, -, releasing⟩⟩ := steady.orderly.release
      · exact absurd (idle.node _).1 busy
      · have release := releasing.at'
        have blocked' := settled_rpc steady settled a
        cases pc : s.rpc a <;> rw [pc] at release blocked' <;> first | exact blocked'.elim | cases release
  | own at' started releasing =>
      cases pc : s.rpc (cfg.home c) <;> rw [pc] at releasing blocked <;>
        first | exact blocked.elim | cases releasing

theorem RpcPc.Blocked.beforeOpt {s : State ι κ} {i : ι} {pc : RpcPc ι κ} (blocked : pc.Blocked s i) (busy : pc ≠ .recv) :
    pc.beforeOpt = true ∧ pc.beforeDecrement = true := by
  cases pc <;> first | exact absurd rfl busy | exact ⟨rfl, rfl⟩ | exact blocked.elim

theorem not_undefined {s : State ι κ} (steady : Steady cfg s) (inRange : ∀ c, s.currentBarrierId c < barrierIdMax)
    (i : ι) (r : Request κ) : s.rpc i ≠ .undefined r := by
  intro pc
  obtain ⟨garbage, undefined⟩ := steady.undefined i r pc
  have received := (steady.orderly.sound.serving.served i r (by rw [pc]; rfl)).2
  have started := steady.accounts.started r.client (by simp [received])
  have id := steady.orderly.sound.serving.id r.client r (.inr received)
  rw [if_pos (steady.orderly.withId.call r.client r (.inr received))] at id
  have range := inRange r.client
  obtain ⟨k, round⟩ : ∃ k, s.currentBarrierId r.client = k + 1 := ⟨_, (Nat.succ_pred_eq_of_pos started).symm⟩
  rw [round] at range id
  simp only [optBarrierId, id, Option.filter_eq_none_iff, Option.some.injEq, decide_eq_true_eq] at undefined
  exact undefined k rfl (by omega)

theorem settled_serves {s : State ι κ} (steady : Steady cfg s) (inRange : ∀ c, s.currentBarrierId c < barrierIdMax)
    (settled : (system cfg).Settled Serves s) {c : κ} (waits : s.call c ≠ .none) :
    ∃ r slot, (s.rpc (cfg.home c)).request = some r ∧ (s.rpc (cfg.home c)).slot = some slot ∧
      slot + 1 ≤ s.currentBarrierId c := by
  have blocked := settled_rpc steady settled (cfg.home c)
  have busy : s.rpc (cfg.home c) ≠ .recv := by
    intro idle
    cases call : s.call c with
    | none => exact waits call
    | sent r =>
        have halts : step cfg s (.take c 0) = none := settled.step_eq_none (e := .take c 0) trivial
        simp [step, takeStep, call, idle] at halts
    | received r =>
        have serves := steady.orderly.sound.serving.serving c r call
        rw [idle] at serves
        cases serves
  obtain ⟨r, slot, serves, at'⟩ : ∃ r slot, (s.rpc (cfg.home c)).request = some r ∧
      (s.rpc (cfg.home c)).slot = some slot := by
    cases pc : s.rpc (cfg.home c) with
    | recv => exact absurd pc busy
    | undefined r => exact absurd pc (not_undefined steady inRange _ r)
    | waitBarrier r slot => exact ⟨r, slot, rfl, rfl⟩
    | waitNodes r slot rest => exact ⟨r, slot, rfl, rfl⟩
    | _ =>
        rw [pc] at blocked
        exact blocked.elim
  refine ⟨r, slot, serves, at', ?_⟩
  by_contra ahead
  obtain ⟨home, round⟩ := round_of_served steady.orderly.sound steady.orderly.withId serves at'
  have received := (steady.orderly.sound.serving.served _ r serves).2
  have id := steady.orderly.sound.serving.id r.client r (.inr received)
  rw [if_pos (steady.orderly.withId.call r.client r (.inr received)), round] at id
  have started := steady.accounts.started c waits
  obtain ⟨k, at_k⟩ : ∃ k, s.currentBarrierId c = k + 1 := ⟨_, (Nat.succ_pred_eq_of_pos started).symm⟩
  have all := steady.ordered r.client r (slot + 1) (.inr received) id c k home.symm (by omega)
  have owes : outstanding cfg RpcPc.beforeOpt s c = 1 := by
    unfold outstanding
    cases call : s.call c with
    | none => exact absurd call waits
    | sent r => rfl
    | received r => exact if_pos (blocked.beforeOpt busy).1
  have account := steady.accounts.executed c k
  have issued := steady.accounts.issued c
  rw [if_pos at_k.symm, owes, due_current at_k.symm] at account
  rw [at_k] at issued
  omega

theorem not_released_of_served {s : State ι κ} (steady : Steady cfg s) {i j : ι} {r : Request κ} {slot : Nat}
    (serves : (s.rpc i).request = some r) (at' : (s.rpc i).slot = some slot)
    (owes : (s.rpc i).beforeDecrement = true) : slot ∉ s.released j := by
  intro gone
  obtain ⟨home, round⟩ := round_of_served steady.orderly.sound steady.orderly.withId serves at'
  have started := (steady.orderly.release.started_of_released gone).2
  have all := eq_share_of_total_le (fun c => (steady.accounts.decremented_le_executed c slot).trans
    (steady.accounts.executed_le c slot)) started r.client
  have received := (steady.orderly.sound.serving.served _ r serves).2
  have account := steady.accounts.decremented r.client slot
  have issued := steady.accounts.issued r.client
  have one : outstanding cfg RpcPc.beforeDecrement s r.client = 1 := by
    simp [outstanding, received, home, owes]
  rw [if_pos round.symm, one, due_current round.symm] at account
  rw [round] at issued
  omega

theorem settled_counted {s : State ι κ} (steady : Steady cfg s) (digits : ∀ c k, cfg.optNum c k ≤ 9)
    (declared : ∀ k, 1 ≤ k → 0 < ∑ c, cfg.optNum c k) (settled : (system cfg).Settled Serves s) {slot : Nat}
    (range : slot + 1 < barrierIdMax) (passes : ∀ c, slot + 1 ≤ s.currentBarrierId c) (d : κ) : slot < s.counted d := by
  by_contra few
  have sent : slot < (barrierPaths (s.mq d)).length := by
    rw [steady.orderly.sound.queues.paths d, List.length_map, List.length_range, lt_min_iff]
    have later := passes d
    omega
  have left : s.committed d < (s.mq d).length := by
    by_contra all
    have passed : passed s d = (barrierPaths (s.mq d)).length := by
      rw [passed, List.take_of_length_le (Nat.not_lt.mp all)]
    have count := steady.orderly.sound.queues.counted d
    omega
  obtain ⟨earlier, reached, c', owed⟩ := settled_message steady digits declared settled left
  have before := reached.2 d rfl
  have later := passes c'
  have account := steady.accounts.executed c' earlier
  rw [if_neg (by omega), due_earlier (by omega)] at account
  omega

theorem not_settled_of_reached {s : State ι κ} (steady : Steady cfg s) (settled : (system cfg).Settled Serves s) {i : ι}
    {slot : Nat} (at' : (s.rpc i).slot = some slot) (reached : ∀ j, Reached cfg s j slot)
    (unreleased : ∀ j, slot ∉ s.released j) : False := by
  have blocked := settled_rpc steady settled i
  cases pc : s.rpc i with
  | waitBarrier r' slot' =>
      rw [pc] at blocked at'
      cases at'
      rcases steady.orderly.sound.flags.kept _ _ (reached i) with set | gone
      · rw [blocked] at set
        cases set
      · exact unreleased _ gone
  | waitNodes r' slot' rest =>
      rw [pc] at blocked at'
      cases at'
      cases rest with
      | nil => exact blocked
      | cons j rest =>
          rcases steady.keys j slot (reached j) with set | ⟨d, setting⟩ | gone
          · rw [blocked] at set
            cases set
          · have halts : commitStep cfg s j true = Option.none :=
              settled.step_eq_none (e := .commit j true) rfl
            simp [commitStep, setting] at halts
          · exact unreleased _ gone
  | _ =>
      rw [pc] at blocked at'
      first | exact blocked | cases at'

/-- A client whose round no other is behind has its requests answered, and every message left waits for
an operation that some client has declared for a round that the sender has reached. -/
theorem servers_wait_for_clients (digits : ∀ c k, cfg.optNum c k ≤ 9)
    (declared : ∀ k, 1 ≤ k → 0 < ∑ c, cfg.optNum c k) (clients : ∀ i, ∃ c, cfg.home c = i) {s : State ι κ}
    (h : (system cfg).Reachable (SteadyRun cfg) s) (inRange : ∀ c, s.currentBarrierId c < barrierIdMax)
    (settled : (system cfg).Settled Serves s) :
    (∀ c, s.call c ≠ .none → ∃ c', s.currentBarrierId c' < s.currentBarrierId c) ∧
    ∀ c, s.committed c < (s.mq c).length → ∃ slot < s.currentBarrierId c,
      ∃ c', s.executed c' slot < cfg.optNum c' (slot + 1) := by
  have steady (i : ι) : Steady cfg s :=
    have : Nonempty ι := ⟨i⟩
    steady_of_reachable (fun _ _ => id) digits h
  constructor
  · intro c waits
    have steady := steady (cfg.home c)
    by_contra none
    simp only [not_exists, not_lt] at none
    obtain ⟨r, slot, serves, at', behind⟩ := settled_serves steady inRange settled waits
    obtain ⟨home, round⟩ := round_of_served steady.orderly.sound steady.orderly.withId serves at'
    have first := none r.client
    have same : slot + 1 = s.currentBarrierId c := by omega
    have blocked := settled_rpc steady settled (cfg.home c)
    have busy : s.rpc (cfg.home c) ≠ .recv := by
      intro idle
      rw [idle] at serves
      cases serves
    have unreleased (j : ι) : slot ∉ s.released j :=
      not_released_of_served steady serves at' (blocked.beforeOpt busy).2
    have counted := settled_counted steady digits declared settled (same ▸ inRange c) fun d => same ▸ none d
    exact not_settled_of_reached steady settled at' (fun j => ⟨clients j, fun d _ => counted d⟩) unreleased
  · intro c left
    obtain ⟨slot, reached, owed⟩ := settled_message (steady (cfg.home c)) digits declared settled left
    have counted := counted_le_round (steady (cfg.home c)).orderly.sound.queues c
    exact ⟨slot, (reached.2 c rfl).trans_le counted, owed⟩

instance (s : State ι κ) : (e : Event ι κ) → Decidable (Serves s e)
  | .receive _ | .take _ _ | .cluster _ _ => .isTrue trivial
  | .commit _ ok | .rpc _ ok => inferInstanceAs (Decidable (ok = true))
  | .send _ | .barrier _ | .request _ _ | .flush _ => .isFalse id

instance (s : State ι κ) : (e : Event ι κ) → Decidable (KeyStored s e)
  | .commit i ok => inferInstanceAs (Decidable ((s.commit i).storesKey = true → ok = true))
  | .send _ | .barrier _ | .request _ _ | .flush _ | .receive _ | .take _ _ | .rpc _ _
  | .cluster _ _ => .isTrue trivial

instance (s : State ι κ) (e : Event ι κ) : Decidable (SteadyRun cfg s e) :=
  inferInstanceAs (Decidable (_ ∧ _))

theorem takeStep_isNone (s : State ι κ) (c : κ) (garbage : Nat) :
    (takeStep cfg s c garbage).isNone = (takeStep cfg s c 0).isNone := by
  unfold takeStep
  cases s.call c with
  | sent r => cases s.rpc (cfg.home c) <;> rfl
  | _ => rfl

theorem settled_iff (s : State ι κ) : (system cfg).Settled Serves s ↔
    (∀ c, (step cfg s (.receive c)).isNone ∧ (takeStep cfg s c 0).isNone) ∧
    (∀ i, (commitStep cfg s i true).isNone ∧ (rpcStep cfg s i true).isNone) ∧
    ∀ i sender, (clusterStep s i sender).isNone := by
  simp only [Option.isNone_iff_eq_none]
  constructor
  · intro settled
    exact ⟨fun c => ⟨settled.step_eq_none (e := .receive c) trivial, settled.step_eq_none (e := .take c 0) trivial⟩,
      fun i => ⟨settled.step_eq_none (e := .commit i true) rfl, settled.step_eq_none (e := .rpc i true) rfl⟩,
      fun i sender => settled.step_eq_none (e := .cluster i sender) trivial⟩
  · rintro ⟨clients, servers, cluster⟩ e t serves step
    have halts : Barrier.step cfg s e = none := by
      cases e with
      | receive c => exact (clients c).1
      | take c garbage =>
          rw [← Option.isNone_iff_eq_none]
          exact (takeStep_isNone s c garbage).trans (Option.isNone_iff_eq_none.mpr (clients c).2)
      | commit i ok =>
          cases serves
          exact (servers i).1
      | rpc i ok =>
          cases serves
          exact (servers i).2
      | cluster i sender => exact cluster i sender
      | _ => exact serves.elim
    rw [show (system cfg).step s e = none from halts] at step
    cases step

instance [Fintype ι] (s : State ι κ) : Decidable ((system cfg).Settled Serves s) :=
  decidable_of_iff _ (settled_iff s).symm
end General

def aheadRequestRun : List (Event Unit Bool) := List.flatten
  [[.barrier false, .request false .rmdir, .receive false], List.replicate 4 (.commit () true), [.take false 0]]

theorem servers_wait_for_clients_ahead : ∃ s, (system twoClients).Reachable (SteadyRun twoClients) s ∧
    (system twoClients).Settled Serves s ∧ s.call false ≠ .none ∧
    ∃ c, s.currentBarrierId c < s.currentBarrierId false := by
  obtain ⟨s, reach, holds⟩ := System.exists_reachable (system twoClients) (SteadyRun twoClients)
    (s := initialState) rfl aheadRequestRun
    (fun s => (system twoClients).Settled Serves s ∧ s.call false ≠ .none ∧
      ∀ c, s.currentBarrierId c < barrierIdMax) rfl
  obtain ⟨settled, waits, inRange⟩ := of_decide_eq_true holds
  have declared : ∀ k, 1 ≤ k → 0 < ∑ c, twoClients.optNum c k := by simp [twoClients, Config.oneNode]
  exact ⟨s, reach, settled, waits, (servers_wait_for_clients (by simp [twoClients, Config.oneNode]) declared
    (fun _ => ⟨false, rfl⟩) reach inRange settled).1 false waits⟩

end Pacon.Barrier
