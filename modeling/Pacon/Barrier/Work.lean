import Pacon.Barrier.Progress

/-!
# Servers that come to rest

Between two steps of the clients the servers have a bounded number of steps to take, whatever order
their threads take them in. A thread loses a compare-and-swap only to one that has gone on.
-/

set_option linter.unusedSectionVars false

namespace Pacon.Barrier
open Function Lib

def stale (optCas : Nat → Nat) (slot cas : Nat) : Nat := if optCas slot = cas then 0 else 2

def CommitPc.work {κ : Type} (nodes : Nat) (optCas : Nat → Nat) : CommitPc κ → Nat
  | .recv => 4 * nodes + 6
  | .hold _ _ => 4 * nodes + 5
  | .getOptc _ _ _ => 4 * nodes + 4
  | .casOptc _ slot _ _ cas => 4 * nodes + 3 + stale optCas slot cas
  | .reach _ _ => 2
  | .setKey _ _ | .reachBarrier _ => 1

def RpcPc.work {ι κ : Type} (nodes : Nat) (optCas : Nat → Nat) : RpcPc ι κ → Nat
  | .recv | .undefined _ => 0
  | .waitBarrier _ _ => 7 * nodes + 10
  | .waitNodes _ _ rest => 6 * nodes + 9 + rest.length
  | .opt _ _ => 6 * nodes + 8
  | .getOptc _ _ => 6 * nodes + 7
  | .casOptc _ slot _ cas => 6 * nodes + 6 + stale optCas slot cas
  | .clear _ _ => 2 * nodes + 5
  | .reset _ _ => 2 * nodes + 4
  | .broadcast _ _ rest => 2 * rest.length + 3
  | .advance _ _ => 2
  | .reply _ => 1

def Call.work {κ : Type} (nodes : Nat) : Call κ → Nat
  | .sent _ => 7 * nodes + 11
  | .none | .received _ => 0

def clusterWork {ι : Type} : Option ι → Nat
  | none => 1
  | some _ => 0

theorem stale_le (optCas : Nat → Nat) (slot cas : Nat) : stale optCas slot cas ≤ 2 := by
  unfold stale
  split <;> omega

theorem CommitPc.work_le {κ : Type} (nodes : Nat) (optCas optCas' : Nat → Nat) (pc : CommitPc κ) :
    pc.work nodes optCas' ≤ pc.work nodes optCas + 2 := by
  cases pc with
  | casOptc c slot n v cas =>
      have := stale_le optCas' slot cas
      simp only [work]
      omega
  | _ => exact Nat.le_add_right _ _

theorem RpcPc.work_le {ι κ : Type} (nodes : Nat) (optCas optCas' : Nat → Nat) (pc : RpcPc ι κ) :
    pc.work nodes optCas' ≤ pc.work nodes optCas + 2 := by
  cases pc with
  | casOptc r slot v cas =>
      have := stale_le optCas' slot cas
      simp only [work]
      omega
  | _ => exact Nat.le_add_right _ _

section General
variable {ι κ : Type} [DecidableEq ι] [DecidableEq κ] [Fintype ι] [Fintype κ] {cfg : Config ι κ}

def mailWork (s : State ι κ) (c : κ) : Nat :=
  ((s.mq c).length - s.committed c) * (4 * Fintype.card ι + 7)

/-- A bound on the steps that the servers can take before the clients take another. -/
def work (s : State ι κ) : Nat :=
  ∑ c, mailWork s c + ∑ i, (s.commit i).work (Fintype.card ι) s.optCas +
    ∑ c, (s.call c).work (Fintype.card ι) + ∑ i, (s.rpc i).work (Fintype.card ι) s.optCas +
    ∑ i, clusterWork (s.cluster i)

def CommitPc.client : CommitPc κ → Option κ
  | .recv => none
  | .hold c _ | .getOptc c _ _ | .casOptc c _ _ _ _ | .reach c _ | .setKey c _ | .reachBarrier c => some c

def InHand (cfg : Config ι κ) (s : State ι κ) : Prop :=
  ∀ i c, (s.commit i).client = some c → cfg.home c = i ∧ s.committed c < (s.mq c).length

theorem InHand.frame {s t : State ι κ} (inv : InHand cfg s) (commit : t.commit = s.commit)
    (committed : t.committed = s.committed) (mq : ∀ c, (s.mq c).length ≤ (t.mq c).length) : InHand cfg t := by
  intro i c client
  rw [commit] at client
  obtain ⟨home, sent⟩ := inv i c client
  exact ⟨home, by rw [committed]; exact sent.trans_le (mq c)⟩

theorem InHand.goOn {s t : State ι κ} {i : ι} {pc : CommitPc κ} (inv : InHand cfg s)
    (commit : t.commit = update s.commit i pc) (committed : t.committed = s.committed) (mq : t.mq = s.mq)
    (new : ∀ c, pc.client = some c → cfg.home c = i ∧ s.committed c < (s.mq c).length) : InHand cfg t := by
  intro j c client
  rw [committed, mq]
  rw [commit] at client
  by_cases same : j = i
  · subst same
    rw [update_self] at client
    exact new c client
  · rw [update_of_ne same] at client
    exact inv j c client

theorem InHand.finish {s t : State ι κ} {i : ι} {c : κ} (inv : InHand cfg s)
    (client : (s.commit i).client = some c) (commit : t.commit = update s.commit i .recv)
    (committed : t.committed = update s.committed c (s.committed c + 1)) (mq : t.mq = s.mq) : InHand cfg t := by
  intro j d client'
  rw [commit] at client'
  by_cases same : j = i
  · rw [same, update_self] at client'
    cases client'
  · rw [update_of_ne same] at client'
    obtain ⟨home, sent⟩ := inv j d client'
    have other : d ≠ c := by
      rintro rfl
      exact same (home.symm.trans (inv i d client).1)
    rw [committed, mq, update_of_ne other]
    exact ⟨home, sent⟩

theorem length_le_append {s : State ι κ} {c : κ} {more : List Msg} (d : κ) :
    (s.mq d).length ≤ (update s.mq c (s.mq c ++ more) d).length := by
  by_cases same : d = c
  · rw [same, update_self, List.length_append]
    exact Nat.le_add_right _ _
  · rw [update_of_ne same]

theorem InHand.move {s t : State ι κ} {e : Event ι κ} (inv : InHand cfg s) (move : Move cfg s e t) :
    InHand cfg t := by
  have same {i : ι} {pc pc' : CommitPc κ} (at' : s.commit i = pc) (client : pc'.client = pc.client) :
      ∀ c, pc'.client = some c → cfg.home c = i ∧ s.committed c < (s.mq c).length := by
    intro c has
    exact inv i c (by rw [at', ← client, has])
  cases move with
  | send => exact inv.frame rfl rfl length_le_append
  | flush => exact inv.frame rfl rfl length_le_append
  | @barrier c =>
      refine inv.frame rfl rfl fun d => ?_
      simp only [paconBarrier]
      split
      · exact length_le_append d
      · exact Nat.le_refl _
  | receive pc head =>
      refine inv.goOn rfl rfl rfl ?_
      rintro d ⟨⟩
      exact ⟨rfl, (List.getElem?_eq_some_iff.mp head).1⟩
  | commitOp pc => exact inv.finish (by rw [pc]; rfl) rfl rfl rfl
  | commitFlushdir pc => exact inv.goOn rfl rfl rfl (same pc rfl)
  | declare pc => exact inv.goOn rfl rfl rfl (same pc rfl)
  | declareNone pc => exact inv.goOn rfl rfl rfl (same pc rfl)
  | getOptc pc => exact inv.goOn rfl rfl rfl (same pc rfl)
  | casOptc pc => exact inv.goOn rfl rfl rfl (same pc rfl)
  | casOptcFail pc => exact inv.goOn rfl rfl rfl (same pc rfl)
  | count pc => exact inv.finish (by rw [pc]; rfl) rfl rfl rfl
  | countLast pc => exact inv.goOn rfl rfl rfl (same pc rfl)
  | setKey pc => exact inv.finish (by rw [pc]; rfl) rfl rfl rfl
  | setKeyFail pc => exact inv.finish (by rw [pc]; rfl) rfl rfl rfl
  | leaveReachBarrier pc => exact inv.finish (by rw [pc]; rfl) rfl rfl rfl
  | _ => exact inv.frame rfl rfl fun _ => Nat.le_refl _

theorem work_commit {s t : State ι κ} {i : ι} {pc : CommitPc κ} (commit : t.commit = update s.commit i pc)
    (mq : t.mq = s.mq) (committed : t.committed = s.committed) (version : t.optCas = s.optCas)
    (call : t.call = s.call) (rpc : t.rpc = s.rpc) (cluster : t.cluster = s.cluster)
    (less : pc.work (Fintype.card ι) s.optCas < (s.commit i).work (Fintype.card ι) s.optCas) : work t < work s := by
  have change := sum_update s.commit (CommitPc.work (Fintype.card ι) s.optCas) i pc
  simp only [work, mailWork, commit, mq, committed, version, call, rpc, cluster]
  omega

theorem work_finish {s t : State ι κ} {i : ι} {c : κ} (inv : InHand cfg s)
    (client : (s.commit i).client = some c) (commit : t.commit = update s.commit i .recv) (mq : t.mq = s.mq)
    (committed : t.committed = update s.committed c (s.committed c + 1)) (version : t.optCas = s.optCas)
    (call : t.call = s.call) (rpc : t.rpc = s.rpc) (cluster : t.cluster = s.cluster) : work t < work s := by
  have sent := (inv i c client).2
  have commits := sum_update s.commit (CommitPc.work (Fintype.card ι) s.optCas) i .recv
  have mails := sum_change (f := mailWork s) (g := mailWork t) c fun d other => by
    simp only [mailWork, mq, committed, update_of_ne other]
  have mail : mailWork t c + (4 * Fintype.card ι + 7) = mailWork s c := by
    have one : (s.mq c).length - (s.committed c + 1) + 1 = (s.mq c).length - s.committed c := by omega
    simp only [mailWork, mq, committed, update_self]
    rw [← one, Nat.succ_mul ((s.mq c).length - (s.committed c + 1))]
  simp only [work, commit, version, call, rpc, cluster]
  simp only [CommitPc.work] at commits ⊢
  omega

theorem work_rpc {s t : State ι κ} {i : ι} {pc : RpcPc ι κ} (rpc : t.rpc = update s.rpc i pc)
    (mq : t.mq = s.mq) (committed : t.committed = s.committed) (version : t.optCas = s.optCas)
    (call : t.call = s.call) (commit : t.commit = s.commit) (cluster : t.cluster = s.cluster)
    (less : pc.work (Fintype.card ι) s.optCas < (s.rpc i).work (Fintype.card ι) s.optCas) : work t < work s := by
  have change := sum_update s.rpc (RpcPc.work (Fintype.card ι) s.optCas) i pc
  simp only [work, mailWork, commit, mq, committed, version, call, rpc, cluster]
  omega

theorem work_call {s t : State ι κ} {i : ι} {c : κ} {call' : Call κ} {pc : RpcPc ι κ}
    (call : t.call = update s.call c call') (rpc : t.rpc = update s.rpc i pc)
    (mq : t.mq = s.mq) (committed : t.committed = s.committed) (version : t.optCas = s.optCas)
    (commit : t.commit = s.commit) (cluster : t.cluster = s.cluster)
    (less : call'.work (Fintype.card ι) + pc.work (Fintype.card ι) s.optCas <
      (s.call c).work (Fintype.card ι) + (s.rpc i).work (Fintype.card ι) s.optCas) : work t < work s := by
  have calls := sum_update s.call (Call.work (Fintype.card ι)) c call'
  have rpcs := sum_update s.rpc (RpcPc.work (Fintype.card ι) s.optCas) i pc
  simp only [work, mailWork, commit, mq, committed, version, call, rpc, cluster]
  omega

theorem sum_commit_swap {s t : State ι κ} :
    ∑ i, (s.commit i).work (Fintype.card ι) t.optCas ≤
      ∑ i, (s.commit i).work (Fintype.card ι) s.optCas + 2 * Fintype.card ι :=
  Nat.mul_comm .. ▸ sum_le_of_raise fun i => (s.commit i).work_le ..

theorem sum_rpc_swap {s t : State ι κ} :
    ∑ i, (s.rpc i).work (Fintype.card ι) t.optCas ≤
      ∑ i, (s.rpc i).work (Fintype.card ι) s.optCas + 2 * Fintype.card ι :=
  Nat.mul_comm .. ▸ sum_le_of_raise fun i => (s.rpc i).work_le ..

theorem work_commit_swap {s t : State ι κ} {i : ι} {c : κ} {slot slot' cas : Nat} {n v : Int}
    (pc : s.commit i = .casOptc c slot n v cas) (commit : t.commit = update s.commit i (.reach c slot'))
    (mq : t.mq = s.mq) (committed : t.committed = s.committed) (call : t.call = s.call) (rpc : t.rpc = s.rpc)
    (cluster : t.cluster = s.cluster) : work t < work s := by
  have change := sum_update s.commit (CommitPc.work (Fintype.card ι) t.optCas) i (.reach c slot')
  have commits := sum_commit_swap (s := s) (t := t)
  have rpcs := sum_rpc_swap (s := s) (t := t)
  have before : 4 * Fintype.card ι + 3 ≤ (s.commit i).work (Fintype.card ι) t.optCas := by
    rw [pc]
    exact Nat.le_add_right _ _
  have after : (CommitPc.reach c slot').work (Fintype.card ι) t.optCas = 2 := rfl
  simp only [work, mailWork, commit, mq, committed, call, rpc, cluster]
  omega

theorem work_decrement {s t : State ι κ} {i : ι} {r : Request κ} {slot cas : Nat} {v : Int} {pc : RpcPc ι κ}
    (at' : s.rpc i = .casOptc r slot v cas) (rpc : t.rpc = update s.rpc i pc)
    (next : pc = .clear r slot ∨ pc = .reply r) (mq : t.mq = s.mq) (committed : t.committed = s.committed)
    (call : t.call = s.call) (commit : t.commit = s.commit) (cluster : t.cluster = s.cluster) :
    work t < work s := by
  have change := sum_update s.rpc (RpcPc.work (Fintype.card ι) t.optCas) i pc
  have commits := sum_commit_swap (s := s) (t := t)
  have rpcs := sum_rpc_swap (s := s) (t := t)
  have after : pc.work (Fintype.card ι) t.optCas ≤ 2 * Fintype.card ι + 5 := by
    rcases next with rfl | rfl <;> simp only [RpcPc.work] <;> omega
  have before : 6 * Fintype.card ι + 6 ≤ (s.rpc i).work (Fintype.card ι) t.optCas := by
    rw [at']
    exact Nat.le_add_right _ _
  simp only [work, mailWork, commit, mq, committed, call, rpc, cluster]
  omega

theorem work_cluster {s t : State ι κ} {i sender : ι} {pc : RpcPc ι κ} {mid : Option ι}
    (rpc : t.rpc = update s.rpc sender pc) (cluster : t.cluster = update s.cluster i mid)
    (mq : t.mq = s.mq) (committed : t.committed = s.committed) (version : t.optCas = s.optCas)
    (call : t.call = s.call) (commit : t.commit = s.commit)
    (less : clusterWork mid + pc.work (Fintype.card ι) s.optCas <
      clusterWork (s.cluster i) + (s.rpc sender).work (Fintype.card ι) s.optCas) : work t < work s := by
  have clusters := sum_update s.cluster clusterWork i mid
  have rpcs := sum_update s.rpc (RpcPc.work (Fintype.card ι) s.optCas) sender pc
  simp only [work, mailWork, commit, mq, committed, version, call, rpc, cluster]
  omega

theorem others_length (cfg : Config ι κ) (i : ι) : (others cfg i).length ≤ Fintype.card ι :=
  (cfg.nodup.filter _).length_le_card

theorem stale_of_commitFail {s : State ι κ} {i : ι} {c : κ} {slot cas : Nat} {n v : Int}
    (pc : s.commit i = .casOptc c slot n v cas)
    (fails : commitStep cfg s i true = some { s with commit := update s.commit i (.getOptc c slot n) }) :
    stale s.optCas slot cas = 2 := by
  refine if_neg fun current => ?_
  simp only [commitStep, pc, current, and_self, if_true, Option.some.injEq] at fails
  exact absurd (congrFun (congrArg State.commit fails) i) (by simp)

theorem stale_of_rpcFail {s : State ι κ} {i : ι} {r : Request κ} {slot cas : Nat} {v : Int}
    (pc : s.rpc i = .casOptc r slot v cas)
    (fails : rpcStep cfg s i true = some { s with rpc := update s.rpc i (.getOptc r slot) }) :
    stale s.optCas slot cas = 2 := by
  refine if_neg fun current => ?_
  simp only [rpcStep, pc, current, and_self, if_true, Option.some.injEq, decrement] at fails
  refine absurd (congrFun (congrArg State.rpc fails) i) ?_
  by_cases last : v - 1 = 0 <;> simp [last]

theorem Move.work_lt {s t : State ι κ} {e : Event ι κ} (inv : InHand cfg s) (serves : Serves s e)
    (does : step cfg s e = some t) (move : Move cfg s e t) : work t < work s := by
  cases move with
  | send => exact serves.elim
  | barrier => exact serves.elim
  | request => exact serves.elim
  | flush => exact serves.elim
  | receive pc => exact work_commit rfl rfl rfl rfl rfl rfl rfl (by rw [pc]; exact Nat.lt_succ_self _)
  | commitOp pc => exact work_finish inv (by rw [pc]; rfl) rfl rfl rfl rfl rfl rfl rfl
  | commitFlushdir pc => exact work_commit rfl rfl rfl rfl rfl rfl rfl (by rw [pc]; simp only [CommitPc.work]; omega)
  | declare pc => exact work_commit rfl rfl rfl rfl rfl rfl rfl (by rw [pc]; exact Nat.lt_succ_self _)
  | declareNone pc => exact work_commit rfl rfl rfl rfl rfl rfl rfl (by rw [pc]; simp only [CommitPc.work]; omega)
  | getOptc pc =>
      exact work_commit rfl rfl rfl rfl rfl rfl rfl (by rw [pc]; simp only [CommitPc.work, stale, if_true]; omega)
  | casOptc pc => exact work_commit_swap pc rfl rfl rfl rfl rfl rfl
  | casOptcFail pc =>
      cases serves
      have lost := stale_of_commitFail pc does
      exact work_commit rfl rfl rfl rfl rfl rfl rfl (by rw [pc]; simp only [CommitPc.work]; omega)
  | count pc => exact work_finish inv (by rw [pc]; rfl) rfl rfl rfl rfl rfl rfl rfl
  | countLast pc => exact work_commit rfl rfl rfl rfl rfl rfl rfl (by rw [pc]; exact Nat.lt_succ_self _)
  | setKey pc => exact work_finish inv (by rw [pc]; rfl) rfl rfl rfl rfl rfl rfl rfl
  | setKeyFail pc => exact work_finish inv (by rw [pc]; rfl) rfl rfl rfl rfl rfl rfl rfl
  | leaveReachBarrier pc => exact work_finish inv (by rw [pc]; rfl) rfl rfl rfl rfl rfl rfl rfl
  | take call pc =>
      refine work_call rfl rfl rfl rfl rfl rfl rfl ?_
      rw [call, pc]
      simp only [Call.work, RpcPc.work]
      omega
  | takeUndefined call pc =>
      refine work_call rfl rfl rfl rfl rfl rfl rfl ?_
      rw [call, pc]
      simp only [Call.work, RpcPc.work]
      omega
  | @waitBarrier i ok r slot pc =>
      have few := others_length cfg i
      exact work_rpc rfl rfl rfl rfl rfl rfl rfl (by rw [pc]; simp only [RpcPc.work]; omega)
  | waitNode pc =>
      exact work_rpc rfl rfl rfl rfl rfl rfl rfl
        (by rw [pc]; simp only [RpcPc.work, List.length_cons]; omega)
  | begun pc => exact work_rpc rfl rfl rfl rfl rfl rfl rfl (by rw [pc]; exact Nat.lt_succ_self _)
  | opt pc => exact work_rpc rfl rfl rfl rfl rfl rfl rfl (by rw [pc]; exact Nat.lt_succ_self _)
  | endGetOptc pc =>
      exact work_rpc rfl rfl rfl rfl rfl rfl rfl (by rw [pc]; simp only [RpcPc.work, stale, if_true]; omega)
  | decrement pc => exact work_decrement pc rfl (by split <;> simp) rfl rfl rfl rfl rfl
  | decrementFail pc =>
      cases serves
      have lost := stale_of_rpcFail pc does
      exact work_rpc rfl rfl rfl rfl rfl rfl rfl (by rw [pc]; simp only [RpcPc.work]; omega)
  | clear pc => exact work_rpc rfl rfl rfl rfl rfl rfl rfl (by rw [pc]; exact Nat.lt_succ_self _)
  | @reset i r slot pc =>
      have few := others_length cfg i
      exact work_rpc rfl rfl rfl rfl rfl rfl rfl (by rw [pc]; simp only [RpcPc.work]; omega)
  | broadcasted pc =>
      exact work_rpc rfl rfl rfl rfl rfl rfl rfl (by rw [pc]; simp only [RpcPc.work, List.length_nil]; omega)
  | advance pc => exact work_rpc rfl rfl rfl rfl rfl rfl rfl (by rw [pc]; exact Nat.lt_succ_self _)
  | @reply i ok r pc =>
      refine work_call rfl rfl rfl rfl rfl rfl rfl ?_
      rw [pc]
      simp only [Call.work, RpcPc.work]
      omega
  | @delClear i sender r slot rest pc free =>
      have clusters := sum_update s.cluster clusterWork i (some sender)
      rw [free] at clusters
      simp only [work, mailWork]
      simp only [clusterWork] at clusters ⊢
      omega
  | delAdvance pc mid =>
      refine work_cluster rfl rfl rfl rfl rfl rfl rfl ?_
      rw [pc, mid]
      simp only [clusterWork, RpcPc.work, List.length_cons]
      omega

theorem usesUp : (system cfg).UsesUp Serves (InHand cfg) work where
  keeps inv _ step := inv.move (move_of_step step)
  less inv serves step := (move_of_step step).work_lt inv serves step

theorem inHand_of_reachable {ok : State ι κ → Event ι κ → Prop} {s : State ι κ}
    (h : (system cfg).Reachable ok s) : InHand cfg s := by
  apply h.invariant
  · rintro s rfl i c ⟨⟩
  · intro s e t _ inv _ step
    exact inv.move (move_of_step step)

/-- Servers left to themselves come to rest: no order of their steps goes on for longer than the work
there is, and some order leads to a state in which none can go on. -/
theorem servers_come_to_rest {ok : State ι κ → Event ι κ → Prop} {s : State ι κ}
    (h : (system cfg).Reachable ok s) :
    (∀ es t, (system cfg).run Serves s es = some t → es.length ≤ work s) ∧
    ∃ t, (system cfg).Follows Serves s t ∧ (system cfg).Settled Serves t := by
  have inv := inHand_of_reachable h
  constructor
  · intro es t runs
    have bound := usesUp.length_run inv runs
    omega
  · obtain ⟨t, follows, -, settled⟩ := usesUp.settles inv
    exact ⟨t, follows, settled⟩

end General

theorem servers_come_to_rest_request : ∃ s, (system twoClients).Reachable (SteadyRun twoClients) s ∧
    (∀ es t, (system twoClients).run Serves s es = some t → es.length ≤ 40) ∧
    ∃ t, (system twoClients).Follows Serves s t ∧ (system twoClients).Settled Serves t := by
  obtain ⟨s, reach, holds⟩ := System.exists_reachable (system twoClients) (SteadyRun twoClients)
    (s := initialState) rfl [.barrier false, .request false .rmdir] (fun s => work s = 40) rfl
  have all := servers_come_to_rest reach
  rw [of_decide_eq_true holds] at all
  exact ⟨s, reach, all⟩

end Pacon.Barrier
