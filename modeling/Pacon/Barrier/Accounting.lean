import Pacon.Barrier.Hold
import Pacon.Barrier.Protocol

/-!
# Release accounting

The last decrement of a slot comes after all its operations, and DEL_BARRIER finds every node
waiting on the slot it clears.
-/

set_option linter.unusedSectionVars false

namespace Pacon.Barrier
open Function Lib

section General
variable {ι κ : Type} [DecidableEq ι] [DecidableEq κ] [Fintype κ] {cfg : Config ι κ}

def ProtocolRun (cfg : Config ι κ) (s : State ι κ) (e : Event ι κ) : Prop :=
  Protocol cfg s e ∧ WithId s e

instance (s : State ι κ) (e : Event ι κ) : Decidable (ProtocolRun cfg s e) :=
  inferInstanceAs (Decidable (_ ∧ _))

theorem Accounts.due_le {s : State ι κ} (inv : Accounts cfg s) (c : κ) (slot : Nat) :
    due cfg s c slot ≤ cfg.optNum c (slot + 1) := by
  rcases Nat.lt_trichotomy (slot + 1) (s.currentBarrierId c) with early | last | late
  · rw [due_earlier early]
  · rw [due_current last, last]
    exact inv.issued c
  · rw [due_later late]
    exact Nat.zero_le _

theorem Accounts.executed_le {s : State ι κ} (inv : Accounts cfg s) (c : κ) (slot : Nat) :
    s.executed c slot ≤ cfg.optNum c (slot + 1) := by
  have account := inv.executed c slot
  have bound := inv.due_le c slot
  omega

theorem outstanding_beforeOpt_le (s : State ι κ) (c : κ) :
    outstanding cfg RpcPc.beforeOpt s c ≤ outstanding cfg RpcPc.beforeDecrement s c := by
  unfold outstanding
  cases s.call c with
  | received r => cases s.rpc (cfg.home c) <;> simp [RpcPc.beforeOpt, RpcPc.beforeDecrement]
  | _ => exact le_rfl

theorem Accounts.decremented_le_executed {s : State ι κ} (inv : Accounts cfg s) (c : κ)
    (slot : Nat) : s.decremented c slot ≤ s.executed c slot := by
  have executed := inv.executed c slot
  have decremented := inv.decremented c slot
  have order : outstanding cfg RpcPc.beforeOpt s c ≤ outstanding cfg RpcPc.beforeDecrement s c :=
    outstanding_beforeOpt_le s c
  split at executed <;> simp_all only [if_true, if_false] <;> omega

theorem Accounts.decrementing {s : State ι κ} (inv : Accounts cfg s) (sound : Sound cfg s)
    (withId : AllWithId s) {i : ι} {r : Request κ} {slot : Nat} {v : Int} {cas : Nat}
    (pc : s.rpc i = .casOptc r slot v cas) :
    s.decremented r.client slot + 1 = s.executed r.client slot := by
  obtain ⟨home, round⟩ := round_of_served sound withId (i := i) (r := r)
    (by rw [pc]; rfl) (show (s.rpc i).slot = some slot by rw [pc]; rfl)
  have received := (sound.serving.served i r (by rw [pc]; rfl)).2
  have executed := inv.executed r.client slot
  have decremented := inv.decremented r.client slot
  rw [if_pos round.symm] at executed decremented
  simp only [outstanding, received, home, pc, RpcPc.beforeOpt, RpcPc.beforeDecrement] at executed decremented
  simp at executed decremented
  omega

theorem Orderly.value_read {s : State ι κ} (orderly : Orderly cfg s) {i : ι} {r : Request κ} {slot : Nat} {v : Int}
    {cas : Nat} (pc : s.rpc i = .casOptc r slot v cas) (current : s.optCas slot = cas) :
    v = (∑ c, cfg.optNum c (slot + 1) : Nat) - (∑ c, s.decremented c slot : Nat) := by
  have value := (orderly.counter.rpcCas i r slot v cas pc).2 current.symm
  rwa [optCount_of_reached orderly.counter fun j =>
    orderly.sound.serving.seen i slot j (by rw [pc]; rfl) (by rw [pc]; trivial)] at value

theorem all_executed {s t : State ι κ} (orderly : Orderly cfg s) (accounts : Accounts cfg s) {i : ι}
    {ok : Bool} {r : Request κ} {slot : Nat} {v : Int} {cas : Nat}
    (pc : s.rpc i = .casOptc r slot v cas) (h : step cfg s (.rpc i ok) = some t)
    (before : s.optCount slot ≠ 0) (after : t.optCount slot = 0) (c : κ) :
    s.executed c slot = cfg.optNum c (slot + 1) := by
  simp only [step, rpcStep, pc] at h
  split at h
  · rename_i won
    have value := orderly.value_read pc won.2
    cases h
    simp only [decrement, update_self] at after
    have more : ∑ c, s.decremented c slot + 1 ≤ ∑ c, s.executed c slot := by
      have own := accounts.decrementing orderly.sound orderly.withId pc
      refine Nat.succ_le_of_lt (Finset.sum_lt_sum (fun c _ =>
        accounts.decremented_le_executed c slot) ⟨r.client, Finset.mem_univ _, by omega⟩)
    exact eq_share_of_total_le (fun c => accounts.executed_le c slot) (by omega) c
  · cases h
    exact absurd after before

theorem del_at_slot {s : State ι κ} (inv : Orderly cfg s) {i sender : ι} {r : Request κ} {slot : Nat}
    {rest : List ι} (pc : s.rpc sender = .broadcast r slot (i :: rest)) (free : s.cluster i = none) :
    s.waitingBarrierId i = slot ∧ s.barrier i slot = true := by
  obtain ⟨-, releasing⟩ := inv.release.releaser (a := sender)
    (show (s.rpc sender).releasing = some slot by rw [pc]; rfl)
  have progress := releasing.progress
  rw [pc] at progress
  obtain ⟨-, -, -, -, -, left⟩ := progress
  rcases left i (List.mem_cons_self ..) with ⟨-, released, waits⟩ | ⟨busy, -⟩
  · have reached := inv.sound.serving.seen sender slot i (by rw [pc]; rfl) (by rw [pc]; trivial)
    have set := blocked_of_reached inv.sound.flags waits (by rw [released]; simp) reached
    rw [waits] at set
    exact ⟨waits, set⟩
  · rw [free] at busy
    cases busy

theorem Orderly.released_range {s : State ι κ} (inv : Orderly cfg s) (i : ι) :
    s.released i = List.range (s.released i).length := by
  obtain ⟨n, -, standing⟩ := inv.release.standing i
  have range {m : Nat} (released : s.released i = List.range m) :
      s.released i = List.range (s.released i).length := by
    rw [released, List.length_range]
  cases standing with
  | unstarted at' => exact range at'.1
  | underWay at' => exact range at'.1
  | window at' => exact range at'.1
  | own at' => exact range at'.1

/-- Every node releases slot after slot; the decrement that ends a slot comes after all its
operations; DEL_BARRIER finds the node waiting on the slot, which is set. -/
theorem barrier_release (digits : ∀ c k, cfg.optNum c k ≤ 9) {s : State ι κ}
    (h : (system cfg).Reachable (ProtocolRun cfg) s) :
    (∀ i, s.released i = List.range (s.released i).length) ∧
    (∀ i ok t r slot v cas, s.rpc i = .casOptc r slot v cas → step cfg s (.rpc i ok) = some t →
      s.optCount slot ≠ 0 → t.optCount slot = 0 →
      ∀ c, s.executed c slot = cfg.optNum c (slot + 1)) ∧
    ∀ i sender t r slot rest, s.rpc sender = .broadcast r slot rest →
      step cfg s (.cluster i sender) = some t → s.cluster i = none →
      s.waitingBarrierId i = slot ∧ s.barrier i slot = true := by
  have inv (i : ι) : Orderly cfg s :=
    have : Nonempty ι := ⟨i⟩
    orderly_of_reachable (fun _ _ guard => guard.2) digits h
  refine ⟨fun i => (inv i).released_range i, ?_, ?_⟩
  · intro i ok t r slot v cas pc step before after
    have : Nonempty ι := ⟨i⟩
    exact all_executed (inv i) (accounts_of_reachable (fun _ _ guard => guard) digits h) pc step
      before after
  · intro i sender t r slot rest pc step free
    cases move_of_step step with
    | delClear pc' free' =>
        rw [pc] at pc'
        cases pc'
        exact del_at_slot (inv i) pc free
    | delAdvance pc' mid =>
        rw [free] at mid
        cases mid
end General

def releaseRun : List (Event Bool Bool) := List.flatten
  [[.barrier false, .request false .rmdir, .barrier true, .receive true],
    List.replicate 3 (.commit true true), [.receive false], List.replicate 5 (.commit false true),
    [.take false 0], List.replicate 5 (.rpc false true)]

theorem barrier_release_rmdir :
    (∃ s t, (system oneDeclared).Reachable (ProtocolRun oneDeclared) s ∧
      step oneDeclared s (.rpc false true) = some t ∧ s.optCount 0 = 1 ∧ t.optCount 0 = 0 ∧
      s.executed false 0 = oneDeclared.optNum false 1) ∧
    ∃ s t, (system oneDeclared).Reachable (ProtocolRun oneDeclared) s ∧
      step oneDeclared s (.cluster true false) = some t ∧ s.waitingBarrierId true = 0 ∧
      s.barrier true 0 = true := by
  constructor
  · obtain ⟨s, reach, holds⟩ := System.exists_reachable (system oneDeclared)
      (ProtocolRun oneDeclared) (s := initialState) rfl releaseRun
      (fun s => s.rpc false = .casOptc ⟨false, .rmdir, some 1⟩ 0 1 1 ∧ s.optCount 0 = 1 ∧
        (step oneDeclared s (.rpc false true)).any fun t => t.optCount 0 = 0) rfl
    obtain ⟨pc, before, after⟩ := of_decide_eq_true holds
    cases next : step oneDeclared s (.rpc false true) with
    | none => simp [next] at after
    | some t =>
        have after : t.optCount 0 = 0 := by simpa [next] using after
        exact ⟨s, t, reach, next, before, after, (barrier_release firstDeclares_le reach).2.1 false true t _ 0 1
          1 pc next (by simp [before]) after false⟩
  · obtain ⟨s, reach, holds⟩ := System.exists_reachable (system oneDeclared)
      (ProtocolRun oneDeclared) (s := initialState) rfl
      (List.flatten [releaseRun, List.replicate 3 (.rpc false true)])
      (fun s => s.rpc false = .broadcast ⟨false, .rmdir, some 1⟩ 0 [true] ∧ s.cluster true = none ∧
        (step oneDeclared s (.cluster true false)).isSome) rfl
    obtain ⟨pc, free, handles⟩ := of_decide_eq_true holds
    obtain ⟨t, handles⟩ := Option.isSome_iff_exists.mp handles
    exact ⟨s, t, reach, handles,
      (barrier_release firstDeclares_le reach).2.2 true false t _ 0 [true] pc handles free⟩

end Pacon.Barrier
