import Pacon.Barrier.Completeness
import Pacon.Barrier.Stored

set_option linter.unusedSectionVars false

namespace Pacon.Barrier
open Function Lib

section
variable {ι κ : Type}

def CommitPc.renumber (version : Nat → Nat) : CommitPc κ → CommitPc κ
  | .casOptc c slot n v cas => .casOptc c slot n v (version cas)
  | .recv => .recv
  | .hold c m => .hold c m
  | .getOptc c slot n => .getOptc c slot n
  | .reach c slot => .reach c slot
  | .setKey c slot => .setKey c slot
  | .reachBarrier c => .reachBarrier c

def RpcPc.renumber (version : Nat → Nat) : RpcPc ι κ → RpcPc ι κ
  | .casOptc r slot v cas => .casOptc r slot v (version cas)
  | .recv => .recv
  | .waitBarrier r slot => .waitBarrier r slot
  | .waitNodes r slot rest => .waitNodes r slot rest
  | .opt r slot => .opt r slot
  | .getOptc r slot => .getOptc r slot
  | .clear r slot => .clear r slot
  | .reset r slot => .reset r slot
  | .broadcast r slot rest => .broadcast r slot rest
  | .advance r slot => .advance r slot
  | .reply r => .reply r
  | .undefined r => .undefined r

def CommitPc.remembers : CommitPc κ → Option (Nat × Nat)
  | .casOptc _ slot _ _ cas => some (slot, cas)
  | .recv | .hold _ _ | .getOptc _ _ _ | .reach _ _ | .setKey _ _ | .reachBarrier _ => none

def RpcPc.remembers : RpcPc ι κ → Option (Nat × Nat)
  | .casOptc _ slot _ cas => some (slot, cas)
  | .recv | .waitBarrier _ _ | .waitNodes _ _ _ | .opt _ _ | .getOptc _ _ | .clear _ _ | .reset _ _
  | .broadcast _ _ _ | .advance _ _ | .reply _ | .undefined _ => none

def view (version : Nat → Nat) (a s : State ι κ) : State ι κ :=
  { s with commit := fun i => (s.commit i).renumber version
           rpc := fun i => (s.rpc i).renumber version
           nodeKey := a.nodeKey
           optCount := a.optCount
           optCas := a.optCas }

def CommitPc.slot : CommitPc κ → Option Nat
  | .getOptc _ slot _ | .casOptc _ slot _ _ _ | .reach _ slot | .setKey _ slot => some slot
  | .recv | .hold _ _ | .reachBarrier _ => none

structure Slots (s : State ι κ) : Prop where
  commit : ∀ i, ∀ slot ∈ (s.commit i).slot, slot < barrierIdMax
  rpc : ∀ i, ∀ slot ∈ (s.rpc i).slot, slot < barrierIdMax

end

section
variable {ι κ : Type} [DecidableEq ι] [DecidableEq κ] [Fintype κ] {cfg : Config ι κ} {version : Nat → Nat}
  {a s t : State ι κ}

def Asks (s : State ι κ) : Event ι κ → Prop
  | .commit i _ => match s.commit i with
      | .getOptc _ _ _ | .casOptc _ _ _ _ _ | .setKey _ _ => True
      | _ => False
  | .rpc i _ => match s.rpc i with
      | .waitNodes _ _ (_ :: _) | .getOptc _ _ | .casOptc _ _ _ _ | .reset _ _ => True
      | _ => False
  | _ => False

theorem CommitPc.renumber_casOptc (c : κ) (slot : Nat) (n v : Int) (cas : Nat) :
    (CommitPc.casOptc c slot n v cas).renumber version = .casOptc c slot n v (version cas) := rfl

theorem RpcPc.renumber_casOptc (r : Request κ) (slot : Nat) (v : Int) (cas : Nat) :
    (RpcPc.casOptc r slot v cas : RpcPc ι κ).renumber version = .casOptc r slot v (version cas) := rfl

theorem CommitPc.renumber_of {pc : CommitPc κ} (none : pc.remembers = none) : pc.renumber version = pc := by
  cases pc with
  | casOptc => cases none
  | _ => rfl

theorem RpcPc.renumber_of {pc : RpcPc ι κ} (none : pc.remembers = none) : pc.renumber version = pc := by
  cases pc with
  | casOptc => cases none
  | _ => rfl

theorem view_commit {i : ι} {pc : CommitPc κ} (here : s.commit i = pc) (none : pc.remembers = none) :
    (view version a s).commit i = pc := by
  subst here
  exact CommitPc.renumber_of none

theorem view_rpc {i : ι} {pc : RpcPc ι κ} (here : s.rpc i = pc) (none : pc.remembers = none) :
    (view version a s).rpc i = pc := by
  subst here
  exact RpcPc.renumber_of none

theorem renumber_update_commit (f : ι → CommitPc κ) (i : ι) (pc : CommitPc κ) :
    (fun j => (update f i pc j).renumber version) = update (fun j => (f j).renumber version) i (pc.renumber version) :=
  comp_update (CommitPc.renumber version) f i pc

theorem renumber_update_rpc (f : ι → RpcPc ι κ) (i : ι) (pc : RpcPc ι κ) :
    (fun j => (update f i pc j).renumber version) = update (fun j => (f j).renumber version) i (pc.renumber version) :=
  comp_update (RpcPc.renumber version) f i pc

theorem renumber_commit {f : ι → CommitPc κ} {i : ι} {pc : CommitPc κ} (none : pc.remembers = none) :
    (fun j => (update f i pc j).renumber version) = update (fun j => (f j).renumber version) i pc := by
  rw [renumber_update_commit, CommitPc.renumber_of none]

theorem renumber_rpc {f : ι → RpcPc ι κ} {i : ι} {pc : RpcPc ι κ} (none : pc.remembers = none) :
    (fun j => (update f i pc j).renumber version) = update (fun j => (f j).renumber version) i pc := by
  rw [renumber_update_rpc, RpcPc.renumber_of none]

theorem step_view {e : Event ι κ} (alone : ¬Asks s e) (h : step cfg s e = some t) :
    step cfg (view version a s) e = some (view version a t) := by
  cases move_of_step h with
  | send free | flush free => exact if_pos free
  | barrier free => exact if_pos free
  | request free notFlush => exact if_pos ⟨free, notFlush⟩
  | receive pc head =>
      simp only [step, view_commit pc rfl, if_true]
      simpa [view, head] using (renumber_commit rfl).symm
  | commitOp pc clear | commitFlushdir pc clear =>
      simp only [step, commitStep, view_commit pc rfl]
      simpa [view, clear, dispatch, finish] using (renumber_commit rfl).symm
  | declare pc clear index declares | declareNone pc clear index declares =>
      simp only [step, commitStep, view_commit pc rfl]
      simpa [view, clear, dispatch, index, declares] using (renumber_commit rfl).symm
  | count pc more =>
      simp only [step, commitStep, view_commit pc rfl]
      simpa [view, countBarrier, more, finish, counting] using (renumber_commit rfl).symm
  | countLast pc last =>
      simp only [step, commitStep, view_commit pc rfl]
      simpa [view, countBarrier, last, counting] using (renumber_commit rfl).symm
  | leaveReachBarrier pc reset =>
      simp only [step, commitStep, view_commit pc rfl]
      simpa [view, reset, finish] using (renumber_commit rfl).symm
  | take call pc id | takeUndefined call pc id =>
      simp only [step, takeStep, view_rpc pc rfl]
      simpa [view, call, id] using (renumber_rpc rfl).symm
  | waitBarrier pc set =>
      simp only [step, rpcStep, view_rpc pc rfl]
      simpa [view, set] using (renumber_rpc rfl).symm
  | begun pc | opt pc | clear pc | broadcasted pc | advance pc | reply pc =>
      simp only [step, rpcStep, view_rpc pc rfl]
      simpa [view] using (renumber_rpc rfl).symm
  | delClear pc free =>
      simp only [step, clusterStep, view_rpc pc rfl]
      simp [view, free]
  | delAdvance pc mid =>
      simp only [step, clusterStep, view_rpc pc rfl]
      simpa [view, mid] using (renumber_rpc rfl).symm
  | getOptc pc | casOptc pc | casOptcFail pc | setKey pc | setKeyFail pc | waitNode pc | endGetOptc pc
  | decrement pc | decrementFail pc | reset pc => exact absurd (by simp [Asks, pc]) alone

theorem step_remembers {e : Event ι κ} (alone : ¬Asks s e) (h : step cfg s e = some t) (i : ι) :
    (t.commit i = s.commit i ∨ (t.commit i).remembers = none) ∧ (t.rpc i = s.rpc i ∨ (t.rpc i).remembers = none) := by
  have commit (j : ι) {pc : CommitPc κ} (none : pc.remembers = none) :
      update s.commit j pc i = s.commit i ∨ (update s.commit j pc i).remembers = Option.none := by
    by_cases here : i = j
    · subst here
      rw [update_self]
      exact .inr none
    · exact .inl (update_of_ne here ..)
  have rpc (j : ι) {pc : RpcPc ι κ} (none : pc.remembers = none) :
      update s.rpc j pc i = s.rpc i ∨ (update s.rpc j pc i).remembers = Option.none := by
    by_cases here : i = j
    · subst here
      rw [update_self]
      exact .inr none
    · exact .inl (update_of_ne here ..)
  cases move_of_step h with
  | send | barrier | request | flush | delClear => exact ⟨.inl rfl, .inl rfl⟩
  | receive | commitOp | commitFlushdir | declare | declareNone | count | countLast | leaveReachBarrier =>
      exact ⟨commit _ rfl, .inl rfl⟩
  | take | takeUndefined | waitBarrier | begun | opt | clear | broadcasted | advance | reply | delAdvance =>
      exact ⟨.inl rfl, rpc _ rfl⟩
  | getOptc pc | casOptc pc | casOptcFail pc | setKey pc | setKeyFail pc | waitNode pc | endGetOptc pc
  | decrement pc | decrementFail pc | reset pc => exact absurd (by simp [Asks, pc]) alone

theorem slots_initial : Slots (initialState : State ι κ) where
  commit i slot at' := by cases at'
  rpc i slot at' := by cases at'

theorem Slots.setCommit (h : Slots s) {i : ι} {pc : CommitPc κ} (commit : t.commit = update s.commit i pc)
    (rpc : t.rpc = s.rpc) (new : ∀ slot ∈ pc.slot, slot < barrierIdMax) : Slots t where
  commit j := by
    rw [commit]
    by_cases here : j = i
    · subst here
      rwa [update_self]
    · rw [update_of_ne here]
      exact h.commit j
  rpc := rpc ▸ h.rpc

theorem Slots.setRpc (h : Slots s) {i : ι} {pc : RpcPc ι κ} (commit : t.commit = s.commit)
    (rpc : t.rpc = update s.rpc i pc) (new : ∀ slot ∈ pc.slot, slot < barrierIdMax) : Slots t where
  commit := commit ▸ h.commit
  rpc j := by
    rw [rpc]
    by_cases here : j = i
    · subst here
      rwa [update_self]
    · rw [update_of_ne here]
      exact h.rpc j

theorem barrierIndex_lt {path : CString} {slot : Nat} (index : barrierIndex path = some slot) : slot < barrierIdMax := by
  simp only [barrierIndex, Option.ite_none_right_eq_some, Option.some.injEq] at index
  omega

theorem optBarrierId_lt {r : Request κ} {garbage slot : Nat} (id : optBarrierId r garbage = some slot) :
    slot < barrierIdMax := by
  unfold optBarrierId at id
  have inside := (Option.filter_eq_some_iff.mp id).2
  simpa using inside

theorem Slots.step {e : Event ι κ} (h : Slots s) (does : step cfg s e = some t) : Slots t := by
  have commit {i : ι} {pc pc' : CommitPc κ} (here : s.commit i = pc) (same : pc'.slot = pc.slot) :
      ∀ slot ∈ pc'.slot, slot < barrierIdMax := by
    rw [same, ← here]
    exact h.commit i
  have rpc {i : ι} {pc pc' : RpcPc ι κ} (here : s.rpc i = pc) (same : pc'.slot = pc.slot) :
      ∀ slot ∈ pc'.slot, slot < barrierIdMax := by
    rw [same, ← here]
    exact h.rpc i
  cases move_of_step does with
  | send | barrier | request | flush | delClear => exact ⟨h.commit, h.rpc⟩
  | receive pc | commitOp pc | commitFlushdir pc => exact h.setCommit rfl rfl (commit pc rfl)
  | declare pc clear index | declareNone pc clear index =>
      refine h.setCommit rfl rfl ?_
      rintro slot ⟨⟩
      exact barrierIndex_lt index
  | getOptc pc | casOptc pc | casOptcFail pc | countLast pc | leaveReachBarrier pc =>
      exact h.setCommit rfl rfl (commit pc rfl)
  | count | setKey | setKeyFail => exact h.setCommit rfl rfl (by rintro slot ⟨⟩)
  | take call pc id =>
      refine h.setRpc rfl rfl ?_
      rintro slot ⟨⟩
      exact optBarrierId_lt id
  | takeUndefined | reply | advance => exact h.setRpc rfl rfl (by rintro slot ⟨⟩)
  | waitBarrier pc | waitNode pc | begun pc | opt pc | endGetOptc pc | decrementFail pc | clear pc | reset pc
  | broadcasted pc => exact h.setRpc rfl rfl (rpc pc rfl)
  | decrement pc =>
      refine h.setRpc rfl rfl ?_
      split
      · exact rpc pc rfl
      · rintro slot ⟨⟩
  | delAdvance pc => exact h.setRpc rfl rfl (rpc pc rfl)

end
end Pacon.Barrier
