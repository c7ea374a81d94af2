import Pacon.Barrier.Release

/-!
# What the barrier holds back

A server leaves `while (barrier[waiting_barrier_id] == 1)` only if it has released every slot that
all of its clients have reached, save between the two assignments of DEL_BARRIER.
-/

set_option linter.unusedSectionVars false

namespace Pacon.Barrier
open Function Lib

section General
variable {ι κ : Type} [DecidableEq ι] [DecidableEq κ] [Fintype κ] {cfg : Config ι κ}

def HeldBack (cfg : Config ι κ) (s : State ι κ) : Prop :=
  ∀ c slot n, (sentBefore slot (s.mq c)).length < n → n < s.committed c →
    slot ∈ s.released (cfg.home c)

/-- The commit thread of `i` takes a message past the loop although all clients of the node have
their barrier message of `slot` counted and the slot is not released. -/
def PassesEarly (cfg : Config ι κ) (s : State ι κ) (i : ι) (c : κ) (m : Msg) (slot : Nat) : Prop :=
  s.commit i = .hold c m ∧ (step cfg s (.commit i true)).isSome ∧
    (∀ c', cfg.home c' = i → slot < s.counted c') ∧ slot ∉ s.released i

def NoFlush (_ : State ι κ) : Event ι κ → Prop
  | .flush _ => False
  | _ => True

instance (s : State ι κ) : (e : Event ι κ) → Decidable (NoFlush s e)
  | .flush _ => .isFalse id
  | .send _ | .barrier _ | .request _ _ | .receive _ | .commit _ _ | .take _ _ | .rpc _ _
  | .cluster _ _ => .isTrue trivial

theorem clear_of_step {s t : State ι κ} {i : ι} {ok : Bool} {c : κ} {m : Msg}
    (pc : s.commit i = .hold c m) (h : step cfg s (.commit i ok) = some t) :
    s.barrier i (s.waitingBarrierId i) = false := by
  simp only [step, commitStep, pc] at h
  split at h
  · cases h
  · rename_i clear
    simpa using clear

instance (s : State ι κ) (i : ι) (c : κ) (m : Msg) (slot : Nat) :
    Decidable (PassesEarly cfg s i c m slot) :=
  inferInstanceAs (Decidable (_ ∧ _ ∧ _ ∧ _))
end General

def rmdirRun : List (Event Bool Bool) := List.flatten
  [[.barrier false, .request false .rmdir, .barrier true, .send true, .receive true],
    List.replicate 3 (.commit true true), [.receive false], List.replicate 5 (.commit false true),
    [.take false 0], List.replicate 8 (.rpc false true), List.replicate 2 (.cluster true false),
    List.replicate 3 (.rpc false true), [.receive true]]

def twoClients : Config Unit Bool := .oneNode fun _ _ => 1

def aheadRun : List (Event Unit Bool) := List.flatten
  [[.barrier false, .send false, .receive false], List.replicate 4 (.commit () true),
    [.receive false, .commit () true]]

theorem ahead_not_held : ∃ s, (system twoClients).Reachable WithId s ∧ ¬ HeldBack twoClients s := by
  obtain ⟨s, reach, holds⟩ := System.exists_reachable (system twoClients) WithId
    (s := initialState) rfl aheadRun
    (fun s => (sentBefore 0 (s.mq false)).length = 0 ∧ s.committed false = 2 ∧ s.released () = []) rfl
  obtain ⟨before, committed, released⟩ := of_decide_eq_true holds
  refine ⟨s, reach, fun held => ?_⟩
  have found := held false 0 1 (by omega) (by omega)
  rw [show twoClients.home false = () from rfl, released] at found
  exact absurd found (List.not_mem_nil)

def windowRun : List (Event Bool Bool) := List.flatten
  [[.barrier false, .request false .rmdir, .barrier true, .barrier true, .send true, .receive true],
    List.replicate 3 (.commit true true), [.receive false], List.replicate 5 (.commit false true),
    [.take false 0], List.replicate 8 (.rpc false true), [.cluster true false, .receive true],
    List.replicate 3 (.commit true true), [.receive true]]

theorem window_passes :
    ∃ s, (system oneDeclared).Reachable WithId s ∧ PassesEarly oneDeclared s true true .op 1 := by
  obtain ⟨s, reach, passes⟩ := System.exists_reachable (system oneDeclared) WithId
    (s := initialState) rfl windowRun (fun s => PassesEarly oneDeclared s true true .op 1) rfl
  exact ⟨s, reach, of_decide_eq_true passes⟩

def sharedNode : Config Unit Bool := .oneNode firstDeclares

def withoutIdRun (request : Event Unit Bool) : List (Event Unit Bool) := List.flatten
  [[.barrier false, .barrier true, .barrier false, .barrier true, .send false, request,
      .receive false], List.replicate 4 (.commit () true), [.receive true],
    List.replicate 3 (.commit () true), [.take true 0], List.replicate 6 (.rpc () true),
    [.receive false], List.replicate 2 (.commit () true), [.receive true],
    List.replicate 3 (.commit () true), [.receive false]]

theorem flush_passes : ∃ s, (system sharedNode).Reachable (fun _ _ => True) s ∧
    PassesEarly sharedNode s () false .op 1 := by
  obtain ⟨s, reach, passes⟩ := System.exists_reachable (system sharedNode) (fun _ _ => True)
    (s := initialState) rfl (withoutIdRun (.flush true))
    (fun s => PassesEarly sharedNode s () false .op 1) rfl
  exact ⟨s, reach, of_decide_eq_true passes⟩

theorem checkpoint_passes : ∃ s, (system sharedNode).Reachable NoFlush s ∧
    PassesEarly sharedNode s () false .op 1 := by
  obtain ⟨s, reach, passes⟩ := System.exists_reachable (system sharedNode) NoFlush
    (s := initialState) rfl (withoutIdRun (.request true .checkpoint))
    (fun s => PassesEarly sharedNode s () false .op 1) rfl
  exact ⟨s, reach, of_decide_eq_true passes⟩

def longCount : Config Unit Unit := .oneNode fun _ _ => 123

def longCountRun : List (Event Unit Unit) := List.flatten
  [[.barrier (), .send (), .receive ()], List.replicate 5 (.commit () true), [.receive ()]]

theorem longCount_passes :
    ∃ s, (system longCount).Reachable WithId s ∧ PassesEarly longCount s () () .op 0 := by
  obtain ⟨s, reach, passes⟩ := System.exists_reachable (system longCount) WithId
    (s := initialState) rfl longCountRun (fun s => PassesEarly longCount s () () .op 0) rfl
  exact ⟨s, reach, of_decide_eq_true passes⟩

end Pacon.Barrier
