import Pacon.Barrier.Accounting

/-!
# A barrier operation has the cluster for itself

While a server is between its two barriers the slot of its request is released on no node, all clients
of all nodes have reached it, and no commit thread passes.
-/

set_option linter.unusedSectionVars false

namespace Pacon.Barrier
open Function Lib

variable {ι κ : Type} [DecidableEq ι] [DecidableEq κ] [Fintype κ] {cfg : Config ι κ} {s t : State ι κ}

/-- The slot of the operation that a server has begun and not subtracted yet. -/
def RpcPc.executing : RpcPc ι κ → Option Nat
  | .opt _ slot | .getOptc _ slot | .casOptc _ slot _ _ => some slot
  | .recv | .waitBarrier _ _ | .waitNodes _ _ _ | .clear _ _ | .reset _ _ | .broadcast _ _ _ | .advance _ _
  | .reply _ | .undefined _ => none

theorem RpcPc.served_of_executing {pc : RpcPc ι κ} {slot : Nat} (h : pc.executing = some slot) :
    (∃ r, pc.request = some r) ∧ pc.slot = some slot ∧ pc.beforeDecrement = true ∧ ∀ i j, pc.Seen i j := by
  cases pc with
  | opt r | getOptc r | casOptc r =>
      cases h
      exact ⟨⟨r, rfl⟩, rfl, rfl, fun _ _ => trivial⟩
  | _ => cases h

theorem Accounts.decremented_le (inv : Accounts cfg s) (c : κ) (slot : Nat) :
    s.decremented c slot ≤ cfg.optNum c (slot + 1) :=
  (inv.decremented_le_executed c slot).trans (inv.executed_le c slot)

theorem Accounts.not_started (inv : Accounts cfg s) (orderly : Orderly cfg s) {i : ι} {slot : Nat}
    (executing : (s.rpc i).executing = some slot) : ¬Started cfg s slot := by
  obtain ⟨⟨r, serves⟩, at', before, -⟩ := RpcPc.served_of_executing executing
  obtain ⟨home, round⟩ := round_of_served orderly.sound orderly.withId serves at'
  have received := (orderly.sound.serving.served i r serves).2
  have decremented := inv.decremented r.client slot
  have due := inv.due_le r.client slot
  rw [if_pos round.symm] at decremented
  simp only [outstanding, received, home, before, if_true] at decremented
  have less : ∑ c, s.decremented c slot < ∑ c, cfg.optNum c (slot + 1) := by
    apply Finset.sum_lt_sum
    · intro c _
      exact inv.decremented_le c slot
    · exact ⟨r.client, Finset.mem_univ _, by omega⟩
  intro started
  exact absurd started.2 (Nat.not_le.mpr less)

theorem Orderly.alone (orderly : Orderly cfg s) (accounts : Accounts cfg s) {i : ι} {slot : Nat}
    (executing : (s.rpc i).executing = some slot) (j : ι) : At s j slot slot ∧ Reached cfg s j slot := by
  obtain ⟨-, at', -, seen⟩ := RpcPc.served_of_executing executing
  have reached : ∀ j, Reached cfg s j slot := fun j => orderly.sound.serving.seen i slot j at' (seen i j)
  obtain ⟨round, rounds, idle | ⟨a, slot', rfl, releasing⟩⟩ := orderly.release
  · have notEarlier : round ≤ slot := by
      by_contra less
      exact accounts.not_started orderly executing ((rounds slot).mpr (by omega))
    have same : round = slot := by
      by_contra other
      obtain ⟨h, unreached | ⟨next, -⟩⟩ := idle.held
      · exact unreached ((reached h).earlier notEarlier)
      · exact next ((reached h).earlier (by omega))
    exact ⟨same ▸ (idle.node j).2, reached j⟩
  · -- the node of the releasing server cannot have reached the next slot
    have later : slot' + 1 ≤ slot := by
      by_contra less
      exact accounts.not_started orderly executing ((rounds slot).mpr (by omega))
    obtain ⟨here, r, serves⟩ := RpcPc.slot_of_releasing releasing.at'
    exact absurd ((reached a).earlier later) (not_reached_next orderly.sound orderly.withId serves here)

theorem At.unreleased {j : ι} {slot : Nat} (h : At s j slot slot) : slot ∉ s.released j := by
  rw [h.1]
  simp

theorem Orderly.released_of_clear (orderly : Orderly cfg s) {i : ι} {slot : Nat}
    (clear : s.barrier i (s.waitingBarrierId i) = false) (outside : s.cluster i = none)
    (reached : Reached cfg s i slot) : slot ∈ s.released i := by
  obtain ⟨n, -, standing⟩ := orderly.release.standing i
  have waiting {m : Nat} (at' : At s i m m) : slot ∈ s.released i := by
    by_cases past : slot < m
    · rw [at'.1]
      simpa using past
    · have set := blocked_of_reached orderly.sound.flags at'.2 at'.unreleased (reached.earlier (by omega))
      rw [clear] at set
      cases set
  cases standing with
  | unstarted at' | underWay at' => exact waiting at'
  | window at' started busy => exact absurd outside busy
  | own at' started releasing =>
      by_cases past : slot < n + 1
      · rw [at'.1]
        simpa using past
      · obtain ⟨here, r, serves⟩ := RpcPc.slot_of_releasing releasing
        exact absurd (reached.earlier (by omega)) (not_reached_next orderly.sound orderly.withId serves here)

theorem Move.released_mono {e : Event ι κ} (move : Move cfg s e t) {i : ι} {slot : Nat} (h : slot ∈ s.released i) :
    slot ∈ t.released i := by
  have append {j : ι} {slot' : Nat} : slot ∈ update s.released j (s.released j ++ [slot']) i := by
    by_cases same : i = j
    · subst same
      rw [update_self]
      exact List.mem_append_left _ h
    · rwa [update_of_ne same]
  cases move with
  | clear => exact append
  | delClear => exact append
  | barrier =>
      simp only [paconBarrier]
      exact h
  | _ => exact h

end Pacon.Barrier
