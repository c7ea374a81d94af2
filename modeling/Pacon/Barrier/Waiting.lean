import Pacon.Barrier.Accounting

/-!
# What ends the waits of the commit thread

A set slot is cleared by a release under way or by the operations that its round still declares.
Nothing clears the slot of a round without operations, and nothing resets `reach_barrier`.
-/

set_option linter.unusedSectionVars false

namespace Pacon.Barrier
open Function Lib

section General
variable {ι κ : Type} [DecidableEq ι] [DecidableEq κ] [Fintype κ]

inductive Releaser (cfg : Config ι κ) (s : State ι κ) (i : ι) (slot : Nat) : Prop
  | release (underWay : UnderWay s i slot)
  | operation {c} (declared : s.decremented c slot < cfg.optNum c (slot + 1))

/-- Every flag that a commit thread waits on has something that clears it. -/
def NeverStuck (cfg : Config ι κ) (s : State ι κ) : Prop :=
  (∀ i c m, s.commit i = .hold c m → s.barrier i (s.waitingBarrierId i) = true →
    Releaser cfg s i (s.waitingBarrierId i)) ∧
  ∀ i c, s.commit i = .reachBarrier c → s.reachBarrier i = 0

def Cleared (cfg : Config ι κ) (s : State ι κ) : Prop :=
  ∀ i, ∀ slot ∈ s.released i, Reached cfg s i slot ∧ s.barrier i slot = false

variable {cfg : Config ι κ}

theorem Cleared.release {s t : State ι κ} {i : ι} {slot : Nat} (inv : Cleared cfg s)
    (reached : Reached cfg s i slot) (counted : t.counted = s.counted)
    (barrier : t.barrier = set₂ s.barrier i slot false)
    (released : t.released = update s.released i (s.released i ++ [slot])) : Cleared cfg t := by
  intro j slot' member
  rw [released] at member
  have same {i slot} (reached : Reached cfg s i slot) : Reached cfg t i slot :=
    reached.mono fun c => by rw [counted]
  rw [barrier]
  by_cases own : j = i ∧ slot' = slot
  · obtain ⟨rfl, rfl⟩ := own
    exact ⟨same reached, set₂_self ..⟩
  · rw [set₂_of_ne fun eq eq' => own ⟨eq, eq'⟩]
    have before : slot' ∈ s.released j := by
      by_cases here : j = i
      · subst here
        rw [update_self, List.mem_append, List.mem_singleton] at member
        exact member.resolve_right fun eq => own ⟨rfl, eq⟩
      · rwa [update_of_ne here] at member
    exact ⟨same (inv j slot' before).1, (inv j slot' before).2⟩

theorem Cleared.move {s t : State ι κ} {e : Event ι κ} (inv : Cleared cfg s) (orderly : Orderly cfg s)
    (move : Move cfg s e t) : Cleared cfg t := by
  have mono := move.counted_mono
  cases move with
  | @clear i ok r slot pc =>
      exact inv.release (orderly.sound.serving.seen i slot i (by rw [pc]; rfl) (by rw [pc]; trivial))
        rfl rfl rfl
  | @delClear i a r slot rest pc free =>
      obtain ⟨waits, set⟩ := del_at_slot orderly pc free
      exact inv.release (orderly.sound.flags.flag _ _ (waits ▸ set)) rfl rfl rfl
  | @countLast i ok c slot pc last =>
      obtain ⟨home, rfl⟩ := orderly.sound.queues.slot_at_reach pc
      intro j slot member
      obtain ⟨reached, clear⟩ := inv j slot member
      refine ⟨reached.mono mono, ?_⟩
      have other : j = i → slot ≠ s.counted c := by
        rintro rfl rfl
        exact absurd (reached.2 c home) (lt_irrefl _)
      rw [← clear]
      exact set₂_of_ne other
  | count => exact fun j slot member => ⟨(inv j slot member).1.mono mono, (inv j slot member).2⟩
  | _ => exact inv

theorem cleared_of_reachable [Nonempty ι] (digits : ∀ c k, cfg.optNum c k ≤ 9) {s : State ι κ}
    (h : (system cfg).Reachable WithId s) : Cleared cfg s := by
  apply h.invariant
  · rintro s rfl i slot member
    exact absurd member (List.not_mem_nil)
  · intro s e t reach inv guard step
    exact inv.move (orderly_of_reachable (fun _ _ guard => guard) digits reach) (move_of_step step)

theorem never_reachBarrier {s : State ι κ} (orderly : Orderly cfg s) (i : ι) (c : κ) :
    s.commit i ≠ .reachBarrier c := by
  intro pc
  have working := orderly.sound.queues.working i
  rw [pc] at working
  exact orderly.withId.queue c (List.mem_of_getElem? working.2)

theorem last_decrement {s t : State ι κ} (orderly : Orderly cfg s) {i : ι} {ok : Bool}
    {r : Request κ} {slot : Nat} {v : Int} {cas : Nat} (pc : s.rpc i = .casOptc r slot v cas)
    (h : step cfg s (.rpc i ok) = some t)
    (more : ∑ c, s.decremented c slot < ∑ c, t.decremented c slot)
    (all : ∑ c, t.decremented c slot = ∑ c, cfg.optNum c (slot + 1)) : t.rpc i = .clear r slot := by
  simp only [step, rpcStep, pc] at h
  split at h
  · rename_i won
    have value := orderly.value_read pc won.2
    cases h
    simp only [decrement] at all ⊢
    rw [sum_set₂_succ, if_pos rfl] at all
    rw [update_self, if_pos (by omega)]
  · cases h
    exact absurd more (lt_irrefl _)

theorem empty_round_kept (digits : ∀ c k, cfg.optNum c k ≤ 9) {s : State ι κ}
    (h : (system cfg).Reachable WithId s) {slot : Nat} (none : ∑ c, cfg.optNum c (slot + 1) = 0)
    (i : ι) : slot ∉ s.released i := by
  have : Nonempty ι := ⟨i⟩
  have inv := orderly_of_reachable (fun _ _ guard => guard) digits h
  intro member
  have started := (inv.release.started_of_released member).1
  omega

theorem reachBarrier_kept {ok : State ι κ → Event ι κ → Prop} {s t : State ι κ} {i : ι}
    (h : (system cfg).Follows ok s t) (waits : s.reachBarrier i ≠ 0) : t.reachBarrier i ≠ 0 := by
  refine h.invariant (P := fun s => s.reachBarrier i ≠ 0) waits ?_
  intro s e t waits _ step
  cases move_of_step step with
  | @commitFlushdir j =>
      by_cases same : i = j
      · subst same
        simp
      · simpa [same] using waits
  | _ => exact waits
end General

def waitRun : List (Event Unit Unit) := List.flatten
  [[.barrier (), .send (), .receive ()], List.replicate 5 (.commit () true), [.receive ()]]

def justBarrier : Config Unit Unit := .oneNode fun _ _ => 0

def justBarrierRun : List (Event Unit Unit) := List.flatten
  [[.barrier (), .send (), .receive ()], List.replicate 3 (.commit () true), [.receive ()]]

def checkpointRun : List (Event Unit Unit) := List.flatten
  [[.barrier (), .request () .rmdir, .receive ()], List.replicate 5 (.commit () true), [.take () 0],
    List.replicate 10 (.rpc () true), [.barrier (), .send (), .request () .checkpoint, .receive ()],
    List.replicate 5 (.commit () true), [.receive (), .take () 0]]

theorem checkpoint_stuck : ∃ s, (system oneClient).Reachable (Protocol oneClient) s ∧
    s.commit () = .hold () .op ∧ s.barrier () (s.waitingBarrierId ()) = true ∧
    ∀ e, (system oneClient).step s e = none := by
  obtain ⟨s, reach, holds⟩ := System.exists_reachable (system oneClient) (Protocol oneClient)
    (s := initialState) rfl checkpointRun
    (fun s => s.commit () = .hold () .op ∧ s.barrier () (s.waitingBarrierId ()) = true ∧
      s.call () = .received ⟨(), .checkpoint, none⟩ ∧
      s.rpc () = .waitBarrier ⟨(), .checkpoint, none⟩ 0 ∧ s.barrier () 0 = false) rfl
  obtain ⟨pc, set, call, waits, clear⟩ := of_decide_eq_true holds
  refine ⟨s, reach, pc, set, fun e => ?_⟩
  cases e with
  | commit i ok => simp [system, step, commitStep, pc, set]
  | rpc i ok => simp [system, step, rpcStep, waits, clear]
  | cluster i sender => simp [system, step, clusterStep, waits]
  | take c garbage => simp [system, step, takeStep, call]
  | receive c => simp [system, step, pc]
  | _ => simp [system, step, call]

end Pacon.Barrier
