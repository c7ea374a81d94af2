import Pacon.Opendir.Snapshot
import Pacon.Barrier.Isolation

/-!
# The DFS stands still behind the barrier

While a server is between the barriers of a READDIR, no server of the cluster works on the DFS. A server may
only not let an operation pass in the middle of DEL_BARRIER: it could then still be at it in the next round.
-/

set_option linter.unusedSectionVars false

namespace Pacon.Opendir
open Function Lib Barrier

variable {ι κ : Type} [DecidableEq ι] [DecidableEq κ] [Fintype κ] (cfg : Config ι κ)

/-- The calls are `pacon_mkdir` and `pacon_create`, the clients keep to the protocol of the barriers, and
no server lets an operation pass between the two assignments of DEL_BARRIER. -/
def Isolating (s : State ι κ) : Event ι κ → Prop
  | .start _ call => Commit.Makes call
  | .barrier c => Protocol cfg.barriers s.barriers (.barrier c)
  | .opendir c _ => Protocol cfg.barriers s.barriers (.request c .readdir)
  | .commit i _ => s.barriers.cluster i = none ∨ operationInHand (s.barriers.commit i) = none
  | .client _ _ | .receive _ | .server _ _ | .take _ _ | .rpc _ _ | .cluster _ _ => True

def Clear (s : State ι κ) : Prop :=
  ∀ i slot, s.files.server i ≠ .recv → Reached cfg.barriers s.barriers i slot → slot ∈ s.barriers.released i

variable {cfg} {s t : State ι κ}

theorem Isolating.making {e : Event ι κ} (h : Isolating cfg s e) : Making s e := by
  cases e with
  | start c call => exact h
  | _ => trivial

theorem making_of_isolating (h : (system cfg).Reachable (Isolating cfg) s) : (system cfg).Reachable Making s :=
  h.mono fun _ _ _ => Isolating.making

theorem projects_protocol : (system cfg).Projects (Isolating cfg) (Barrier.system cfg.barriers)
    (ProtocolRun cfg.barriers) State.barriers where
  init start := start.1
  step isolating h := by
    apply (step_barriers h).imp_right
    intro ⟨e', seen, step⟩
    refine ⟨e', ?_, step⟩
    cases seen with
    | barrier => exact ⟨isolating, trivial⟩
    | request => exact ⟨isolating, rfl⟩
    | _ => exact ⟨trivial, trivial⟩

theorem server_starts {e : Event ι κ} (queues : Queues cfg.barriers s.barriers) (h : step cfg s e = some t) {i : ι}
    (idle : s.files.server i = .recv) (busy : t.files.server i ≠ .recv) :
    ∃ c ok, e = .commit i ok ∧ operationInHand (s.barriers.commit i) = some c ∧ t.barriers = finish s.barriers i c ∧
      s.barriers.barrier i (s.barriers.waitingBarrierId i) = false := by
  have kept (same : t.files.server i = s.files.server i) : False := busy (same.trans idle)
  cases e with
  | start c call =>
      simp only [step, Option.ite_none_right_eq_some, onFiles_eq] at h
      obtain ⟨-, does, -⟩ := h
      simp only [Commit.step, Option.ite_none_right_eq_some, Option.some.injEq] at does
      exact (kept (by rw [← does.2]; rfl)).elim
  | client c env =>
      simp only [step] at h
      split at h
      · exact (kept (congrFun (Commit.clientStep_out (onBoth_eq.mp h).2).1 i)).elim
      · exact (kept (congrFun (Commit.clientStep_out (onFiles_eq.mp h).1).1 i)).elim
  | barrier c | opendir c p | receive c =>
      simp only [step, Option.ite_none_right_eq_some, onBarriers_eq] at h
      exact (kept (by rw [h.2.2])).elim
  | server j env =>
      have does := (onFiles_eq.mp h).1
      by_cases same : i = j
      · subst same
        simp only [Commit.step, Commit.serverStep, idle] at does
        cases does
      · exact (kept ((Commit.serverStep_frame does).2 i same)).elim
  | take c garbage | rpc j ok | cluster j sender => exact (kept (by rw [(onBarriers_eq.mp h).2])).elim
  | commit j ok =>
      simp only [step] at h
      split at h
      · rename_i c inHand
        have pc := operation_of_inHand inHand
        obtain ⟨does, does'⟩ := onBoth_eq.mp h
        simp only [Barrier.step, commitStep, pc, dispatch, Option.ite_none_left_eq_some, Option.some.injEq,
          Bool.not_eq_true] at does
        by_cases same : i = j
        · subst same
          exact ⟨c, ok, rfl, inHand, does.2.symm, does.1⟩
        · have hold := queues.working j
          rw [pc] at hold
          obtain ⟨rfl, -⟩ := hold
          refine (kept ?_).elim
          generalize t.files = f at does'
          cases Commit.takeStep_move does' with
          | take => exact update_of_ne same ..
      · exact (kept (by rw [(onBarriers_eq.mp h).2])).elim

theorem Clear.step {e : Event ι κ} (clear : Clear cfg s) (orderly : Orderly cfg.barriers s.barriers) (linked : Linked cfg s)
    (isolating : Isolating cfg s e) (h : step cfg s e = some t) : Clear cfg t := by
  intro i slot busy reached
  have queues := orderly.sound.queues
  by_cases idle : s.files.server i = .recv
  · obtain ⟨c, ok, rfl, inHand, barriers, passes⟩ := server_starts queues h idle busy
    have outside := isolating.resolve_right (by simp [inHand])
    rw [barriers] at reached ⊢
    exact orderly.released_of_clear passes outside reached
  · have resting : s.barriers.commit i = .recv := by
      by_contra held
      exact idle (linked.free i held)
    rcases step_barriers h with same | ⟨e', -, does⟩
    · rw [same] at reached ⊢
      exact clear i slot idle reached
    · have move := move_of_step does
      refine move.released_mono (clear i slot idle ⟨reached.1, ?_⟩)
      intro c home
      have counted := reached.2 c home
      rcases move.counts queues c with same | busy
      · rwa [same] at counted
      · exact absurd (home ▸ resting) busy

theorem isolated_of_reachable [Nonempty ι] (digits : ∀ c k, cfg.barriers.optNum c k ≤ 9)
    (h : (system cfg).Reachable (Isolating cfg) s) :
    Orderly cfg.barriers s.barriers ∧ Accounts cfg.barriers s.barriers ∧ Linked cfg s := by
  have barriers := projects_protocol.reachable h
  exact ⟨orderly_of_reachable (fun _ _ guard => guard.2) digits barriers,
    accounts_of_reachable (fun _ _ guard => guard) digits barriers, linked_of_reachable digits (making_of_isolating h)⟩

theorem clear_of_reachable [Nonempty ι] (digits : ∀ c k, cfg.barriers.optNum c k ≤ 9)
    (h : (system cfg).Reachable (Isolating cfg) s) : Clear cfg s := by
  apply h.invariant
  · intro s initial i slot busy
    exact absurd (initial.2.server i) busy
  · intro s e t reach clear isolating step
    obtain ⟨orderly, -, linked⟩ := isolated_of_reachable digits reach
    exact clear.step orderly linked isolating step

theorem step_dfs {e : Event ι κ} (h : step cfg s e = some t) (idle : ∀ i, s.files.server i = .recv) :
    t.files.dfs = s.files.dfs := by
  have byClient {c : κ} {env : Commit.Env} {u : Commit.State ι κ}
      (does : Commit.clientStep cfg.files s.files c env = some u) : u.dfs = s.files.dfs := by
    cases Commit.clientStep_move does <;> rfl
  have byTake {c : κ} {u : Commit.State ι κ} (does : Commit.takeStep cfg.files s.files c = some u) :
      u.dfs = s.files.dfs := by
    cases Commit.takeStep_move does
    rfl
  cases e with
  | start c call =>
      simp only [step, Option.ite_none_right_eq_some, onFiles_eq] at h
      obtain ⟨-, does, -⟩ := h
      simp only [Commit.step, Option.ite_none_right_eq_some, Option.some.injEq] at does
      rw [← does.2]
      rfl
  | client c env =>
      simp only [step] at h
      split at h
      · exact byClient (onBoth_eq.mp h).2
      · exact byClient (onFiles_eq.mp h).1
  | barrier c | opendir c p | receive c =>
      simp only [step, Option.ite_none_right_eq_some, onBarriers_eq] at h
      rw [h.2.2]
  | server j env =>
      have does := (onFiles_eq.mp h).1
      simp only [Commit.step, Commit.serverStep, idle j] at does
      cases does
  | take c garbage | rpc j ok | cluster j sender => rw [(onBarriers_eq.mp h).2]
  | commit j ok =>
      simp only [step] at h
      split at h
      · exact byTake (onBoth_eq.mp h).2
      · rw [(onBarriers_eq.mp h).2]

instance (s : State ι κ) : (e : Event ι κ) → Decidable (Isolating cfg s e)
  | .start _ call => inferInstanceAs (Decidable (Commit.Makes call))
  | .barrier c => inferInstanceAs (Decidable (Protocol cfg.barriers s.barriers (.barrier c)))
  | .opendir c _ => inferInstanceAs (Decidable (Protocol cfg.barriers s.barriers (.request c .readdir)))
  | .commit _ _ => inferInstanceAs (Decidable (_ ∨ _))
  | .client _ _ | .receive _ | .server _ _ | .take _ _ | .rpc _ _ | .cluster _ _ => .isTrue trivial

def makeAnother : Commit.Call := ⟨.make .create, ['b'] :: Commit.exampleRoot⟩

def heldRun : List (Event Bool Bool) := List.flatten
  [[.barrier false, .barrier true, .opendir true Commit.exampleRoot, .receive false],
    List.replicate 3 (.commit false true), [.receive true], List.replicate 5 (.commit true true),
    .start false makeAnother :: List.replicate 3 (.client false .zero), [.receive false, .take true 0],
    List.replicate 3 (.rpc true true)]

end Pacon.Opendir
