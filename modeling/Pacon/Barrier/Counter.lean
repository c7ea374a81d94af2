import Pacon.Barrier.Completeness
import Pacon.Lib.Sums
import Mathlib.Tactic.Ring

set_option linter.unusedSectionVars false

namespace Pacon.Barrier
open Function Lib

variable {ι κ : Type} [DecidableEq ι] [DecidableEq κ] [Fintype κ] (cfg : Config ι κ)

def contributed (s : State ι κ) (slot : Nat) (c : κ) : Nat :=
  if slot < s.counted c ∨ s.commit (cfg.home c) = .reach c slot then cfg.optNum c (slot + 1) else 0

def CasOk (s : State ι κ) (slot : Nat) (v : Int) (cas : Nat) : Prop :=
  cas ≤ s.optCas slot ∧ (cas = s.optCas slot → v = s.optCount slot)

def Balanced (s : State ι κ) : Prop :=
  ∀ slot, s.optCount slot =
    (∑ c, contributed cfg s slot c : Nat) - (∑ c, s.decremented c slot : Nat)

structure Counter (s : State ι κ) : Prop where
  commitCas : ∀ i c slot n v cas, s.commit i = .casOptc c slot n v cas → CasOk s slot v cas
  rpcCas : ∀ i r slot v cas, s.rpc i = .casOptc r slot v cas → CasOk s slot v cas
  count : Balanced cfg s
  begun : ∀ c slot, 0 < s.decremented c slot → ∀ i, Reached cfg s i slot

variable {cfg}

theorem Counter.initial : Counter cfg (initialState : State ι κ) := by
  refine ⟨?_, ?_, ?_, ?_⟩
  · simp [initialState]
  · simp [initialState]
  · simp [Balanced, initialState, contributed]
  · simp [initialState]

theorem CasOk.written {s t : State ι κ} {slot slot' : Nat} {v v' : Int} {cas : Nat}
    (h : CasOk s slot v cas) (count : t.optCount = update s.optCount slot' v')
    (version : t.optCas = update s.optCas slot' (s.optCas slot' + 1)) : CasOk t slot v cas := by
  unfold CasOk at *
  rw [count, version]
  by_cases same : slot = slot'
  · subst same
    simp only [update_self]
    exact ⟨by omega, by omega⟩
  · rwa [update_of_ne same, update_of_ne same]

theorem CasOk.read (s : State ι κ) (slot : Nat) : CasOk s slot (s.optCount slot) (s.optCas slot) :=
  ⟨le_rfl, fun _ => rfl⟩

theorem commitCas_update {s : State ι κ} {i : ι} {pc : CommitPc κ}
    (old : ∀ j c slot n v cas, s.commit j = .casOptc c slot n v cas → CasOk s slot v cas)
    (new : ∀ c slot n v cas, pc = .casOptc c slot n v cas → CasOk s slot v cas) :
    ∀ j c slot n v cas, update s.commit i pc j = .casOptc c slot n v cas → CasOk s slot v cas := by
  intro j c slot n v cas at'
  by_cases same : j = i
  · subst same
    rw [update_self] at at'
    exact new c slot n v cas at'
  · rw [update_of_ne same] at at'
    exact old j c slot n v cas at'

theorem rpcCas_update {s : State ι κ} {i : ι} {pc : RpcPc ι κ}
    (old : ∀ j r slot v cas, s.rpc j = .casOptc r slot v cas → CasOk s slot v cas)
    (new : ∀ r slot v cas, pc = .casOptc r slot v cas → CasOk s slot v cas) :
    ∀ j r slot v cas, update s.rpc i pc j = .casOptc r slot v cas → CasOk s slot v cas := by
  intro j r slot v cas at'
  by_cases same : j = i
  · subst same
    rw [update_self] at at'
    exact new r slot v cas at'
  · rw [update_of_ne same] at at'
    exact old j r slot v cas at'

theorem Counter.commitCas_move {s t : State ι κ} {e : Event ι κ} (inv : Counter cfg s)
    (move : Move cfg s e t) :
    ∀ i c slot n v cas, t.commit i = .casOptc c slot n v cas → CasOk t slot v cas := by
  cases move with
  | getOptc =>
      refine commitCas_update inv.commitCas ?_
      rintro c slot n v cas ⟨⟩
      exact .read s _
  | @casOptc i ok c slot n v cas pc current =>
      subst current
      intro j c' slot' n' v' cas' at'
      refine CasOk.written ?_ rfl rfl
      exact commitCas_update inv.commitCas (by simp) j c' slot' n' v' cas' at'
  | @decrement i ok r slot v cas pc current =>
      intro j c' slot' n' v' cas' at'
      exact (inv.commitCas j c' slot' n' v' cas' at').written rfl rfl
  | receive => exact commitCas_update inv.commitCas (by simp)
  | commitOp => exact commitCas_update inv.commitCas (by simp)
  | commitFlushdir => exact commitCas_update inv.commitCas (by simp)
  | declare => exact commitCas_update inv.commitCas (by simp)
  | declareNone => exact commitCas_update inv.commitCas (by simp)
  | casOptcFail => exact commitCas_update inv.commitCas (by simp)
  | count => exact commitCas_update inv.commitCas (by simp)
  | countLast => exact commitCas_update inv.commitCas (by simp)
  | setKey => exact commitCas_update inv.commitCas (by simp)
  | setKeyFail => exact commitCas_update inv.commitCas (by simp)
  | leaveReachBarrier => exact commitCas_update inv.commitCas (by simp)
  | _ => exact inv.commitCas

theorem Counter.rpcCas_move {s t : State ι κ} {e : Event ι κ} (inv : Counter cfg s)
    (move : Move cfg s e t) :
    ∀ i r slot v cas, t.rpc i = .casOptc r slot v cas → CasOk t slot v cas := by
  cases move with
  | endGetOptc =>
      refine rpcCas_update inv.rpcCas ?_
      rintro r slot v cas ⟨⟩
      exact .read s _
  | @casOptc i ok c slot n v cas pc current =>
      subst current
      intro j r slot' v' cas' at'
      exact (inv.rpcCas j r slot' v' cas' at').written rfl rfl
  | @decrement i ok r slot v cas pc current =>
      intro j r' slot' v' cas' at'
      refine CasOk.written ?_ rfl rfl
      refine rpcCas_update inv.rpcCas ?_ j r' slot' v' cas' at'
      intro r slot v cas at'
      split at at' <;> cases at'
  | take => exact rpcCas_update inv.rpcCas (by simp)
  | takeUndefined => exact rpcCas_update inv.rpcCas (by simp)
  | waitBarrier => exact rpcCas_update inv.rpcCas (by simp)
  | waitNode => exact rpcCas_update inv.rpcCas (by simp)
  | begun => exact rpcCas_update inv.rpcCas (by simp)
  | opt => exact rpcCas_update inv.rpcCas (by simp)
  | decrementFail => exact rpcCas_update inv.rpcCas (by simp)
  | clear => exact rpcCas_update inv.rpcCas (by simp)
  | reset => exact rpcCas_update inv.rpcCas (by simp)
  | broadcasted => exact rpcCas_update inv.rpcCas (by simp)
  | advance => exact rpcCas_update inv.rpcCas (by simp)
  | reply => exact rpcCas_update inv.rpcCas (by simp)
  | delAdvance => exact rpcCas_update inv.rpcCas (by simp)
  | _ => exact inv.rpcCas

theorem contributed_congr {s t : State ι κ} {slot : Nat} {c : κ}
    (same : (slot < t.counted c ∨ t.commit (cfg.home c) = .reach c slot) ↔
      (slot < s.counted c ∨ s.commit (cfg.home c) = .reach c slot)) :
    contributed cfg t slot c = contributed cfg s slot c := by
  unfold contributed
  simp only [same]

theorem contributed_within {s t : State ι κ} {i : ι} {pc : CommitPc κ}
    (counted : t.counted = s.counted) (commit : t.commit = update s.commit i pc)
    (before : ∀ c slot, s.commit i ≠ .reach c slot) (after : ∀ c slot, pc ≠ .reach c slot) :
    contributed cfg t = contributed cfg s := by
  funext slot c
  apply contributed_congr
  rw [counted, commit]
  by_cases own : cfg.home c = i
  · rw [own, update_self]
    simp [before, after]
  · rw [update_of_ne own]

theorem contributed_reach {s t : State ι κ} {i : ι} {c : κ} (home : cfg.home c = i)
    (counted : t.counted = s.counted) (commit : t.commit = update s.commit i (.reach c (s.counted c)))
    (before : ∀ c slot, s.commit i ≠ .reach c slot) (slot : Nat) :
    ∑ c', contributed cfg t slot c' = ∑ c', contributed cfg s slot c' +
      if slot = s.counted c then cfg.optNum c (slot + 1) else 0 := by
  have others : ∀ c', c' ≠ c → contributed cfg t slot c' = contributed cfg s slot c' := by
    intro c' other
    apply contributed_congr
    rw [counted, commit]
    by_cases own : cfg.home c' = i
    · rw [own, update_self]
      simp [before, Ne.symm other]
    · rw [update_of_ne own]
  have change := sum_change c others
  have old : contributed cfg s slot c = if slot < s.counted c then cfg.optNum c (slot + 1) else 0 := by
    unfold contributed
    rw [home]
    simp [before]
  have new : contributed cfg t slot c = if slot < s.counted c ∨ slot = s.counted c then
      cfg.optNum c (slot + 1) else 0 := by
    unfold contributed
    rw [home, counted, commit, update_self]
    simp [eq_comm]
  rw [old, new] at change
  split at change
  · rename_i less
    rw [if_pos (.inl less)] at change
    rw [if_neg (by omega)]
    omega
  · rename_i less
    simp only [less, false_or] at change
    omega

theorem contributed_count {s t : State ι κ} {i : ι} {c : κ} {pc : CommitPc κ}
    (home : cfg.home c = i) (at' : s.commit i = .reach c (s.counted c))
    (counted : t.counted = update s.counted c (s.counted c + 1))
    (commit : t.commit = update s.commit i pc) (after : ∀ c slot, pc ≠ .reach c slot) :
    contributed cfg t = contributed cfg s := by
  funext slot c'
  apply contributed_congr
  rw [counted, commit]
  by_cases same : c' = c
  · subst same
    rw [home, update_self, update_self, at']
    simp only [after, or_false, CommitPc.reach.injEq, true_and]
    omega
  · rw [update_of_ne same]
    by_cases own : cfg.home c' = i
    · rw [own, update_self, at']
      simp [after, Ne.symm same]
    · rw [update_of_ne own]

theorem Balanced.congr {s t : State ι κ} (inv : Balanced cfg s) (count : t.optCount = s.optCount)
    (contribution : contributed cfg t = contributed cfg s)
    (decremented : t.decremented = s.decremented) : Balanced cfg t := by
  intro slot
  rw [count, contribution, decremented]
  exact inv slot

theorem Balanced.within {s t : State ι κ} {i : ι} {pc : CommitPc κ} (inv : Balanced cfg s)
    (count : t.optCount = s.optCount) (decremented : t.decremented = s.decremented)
    (counted : t.counted = s.counted) (commit : t.commit = update s.commit i pc)
    (before : ∀ c slot, s.commit i ≠ .reach c slot) (after : ∀ c slot, pc ≠ .reach c slot) :
    Balanced cfg t :=
  inv.congr count (contributed_within counted commit before after) decremented

theorem Balanced.reach {s t : State ι κ} {i : ι} {c : κ} (inv : Balanced cfg s)
    (home : cfg.home c = i) (counted : t.counted = s.counted)
    (commit : t.commit = update s.commit i (.reach c (s.counted c)))
    (before : ∀ c slot, s.commit i ≠ .reach c slot) (decremented : t.decremented = s.decremented)
    (count : ∀ slot, t.optCount slot = s.optCount slot +
      (if slot = s.counted c then cfg.optNum c (slot + 1) else 0 : Nat)) : Balanced cfg t := by
  intro slot
  rw [count, contributed_reach home counted commit before, decremented, inv slot]
  push_cast
  ring

theorem Queues.counted_at {s : State ι κ} (inv : Queues cfg s) {i : ι} {c : κ} {slot : Nat}
    (bar : AtBarrier cfg s i c slot) (level : (s.commit i).ahead c = 0) : slot = s.counted c := by
  rw [inv.counted c, bar.1, level]
  exact bar.2.1

theorem sum_set₂_succ {f : κ → Nat → Nat} (c : κ) (slot slot' : Nat) :
    ∑ x, set₂ f c slot (f c slot + 1) x slot' =
      ∑ x, f x slot' + if slot' = slot then 1 else 0 := by
  have change := sum_change (f := fun x => f x slot')
    (g := fun x => set₂ f c slot (f c slot + 1) x slot') c
    fun x other => set₂_of_ne fun same => absurd same other
  by_cases same : slot' = slot
  · subst same
    simp only [set₂_self, if_true] at change ⊢
    omega
  · rw [set₂_of_ne fun _ => same] at change
    rw [if_neg same]
    omega

theorem Counter.count_move {s t : State ι κ} {e : Event ι κ} (inv : Counter cfg s)
    (queues : Queues cfg s) (digits : ∀ c k, cfg.optNum c k ≤ 9) (move : Move cfg s e t) :
    Balanced cfg t := by
  have working := queues.working
  cases move with
  | receive pc =>
      exact inv.count.within rfl rfl rfl rfl (by simp [pc]) (by simp)
  | commitOp pc =>
      exact inv.count.within rfl rfl rfl rfl (by simp [pc]) (by simp)
  | commitFlushdir pc =>
      exact inv.count.within rfl rfl rfl rfl (by simp [pc]) (by simp)
  | declare pc =>
      exact inv.count.within rfl rfl rfl rfl (by simp [pc]) (by simp)
  | getOptc pc =>
      exact inv.count.within rfl rfl rfl rfl (by simp [pc]) (by simp)
  | casOptcFail pc =>
      exact inv.count.within rfl rfl rfl rfl (by simp [pc]) (by simp)
  | setKey pc =>
      exact inv.count.within rfl rfl rfl rfl (by simp [pc]) (by simp)
  | setKeyFail pc =>
      exact inv.count.within rfl rfl rfl rfl (by simp [pc]) (by simp)
  | leaveReachBarrier pc =>
      exact inv.count.within rfl rfl rfl rfl (by simp [pc]) (by simp)
  | @count i ok c slot' pc more =>
      obtain ⟨home, rfl⟩ := queues.slot_at_reach pc
      exact inv.count.congr rfl (contributed_count home pc rfl rfl (by simp)) rfl
  | @countLast i ok c slot' pc last =>
      obtain ⟨home, rfl⟩ := queues.slot_at_reach pc
      exact inv.count.congr rfl (contributed_count home pc rfl rfl (by simp)) rfl
  | @declareNone i ok c path slot' pc clear index declares =>
      obtain ⟨bar, payload⟩ := queues.slot_in_hand digits pc index
      have number := queues.counted_at bar (by simp [pc, CommitPc.ahead])
      subst number
      have none : cfg.optNum c (s.counted c + 1) = 0 := by
        rw [payload, declaresOpts_payload (digits _ _)] at declares
        simpa using declares
      refine inv.count.reach bar.1 rfl rfl (by simp [pc]) rfl ?_
      intro slot
      split
      · rename_i same
        rw [same, none]
        simp
      · simp
  | @casOptc i ok c slot' n v cas pc current =>
      have at' := working i
      rw [pc] at at'
      obtain ⟨bar, rfl⟩ := at'
      have number := queues.counted_at bar (by simp [pc, CommitPc.ahead])
      have value := (inv.commitCas i c slot' _ v cas pc).2 current.symm
      subst number value
      refine inv.count.reach bar.1 rfl rfl (by simp [pc]) rfl ?_
      intro slot
      by_cases same : slot = s.counted c
      · subst same
        simp
      · simp [same]
  | @decrement i ok r slot' v cas pc current =>
      have value := (inv.rpcCas i r slot' v cas pc).2 current.symm
      subst value
      intro slot
      have before := inv.count slot
      have same : contributed cfg (decrement s i r slot' (s.optCount slot')) = contributed cfg s := rfl
      rw [same]
      simp only [decrement]
      rw [sum_set₂_succ]
      by_cases same : slot = slot'
      · subst same
        simp only [update_self, if_true]
        rw [before]
        push_cast
        ring
      · simp only [update_of_ne same, if_neg same]
        exact before
  | _ => exact inv.count

theorem Counter.begun_move {s t : State ι κ} {e : Event ι κ} (inv : Counter cfg s)
    (serving : Serving cfg s) (move : Move cfg s e t) (c : κ) (slot : Nat)
    (positive : 0 < t.decremented c slot) (i : ι) : Reached cfg t i slot := by
  refine Reached.mono (s := s) ?_ move.counted_mono
  cases move with
  | @decrement j ok r slot' v cas pc current =>
      by_cases own : c = r.client ∧ slot = slot'
      · obtain ⟨-, rfl⟩ := own
        exact serving.seen j slot i (by rw [pc]; rfl) (by rw [pc]; trivial)
      · simp only [decrement] at positive
        rw [set₂_of_ne fun eq eq' => own ⟨eq, eq'⟩] at positive
        exact inv.begun c slot positive i
  | _ => exact inv.begun c slot positive i

theorem Counter.move {s t : State ι κ} {e : Event ι κ} (inv : Counter cfg s) (sound : Sound cfg s)
    (digits : ∀ c k, cfg.optNum c k ≤ 9) (move : Move cfg s e t) : Counter cfg t :=
  ⟨inv.commitCas_move move, inv.rpcCas_move move, inv.count_move sound.queues digits move,
    inv.begun_move sound.serving move⟩

end Pacon.Barrier
