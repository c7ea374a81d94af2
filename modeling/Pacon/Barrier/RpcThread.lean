import Pacon.Barrier.Accounting

/-!
# One RPC thread for all rounds

A thread that waits for a round serves nothing else. It can get there while a request of an earlier
round is on its queue, unless the clients of the node keep in step.
-/

set_option linter.unusedSectionVars false

namespace Pacon.Barrier
open Function Lib

section General
variable {ι κ : Type} [DecidableEq ι] [DecidableEq κ] [Fintype κ] (cfg : Config ι κ)

def FinishedBefore (s : State ι κ) (c : κ) (k : Nat) : Prop :=
  k ≤ s.currentBarrierId c ∨
    (s.call c = .none ∧
      (s.currentBarrierId c = 0 ∨ s.issued c = cfg.optNum c (s.currentBarrierId c)) ∧
      ∀ k' < k, s.currentBarrierId c < k' → cfg.optNum c k' = 0)

def InStep (s : State ι κ) : Event ι κ → Prop
  | .request c _ => ∀ c', cfg.home c' = cfg.home c → FinishedBefore cfg s c' (s.currentBarrierId c)
  | _ => True

def InStepRun (s : State ι κ) (e : Event ι κ) : Prop := ProtocolRun cfg s e ∧ InStep cfg s e

/-- The thread of `i` waits in `broadcast_barrier_begin_new` for `slot`, which its node reaches only
after `earlier` is released, and `c` has declared a request for `earlier` that it has yet to serve. -/
def BlocksEarlier (s : State ι κ) (i : ι) (c : κ) (earlier slot : Nat) : Prop :=
  (∃ r, s.rpc i = .waitBarrier r slot ∨ ∃ rest, s.rpc i = .waitNodes r slot rest) ∧
  earlier < slot ∧ cfg.home c = i ∧ s.executed c earlier < cfg.optNum c (earlier + 1) ∧
  ∀ t, (system cfg).Follows (ProtocolRun cfg) s t → Reached cfg t i slot → earlier ∈ t.released i

def Ordered (s : State ι κ) : Prop :=
  ∀ c r k, s.call c = .sent r ∨ s.call c = .received r → r.barrierId = some k →
    ∀ c' slot, cfg.home c' = cfg.home c → slot + 1 < k →
      s.executed c' slot = cfg.optNum c' (slot + 1)

variable {cfg}

theorem Move.executed_mono {s t : State ι κ} {e : Event ι κ} (move : Move cfg s e t) (c : κ)
    (slot : Nat) : s.executed c slot ≤ t.executed c slot := by
  cases move with
  | @opt i ok r slot' =>
      by_cases own : c = r.client ∧ slot = slot'
      · obtain ⟨rfl, rfl⟩ := own
        simp
      · exact (set₂_of_ne fun eq eq' => own ⟨eq, eq'⟩).ge
  | _ => exact le_rfl

theorem executed_of_finished {s : State ι κ} (accounts : Accounts cfg s) {c : κ} {k slot : Nat}
    (finished : FinishedBefore cfg s c k) (before : slot + 1 < k) :
    s.executed c slot = cfg.optNum c (slot + 1) := by
  have account := accounts.executed c slot
  rcases finished with ahead | ⟨free, issued, none⟩
  · rw [due_earlier (by omega), if_neg (by omega)] at account
    exact account
  · have idle : outstanding cfg RpcPc.beforeOpt s c = 0 := by
      simp [outstanding, free]
    simp only [idle, ite_self, add_zero] at account
    rw [account]
    rcases Nat.lt_trichotomy (slot + 1) (s.currentBarrierId c) with early | last | late
    · exact due_earlier early
    · rw [due_current last, last]
      exact issued.resolve_left (by omega)
    · rw [due_later late, none _ before late]

theorem Ordered.move {s t : State ι κ} {e : Event ι κ} (inv : Ordered cfg s)
    (before : Accounts cfg s) (after : Accounts cfg t) (inStep : InStep cfg s e)
    (withId : WithId s e) (move : Move cfg s e t) : Ordered cfg t := by
  have kept {c slot} (all : s.executed c slot = cfg.optNum c (slot + 1)) :
      t.executed c slot = cfg.optNum c (slot + 1) :=
    le_antisymm (after.executed_le c slot) (all ▸ move.executed_mono c slot)
  intro c r k waits carries c' slot home earlier
  have old (waits : s.call c = .sent r ∨ s.call c = .received r) :
      t.executed c' slot = cfg.optNum c' (slot + 1) :=
    kept (inv c r k waits carries c' slot home earlier)
  cases move with
  | flush => exact absurd withId id
  | @request c₀ opt free notFlush =>
      simp only [addToLocalRpc, State.request_client] at waits
      by_cases own : c = c₀
      · subst own
        simp only [update_self, Call.sent.injEq, reduceCtorEq, or_false] at waits
        subst waits
        cases (s.request_barrierId c withId).symm.trans carries
        exact kept (executed_of_finished before (inStep c' home) earlier)
      · rw [update_of_ne own] at waits
        exact old waits
  | @take c₀ garbage r₀ slot₀ sent idle id =>
      by_cases own : c = c₀
      · subst own
        simp only [update_self, Call.received.injEq, reduceCtorEq, false_or] at waits
        subst waits
        exact old (.inl sent)
      · simp only [update_of_ne own] at waits
        exact old waits
  | @takeUndefined c₀ garbage r₀ sent idle id =>
      by_cases own : c = c₀
      · subst own
        simp only [update_self, Call.received.injEq, reduceCtorEq, false_or] at waits
        subst waits
        exact old (.inl sent)
      · simp only [update_of_ne own] at waits
        exact old waits
  | @reply i ok r₀ pc =>
      by_cases own : c = r₀.client
      · subst own
        simp at waits
      · simp only [update_of_ne own] at waits
        exact old waits
  | _ => exact old waits

/-- Clients in step never make the thread wait for a round while it owes service to an earlier. -/
theorem rpc_thread_in_step (digits : ∀ c k, cfg.optNum c k ≤ 9) {s : State ι κ}
    (h : (system cfg).Reachable (InStepRun cfg) s) (i : ι) (c : κ)
    (earlier slot : Nat) : ¬ BlocksEarlier cfg s i c earlier slot := by
  have : Nonempty ι := ⟨i⟩
  have accounts {s} (h : (system cfg).Reachable (InStepRun cfg) s) :
      Accounts cfg s := accounts_of_reachable (fun _ _ guard => guard.1) digits h
  have ordered : Ordered cfg s := by
    apply h.invariant
    · rintro s rfl c r k waits
      simp [initialState] at waits
    · intro s e t reach inv guard step
      exact inv.move (accounts reach) (accounts (.next reach guard step)) guard.2 guard.1.2
        (move_of_step step)
  have orderly := orderly_of_reachable (fun _ _ guard => guard.1.2) digits h
  rintro ⟨⟨r, pc⟩, less, home, owed, -⟩
  have serves : (s.rpc i).request = some r ∧ (s.rpc i).slot = some slot := by
    rcases pc with pc | ⟨rest, pc⟩ <;> rw [pc] <;> exact ⟨rfl, rfl⟩
  obtain ⟨home', round⟩ := round_of_served orderly.sound orderly.withId serves.1 serves.2
  have received := (orderly.sound.serving.served i r serves.1).2
  have id := orderly.sound.serving.id r.client r (.inr received)
  rw [if_pos (orderly.withId.call r.client r (.inr received)), round] at id
  have all := ordered r.client r (slot + 1) (.inr received) id c earlier (home.trans home'.symm)
    (by omega)
  omega

theorem waits_forever {ok : State ι κ → Event ι κ → Prop} (digits : ∀ c k, cfg.optNum c k ≤ 9)
    {s t : State ι κ} (h : (system cfg).Reachable ok s) {i : ι} {c : κ} {r r' : Request κ} {slot : Nat}
    (home : cfg.home c = i) (waits : s.rpc i = .waitBarrier r slot) (behind : s.call c = .sent r')
    (early : s.currentBarrierId c ≤ slot) (follows : (system cfg).Follows ok s t) :
    ¬ Reached cfg t i slot := by
  have unreached {s} (sound : Sound cfg s) (early : s.currentBarrierId c ≤ slot) :
      ¬ Reached cfg s i slot := by
    intro reached
    have counted := counted_le_round sound.queues c
    have later := reached.2 c home
    omega
  suffices stuck : (system cfg).Reachable ok t ∧ t.rpc i = .waitBarrier r slot ∧ t.call c = .sent r' ∧
      t.currentBarrierId c ≤ slot from unreached (sound_of_reachable digits stuck.1) stuck.2.2.2
  refine follows.invariant (P := fun t => (system cfg).Reachable ok t ∧ t.rpc i = .waitBarrier r slot ∧
    t.call c = .sent r' ∧ t.currentBarrierId c ≤ slot) ⟨h, waits, behind, early⟩ ?_
  rintro s e t ⟨reach, waits, behind, early⟩ guard step
  refine ⟨.next reach guard step, ?_⟩
  have sound := sound_of_reachable digits reach
  have busy {c'} (own : c' = c) (free : s.call c' = .none) : False := by
    subst own
    rw [behind] at free
    cases free
  have other {j pc} (at' : s.rpc j = pc) (differs : pc ≠ .waitBarrier r slot) : i ≠ j := by
    rintro rfl
    exact differs (at'.symm.trans waits)
  have apart {c'} (away : i ≠ cfg.home c') : c ≠ c' := by
    rintro rfl
    exact away home.symm
  cases move_of_step step with
  | @barrier c' free =>
      have apart : c ≠ c' := fun own => busy own.symm free
      exact ⟨waits, behind, by simpa [paconBarrier, apart] using early⟩
  | @request c' opt free =>
      have apart : c ≠ c' := fun own => busy own.symm free
      exact ⟨waits, by simpa [addToLocalRpc, apart] using behind, early⟩
  | @flush c' free =>
      have apart : c ≠ c' := fun own => busy own.symm free
      exact ⟨waits, by simpa [flushDir, apart] using behind, early⟩
  | @take c' garbage r₀ slot₀ sent idle =>
      have away : i ≠ cfg.home c' := other idle (by simp)
      exact ⟨by simpa [away] using waits, by simpa [apart away] using behind, early⟩
  | @takeUndefined c' garbage r₀ sent idle =>
      have away : i ≠ cfg.home c' := other idle (by simp)
      exact ⟨by simpa [away] using waits, by simpa [apart away] using behind, early⟩
  | @waitBarrier j ok r₀ slot₀ pc set =>
      by_cases same : i = j
      · subst same
        rw [waits] at pc
        cases pc
        exact absurd (sound.flags.flag _ _ set) (unreached sound early)
      · exact ⟨by simpa [same] using waits, behind, early⟩
  | @reply j ok r₀ pc =>
      have away : i ≠ j := other pc (by simp)
      have apart : c ≠ r₀.client := by
        rintro rfl
        have received := (sound.serving.served j r₀ (by rw [pc]; rfl)).2
        rw [behind] at received
        cases received
      exact ⟨by simpa [away] using waits, by simpa [apart] using behind, early⟩
  | waitNode pc => exact ⟨by simpa [other pc (by simp)] using waits, behind, early⟩
  | begun pc => exact ⟨by simpa [other pc (by simp)] using waits, behind, early⟩
  | opt pc => exact ⟨by simpa [other pc (by simp)] using waits, behind, early⟩
  | endGetOptc pc => exact ⟨by simpa [other pc (by simp)] using waits, behind, early⟩
  | decrement pc => exact ⟨by simpa [decrement, other pc (by simp)] using waits, behind, early⟩
  | decrementFail pc => exact ⟨by simpa [other pc (by simp)] using waits, behind, early⟩
  | clear pc => exact ⟨by simpa [other pc (by simp)] using waits, behind, early⟩
  | reset pc => exact ⟨by simpa [other pc (by simp)] using waits, behind, early⟩
  | broadcasted pc => exact ⟨by simpa [other pc (by simp)] using waits, behind, early⟩
  | advance pc => exact ⟨by simpa [other pc (by simp)] using waits, behind, early⟩
  | delAdvance pc => exact ⟨by simpa [other pc (by simp)] using waits, behind, early⟩
  | _ => exact ⟨waits, behind, early⟩
instance (s : State ι κ) (c : κ) (k : Nat) : Decidable (FinishedBefore cfg s c k) :=
  inferInstanceAs (Decidable (_ ∨ _ ∧ _ ∧ _))

instance (s : State ι κ) : (e : Event ι κ) → Decidable (InStep cfg s e)
  | .request c _ => inferInstanceAs (Decidable (∀ c', cfg.home c' = cfg.home c →
      FinishedBefore cfg s c' (s.currentBarrierId c)))
  | .send _ | .barrier _ | .flush _ | .receive _ | .commit _ _ | .take _ _ | .rpc _ _
  | .cluster _ _ => .isTrue trivial

instance (s : State ι κ) (e : Event ι κ) : Decidable (InStepRun cfg s e) :=
  inferInstanceAs (Decidable (_ ∧ _))
end General

def secondRoundRun : List (Event Unit Bool) := List.flatten
  [[.barrier false, .barrier true, .request false .rmdir, .receive false],
    List.replicate 4 (.commit () true), [.receive true], List.replicate 5 (.commit () true),
    [.take false 0], List.replicate 6 (.rpc () true), [.request true .rmdir, .take true 0],
    List.replicate 10 (.rpc () true), [.barrier false, .request false .rmdir, .take false 0]]

theorem rpc_thread_second_round : ∃ s,
    (system twoClients).Reachable (InStepRun twoClients) s ∧
    s.rpc () = .waitBarrier ⟨false, .rmdir, some 2⟩ 1 ∧ s.currentBarrierId true = 1 ∧
    ¬ BlocksEarlier twoClients s () true 0 1 := by
  obtain ⟨s, reach, holds⟩ := System.exists_reachable (system twoClients) (InStepRun twoClients)
    (s := initialState) rfl secondRoundRun
    (fun s => s.rpc () = .waitBarrier ⟨false, .rmdir, some 2⟩ 1 ∧ s.currentBarrierId true = 1) rfl
  obtain ⟨waits, behind⟩ := of_decide_eq_true holds
  exact ⟨s, reach, waits, behind,
    rpc_thread_in_step (by simp [twoClients, Config.oneNode]) reach () true 0 1⟩

def apart : Config Unit Bool :=
  .oneNode fun c k => if (c = false ∧ k = 2) ∨ (c = true ∧ k = 1) then 1 else 0

theorem rpc_thread_blocks : ∃ s, (system apart).Reachable (ProtocolRun apart) s ∧
    BlocksEarlier apart s () true 0 1 := by
  obtain ⟨s, reach, holds⟩ := System.exists_reachable (system apart) (ProtocolRun apart)
    (s := initialState) rfl
    [.barrier false, .barrier false, .request false .rmdir, .barrier true, .request true .rmdir,
      .take false 0]
    (fun s => s.rpc () = .waitBarrier ⟨false, .rmdir, some 2⟩ 1 ∧
      s.call true = .sent ⟨true, .rmdir, some 1⟩ ∧ s.currentBarrierId true ≤ 1 ∧
      s.executed true 0 < apart.optNum true 1) rfl
  obtain ⟨waits, behind, early, owed⟩ := of_decide_eq_true holds
  have digits : ∀ c k, apart.optNum c k ≤ 9 := by
    intro c k
    simp only [apart, Config.oneNode]
    split <;> omega
  refine ⟨s, reach, ⟨_, .inl waits⟩, Nat.zero_lt_one, rfl, owed, fun t follows reached => ?_⟩
  exact absurd reached (waits_forever digits reach rfl waits behind early follows)

end Pacon.Barrier
