import Pacon.Barrier.Release

/-!
# Clients that keep to the protocol

In each round a client issues as many requests as it declared, one after the other, before its next
barrier. The requests executed and subtracted then follow from where the client is.
-/

set_option linter.unusedSectionVars false

namespace Pacon.Barrier
open Function Lib

variable {ι κ : Type} [DecidableEq ι] [DecidableEq κ] [Fintype κ] (cfg : Config ι κ)

def Protocol (s : State ι κ) : Event ι κ → Prop
  | .barrier c => s.currentBarrierId c = 0 ∨ s.issued c = cfg.optNum c (s.currentBarrierId c)
  | .request c _ => 0 < s.currentBarrierId c ∧ s.issued c < cfg.optNum c (s.currentBarrierId c)
  | _ => True

instance (s : State ι κ) : (e : Event ι κ) → Decidable (Protocol cfg s e)
  | .barrier _ => inferInstanceAs (Decidable (_ ∨ _))
  | .request _ _ => inferInstanceAs (Decidable (_ ∧ _))
  | .send _ | .flush _ | .receive _ | .commit _ _ | .take _ _ | .rpc _ _ | .cluster _ _ =>
      .isTrue trivial

def RpcPc.beforeOpt : RpcPc ι κ → Bool
  | .waitBarrier _ _ | .waitNodes _ _ _ | .opt _ _ | .undefined _ => true
  | .recv | .getOptc _ _ | .casOptc _ _ _ _ | .clear _ _ | .reset _ _ | .broadcast _ _ _
  | .advance _ _ | .reply _ => false

def RpcPc.beforeDecrement : RpcPc ι κ → Bool
  | .waitBarrier _ _ | .waitNodes _ _ _ | .opt _ _ | .undefined _ | .getOptc _ _
  | .casOptc _ _ _ _ => true
  | .recv | .clear _ _ | .reset _ _ | .broadcast _ _ _ | .advance _ _ | .reply _ => false

def outstanding (before : RpcPc ι κ → Bool) (s : State ι κ) (c : κ) : Nat :=
  match s.call c with
  | .none => 0
  | .sent _ => 1
  | .received _ => if before (s.rpc (cfg.home c)) then 1 else 0

def due (s : State ι κ) (c : κ) (slot : Nat) : Nat :=
  if slot + 1 < s.currentBarrierId c then cfg.optNum c (slot + 1)
  else if slot + 1 = s.currentBarrierId c then s.issued c else 0

def Accounted (before : RpcPc ι κ → Bool) (done : κ → Nat → Nat) (s : State ι κ) : Prop :=
  ∀ c slot, done c slot +
    (if slot + 1 = s.currentBarrierId c then outstanding cfg before s c else 0) = due cfg s c slot

structure Accounts (s : State ι κ) : Prop where
  issued : ∀ c, s.issued c ≤ cfg.optNum c (s.currentBarrierId c)
  started : ∀ c, s.call c ≠ .none → 0 < s.currentBarrierId c
  executed : Accounted cfg RpcPc.beforeOpt s.executed s
  decremented : Accounted cfg RpcPc.beforeDecrement s.decremented s

variable {cfg}

theorem Accounts.initial : Accounts cfg (initialState : State ι κ) := by
  refine ⟨?_, ?_, ?_, ?_⟩
  · simp [initialState]
  · simp [initialState]
  · intro c slot
    simp [initialState, due]
  · intro c slot
    simp [initialState, due]

theorem due_earlier {s : State ι κ} {c : κ} {slot : Nat} (h : slot + 1 < s.currentBarrierId c) :
    due cfg s c slot = cfg.optNum c (slot + 1) := if_pos h

theorem due_current {s : State ι κ} {c : κ} {slot : Nat} (h : slot + 1 = s.currentBarrierId c) :
    due cfg s c slot = s.issued c := by
  rw [due, if_neg (by omega), if_pos h]

theorem due_later {s : State ι κ} {c : κ} {slot : Nat} (h : s.currentBarrierId c < slot + 1) :
    due cfg s c slot = 0 := by
  rw [due, if_neg (by omega), if_neg (by omega)]

theorem due_congr {s t : State ι κ} {c : κ} {slot : Nat}
    (id : t.currentBarrierId c = s.currentBarrierId c) (issued : t.issued c = s.issued c) :
    due cfg t c slot = due cfg s c slot := by
  rw [due, due, id, issued]

theorem account_congr {before : RpcPc ι κ → Bool} {s t : State ι κ} {c : κ} {slot n : Nat}
    (account : n + (if slot + 1 = s.currentBarrierId c then outstanding cfg before s c else 0) =
      due cfg s c slot)
    (call : t.call c = s.call c) (rpc : t.rpc (cfg.home c) = s.rpc (cfg.home c))
    (id : t.currentBarrierId c = s.currentBarrierId c) (issued : t.issued c = s.issued c) :
    n + (if slot + 1 = t.currentBarrierId c then outstanding cfg before t c else 0) =
      due cfg t c slot := by
  have same : outstanding cfg before t c = outstanding cfg before s c := by
    rw [outstanding, outstanding, call, rpc]
  rw [id, same, due_congr id issued]
  exact account

theorem Accounted.frame {before : RpcPc ι κ → Bool} {done : κ → Nat → Nat} {s t : State ι κ}
    (inv : Accounted cfg before done s) (call : t.call = s.call) (rpc : t.rpc = s.rpc)
    (id : t.currentBarrierId = s.currentBarrierId) (issued : t.issued = s.issued) :
    Accounted cfg before done t := by
  intro c slot
  simpa only [outstanding, due, call, rpc, id, issued] using inv c slot

theorem client_of_served {s : State ι κ} (serving : Serving cfg s) {i : ι} {r r' : Request κ} {c : κ}
    (serves : (s.rpc i).request = some r) (home : cfg.home c = i)
    (received : s.call c = .received r') : c = r.client := by
  have serves' := serving.serving c r' received
  rw [home, serves, Option.some.injEq] at serves'
  rw [serves']
  exact (serving.client c r' (.inr received)).symm

theorem Accounted.goOn {before : RpcPc ι κ → Bool} {done : κ → Nat → Nat} {s t : State ι κ}
    (inv : Accounted cfg before done s) {i : ι} {pc : RpcPc ι κ} (call : t.call = s.call)
    (rpc : t.rpc = update s.rpc i pc) (id : t.currentBarrierId = s.currentBarrierId)
    (issued : t.issued = s.issued) (same : before pc = before (s.rpc i)) :
    Accounted cfg before done t := by
  have unchanged : outstanding cfg before t = outstanding cfg before s := by
    funext c
    unfold outstanding
    rw [call, rpc]
    cases s.call c with
    | received r =>
        by_cases own : cfg.home c = i
        · simp only [own, update_self, same]
        · simp only [update_of_ne own]
    | _ => rfl
  intro c slot
  simpa only [unchanged, due, id, issued] using inv c slot

theorem Accounted.pass {before : RpcPc ι κ → Bool} {done : κ → Nat → Nat} {s t : State ι κ}
    (inv : Accounted cfg before done s) (sound : Sound cfg s) (withId : AllWithId s) {i : ι}
    {r : Request κ} {slot : Nat} {pc : RpcPc ι κ} (serves : (s.rpc i).request = some r)
    (here : (s.rpc i).slot = some slot) (call : t.call = s.call) (rpc : t.rpc = update s.rpc i pc)
    (id : t.currentBarrierId = s.currentBarrierId) (issued : t.issued = s.issued)
    (was : before (s.rpc i) = true) (now : before pc = false) :
    Accounted cfg before (set₂ done r.client slot (done r.client slot + 1)) t := by
  obtain ⟨home, round⟩ := round_of_served sound withId serves here
  have received := (sound.serving.served i r serves).2
  intro c slot'
  have account := inv c slot'
  have same : due cfg t c slot' = due cfg s c slot' := by
    simp only [due, id, issued]
  rw [same, id]
  by_cases own : c = r.client
  · subst own
    have before' : outstanding cfg before s r.client = 1 := by
      unfold outstanding
      simp [received, home, was]
    have after' : outstanding cfg before t r.client = 0 := by
      unfold outstanding
      simp [call, rpc, received, home, now]
    rw [before'] at account
    rw [after']
    by_cases at' : slot' = slot
    · subst at'
      rw [if_pos round.symm] at account ⊢
      rw [set₂_self]
      omega
    · rw [if_neg (by omega)] at account ⊢
      rw [set₂_of_ne fun _ => at']
      exact account
  · have unchanged : outstanding cfg before t c = outstanding cfg before s c := by
      unfold outstanding
      rw [call, rpc]
      cases waits : s.call c with
      | received r' =>
          have away : cfg.home c ≠ i := by
            intro home'
            exact own (client_of_served sound.serving serves home' waits)
          simp only [update_of_ne away]
      | _ => rfl
    rw [unchanged, set₂_of_ne fun same => absurd same own]
    exact account

theorem Accounted.barrier {before : RpcPc ι κ → Bool} {done : κ → Nat → Nat} {s : State ι κ}
    (inv : Accounted cfg before done s) {c : κ} (free : s.call c = .none)
    (ready : s.currentBarrierId c = 0 ∨ s.issued c = cfg.optNum c (s.currentBarrierId c)) :
    Accounted cfg before done (paconBarrier cfg s c) := by
  intro c' slot
  have account := inv c' slot
  by_cases own : c' = c
  · subst own
    have idle : outstanding cfg before s c' = 0 := by
      simp [outstanding, free]
    have idle' : outstanding cfg before (paconBarrier cfg s c') c' = 0 := by
      simp [outstanding, paconBarrier, free]
    have round : (paconBarrier cfg s c').currentBarrierId c' = s.currentBarrierId c' + 1 := by
      simp [paconBarrier]
    simp only [idle, ite_self, add_zero] at account
    simp only [idle', ite_self, add_zero]
    rw [account]
    rcases Nat.lt_trichotomy (slot + 1) (s.currentBarrierId c') with early | last | late
    · rw [due_earlier early, due_earlier (by omega)]
    · rw [due_current last, due_earlier (by omega), last]
      exact ready.resolve_left (by omega)
    · rw [due_later late]
      by_cases next : slot + 1 = (paconBarrier cfg s c').currentBarrierId c'
      · rw [due_current next]
        simp [paconBarrier]
      · rw [due_later (by omega)]
  · exact account_congr account rfl rfl (update_of_ne own ..) (update_of_ne own ..)

theorem Accounted.request {before : RpcPc ι κ → Bool} {done : κ → Nat → Nat} {s : State ι κ}
    (inv : Accounted cfg before done s) {r : Request κ} (free : s.call r.client = .none) :
    Accounted cfg before done (addToLocalRpc s r) := by
  intro c slot
  have account := inv c slot
  by_cases own : c = r.client
  · subst own
    have idle : outstanding cfg before s r.client = 0 := by
      simp [outstanding, free]
    have sent : outstanding cfg before (addToLocalRpc s r) r.client = 1 := by
      simp [outstanding, addToLocalRpc]
    have same : (addToLocalRpc s r).currentBarrierId r.client = s.currentBarrierId r.client := rfl
    rw [idle] at account
    rw [sent, same]
    rcases Nat.lt_trichotomy (slot + 1) (s.currentBarrierId r.client) with early | last | late
    · rw [due_earlier early, if_neg (by omega)] at account
      rw [due_earlier (same ▸ early), if_neg (by omega), account]
    · rw [due_current last, if_pos last] at account
      rw [due_current (same ▸ last), if_pos last]
      simp only [addToLocalRpc, update_self]
      omega
    · rw [due_later late, if_neg (by omega)] at account
      rw [due_later (same ▸ late), if_neg (by omega), account]
  · exact account_congr account (update_of_ne own ..) rfl rfl (update_of_ne own ..)

theorem Accounted.take {before : RpcPc ι κ → Bool} {done : κ → Nat → Nat} {s t : State ι κ}
    (inv : Accounted cfg before done s) (serving : Serving cfg s) {c : κ} {r : Request κ}
    {pc : RpcPc ι κ} (sent : s.call c = .sent r) (idle : s.rpc (cfg.home c) = .recv)
    (call : t.call = update s.call c (.received r)) (rpc : t.rpc = update s.rpc (cfg.home c) pc)
    (id : t.currentBarrierId = s.currentBarrierId) (issued : t.issued = s.issued)
    (early : before pc = true) : Accounted cfg before done t := by
  have unchanged : outstanding cfg before t = outstanding cfg before s := by
    funext c'
    unfold outstanding
    rw [call, rpc]
    by_cases own : c' = c
    · subst own
      simp [sent, early]
    · rw [update_of_ne own]
      cases waits : s.call c' with
      | received r' =>
          have away : cfg.home c' ≠ cfg.home c := by
            intro same
            have serves := serving.serving c' r' waits
            rw [same, idle] at serves
            cases serves
          simp only [update_of_ne away]
      | _ => rfl
  intro c' slot
  simpa only [unchanged, due, id, issued] using inv c' slot

theorem Accounted.reply {before : RpcPc ι κ → Bool} {done : κ → Nat → Nat} {s t : State ι κ}
    (inv : Accounted cfg before done s) (serving : Serving cfg s) {i : ι} {r : Request κ}
    (pc : s.rpc i = .reply r) (call : t.call = update s.call r.client .none)
    (rpc : t.rpc = update s.rpc i .recv) (id : t.currentBarrierId = s.currentBarrierId)
    (issued : t.issued = s.issued) (past : before (.reply r) = false) :
    Accounted cfg before done t := by
  obtain ⟨home, received⟩ := serving.served i r (by rw [pc]; rfl)
  have unchanged : outstanding cfg before t = outstanding cfg before s := by
    funext c
    unfold outstanding
    rw [call, rpc]
    by_cases own : c = r.client
    · subst own
      simp [received, home, pc, past]
    · rw [update_of_ne own]
      cases waits : s.call c with
      | received r' =>
          have away : cfg.home c ≠ i := by
            intro home'
            exact own (client_of_served serving (by rw [pc]; rfl) home' waits)
          simp only [update_of_ne away]
      | _ => rfl
  intro c slot
  simpa only [unchanged, due, id, issued] using inv c slot

theorem Accounts.rpc {s t : State ι κ} (inv : Accounts cfg s) {i : ι} {pc : RpcPc ι κ}
    (call : t.call = s.call) (rpc : t.rpc = update s.rpc i pc)
    (id : t.currentBarrierId = s.currentBarrierId) (issued : t.issued = s.issued)
    (opt : pc.beforeOpt = (s.rpc i).beforeOpt)
    (decrement : pc.beforeDecrement = (s.rpc i).beforeDecrement)
    (executed : t.executed = s.executed) (decremented : t.decremented = s.decremented) :
    Accounts cfg t := by
  refine ⟨?_, ?_, ?_, ?_⟩
  · simpa only [issued, id] using inv.issued
  · simpa only [call, id] using inv.started
  · rw [executed]
    exact inv.executed.goOn call rpc id issued opt
  · rw [decremented]
    exact inv.decremented.goOn call rpc id issued decrement

theorem Accounts.take {s t : State ι κ} (inv : Accounts cfg s) (serving : Serving cfg s) {c : κ}
    {r : Request κ} {pc : RpcPc ι κ} (sent : s.call c = .sent r) (idle : s.rpc (cfg.home c) = .recv)
    (call : t.call = update s.call c (.received r)) (rpc : t.rpc = update s.rpc (cfg.home c) pc)
    (id : t.currentBarrierId = s.currentBarrierId) (issued : t.issued = s.issued)
    (opt : pc.beforeOpt = true) (decrement : pc.beforeDecrement = true)
    (executed : t.executed = s.executed) (decremented : t.decremented = s.decremented) :
    Accounts cfg t := by
  refine ⟨?_, ?_, ?_, ?_⟩
  · simpa only [issued, id] using inv.issued
  · intro c' waits
    rw [id]
    by_cases own : c' = c
    · subst own
      exact inv.started c' (by simp [sent])
    · rw [call, update_of_ne own] at waits
      exact inv.started c' waits
  · rw [executed]
    exact inv.executed.take serving sent idle call rpc id issued opt
  · rw [decremented]
    exact inv.decremented.take serving sent idle call rpc id issued decrement

theorem Accounts.move {s t : State ι κ} {e : Event ι κ} (inv : Accounts cfg s) (sound : Sound cfg s)
    (withId : AllWithId s) (keeps : Protocol cfg s e) (guard : WithId s e)
    (move : Move cfg s e t) : Accounts cfg t := by
  cases move with
  | flush => exact absurd guard id
  | @barrier c free =>
      refine ⟨?_, ?_, inv.executed.barrier free keeps, inv.decremented.barrier free keeps⟩
      · intro c'
        by_cases own : c' = c
        · subst own
          simp [paconBarrier]
        · simpa [paconBarrier, own] using inv.issued c'
      · intro c' waits
        by_cases own : c' = c
        · subst own
          simp [paconBarrier]
        · simpa [paconBarrier, own] using inv.started c' waits
  | @request c opt free notFlush =>
      obtain ⟨inRound, fewer⟩ := keeps
      refine ⟨?_, ?_, inv.executed.request free, inv.decremented.request free⟩
      · intro c'
        by_cases own : c' = c
        · subst own
          simpa [addToLocalRpc] using Nat.succ_le_of_lt fewer
        · simpa [addToLocalRpc, own] using inv.issued c'
      · intro c' waits
        by_cases own : c' = c
        · subst own
          exact inRound
        · exact inv.started c' (by simpa [addToLocalRpc, own] using waits)
  | take sent idle => exact inv.take sound.serving sent idle rfl rfl rfl rfl rfl rfl rfl rfl
  | takeUndefined sent idle => exact inv.take sound.serving sent idle rfl rfl rfl rfl rfl rfl rfl rfl
  | waitBarrier pc => exact inv.rpc rfl rfl rfl rfl (by rw [pc]; rfl) (by rw [pc]; rfl) rfl rfl
  | waitNode pc => exact inv.rpc rfl rfl rfl rfl (by rw [pc]; rfl) (by rw [pc]; rfl) rfl rfl
  | begun pc => exact inv.rpc rfl rfl rfl rfl (by rw [pc]; rfl) (by rw [pc]; rfl) rfl rfl
  | @opt i ok r slot pc =>
      refine ⟨inv.issued, inv.started, ?_, ?_⟩
      · exact inv.executed.pass sound withId (by rw [pc]; rfl) (by rw [pc]; rfl) rfl rfl rfl rfl
          (by rw [pc]; rfl) rfl
      · exact inv.decremented.goOn rfl rfl rfl rfl (by rw [pc]; rfl)
  | endGetOptc pc => exact inv.rpc rfl rfl rfl rfl (by rw [pc]; rfl) (by rw [pc]; rfl) rfl rfl
  | @decrement i ok r slot v cas pc current =>
      refine ⟨inv.issued, inv.started, ?_, ?_⟩
      · refine inv.executed.goOn rfl rfl rfl rfl ?_
        rw [pc]
        split <;> rfl
      · refine inv.decremented.pass sound withId (by rw [pc]; rfl) (by rw [pc]; rfl) rfl rfl rfl
          rfl (by rw [pc]; rfl) ?_
        split <;> rfl
  | decrementFail pc => exact inv.rpc rfl rfl rfl rfl (by rw [pc]; rfl) (by rw [pc]; rfl) rfl rfl
  | clear pc => exact inv.rpc rfl rfl rfl rfl (by rw [pc]; rfl) (by rw [pc]; rfl) rfl rfl
  | reset pc => exact inv.rpc rfl rfl rfl rfl (by rw [pc]; rfl) (by rw [pc]; rfl) rfl rfl
  | broadcasted pc => exact inv.rpc rfl rfl rfl rfl (by rw [pc]; rfl) (by rw [pc]; rfl) rfl rfl
  | advance pc => exact inv.rpc rfl rfl rfl rfl (by rw [pc]; rfl) (by rw [pc]; rfl) rfl rfl
  | delAdvance pc => exact inv.rpc rfl rfl rfl rfl (by rw [pc]; rfl) (by rw [pc]; rfl) rfl rfl
  | @reply i ok r pc =>
      refine ⟨inv.issued, ?_, ?_, ?_⟩
      · intro c waits
        by_cases own : c = r.client
        · subst own
          simp at waits
        · exact inv.started c (by simpa [own] using waits)
      · exact inv.executed.reply sound.serving pc rfl rfl rfl rfl rfl
      · exact inv.decremented.reply sound.serving pc rfl rfl rfl rfl rfl
  | _ =>
      exact ⟨inv.issued, inv.started, inv.executed.frame rfl rfl rfl rfl,
        inv.decremented.frame rfl rfl rfl rfl⟩

theorem accounts_of_reachable [Nonempty ι] {ok : State ι κ → Event ι κ → Prop}
    (keeps : ∀ s e, ok s e → Protocol cfg s e ∧ WithId s e) (digits : ∀ c k, cfg.optNum c k ≤ 9)
    {s : State ι κ} (h : (system cfg).Reachable ok s) : Accounts cfg s := by
  apply h.invariant
  · rintro s rfl
    exact .initial
  · intro s e t reach inv guard step
    have orderly := orderly_of_reachable (fun s e guard => (keeps s e guard).2) digits reach
    exact inv.move orderly.sound orderly.withId (keeps s e guard).1 (keeps s e guard).2
      (move_of_step step)

end Pacon.Barrier
