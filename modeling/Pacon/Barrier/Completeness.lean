import Pacon.Barrier.Flags

/-!
# What a server has seen when it executes a barrier operation

The RPC thread serves one request at a time; past `broadcast_barrier_begin_new` every node has
counted the barrier messages of the request's round.
-/

set_option linter.unusedSectionVars false

namespace Pacon.Barrier
open Function Lib

variable {ι κ : Type} [DecidableEq ι] [DecidableEq κ] [Fintype κ] (cfg : Config ι κ)

def RpcPc.request : RpcPc ι κ → Option (Request κ)
  | .recv => none
  | .waitBarrier r _ | .waitNodes r _ _ | .opt r _ | .getOptc r _ | .casOptc r _ _ _ | .clear r _
  | .reset r _ | .broadcast r _ _ | .advance r _ | .reply r | .undefined r => some r

def RpcPc.slot : RpcPc ι κ → Option Nat
  | .recv | .reply _ | .undefined _ => none
  | .waitBarrier _ slot | .waitNodes _ slot _ | .opt _ slot | .getOptc _ slot | .casOptc _ slot _ _
  | .clear _ slot | .reset _ slot | .broadcast _ slot _ | .advance _ slot => some slot

def RpcPc.Seen (i : ι) : RpcPc ι κ → ι → Prop
  | .recv, _ | .waitBarrier _ _, _ | .reply _, _ | .undefined _, _ => False
  | .waitNodes _ _ rest, j => j = i ∨ j ∉ rest
  | .opt _ _, _ | .getOptc _ _, _ | .casOptc _ _ _ _, _ | .clear _ _, _ | .reset _ _, _
  | .broadcast _ _ _, _ | .advance _ _, _ => True

structure Serving (s : State ι κ) : Prop where
  client : ∀ c r, s.call c = .sent r ∨ s.call c = .received r → r.client = c
  id : ∀ c r, s.call c = .sent r ∨ s.call c = .received r →
    r.barrierId = if r.opt.carriesId then some (s.currentBarrierId c) else none
  served : ∀ i r, (s.rpc i).request = some r →
    cfg.home r.client = i ∧ s.call r.client = .received r
  serving : ∀ c r, s.call c = .received r → (s.rpc (cfg.home c)).request = some r
  slot : ∀ i r slot k, (s.rpc i).request = some r → (s.rpc i).slot = some slot →
    r.barrierId = some k → k = slot + 1
  seen : ∀ i slot j, (s.rpc i).slot = some slot → (s.rpc i).Seen i j → Reached cfg s j slot

variable {cfg}

theorem Serving.initial : Serving cfg (initialState : State ι κ) := by
  refine ⟨?_, ?_, ?_, ?_, ?_, ?_⟩ <;> simp [initialState, RpcPc.request, RpcPc.slot]

theorem optBarrierId_some {r : Request κ} {garbage slot k : Nat}
    (h : optBarrierId r garbage = some slot) (id : r.barrierId = some k) : k = slot + 1 := by
  unfold optBarrierId at h
  rw [id] at h
  cases k with
  | zero => simp at h
  | succ k =>
      have := (Option.filter_eq_some_iff.mp h).1
      simpa using this

theorem Serving.frame {s t : State ι κ} (inv : Serving cfg s) (call : t.call = s.call)
    (id : t.currentBarrierId = s.currentBarrierId) (rpc : t.rpc = s.rpc)
    (mono : ∀ c, s.counted c ≤ t.counted c) : Serving cfg t := by
  refine ⟨?_, ?_, ?_, ?_, ?_, ?_⟩
  · simpa only [call] using inv.client
  · simpa only [call, id] using inv.id
  · simpa only [call, rpc] using inv.served
  · simpa only [call, rpc] using inv.serving
  · simpa only [rpc] using inv.slot
  · intro i slot j pc seen
    rw [rpc] at pc seen
    exact (inv.seen i slot j pc seen).mono mono

theorem Serving.goOn {s t : State ι κ} {i : ι} {pc : RpcPc ι κ} (inv : Serving cfg s)
    (call : t.call = s.call) (id : t.currentBarrierId = s.currentBarrierId)
    (rpc : t.rpc = update s.rpc i pc) (counted : t.counted = s.counted)
    (request : pc.request = (s.rpc i).request)
    (slot : ∀ slot, pc.slot = some slot → (s.rpc i).slot = some slot)
    (seen : ∀ slot j, pc.slot = some slot → pc.Seen i j → Reached cfg s j slot) :
    Serving cfg t := by
  have requests : ∀ j, (t.rpc j).request = (s.rpc j).request := by
    intro j
    rw [rpc]
    by_cases h : j = i
    · subst h
      rw [update_self, request]
    · rw [update_of_ne h]
  refine ⟨?_, ?_, ?_, ?_, ?_, ?_⟩
  · simpa only [call] using inv.client
  · simpa only [call, id] using inv.id
  · simpa only [call, requests] using inv.served
  · simpa only [call, requests] using inv.serving
  · intro j r slot' k serves at' carries
    rw [requests] at serves
    refine inv.slot j r slot' k serves ?_ carries
    rw [rpc] at at'
    by_cases h : j = i
    · subst h
      exact slot slot' (by simpa using at')
    · rwa [update_of_ne h] at at'
  · intro j slot' j' at' seen'
    rw [rpc] at at' seen'
    refine Reached.mono (s := s) ?_ fun c => by rw [counted]
    by_cases h : j = i
    · subst h
      rw [update_self] at at' seen'
      exact seen slot' j' at' seen'
    · rw [update_of_ne h] at at' seen'
      exact inv.seen j slot' j' at' seen'

theorem Serving.goOnSeen {s t : State ι κ} {i : ι} {pc : RpcPc ι κ} {slot : Nat}
    (inv : Serving cfg s) (call : t.call = s.call) (id : t.currentBarrierId = s.currentBarrierId)
    (rpc : t.rpc = update s.rpc i pc) (counted : t.counted = s.counted)
    (request : pc.request = (s.rpc i).request) (here : (s.rpc i).slot = some slot)
    (next : pc.slot = some slot ∨ pc.slot = none)
    (seen : ∀ j, (s.rpc i).Seen i j) : Serving cfg t := by
  have same : ∀ slot', pc.slot = some slot' → (s.rpc i).slot = some slot' := by
    intro slot' at'
    rcases next with at'' | gone
    · rw [here, ← at'', at']
    · simp [gone] at at'
  refine inv.goOn call id rpc counted request same ?_
  intro slot' j at' _
  exact inv.seen i slot' j (same slot' at') (seen j)

theorem Serving.issue {s t : State ι κ} {c : κ} {v : Call κ} (inv : Serving cfg s)
    (free : s.call c = .none) (call : t.call = update s.call c v)
    (id : ∀ c', c' ≠ c → t.currentBarrierId c' = s.currentBarrierId c')
    (rpc : t.rpc = s.rpc) (counted : t.counted = s.counted) (notYet : ∀ r, v ≠ .received r)
    (own : ∀ r, v = .sent r → r.client = c ∧
      r.barrierId = if r.opt.carriesId then some (t.currentBarrierId c) else none) :
    Serving cfg t := by
  refine ⟨?_, ?_, ?_, ?_, ?_, ?_⟩
  · intro c' r waits
    rw [call] at waits
    by_cases h : c' = c
    · subst h
      rw [update_self] at waits
      exact (own r (waits.resolve_right (notYet r))).1
    · rw [update_of_ne h] at waits
      exact inv.client c' r waits
  · intro c' r waits
    rw [call] at waits
    by_cases h : c' = c
    · subst h
      rw [update_self] at waits
      exact (own r (waits.resolve_right (notYet r))).2
    · rw [update_of_ne h] at waits
      rw [id c' h]
      exact inv.id c' r waits
  · intro i r serves
    rw [rpc] at serves
    obtain ⟨home, received⟩ := inv.served i r serves
    refine ⟨home, ?_⟩
    have other : r.client ≠ c := by
      intro same
      rw [same, free] at received
      cases received
    rw [call, update_of_ne other, received]
  · intro c' r received
    rw [call] at received
    by_cases h : c' = c
    · subst h
      rw [update_self] at received
      exact absurd received (notYet r)
    · rw [update_of_ne h] at received
      rw [rpc]
      exact inv.serving c' r received
  · simpa only [rpc] using inv.slot
  · intro i slot j pc seen
    rw [rpc] at pc seen
    exact (inv.seen i slot j pc seen).mono fun c => by rw [counted]

theorem Serving.take {s t : State ι κ} {c : κ} {r : Request κ} {pc : RpcPc ι κ}
    (inv : Serving cfg s) (sent : s.call c = .sent r) (idle : s.rpc (cfg.home c) = .recv)
    (call : t.call = update s.call c (.received r)) (id : t.currentBarrierId = s.currentBarrierId)
    (rpc : t.rpc = update s.rpc (cfg.home c) pc) (counted : t.counted = s.counted)
    (request : pc.request = some r)
    (slot : ∀ slot k, pc.slot = some slot → r.barrierId = some k → k = slot + 1)
    (unseen : ∀ j, ¬ pc.Seen (cfg.home c) j) : Serving cfg t := by
  have client : r.client = c := inv.client c r (.inl sent)
  have waiting : ∀ c' r', t.call c' = .sent r' ∨ t.call c' = .received r' →
      s.call c' = .sent r' ∨ s.call c' = .received r' := by
    intro c' r' waits
    rw [call] at waits
    by_cases h : c' = c
    · subst h
      rw [update_self] at waits
      rcases waits with waits | waits
      · cases waits
      · cases waits
        exact .inl sent
    · rwa [update_of_ne h] at waits
  refine ⟨?_, ?_, ?_, ?_, ?_, ?_⟩
  · exact fun c' r' waits => inv.client c' r' (waiting c' r' waits)
  · intro c' r' waits
    rw [id]
    exact inv.id c' r' (waiting c' r' waits)
  · intro i r' serves
    rw [rpc] at serves
    by_cases h : i = cfg.home c
    · subst h
      rw [update_self, request, Option.some.injEq] at serves
      subst serves
      exact ⟨by rw [client], by rw [call, client, update_self]⟩
    · rw [update_of_ne h] at serves
      obtain ⟨home, received⟩ := inv.served i r' serves
      have other : r'.client ≠ c := by
        rintro rfl
        exact h home.symm
      exact ⟨home, by rw [call, update_of_ne other, received]⟩
  · intro c' r' received
    rw [call] at received
    rw [rpc]
    by_cases h : c' = c
    · subst h
      rw [update_self, Call.received.injEq] at received
      rw [update_self, request, received]
    · rw [update_of_ne h] at received
      have serves := inv.serving c' r' received
      have other : cfg.home c' ≠ cfg.home c := by
        intro same
        rw [same, idle] at serves
        cases serves
      rw [update_of_ne other, serves]
  · intro i r' slot' k serves at' carries
    rw [rpc] at serves at'
    by_cases h : i = cfg.home c
    · subst h
      rw [update_self] at serves at'
      rw [request, Option.some.injEq] at serves
      subst serves
      exact slot slot' k at' carries
    · rw [update_of_ne h] at serves at'
      exact inv.slot i r' slot' k serves at' carries
  · intro i slot' j at' seen
    rw [rpc] at at' seen
    refine Reached.mono (s := s) ?_ fun c => by rw [counted]
    by_cases h : i = cfg.home c
    · subst h
      rw [update_self] at seen
      exact absurd seen (unseen j)
    · rw [update_of_ne h] at at' seen
      exact inv.seen i slot' j at' seen

theorem Serving.reply {s t : State ι κ} {i : ι} {r : Request κ} (inv : Serving cfg s)
    (pc : s.rpc i = .reply r) (call : t.call = update s.call r.client .none)
    (id : t.currentBarrierId = s.currentBarrierId) (rpc : t.rpc = update s.rpc i .recv)
    (counted : t.counted = s.counted) : Serving cfg t := by
  obtain ⟨home, received⟩ := inv.served i r (by rw [pc]; rfl)
  have waiting : ∀ c v, v ≠ .none → t.call c = v → c ≠ r.client ∧ s.call c = v := by
    intro c v some' eq
    rw [call] at eq
    by_cases h : c = r.client
    · subst h
      rw [update_self] at eq
      exact absurd eq.symm some'
    · rw [update_of_ne h] at eq
      exact ⟨h, eq⟩
  refine ⟨?_, ?_, ?_, ?_, ?_, ?_⟩
  · rintro c r' (waits | waits)
    · exact inv.client c r' (.inl (waiting c _ (by simp) waits).2)
    · exact inv.client c r' (.inr (waiting c _ (by simp) waits).2)
  · rw [id]
    rintro c r' (waits | waits)
    · exact inv.id c r' (.inl (waiting c _ (by simp) waits).2)
    · exact inv.id c r' (.inr (waiting c _ (by simp) waits).2)
  · intro j r' serves
    rw [rpc] at serves
    by_cases h : j = i
    · subst h
      simp [RpcPc.request] at serves
    · rw [update_of_ne h] at serves
      obtain ⟨home', received'⟩ := inv.served j r' serves
      have other : r'.client ≠ r.client := by
        intro same
        exact h (home'.symm.trans ((congrArg cfg.home same).trans home))
      exact ⟨home', by rw [call, update_of_ne other, received']⟩
  · intro c r' received'
    obtain ⟨other, before⟩ := waiting c _ (by simp) received'
    have serves := inv.serving c r' before
    have away : cfg.home c ≠ i := by
      intro same
      rw [same, pc] at serves
      cases serves
      exact other (inv.client c r (.inr before)).symm
    rw [rpc, update_of_ne away, serves]
  · intro j r' slot k serves at' carries
    rw [rpc] at serves at'
    by_cases h : j = i
    · subst h
      simp [RpcPc.slot] at at'
    · rw [update_of_ne h] at serves at'
      exact inv.slot j r' slot k serves at' carries
  · intro j slot j' at' seen
    rw [rpc] at at' seen
    refine Reached.mono (s := s) ?_ fun c => by rw [counted]
    by_cases h : j = i
    · subst h
      simp [RpcPc.slot] at at'
    · rw [update_of_ne h] at at' seen
      exact inv.seen j slot j' at' seen

theorem Serving.move {s t : State ι κ} {e : Event ι κ} (inv : Serving cfg s)
    (flags : Flags cfg s) (move : Move cfg s e t) : Serving cfg t := by
  have mono := move.counted_mono
  cases move with
  | @barrier c free =>
      refine inv.issue (v := .none) free ?_ ?_ rfl rfl (by simp) (by simp)
      · rw [← free, update_eq_self]
        rfl
      · intro c' other
        simp [paconBarrier, other]
  | @request c opt free notFlush =>
      refine inv.issue free rfl (fun _ _ => rfl) rfl rfl (by simp) ?_
      rintro r ⟨⟩
      exact ⟨rfl, rfl⟩
  | @flush c free =>
      refine inv.issue free rfl (fun _ _ => rfl) rfl rfl (by simp) ?_
      rintro r ⟨⟩
      exact ⟨rfl, rfl⟩
  | @take c garbage r slot sent idle id =>
      refine inv.take sent idle rfl rfl rfl rfl rfl ?_ (by simp [RpcPc.Seen])
      rintro slot' k ⟨⟩ carries
      exact optBarrierId_some id carries
  | @takeUndefined c garbage r sent idle id =>
      exact inv.take sent idle rfl rfl rfl rfl rfl (by simp [RpcPc.slot]) (by simp [RpcPc.Seen])
  | @waitBarrier i ok r slot pc set =>
      refine inv.goOn rfl rfl rfl rfl (by rw [pc]; rfl) (by rw [pc]; exact fun _ h => h) ?_
      rintro slot' j ⟨⟩ seen
      rcases seen with rfl | other
      · exact flags.flag _ _ set
      · have same : j = i := by simpa [others, cfg.complete] using other
        subst same
        exact flags.flag _ _ set
  | @waitNode i ok r slot j rest pc set =>
      refine inv.goOn rfl rfl rfl rfl (by rw [pc]; rfl) (by rw [pc]; exact fun _ h => h) ?_
      rintro slot' j' ⟨⟩ seen
      by_cases h : j' = j
      · subst h
        exact flags.key _ _ set
      · refine inv.seen i slot j' (by rw [pc]; rfl) ?_
        rw [pc]
        simpa [RpcPc.Seen, h] using seen
  | @begun i ok r slot pc =>
      exact inv.goOnSeen rfl rfl rfl rfl (by rw [pc]; rfl) (by rw [pc]; rfl) (.inl rfl)
        (by simp [pc, RpcPc.Seen])
  | @opt i ok r slot pc =>
      exact inv.goOnSeen rfl rfl rfl rfl (by rw [pc]; rfl) (by rw [pc]; rfl) (.inl rfl)
        (by simp [pc, RpcPc.Seen])
  | @endGetOptc i ok r slot pc =>
      exact inv.goOnSeen rfl rfl rfl rfl (by rw [pc]; rfl) (by rw [pc]; rfl) (.inl rfl)
        (by simp [pc, RpcPc.Seen])
  | @decrement i ok r slot v cas pc current =>
      refine inv.goOnSeen rfl rfl rfl rfl ?_ (by rw [pc]; rfl) ?_ (by simp [pc, RpcPc.Seen])
      · rw [pc]
        split <;> rfl
      · split
        · exact .inl rfl
        · exact .inr rfl
  | @decrementFail i ok r slot v cas pc =>
      exact inv.goOnSeen rfl rfl rfl rfl (by rw [pc]; rfl) (by rw [pc]; rfl) (.inl rfl)
        (by simp [pc, RpcPc.Seen])
  | @clear i ok r slot pc =>
      exact inv.goOnSeen rfl rfl rfl rfl (by rw [pc]; rfl) (by rw [pc]; rfl) (.inl rfl)
        (by simp [pc, RpcPc.Seen])
  | @reset i r slot pc =>
      exact inv.goOnSeen rfl rfl rfl rfl (by rw [pc]; rfl) (by rw [pc]; rfl) (.inl rfl)
        (by simp [pc, RpcPc.Seen])
  | @broadcasted i ok r slot pc =>
      exact inv.goOnSeen rfl rfl rfl rfl (by rw [pc]; rfl) (by rw [pc]; rfl) (.inl rfl)
        (by simp [pc, RpcPc.Seen])
  | @advance i ok r slot pc =>
      exact inv.goOnSeen rfl rfl rfl rfl (by rw [pc]; rfl) (by rw [pc]; rfl) (.inr rfl)
        (by simp [pc, RpcPc.Seen])
  | @delAdvance i sender r slot rest pc mid =>
      exact inv.goOnSeen rfl rfl rfl rfl (by rw [pc]; rfl) (by rw [pc]; rfl) (.inl rfl)
        (by simp [pc, RpcPc.Seen])
  | @reply i ok r pc => exact inv.reply pc rfl rfl rfl rfl
  | _ => exact inv.frame rfl rfl rfl mono

theorem reached_of_opt {s : State ι κ} (inv : Serving cfg s) {i : ι} {r : Request κ} {slot : Nat}
    (pc : s.rpc i = .opt r slot) (j : ι) : Reached cfg s j slot :=
  inv.seen i slot j (by rw [pc]; rfl) (by rw [pc]; trivial)

theorem CommitPc.ahead_le (pc : CommitPc κ) (c : κ) : pc.ahead c ≤ 1 := by
  cases pc with
  | setKey c' slot =>
      simp only [CommitPc.ahead]
      split <;> simp
  | _ => exact Nat.zero_le 1

theorem Queues.counted_eq {s : State ι κ} (inv : Queues cfg s) (c : κ) :
    s.counted c = (barrierPaths ((s.mq c).take
      (s.committed c + (s.commit (cfg.home c)).ahead c))).length := by
  have count := inv.counted c
  cases ahead : (s.commit (cfg.home c)).ahead c with
  | zero => rw [count, ahead]; rfl
  | succ more =>
      have one : more = 0 := by
        have := (s.commit (cfg.home c)).ahead_le c
        omega
      subst one
      have setting : ∃ slot, s.commit (cfg.home c) = .setKey c slot := by
        cases pc : s.commit (cfg.home c) with
        | setKey c' slot =>
            rw [pc] at ahead
            by_cases same : c' = c
            · exact ⟨slot, by rw [same]⟩
            · simp [CommitPc.ahead, same] at ahead
        | _ => simp [pc, CommitPc.ahead] at ahead
      obtain ⟨slot, pc⟩ := setting
      have working := inv.working (cfg.home c)
      rw [pc] at working
      obtain ⟨-, -, head⟩ := working
      rw [count, ahead, barrierPaths_take_succ head, List.length_append]
      rfl

theorem Queues.finished_before {s : State ι κ} (inv : Queues cfg s) {c : κ} {slot : Nat}
    (counted : slot < s.counted c) : (sentBefore slot (s.mq c)).length ≤ s.committed c := by
  rw [inv.counted_eq c] at counted
  have before := sentBefore_length counted
  have := (s.commit (cfg.home c)).ahead_le c
  omega

theorem sentBefore_barrier {slot : Nat} {mq : List Msg} {path : CString}
    (h : (barrierPaths mq)[slot]? = some path) :
    mq[(sentBefore slot mq).length]? = some (.barrier path) := by
  induction mq generalizing slot with
  | nil => simp [barrierPaths] at h
  | cons m mq ih =>
      cases m with
      | op =>
          have := @ih slot (by simpa [barrierPaths, Msg.path?, List.filterMap_cons] using h)
          simpa [sentBefore] using this
      | flushdir =>
          have := @ih slot (by simpa [barrierPaths, Msg.path?, List.filterMap_cons] using h)
          simpa [sentBefore] using this
      | barrier path' =>
          cases slot with
          | zero => simpa [barrierPaths, Msg.path?, sentBefore] using h
          | succ slot =>
              have := @ih slot (by simpa [barrierPaths, Msg.path?, List.filterMap_cons] using h)
              simpa [sentBefore] using this

theorem Queues.message_of_counted {s : State ι κ} (inv : Queues cfg s) {c : κ} {slot : Nat}
    (counted : slot < s.counted c) : (s.mq c)[(sentBefore slot (s.mq c)).length]? =
      some (.barrier (barrierPayload (cfg.optNum c (slot + 1)) (slot + 1))) := by
  have sent : slot < (barrierPaths (s.mq c)).length := by
    rw [inv.counted_eq c] at counted
    exact counted.trans_le ((List.take_sublist _ _).filterMap _).length_le
  apply sentBefore_barrier
  rw [inv.paths] at sent ⊢
  simp only [List.length_map, List.length_range] at sent
  simp [sent]

structure Sound (cfg : Config ι κ) (s : State ι κ) : Prop where
  queues : Queues cfg s
  flags : Flags cfg s
  serving : Serving cfg s

theorem sound_of_reachable {ok : State ι κ → Event ι κ → Prop} (digits : ∀ c k, cfg.optNum c k ≤ 9)
    {s : State ι κ} (h : (system cfg).Reachable ok s) : Sound cfg s := by
  apply h.invariant
  · rintro s rfl
    exact ⟨.initial, .initial, .initial⟩
  · intro s e t _ inv _ step
    have move := move_of_step step
    exact ⟨inv.queues.move digits move, inv.flags.move inv.queues move,
      inv.serving.move inv.flags move⟩

/-- When a server executes a request of a round, every client's barrier message of that round has
arrived and its server has finished all that the client sent before. -/
theorem barrier_complete (digits : ∀ c k, cfg.optNum c k ≤ 9) {s : State ι κ}
    (h : (system cfg).Reachable (fun _ _ => True) s) {i : ι} {r : Request κ} {slot k : Nat}
    (executes : s.rpc i = .opt r slot) (carries : r.barrierId = some k) (c : κ) :
    1 ≤ k ∧ (sentBefore (k - 1) (s.mq c)).length ≤ s.committed c ∧
      (s.mq c)[(sentBefore (k - 1) (s.mq c)).length]? =
        some (.barrier (barrierPayload (cfg.optNum c k) k)) := by
  have inv := sound_of_reachable digits h
  have number := inv.serving.slot i r slot k (by rw [executes]; rfl) (by rw [executes]; rfl) carries
  subst number
  have counted := (reached_of_opt inv.serving executes (cfg.home c)).2 c rfl
  exact ⟨Nat.le_add_left 1 slot, inv.queues.finished_before counted,
    inv.queues.message_of_counted counted⟩

def firstDeclares (c : Bool) (k : Nat) : Nat := if c = false ∧ k = 1 then 1 else 0

theorem firstDeclares_le (c : Bool) (k : Nat) : firstDeclares c k ≤ 9 := by
  unfold firstDeclares
  split <;> omega

def oneDeclared : Config Bool Bool := .twoNodes firstDeclares

def requestRun : List (Event Bool Bool) := List.flatten
  [[.send true, .barrier true, .barrier false, .request false .rmdir, .receive true, .commit true true,
      .receive true], List.replicate 3 (.commit true true), [.receive false],
    List.replicate 5 (.commit false true), [.take false 0], List.replicate 3 (.rpc false true)]

theorem barrier_complete_rmdir : ∃ s, (system oneDeclared).Reachable (fun _ _ => True) s ∧
    s.rpc false = .opt ⟨false, .rmdir, some 1⟩ 0 ∧ (sentBefore 0 (s.mq true)).length = 1 ∧
    (sentBefore 0 (s.mq true)).length ≤ s.committed true := by
  obtain ⟨s, reach, holds⟩ := System.exists_reachable (system oneDeclared) (fun _ _ => True)
    (s := initialState) rfl requestRun
    (fun s => s.rpc false = .opt ⟨false, .rmdir, some 1⟩ 0 ∧ (sentBefore 0 (s.mq true)).length = 1) rfl
  obtain ⟨executes, one⟩ := of_decide_eq_true holds
  exact ⟨s, reach, executes, one, (barrier_complete firstDeclares_le reach executes rfl true).2.1⟩

end Pacon.Barrier
