import Pacon.Barrier.Counter

/-!
# Releasing a barrier

When every request carries its barrier id, the operations of one slot at a time bring its counter to
zero. One server then
clears the slot everywhere; until it is through, its own client keeps it from reaching the next.
-/

set_option linter.unusedSectionVars false

namespace Pacon.Barrier
open Function Lib

variable {ι κ : Type} [DecidableEq ι] [DecidableEq κ] [Fintype κ] (cfg : Config ι κ)

/-- The client's request, if the step sends one, carries its barrier id. -/
def WithId (_ : State ι κ) : Event ι κ → Prop
  | .flush _ => False
  | .request _ opt => opt.carriesId = true
  | _ => True

instance (s : State ι κ) : (e : Event ι κ) → Decidable (WithId s e)
  | .flush _ => .isFalse id
  | .request _ opt => inferInstanceAs (Decidable (opt.carriesId = true))
  | .send _ | .barrier _ | .receive _ | .commit _ _ | .take _ _ | .rpc _ _
  | .cluster _ _ => .isTrue trivial

structure AllWithId (s : State ι κ) : Prop where
  queue : ∀ c, .flushdir ∉ s.mq c
  call : ∀ c r, s.call c = .sent r ∨ s.call c = .received r → r.opt.carriesId = true

def Started (s : State ι κ) (slot : Nat) : Prop :=
  0 < ∑ c, cfg.optNum c (slot + 1) ∧ ∑ c, cfg.optNum c (slot + 1) ≤ ∑ c, s.decremented c slot

def RpcPc.releasing : RpcPc ι κ → Option Nat
  | .clear _ slot | .reset _ slot | .broadcast _ slot _ | .advance _ slot => some slot
  | .recv | .waitBarrier _ _ | .waitNodes _ _ _ | .opt _ _ | .getOptc _ _ | .casOptc _ _ _ _
  | .reply _ | .undefined _ => none

def At (s : State ι κ) (i : ι) (cleared waiting : Nat) : Prop :=
  s.released i = List.range cleared ∧ s.waitingBarrierId i = waiting

def RpcPc.Progress (s : State ι κ) (a : ι) (slot : Nat) : RpcPc ι κ → Prop
  | .clear _ _ => ∀ i, s.cluster i = none ∧ At s i slot slot
  | .reset _ _ => At s a (slot + 1) slot ∧ s.cluster a = none ∧
      ∀ i, i ≠ a → s.cluster i = none ∧ At s i slot slot
  | .broadcast _ _ rest => rest.Nodup ∧ a ∉ rest ∧ At s a (slot + 1) slot ∧ s.cluster a = none ∧
      (∀ i, i ≠ a → i ∉ rest → s.cluster i = none ∧ At s i (slot + 1) (slot + 1)) ∧
      ∀ i ∈ rest, (s.cluster i = none ∧ At s i slot slot) ∨
        (s.cluster i = some a ∧ rest.head? = some i ∧ At s i (slot + 1) slot)
  | .advance _ _ => At s a (slot + 1) slot ∧ s.cluster a = none ∧
      ∀ i, i ≠ a → s.cluster i = none ∧ At s i (slot + 1) (slot + 1)
  | _ => False

def CommitPc.Stays : CommitPc κ → Prop
  | .recv | .hold _ _ | .setKey _ _ | .reachBarrier _ => True
  | .getOptc _ _ _ | .casOptc _ _ _ _ _ | .reach _ _ => False

def Held (s : State ι κ) (h : ι) (slot : Nat) : Prop :=
  ¬ Reached cfg s h slot ∨ (¬ Reached cfg s h (slot + 1) ∧ (s.commit h).Stays)

structure Idle (s : State ι κ) (round : Nat) : Prop where
  quiet : ∀ i, (s.rpc i).releasing = none
  node : ∀ i, s.cluster i = none ∧ At s i round round
  held : ∃ h, Held cfg s h round

structure Releasing (s : State ι κ) (a : ι) (slot : Nat) : Prop where
  quiet : ∀ i, i ≠ a → (s.rpc i).releasing = none
  at' : (s.rpc a).releasing = some slot
  progress : (s.rpc a).Progress s a slot

def Release (s : State ι κ) : Prop :=
  ∃ round, (∀ slot, Started cfg s slot ↔ slot < round) ∧
    (Idle cfg s round ∨ ∃ a slot, round = slot + 1 ∧ Releasing s a slot)

variable {cfg}

theorem AllWithId.initial : AllWithId (initialState : State ι κ) := by
  refine ⟨?_, ?_⟩ <;> simp [initialState]

theorem AllWithId.move {s t : State ι κ} {e : Event ι κ} (inv : AllWithId s) (guard : WithId s e)
    (move : Move cfg s e t) : AllWithId t := by
  obtain ⟨queue, call⟩ := inv
  cases move with
  | flush => exact absurd guard id
  | @send c =>
      refine ⟨fun c' => ?_, call⟩
      by_cases h : c' = c
      · subst h
        simpa using queue c'
      · simpa [h] using queue c'
  | @barrier c =>
      refine ⟨fun c' => ?_, call⟩
      simp only [paconBarrier]
      split
      · by_cases h : c' = c
        · subst h
          simpa using queue c'
        · simpa [h] using queue c'
      · exact queue c'
  | @request c opt free notFlush =>
      refine ⟨queue, fun c' r waits => ?_⟩
      simp only [addToLocalRpc, State.request_client] at waits
      by_cases h : c' = c
      · subst h
        simp only [update_self, Call.sent.injEq, reduceCtorEq, or_false] at waits
        subst waits
        exact guard
      · rw [update_of_ne h] at waits
        exact call c' r waits
  | @take c garbage r slot sent pc id =>
      refine ⟨queue, fun c' r' waits => ?_⟩
      by_cases h : c' = c
      · subst h
        simp only [update_self, Call.received.injEq, reduceCtorEq, false_or] at waits
        subst waits
        exact call c' r (.inl sent)
      · simp only [update_of_ne h] at waits
        exact call c' r' waits
  | @takeUndefined c garbage r sent pc id =>
      refine ⟨queue, fun c' r' waits => ?_⟩
      by_cases h : c' = c
      · subst h
        simp only [update_self, Call.received.injEq, reduceCtorEq, false_or] at waits
        subst waits
        exact call c' r (.inl sent)
      · simp only [update_of_ne h] at waits
        exact call c' r' waits
  | @reply i ok r pc =>
      refine ⟨queue, fun c' r' waits => ?_⟩
      by_cases h : c' = r.client
      · subst h
        simp at waits
      · simp only [update_of_ne h] at waits
        exact call c' r' waits
  | _ => exact ⟨queue, call⟩

theorem round_of_served {s : State ι κ} (sound : Sound cfg s) (withId : AllWithId s) {i : ι}
    {r : Request κ} {slot : Nat} (serves : (s.rpc i).request = some r)
    (at' : (s.rpc i).slot = some slot) :
    cfg.home r.client = i ∧ s.currentBarrierId r.client = slot + 1 := by
  obtain ⟨home, received⟩ := sound.serving.served i r serves
  have id := sound.serving.id r.client r (.inr received)
  rw [if_pos (withId.call r.client r (.inr received))] at id
  exact ⟨home, sound.serving.slot i r slot _ serves at' id⟩

theorem counted_le_round {s : State ι κ} (queues : Queues cfg s) (c : κ) :
    s.counted c ≤ s.currentBarrierId c := by
  have sent : s.counted c ≤ (barrierPaths (s.mq c)).length := by
    rw [queues.counted_eq c]
    exact ((List.take_sublist _ _).filterMap _).length_le
  rw [queues.paths c, List.length_map, List.length_range] at sent
  exact sent.trans (min_le_left _ _)

theorem not_reached_next {s : State ι κ} (sound : Sound cfg s) (withId : AllWithId s) {i : ι}
    {r : Request κ} {slot : Nat} (serves : (s.rpc i).request = some r)
    (at' : (s.rpc i).slot = some slot) : ¬ Reached cfg s i (slot + 1) := by
  intro reached
  obtain ⟨home, round⟩ := round_of_served sound withId serves at'
  have counted := counted_le_round sound.queues r.client
  have later := reached.2 r.client home
  omega

theorem RpcPc.slot_of_releasing {pc : RpcPc ι κ} {slot : Nat} (h : pc.releasing = some slot) :
    pc.slot = some slot ∧ ∃ r, pc.request = some r := by
  cases pc <;> first | cases h; exact ⟨rfl, _, rfl⟩ | cases h

theorem blocked_of_reached {s : State ι κ} (flags : Flags cfg s) {h : ι} {slot : Nat}
    (waiting : s.waitingBarrierId h = slot) (unreleased : slot ∉ s.released h)
    (reached : Reached cfg s h slot) : s.barrier h (s.waitingBarrierId h) = true := by
  rw [waiting]
  exact (flags.kept h slot reached).resolve_right unreleased

theorem Held.commit {s t : State ι κ} {h i : ι} {slot : Nat} {pc : CommitPc κ}
    (held : Held cfg s h slot) (counted : t.counted = s.counted)
    (commit : t.commit = update s.commit i pc)
    (stays : i = h → Reached cfg s h slot → pc.Stays) : Held cfg t h slot := by
  have same {slot} (reached : Reached cfg t h slot) : Reached cfg s h slot :=
    reached.mono fun c => by rw [counted]
  rcases held with unreached | ⟨next, stay⟩
  · exact .inl fun reached => unreached (same reached)
  · by_cases reached : Reached cfg s h slot
    · refine .inr ⟨fun reached => next (same reached), ?_⟩
      rw [commit]
      by_cases own : h = i
      · subst own
        rw [update_self]
        exact stays rfl reached
      · rwa [update_of_ne own]
    · exact .inl fun reached' => reached (same reached')

theorem Held.count {s t : State ι κ} {h i : ι} {c : κ} {slot : Nat} {pc : CommitPc κ}
    (held : Held cfg s h slot) (home : cfg.home c = i) (at' : s.commit i = .reach c (s.counted c))
    (counted : t.counted = update s.counted c (s.counted c + 1))
    (commit : t.commit = update s.commit i pc) (stays : pc.Stays) : Held cfg t h slot := by
  by_cases own : h = i
  · subst own
    have unreached : ¬ Reached cfg s h slot := by
      rcases held with unreached | ⟨-, stay⟩
      · exact unreached
      · rw [at'] at stay
        exact stay.elim
    by_cases reached : Reached cfg t h slot
    · refine .inr ⟨fun next => ?_, by rw [commit, update_self]; exact stays⟩
      -- `c` was the client whose message was missing, so it has none of the next slot counted
      have missing : s.counted c ≤ slot := by
        by_contra already
        refine unreached ⟨reached.1, fun c' home' => ?_⟩
        have later := reached.2 c' home'
        rw [counted] at later
        by_cases same : c' = c
        · subst same
          omega
        · rwa [update_of_ne same] at later
      have later := next.2 c home
      rw [counted, update_self] at later
      omega
    · exact .inl reached
  · have away : ∀ slot, Reached cfg t h slot → Reached cfg s h slot := by
      intro slot reached
      refine ⟨reached.1, fun c' home' => ?_⟩
      have later := reached.2 c' home'
      have other : c' ≠ c := by
        rintro rfl
        exact own (home'.symm.trans home)
      rwa [counted, update_of_ne other] at later
    rcases held with unreached | ⟨next, stay⟩
    · exact .inl fun reached => unreached (away _ reached)
    · refine .inr ⟨fun reached => next (away _ reached), ?_⟩
      rwa [commit, update_of_ne own]

theorem Held.move {s t : State ι κ} {e : Event ι κ} {h : ι} {slot : Nat} (held : Held cfg s h slot)
    (sound : Sound cfg s) (waiting : s.waitingBarrierId h = slot)
    (unreleased : slot ∉ s.released h) (move : Move cfg s e t) : Held cfg t h slot := by
  have shut {i : ι} (clear : s.barrier i (s.waitingBarrierId i) = false) (own : i = h)
      (reached : Reached cfg s h slot) : False := by
    subst own
    rw [blocked_of_reached sound.flags waiting unreleased reached] at clear
    cases clear
  have moving {i : ι} {pc : CommitPc κ} (at' : s.commit i = pc) (moves : ¬ pc.Stays) (own : i = h)
      (reached : Reached cfg s h slot) : False := by
    subst own at'
    rcases held with unreached | ⟨-, stay⟩
    · exact unreached reached
    · exact moves stay
  cases move with
  | receive => exact held.commit rfl rfl fun _ _ => trivial
  | commitOp => exact held.commit rfl rfl fun _ _ => trivial
  | commitFlushdir => exact held.commit rfl rfl fun _ _ => trivial
  | setKey => exact held.commit rfl rfl fun _ _ => trivial
  | setKeyFail => exact held.commit rfl rfl fun _ _ => trivial
  | leaveReachBarrier => exact held.commit rfl rfl fun _ _ => trivial
  | declare pc clear => exact held.commit rfl rfl fun own reached => (shut clear own reached).elim
  | declareNone pc clear => exact held.commit rfl rfl fun own reached => (shut clear own reached).elim
  | getOptc pc => exact held.commit rfl rfl fun own reached => (moving pc id own reached).elim
  | casOptc pc => exact held.commit rfl rfl fun own reached => (moving pc id own reached).elim
  | casOptcFail pc => exact held.commit rfl rfl fun own reached => (moving pc id own reached).elim
  | count pc =>
      obtain ⟨home, rfl⟩ := sound.queues.slot_at_reach pc
      exact held.count home pc rfl rfl trivial
  | countLast pc =>
      obtain ⟨home, rfl⟩ := sound.queues.slot_at_reach pc
      exact held.count home pc rfl rfl trivial
  | _ => exact held

theorem RpcPc.Progress.congr {s t : State ι κ} {a : ι} {slot : Nat} {pc : RpcPc ι κ}
    (h : pc.Progress s a slot) (cluster : t.cluster = s.cluster) (released : t.released = s.released)
    (waiting : t.waitingBarrierId = s.waitingBarrierId) : pc.Progress t a slot := by
  have same : At t = At s := by
    funext i cleared waits
    simp only [At, released, waiting]
  cases pc <;> simp only [RpcPc.Progress, cluster, same] at h ⊢ <;> exact h

theorem Release.quietly {s t : State ι κ} {e : Event ι κ} (inv : Release cfg s) (sound : Sound cfg s)
    (move : Move cfg s e t)
    (rpc : ∀ i, t.rpc i = s.rpc i ∨ ((t.rpc i).releasing = none ∧ (s.rpc i).releasing = none))
    (cluster : t.cluster = s.cluster) (released : t.released = s.released)
    (waiting : t.waitingBarrierId = s.waitingBarrierId)
    (started : ∀ slot, Started cfg t slot ↔ Started cfg s slot) : Release cfg t := by
  obtain ⟨round, rounds, state⟩ := inv
  have quiet : ∀ i, (s.rpc i).releasing = none → (t.rpc i).releasing = none := by
    intro i none
    rcases rpc i with same | ⟨none', -⟩
    · rw [same, none]
    · exact none'
  have node : ∀ i cleared waits, At s i cleared waits → At t i cleared waits := by
    intro i cleared waits h
    simpa only [At, released, waiting] using h
  refine ⟨round, fun slot => (started slot).trans (rounds slot), ?_⟩
  rcases state with idle | ⟨a, slot, next, releasing⟩
  · obtain ⟨h, held⟩ := idle.held
    obtain ⟨-, cleared, waits⟩ := idle.node h
    refine .inl ⟨fun i => quiet i (idle.quiet i), fun i => ?_, h, ?_⟩
    · rw [cluster]
      exact ⟨(idle.node i).1, node i _ _ (idle.node i).2⟩
    · exact held.move sound waits (by rw [cleared]; simp) move
  · refine .inr ⟨a, slot, next, fun i other => quiet i (releasing.quiet i other), ?_, ?_⟩
    · rcases rpc a with same | ⟨-, none⟩
      · rw [same]
        exact releasing.at'
      · rw [releasing.at'] at none
        cases none
    · rcases rpc a with same | ⟨-, none⟩
      · rw [same]
        exact releasing.progress.congr cluster released waiting
      · rw [releasing.at'] at none
        cases none

theorem optCount_of_reached {s : State ι κ} (counter : Counter cfg s) {slot : Nat}
    (reached : ∀ i, Reached cfg s i slot) : s.optCount slot =
      (∑ c, cfg.optNum c (slot + 1) : Nat) - (∑ c, s.decremented c slot : Nat) := by
  rw [counter.count slot]
  have all : ∀ c, contributed cfg s slot c = cfg.optNum c (slot + 1) := by
    intro c
    rw [contributed, if_pos (.inl ((reached (cfg.home c)).2 c rfl))]
  simp only [all]

theorem started_decrement {s : State ι κ} {i : ι} {r : Request κ} {slot : Nat} {v : Int}
    (value : v = (∑ c, cfg.optNum c (slot + 1) : Nat) - (∑ c, s.decremented c slot : Nat))
    (slot' : Nat) : Started cfg (decrement s i r slot v) slot' ↔
      Started cfg s slot' ∨ (slot' = slot ∧ v = 1) := by
  unfold Started
  simp only [decrement]
  rw [sum_set₂_succ]
  by_cases same : slot' = slot
  · subst same
    simp only [if_true, true_and]
    omega
  · simp [same]

theorem Release.start {s : State ι κ} {i : ι} {r : Request κ} {slot : Nat} {cas : Nat}
    (inv : Release cfg s) (sound : Sound cfg s) (withId : AllWithId s)
    (pc : s.rpc i = .casOptc r slot 1 cas)
    (value : 1 = (∑ c, cfg.optNum c (slot + 1) : Nat) - ((∑ c, s.decremented c slot : Nat) : Int)) :
    Release cfg (decrement s i r slot 1) := by
  have reached : ∀ j, Reached cfg s j slot := fun j =>
    sound.serving.seen i slot j (by rw [pc]; rfl) (by rw [pc]; trivial)
  have fresh : ¬ Started cfg s slot := by
    unfold Started
    omega
  obtain ⟨round, rounds, state⟩ := inv
  have late : round ≤ slot := by
    rw [rounds] at fresh
    omega
  rcases state with idle | ⟨a, slot', next, releasing⟩
  · have early : slot ≤ round := by
      obtain ⟨h, unreached | ⟨unreached, -⟩⟩ := idle.held
      · exact absurd ((reached h).earlier late) unreached
      · by_contra beyond
        exact unreached ((reached h).earlier (by omega))
    have same : round = slot := le_antisymm late early
    subst same
    refine ⟨round + 1, ?_, .inr ⟨i, round, rfl, ?_, ?_, ?_⟩⟩
    · intro slot'
      rw [started_decrement value, rounds]
      omega
    · intro j other
      simpa [decrement, other] using idle.quiet j
    · simp [decrement, RpcPc.releasing]
    · simpa [decrement, RpcPc.Progress, At] using idle.node
  · obtain ⟨here, r', serves⟩ := RpcPc.slot_of_releasing releasing.at'
    exact absurd ((reached a).earlier (by omega)) (not_reached_next sound withId serves here)

theorem Release.decrement {s : State ι κ} {i : ι} {r : Request κ} {slot : Nat} {v : Int}
    {cas : Nat} (inv : Release cfg s) (sound : Sound cfg s) (counter : Counter cfg s)
    (withId : AllWithId s) (pc : s.rpc i = .casOptc r slot v cas)
    (current : s.optCas slot = cas) : Release cfg (decrement s i r slot v) := by
  have value := (counter.rpcCas i r slot v cas pc).2 current.symm
  rw [optCount_of_reached counter fun j =>
    sound.serving.seen i slot j (by rw [pc]; rfl) (by rw [pc]; trivial)] at value
  by_cases last : v = 1
  · subst last
    exact inv.start sound withId pc value
  · have move : Move cfg s (.rpc i true) (Barrier.decrement s i r slot v) := .decrement pc current
    refine inv.quietly sound move ?_ rfl rfl rfl ?_
    · intro j
      by_cases own : j = i
      · subst own
        have more : ¬ v - 1 = 0 := by omega
        simp [Barrier.decrement, more, pc, RpcPc.releasing]
      · simp [Barrier.decrement, own]
    · intro slot'
      rw [started_decrement value]
      simp [last]

theorem Release.releaser {s : State ι κ} (inv : Release cfg s) {a : ι} {slot : Nat}
    (h : (s.rpc a).releasing = some slot) :
    (∀ slot', Started cfg s slot' ↔ slot' < slot + 1) ∧ Releasing s a slot := by
  obtain ⟨round, rounds, idle | ⟨a', slot', rfl, releasing⟩⟩ := inv
  · rw [idle.quiet a] at h
    cases h
  · by_cases same : a = a'
    · subst same
      have eq := releasing.at'
      rw [h, Option.some.injEq] at eq
      subst eq
      exact ⟨rounds, releasing⟩
    · rw [releasing.quiet a same] at h
      cases h

theorem Release.goOn {s t : State ι κ} (inv : Release cfg s) {a : ι} {slot : Nat} {pc : RpcPc ι κ}
    (h : (s.rpc a).releasing = some slot) (rpc : t.rpc = update s.rpc a pc)
    (decremented : t.decremented = s.decremented) (at' : pc.releasing = some slot)
    (progress : (s.rpc a).Progress s a slot → pc.Progress t a slot) : Release cfg t := by
  obtain ⟨rounds, releasing⟩ := inv.releaser h
  refine ⟨slot + 1, ?_, .inr ⟨a, slot, rfl, ?_, ?_, ?_⟩⟩
  · simpa only [Started, decremented] using rounds
  · intro i other
    rw [rpc, update_of_ne other]
    exact releasing.quiet i other
  · rw [rpc, update_self, at']
  · rw [rpc, update_self]
    exact progress releasing.progress

theorem At.other {s t : State ι κ} {i j : ι} {cleared waits : Nat} (h : At s j cleared waits)
    (other : j ≠ i) {v : List Nat} {w : Nat} (released : t.released = update s.released i v)
    (waiting : t.waitingBarrierId = update s.waitingBarrierId i w) : At t j cleared waits := by
  unfold At
  rw [released, waiting, update_of_ne other, update_of_ne other]
  exact h

theorem At.clear {s t : State ι κ} {i : ι} {slot : Nat} (h : At s i slot slot)
    (released : t.released = update s.released i (s.released i ++ [slot]))
    (waiting : t.waitingBarrierId = s.waitingBarrierId) : At t i (slot + 1) slot := by
  unfold At
  rw [released, waiting, update_self, h.1, List.range_succ]
  exact ⟨rfl, h.2⟩

theorem At.advance {s t : State ι κ} {i : ι} {slot : Nat} (h : At s i (slot + 1) slot)
    (released : t.released = s.released)
    (waiting : t.waitingBarrierId = update s.waitingBarrierId i (s.waitingBarrierId i + 1)) :
    At t i (slot + 1) (slot + 1) := by
  unfold At
  rw [released, waiting, update_self, h.2]
  exact ⟨h.1, rfl⟩

theorem Release.advance {s : State ι κ} {i : ι} {r : Request κ} {slot : Nat} (inv : Release cfg s)
    (sound : Sound cfg s) (withId : AllWithId s) (pc : s.rpc i = .advance r slot) :
    Release cfg { s with
      waitingBarrierId := update s.waitingBarrierId i (s.waitingBarrierId i + 1)
      rpc := update s.rpc i (.reply r) } := by
  obtain ⟨rounds, releasing⟩ := inv.releaser (show (s.rpc i).releasing = some slot by rw [pc]; rfl)
  have progress := releasing.progress
  rw [pc] at progress
  obtain ⟨own, free, others⟩ := progress
  refine ⟨slot + 1, rounds, .inl ⟨?_, ?_, i, .inl ?_⟩⟩
  · intro j
    by_cases same : j = i
    · subst same
      simp [RpcPc.releasing]
    · simpa [same] using releasing.quiet j same
  · intro j
    by_cases same : j = i
    · subst same
      exact ⟨free, own.advance rfl rfl⟩
    · exact ⟨(others j same).1, (others j same).2.other same (update_eq_self i _).symm rfl⟩
  · exact not_reached_next sound withId (r := r) (by rw [pc]; rfl) (by rw [pc]; rfl)

theorem Release.delClear {s : State ι κ} {i a : ι} {r : Request κ} {slot : Nat} {rest : List ι}
    (inv : Release cfg s) (pc : s.rpc a = .broadcast r slot (i :: rest))
    (free : s.cluster i = none) :
    Release cfg { s with
      barrier := set₂ s.barrier i (s.waitingBarrierId i) false
      released := update s.released i (s.released i ++ [s.waitingBarrierId i])
      cluster := update s.cluster i (some a) } := by
  refine inv.goOn (show (s.rpc a).releasing = some slot by rw [pc]; rfl) (update_eq_self a _).symm rfl
    (by rw [pc]; rfl) ?_
  rw [pc]
  rintro ⟨nodup, notOwn, own, ownFree, done, left⟩
  have other : a ≠ i := by
    rintro rfl
    exact notOwn (List.mem_cons_self ..)
  have here : At s i slot slot := by
    rcases left i (List.mem_cons_self ..) with ⟨-, here⟩ | ⟨busy, -⟩
    · exact here
    · rw [free] at busy
      cases busy
  refine ⟨nodup, notOwn, own.other other rfl (update_eq_self i _).symm, ?_, ?_, ?_⟩
  · simpa only [update_of_ne other] using ownFree
  · intro j away gone
    have apart : j ≠ i := by
      rintro rfl
      exact gone (List.mem_cons_self ..)
    obtain ⟨free', at'⟩ := done j away gone
    exact ⟨by simpa only [update_of_ne apart] using free', at'.other apart rfl (update_eq_self i _).symm⟩
  · intro j member
    by_cases same : j = i
    · subst same
      refine .inr ⟨update_self .., rfl, here.clear ?_ rfl⟩
      rw [here.2]
    · rcases left j member with ⟨free', at'⟩ | ⟨-, head, -⟩
      · refine .inl ⟨?_, at'.other same rfl (update_eq_self i _).symm⟩
        simpa only [update_of_ne same] using free'
      · simp only [List.head?_cons, Option.some.injEq] at head
        exact absurd head.symm same

theorem Release.delAdvance {s : State ι κ} {i a : ι} {r : Request κ} {slot : Nat} {rest : List ι}
    (inv : Release cfg s) (pc : s.rpc a = .broadcast r slot (i :: rest))
    (mid : s.cluster i = some a) :
    Release cfg { s with
      waitingBarrierId := update s.waitingBarrierId i (s.waitingBarrierId i + 1)
      cluster := update s.cluster i none
      rpc := update s.rpc a (.broadcast r slot rest) } := by
  refine inv.goOn (show (s.rpc a).releasing = some slot by rw [pc]; rfl) rfl rfl rfl ?_
  rw [pc]
  rintro ⟨nodup, notOwn, own, ownFree, done, left⟩
  obtain ⟨fresh, nodup'⟩ := List.nodup_cons.mp nodup
  have other : a ≠ i := by
    rintro rfl
    exact notOwn (List.mem_cons_self ..)
  have here : At s i (slot + 1) slot := by
    rcases left i (List.mem_cons_self ..) with ⟨free, -⟩ | ⟨-, -, here⟩
    · rw [mid] at free
      cases free
    · exact here
  refine ⟨nodup', fun member => notOwn (List.mem_cons_of_mem _ member),
    own.other other (update_eq_self i _).symm rfl, ?_, ?_, ?_⟩
  · simpa only [update_of_ne other] using ownFree
  · intro j away gone
    by_cases same : j = i
    · subst same
      exact ⟨update_self .., here.advance rfl rfl⟩
    · obtain ⟨free', at'⟩ := done j away (by simp [same, gone])
      exact ⟨by simpa only [update_of_ne same] using free', at'.other same (update_eq_self i _).symm rfl⟩
  · intro j member
    have same : j ≠ i := by
      rintro rfl
      exact fresh member
    rcases left j (List.mem_cons_of_mem _ member) with ⟨free', at'⟩ | ⟨-, head, -⟩
    · refine .inl ⟨?_, at'.other same (update_eq_self i _).symm rfl⟩
      simpa only [update_of_ne same] using free'
    · simp only [List.head?_cons, Option.some.injEq] at head
      exact absurd head.symm same

theorem rpc_update_quiet {s : State ι κ} {i : ι} {pc : RpcPc ι κ} (now : (s.rpc i).releasing = none)
    (next : pc.releasing = none) (j : ι) : update s.rpc i pc j = s.rpc j ∨
      ((update s.rpc i pc j).releasing = none ∧ (s.rpc j).releasing = none) := by
  by_cases same : j = i
  · subst same
    rw [update_self]
    exact .inr ⟨next, now⟩
  · exact .inl (update_of_ne same ..)

theorem Release.move {s t : State ι κ} {e : Event ι κ} (inv : Release cfg s) (sound : Sound cfg s)
    (counter : Counter cfg s) (withId : AllWithId s) (move : Move cfg s e t) : Release cfg t := by
  have quietly := inv.quietly sound move
  cases move with
  | take call pc =>
      exact quietly (rpc_update_quiet (by rw [pc]; rfl) rfl) rfl rfl rfl fun _ => .rfl
  | takeUndefined call pc =>
      exact quietly (rpc_update_quiet (by rw [pc]; rfl) rfl) rfl rfl rfl fun _ => .rfl
  | waitBarrier pc =>
      exact quietly (rpc_update_quiet (by rw [pc]; rfl) rfl) rfl rfl rfl fun _ => .rfl
  | waitNode pc =>
      exact quietly (rpc_update_quiet (by rw [pc]; rfl) rfl) rfl rfl rfl fun _ => .rfl
  | begun pc =>
      exact quietly (rpc_update_quiet (by rw [pc]; rfl) rfl) rfl rfl rfl fun _ => .rfl
  | opt pc =>
      exact quietly (rpc_update_quiet (by rw [pc]; rfl) rfl) rfl rfl rfl fun _ => .rfl
  | endGetOptc pc =>
      exact quietly (rpc_update_quiet (by rw [pc]; rfl) rfl) rfl rfl rfl fun _ => .rfl
  | decrementFail pc =>
      exact quietly (rpc_update_quiet (by rw [pc]; rfl) rfl) rfl rfl rfl fun _ => .rfl
  | reply pc =>
      exact quietly (rpc_update_quiet (by rw [pc]; rfl) rfl) rfl rfl rfl fun _ => .rfl
  | @decrement i ok r slot v cas pc current =>
      exact inv.decrement sound counter withId pc current
  | @clear i ok r slot pc =>
      refine inv.goOn (by rw [pc]; rfl) rfl rfl rfl ?_
      rw [pc]
      intro before
      refine ⟨(before i).2.clear rfl rfl, (before i).1, fun j other => ⟨(before j).1, ?_⟩⟩
      exact (before j).2.other other rfl (update_eq_self i _).symm
  | @reset i r slot pc =>
      refine inv.goOn (by rw [pc]; rfl) rfl rfl rfl ?_
      rw [pc]
      rintro ⟨own, free, before⟩
      refine ⟨cfg.nodup.filter _, by simp [others], own, free, ?_, ?_⟩
      · intro j other gone
        exact absurd (List.mem_filter.mpr ⟨cfg.complete j, by simpa using other⟩) gone
      · intro j member
        have other : j ≠ i := by simpa using (List.mem_filter.mp member).2
        exact .inl (before j other)
  | @broadcasted i ok r slot pc =>
      refine inv.goOn (by rw [pc]; rfl) rfl rfl rfl ?_
      rw [pc]
      rintro ⟨-, -, own, free, done, -⟩
      exact ⟨own, free, fun j other => done j other (List.not_mem_nil)⟩
  | advance pc => exact inv.advance sound withId pc
  | delClear pc free => exact inv.delClear pc free
  | delAdvance pc mid => exact inv.delAdvance pc mid
  | _ => exact quietly (fun _ => .inl rfl) rfl rfl rfl fun _ => .rfl

theorem Release.initial [Nonempty ι] : Release cfg (initialState : State ι κ) := by
  obtain ⟨h⟩ := ‹Nonempty ι›
  refine ⟨0, ?_, .inl ⟨?_, ?_, h, .inl ?_⟩⟩
  · intro slot
    simp only [Started, initialState, Finset.sum_const_zero]
    omega
  · simp [initialState, RpcPc.releasing]
  · simp [initialState, At]
  · rintro ⟨⟨c, home⟩, all⟩
    exact absurd (all c home) (Nat.not_lt_zero _)

/-- What holds in runs without FLUSHDIR. -/
structure Orderly (cfg : Config ι κ) (s : State ι κ) : Prop where
  sound : Sound cfg s
  counter : Counter cfg s
  withId : AllWithId s
  release : Release cfg s

theorem orderly_of_reachable [Nonempty ι] {ok : State ι κ → Event ι κ → Prop}
    (withId : ∀ s e, ok s e → WithId s e) (digits : ∀ c k, cfg.optNum c k ≤ 9) {s : State ι κ}
    (h : (system cfg).Reachable ok s) : Orderly cfg s := by
  apply h.invariant
  · rintro s rfl
    exact ⟨⟨.initial, .initial, .initial⟩, .initial, .initial, .initial⟩
  · intro s e t reach inv guard step
    have move := move_of_step step
    exact ⟨sound_of_reachable digits (.next reach guard step),
      inv.counter.move inv.sound digits move, inv.withId.move (withId s e guard) move,
      inv.release.move inv.sound inv.counter inv.withId move⟩

inductive UnderWay (s : State ι κ) (i : ι) (slot : Nat) : Prop
  | clear {a r} (pc : s.rpc a = .clear r slot)
  | reset {a r} (pc : s.rpc a = .reset r slot) (other : i ≠ a)
  | broadcast {a r rest} (pc : s.rpc a = .broadcast r slot rest) (member : i ∈ rest)

inductive Standing (cfg : Config ι κ) (s : State ι κ) (i : ι) (slot : Nat) : Prop
  | unstarted (at' : At s i slot slot) (fresh : ¬ Started cfg s slot)
  | underWay (at' : At s i slot slot) (release : UnderWay s i slot)
  | window (at' : At s i (slot + 1) slot) (started : Started cfg s slot) (busy : s.cluster i ≠ none)
  | own (at' : At s i (slot + 1) slot) (started : Started cfg s slot)
      (releasing : (s.rpc i).releasing = some slot)

theorem Release.standing {s : State ι κ} (inv : Release cfg s) (i : ι) :
    ∃ slot, (∀ slot' < slot, Started cfg s slot') ∧ Standing cfg s i slot := by
  obtain ⟨round, rounds, idle | ⟨a, slot, rfl, releasing⟩⟩ := inv
  · exact ⟨round, fun slot' less => (rounds slot').mpr less,
      .unstarted (idle.node i).2 (by rw [rounds]; exact lt_irrefl _)⟩
  · have earlier : ∀ slot' < slot, Started cfg s slot' := fun slot' less =>
      (rounds slot').mpr (by omega)
    have here : Started cfg s slot := (rounds slot).mpr (by omega)
    have next (at' : At s i (slot + 1) (slot + 1)) :
        ∃ slot, (∀ slot' < slot, Started cfg s slot') ∧ Standing cfg s i slot :=
      ⟨slot + 1, fun slot' less => (rounds slot').mpr less,
        .unstarted at' (by rw [rounds]; exact lt_irrefl _)⟩
    have progress := releasing.progress
    have at' := releasing.at'
    cases pc : s.rpc a with
    | clear r slot' =>
        rw [pc] at progress at'
        cases at'
        exact ⟨slot, earlier, .underWay (progress i).2 (.clear pc)⟩
    | reset r slot' =>
        rw [pc] at progress at'
        cases at'
        obtain ⟨own, -, before⟩ := progress
        by_cases same : i = a
        · subst same
          exact ⟨slot, earlier, .own own here releasing.at'⟩
        · exact ⟨slot, earlier, .underWay (before i same).2 (.reset pc same)⟩
    | broadcast r slot' rest =>
        rw [pc] at progress at'
        cases at'
        obtain ⟨-, -, own, -, done, left⟩ := progress
        by_cases same : i = a
        · subst same
          exact ⟨slot, earlier, .own own here releasing.at'⟩
        · by_cases member : i ∈ rest
          · rcases left i member with ⟨-, at'⟩ | ⟨busy, -, at'⟩
            · exact ⟨slot, earlier, .underWay at' (.broadcast pc member)⟩
            · exact ⟨slot, earlier, .window at' here (by simp [busy])⟩
          · exact next (done i same member).2
    | advance r slot' =>
        rw [pc] at progress at'
        cases at'
        obtain ⟨own, -, done⟩ := progress
        by_cases same : i = a
        · subst same
          exact ⟨slot, earlier, .own own here releasing.at'⟩
        · exact next (done i same).2
    | _ =>
        rw [pc] at progress
        exact progress.elim

theorem Release.started_of_released {s : State ι κ} (inv : Release cfg s) {i : ι} {slot : Nat}
    (member : slot ∈ s.released i) : Started cfg s slot := by
  obtain ⟨n, earlier, standing⟩ := inv.standing i
  have below {m : Nat} (released : s.released i = List.range m) : slot < m := by
    rw [released] at member
    simpa using member
  have upTo (less : slot < n + 1) (here : Started cfg s n) : Started cfg s slot := by
    rcases Nat.lt_succ_iff_lt_or_eq.mp less with less | rfl
    · exact earlier slot less
    · exact here
  cases standing with
  | unstarted at' fresh => exact earlier slot (below at'.1)
  | underWay at' release => exact earlier slot (below at'.1)
  | window at' here busy => exact upTo (below at'.1) here
  | own at' here releasing => exact upTo (below at'.1) here

end Pacon.Barrier
