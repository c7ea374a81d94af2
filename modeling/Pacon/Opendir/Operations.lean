import Pacon.Opendir.Model
import Mathlib.Data.List.Count

set_option linter.unusedSectionVars false

namespace Pacon.Barrier
open Function Lib

def opCount (mq : List Msg) : Nat := mq.count .op

variable {ι κ : Type} [DecidableEq ι] [DecidableEq κ] [Fintype κ] {cfg : Config ι κ}

def passedOps (s : State ι κ) (c : κ) : Nat := opCount ((s.mq c).take (s.committed c))

theorem opCount_append (mq more : List Msg) : opCount (mq ++ more) = opCount mq + opCount more :=
  List.count_append ..

theorem opCount_le {mq mq' : List Msg} (h : mq <+: mq') : opCount mq ≤ opCount mq' :=
  h.sublist.count_le _

theorem opCount_take_succ {mq : List Msg} {n : Nat} {m : Msg} (head : mq[n]? = some m) :
    opCount (mq.take (n + 1)) = opCount (mq.take n) + opCount [m] := by
  rw [take_succ_of_head head, opCount_append]

theorem sentBefore_isPrefix (slot : Nat) (mq : List Msg) : sentBefore slot mq <+: mq := by
  induction mq generalizing slot with
  | nil => cases slot <;> exact List.nil_prefix
  | cons m mq ih =>
      cases m with
      | op =>
          cases slot <;> exact List.prefix_cons_inj _ |>.mpr (ih _)
      | flushdir =>
          cases slot <;> exact List.prefix_cons_inj _ |>.mpr (ih _)
      | barrier path =>
          cases slot with
          | zero => exact List.nil_prefix
          | succ slot => exact List.prefix_cons_inj _ |>.mpr (ih _)

theorem sentBefore_append {slot : Nat} {mq : List Msg} (there : slot < (barrierPaths mq).length) (more : List Msg) :
    sentBefore slot (mq ++ more) = sentBefore slot mq := by
  induction mq generalizing slot with
  | nil => simp [barrierPaths] at there
  | cons m mq ih =>
      cases m with
      | op =>
          have rest := @ih slot (by simpa [barrierPaths, Msg.path?, List.filterMap_cons] using there)
          cases slot <;> simpa [sentBefore] using rest
      | flushdir =>
          have rest := @ih slot (by simpa [barrierPaths, Msg.path?, List.filterMap_cons] using there)
          cases slot <;> simpa [sentBefore] using rest
      | barrier path =>
          cases slot with
          | zero => rfl
          | succ slot =>
              have rest := @ih slot (by simpa [barrierPaths, Msg.path?, List.filterMap_cons] using there)
              simpa [sentBefore] using rest

theorem before_sentBefore {slot : Nat} {mq mq' : List Msg} (h : mq <+: mq') (few : (barrierPaths mq).length ≤ slot) :
    mq <+: sentBefore slot mq' := by
  obtain ⟨more, rfl⟩ := h
  induction mq generalizing slot with
  | nil => exact List.nil_prefix
  | cons m mq ih =>
      cases m with
      | op =>
          have rest := @ih slot (by simpa [barrierPaths, Msg.path?, List.filterMap_cons] using few)
          cases slot <;> exact List.prefix_cons_inj _ |>.mpr rest
      | flushdir =>
          have rest := @ih slot (by simpa [barrierPaths, Msg.path?, List.filterMap_cons] using few)
          cases slot <;> exact List.prefix_cons_inj _ |>.mpr rest
      | barrier path =>
          cases slot with
          | zero => simp [barrierPaths, Msg.path?] at few
          | succ slot =>
              have rest := @ih slot (by simpa [barrierPaths, Msg.path?, List.filterMap_cons] using few)
              exact List.prefix_cons_inj _ |>.mpr rest

theorem Move.mq_grows {s t : State ι κ} {e : Event ι κ} (move : Move cfg s e t) (c : κ) : s.mq c <+: t.mq c := by
  have append {d : κ} {more : List Msg} : s.mq c <+: update s.mq d (s.mq d ++ more) c := by
    by_cases same : c = d
    · subst same
      rw [update_self]
      exact List.prefix_append ..
    · rw [update_of_ne same]
  cases move with
  | send => exact append
  | flush => exact append
  | barrier =>
      simp only [paconBarrier]
      split
      · exact append
      · exact List.prefix_rfl
  | _ => exact List.prefix_rfl

/-- A step that neither sends an operation nor passes one on. -/
def Plain (s : State ι κ) : Event ι κ → Prop
  | .send _ => False
  | .commit i _ => ∀ c, s.commit i ≠ .hold c .op
  | _ => True

theorem Move.opCount {s t : State ι κ} {e : Event ι κ} (move : Move cfg s e t) (plain : Plain s e) (c : κ) :
    opCount (t.mq c) = opCount (s.mq c) := by
  have append {d : κ} {m : Msg} (other : m ≠ .op) :
      Barrier.opCount (update s.mq d (s.mq d ++ [m]) c) = Barrier.opCount (s.mq c) := by
    by_cases same : c = d
    · subst same
      rw [update_self, opCount_append]
      simp [Barrier.opCount, other]
    · rw [update_of_ne same]
  cases move with
  | send => exact plain.elim
  | flush => exact append (by simp)
  | barrier =>
      simp only [paconBarrier]
      split
      · exact append (by simp)
      · rfl
  | _ => rfl

theorem passedOps_finish {s t : State ι κ} {c d : κ} {m : Msg} (mq : t.mq = s.mq)
    (committed : t.committed = update s.committed d (s.committed d + 1))
    (head : (s.mq d)[s.committed d]? = some m) :
    passedOps t c = passedOps s c + if c = d then opCount [m] else 0 := by
  rw [passedOps, passedOps, mq, committed]
  by_cases same : c = d
  · subst same
    rw [update_self, opCount_take_succ head, if_pos rfl]
  · rw [update_of_ne same, if_neg same, Nat.add_zero]

theorem Move.passedOps {s t : State ι κ} {e : Event ι κ} (move : Move cfg s e t) (queues : Queues cfg s)
    (plain : Plain s e) (c : κ) : passedOps t c = passedOps s c := by
  have held {i : ι} {pc : CommitPc κ} (at' : s.commit i = pc) : pc.Working cfg s i := at' ▸ queues.working i
  have done {u : State ι κ} {d : κ} {m : Msg} (mq : u.mq = s.mq)
      (committed : u.committed = update s.committed d (s.committed d + 1))
      (head : (s.mq d)[s.committed d]? = some m) (other : m ≠ .op) : Barrier.passedOps u c = Barrier.passedOps s c := by
    rw [passedOps_finish mq committed head]
    simp [Barrier.opCount, other]
  have grown {u : State ι κ} (mq : s.mq c <+: u.mq c) (committed : u.committed = s.committed) :
      Barrier.passedOps u c = Barrier.passedOps s c := by
    obtain ⟨more, eq⟩ := mq
    rw [Barrier.passedOps, Barrier.passedOps, committed, ← eq, List.take_append_of_le_length (queues.inside c)]
  have extended := move.mq_grows c
  cases move with
  | commitOp pc => exact absurd pc (plain _)
  | count pc => exact done rfl rfl (held pc).2.2 (by simp)
  | setKey pc => exact done rfl rfl (held pc).2.2 (by simp)
  | setKeyFail pc => exact done rfl rfl (held pc).2.2 (by simp)
  | leaveReachBarrier pc => exact done rfl rfl (held pc).2 (by simp)
  | _ => exact grown extended rfl

theorem Move.receives {s t : State ι κ} {e : Event ι κ} (move : Move cfg s e t) {i : ι} (busy : t.commit i ≠ .recv) :
    s.commit i ≠ .recv ∨ ∃ c, e = .receive c ∧ cfg.home c = i := by
  have within {j : ι} {pc pc' : CommitPc κ} (at' : s.commit j = pc) (held : pc ≠ .recv)
      (busy : update s.commit j pc' i ≠ .recv) : s.commit i ≠ .recv := by
    by_cases same : i = j
    · subst same
      rwa [at']
    · rwa [update_of_ne same] at busy
  cases move with
  | @receive c m pc =>
      by_cases same : i = cfg.home c
      · exact .inr ⟨c, rfl, same.symm⟩
      · exact .inl (by simpa [update_of_ne same] using busy)
  | commitOp pc => exact .inl (within pc (by simp) busy)
  | commitFlushdir pc => exact .inl (within pc (by simp) busy)
  | declare pc => exact .inl (within pc (by simp) busy)
  | declareNone pc => exact .inl (within pc (by simp) busy)
  | getOptc pc => exact .inl (within pc (by simp) busy)
  | casOptc pc => exact .inl (within pc (by simp) busy)
  | casOptcFail pc => exact .inl (within pc (by simp) busy)
  | count pc => exact .inl (within pc (by simp) busy)
  | countLast pc => exact .inl (within pc (by simp) busy)
  | setKey pc => exact .inl (within pc (by simp) busy)
  | setKeyFail pc => exact .inl (within pc (by simp) busy)
  | leaveReachBarrier pc => exact .inl (within pc (by simp) busy)
  | _ => exact .inl busy

theorem Move.counts {s t : State ι κ} {e : Event ι κ} (move : Move cfg s e t) (queues : Queues cfg s) (c : κ) :
    t.counted c = s.counted c ∨ s.commit (cfg.home c) ≠ .recv := by
  have counting {i : ι} {d : κ} {slot : Nat} (pc : s.commit i = .reach d slot) {n : Nat} :
      update s.counted d n c = s.counted c ∨ s.commit (cfg.home c) ≠ .recv := by
    by_cases same : c = d
    · subst same
      obtain ⟨home, -⟩ := queues.slot_at_reach pc
      refine .inr ?_
      rw [home, pc]
      simp
    · exact .inl (update_of_ne same ..)
  cases move with
  | count pc => exact counting pc
  | countLast pc => exact counting pc
  | _ => exact .inl rfl

theorem Move.executes {s t : State ι κ} {e : Event ι κ} (move : Move cfg s e t) {d : κ} {slot : Nat}
    (done : 0 < t.executed d slot) : 0 < s.executed d slot ∨ ∃ i r, s.rpc i = .opt r slot := by
  cases move with
  | @opt i ok r slot' pc =>
      by_cases here : d = r.client ∧ slot = slot'
      · exact .inr ⟨i, r, here.2 ▸ pc⟩
      · refine .inl ?_
        change 0 < set₂ s.executed r.client slot' _ d slot at done
        rwa [set₂_of_ne fun same same' => here ⟨same, same'⟩] at done
  | _ => exact .inl done

theorem Queues.sent_of_counted {s : State ι κ} (queues : Queues cfg s) {c : κ} {slot : Nat}
    (counted : slot < s.counted c) : slot < (barrierPaths (s.mq c)).length := by
  rw [queues.counted_eq c] at counted
  exact counted.trans_le ((List.take_sublist _ _).filterMap _).length_le

theorem Queues.opCount_before {s : State ι κ} (queues : Queues cfg s) {c : κ} {slot : Nat}
    (counted : slot < s.counted c) : Barrier.opCount (sentBefore slot (s.mq c)) ≤ Barrier.passedOps s c := by
  apply opCount_le
  apply List.prefix_of_prefix_length_le (sentBefore_isPrefix slot (s.mq c)) (List.take_prefix ..)
  rw [List.length_take]
  have finished := queues.finished_before counted
  have inside := queues.inside c
  omega

end Pacon.Barrier
