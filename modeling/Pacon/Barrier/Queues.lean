import Pacon.Barrier.Moves

set_option linter.unusedSectionVars false

namespace Pacon.Barrier
open Function Lib

def Msg.path? : Msg → Option CString
  | .barrier path => some path
  | .op | .flushdir => none

def barrierPaths (mq : List Msg) : List CString := mq.filterMap Msg.path?

/-- The messages before the barrier message of a slot; all of them if there is none. -/
def sentBefore : Nat → List Msg → List Msg
  | _, [] => []
  | 0, .barrier _ :: _ => []
  | slot + 1, .barrier path :: rest => .barrier path :: sentBefore slot rest
  | slot, .op :: rest => .op :: sentBefore slot rest
  | slot, .flushdir :: rest => .flushdir :: sentBefore slot rest

theorem sentBefore_length {slot n : Nat} {mq : List Msg}
    (h : slot < (barrierPaths (mq.take n)).length) : (sentBefore slot mq).length < n := by
  induction mq generalizing slot n with
  | nil => simp [barrierPaths] at h
  | cons m mq ih =>
      cases n with
      | zero => simp [barrierPaths] at h
      | succ n =>
          cases m with
          | op =>
              have := @ih slot n (by simpa [barrierPaths, Msg.path?, List.filterMap_cons] using h)
              simpa [sentBefore] using this
          | flushdir =>
              have := @ih slot n (by simpa [barrierPaths, Msg.path?, List.filterMap_cons] using h)
              simpa [sentBefore] using this
          | barrier path =>
              cases slot with
              | zero => simp [sentBefore]
              | succ slot =>
                  have := @ih slot n (by simpa [barrierPaths, Msg.path?, List.filterMap_cons] using h)
                  simpa [sentBefore] using this

theorem take_succ_of_head {mq : List Msg} {n : Nat} {m : Msg} (head : mq[n]? = some m) :
    mq.take (n + 1) = mq.take n ++ [m] := by
  rw [List.take_add_one, head]
  rfl

theorem barrierPaths_take_succ {mq : List Msg} {n : Nat} {m : Msg} (head : mq[n]? = some m) :
    barrierPaths (mq.take (n + 1)) = barrierPaths (mq.take n) ++ m.path?.toList := by
  rw [take_succ_of_head head]
  cases m <;> simp [barrierPaths, Msg.path?]

theorem path_at_head {mq : List Msg} {n : Nat} {path : CString}
    (head : mq[n]? = some (.barrier path)) :
    (barrierPaths mq)[(barrierPaths (mq.take n)).length]? = some path := by
  have split : barrierPaths mq =
      barrierPaths (mq.take (n + 1)) ++ barrierPaths (mq.drop (n + 1)) := by
    rw [barrierPaths, barrierPaths, barrierPaths, ← List.filterMap_append, List.take_append_drop]
  rw [split, barrierPaths_take_succ head]
  simp [Msg.path?]

variable {ι κ : Type} [DecidableEq ι] [DecidableEq κ] [Fintype κ] (cfg : Config ι κ)

def passed (s : State ι κ) (c : κ) : Nat := (barrierPaths ((s.mq c).take (s.committed c))).length

def AtBarrier (s : State ι κ) (i : ι) (c : κ) (slot : Nat) : Prop :=
  cfg.home c = i ∧ slot = passed s c ∧
    (s.mq c)[s.committed c]? = some (.barrier (barrierPayload (cfg.optNum c (slot + 1)) (slot + 1)))

def CommitPc.Working (s : State ι κ) (i : ι) : CommitPc κ → Prop
  | .recv => True
  | .hold c m => cfg.home c = i ∧ (s.mq c)[s.committed c]? = some m
  | .getOptc c slot n => AtBarrier cfg s i c slot ∧ n = cfg.optNum c (slot + 1)
  | .casOptc c slot n _ _ => AtBarrier cfg s i c slot ∧ n = cfg.optNum c (slot + 1)
  | .reach c slot => AtBarrier cfg s i c slot
  | .setKey c slot => AtBarrier cfg s i c slot
  | .reachBarrier c => cfg.home c = i ∧ (s.mq c)[s.committed c]? = some .flushdir

def CommitPc.ahead (c : κ) : CommitPc κ → Nat
  | .setKey c' _ => if c' = c then 1 else 0
  | _ => 0

structure Queues (s : State ι κ) : Prop where
  inside : ∀ c, s.committed c ≤ (s.mq c).length
  paths : ∀ c, barrierPaths (s.mq c) =
    (List.range (min (s.currentBarrierId c) (barrierIdMax - 1))).map fun slot =>
      barrierPayload (cfg.optNum c (slot + 1)) (slot + 1)
  working : ∀ i, (s.commit i).Working cfg s i
  counted : ∀ c, s.counted c = passed s c + (s.commit (cfg.home c)).ahead c

variable {cfg}

theorem Queues.initial : Queues cfg (initialState : State ι κ) where
  inside c := by simp [initialState]
  paths c := by simp [initialState, barrierPaths]
  working i := trivial
  counted c := by simp [initialState, passed, barrierPaths, CommitPc.ahead]

theorem AtBarrier.congr {s t : State ι κ} {i : ι} {c : κ} {slot : Nat} (h : AtBarrier cfg s i c slot)
    (committed : t.committed c = s.committed c)
    (grows : ∀ m, (s.mq c)[s.committed c]? = some m → (t.mq c)[s.committed c]? = some m)
    (passed' : passed t c = passed s c) : AtBarrier cfg t i c slot := by
  obtain ⟨home, number, head⟩ := h
  refine ⟨home, ?_, ?_⟩
  · rw [passed', number]
  · rw [committed]
    exact grows _ head

theorem CommitPc.Working.congr {s t : State ι κ} {i : ι} {pc : CommitPc κ}
    (h : pc.Working cfg s i)
    (committed : ∀ c, cfg.home c = i → t.committed c = s.committed c)
    (grows : ∀ c m, (s.mq c)[s.committed c]? = some m → (t.mq c)[s.committed c]? = some m)
    (passed' : ∀ c, cfg.home c = i → passed t c = passed s c) : pc.Working cfg t i := by
  have bar {c slot} (h : AtBarrier cfg s i c slot) : AtBarrier cfg t i c slot :=
    h.congr (committed c h.1) (grows c) (passed' c h.1)
  cases pc with
  | recv => trivial
  | hold c m => exact ⟨h.1, by rw [committed c h.1]; exact grows c m h.2⟩
  | getOptc c slot n => exact ⟨bar h.1, h.2⟩
  | casOptc c slot n v cas => exact ⟨bar h.1, h.2⟩
  | reach c slot => exact bar h
  | setKey c slot => exact bar h
  | reachBarrier c => exact ⟨h.1, by rw [committed c h.1]; exact grows c _ h.2⟩

theorem Queues.grow {s t : State ι κ} (inv : Queues cfg s)
    (grow : ∀ c, ∃ more, t.mq c = s.mq c ++ more)
    (committed : t.committed = s.committed) (commit : t.commit = s.commit)
    (counted : t.counted = s.counted)
    (paths : ∀ c, barrierPaths (t.mq c) =
      (List.range (min (t.currentBarrierId c) (barrierIdMax - 1))).map fun slot =>
        barrierPayload (cfg.optNum c (slot + 1)) (slot + 1)) : Queues cfg t := by
  have passed' : ∀ c, passed t c = passed s c := by
    intro c
    obtain ⟨more, eq⟩ := grow c
    rw [passed, passed, eq, committed, List.take_append_of_le_length (inv.inside c)]
  refine ⟨?_, paths, ?_, ?_⟩
  · intro c
    obtain ⟨more, eq⟩ := grow c
    rw [eq, committed, List.length_append]
    exact (inv.inside c).trans (Nat.le_add_right _ _)
  · intro i
    rw [commit]
    refine (inv.working i).congr (fun c _ => by rw [committed]) ?_ (fun c _ => passed' c)
    intro c m head
    obtain ⟨more, eq⟩ := grow c
    rw [eq, List.getElem?_append_left (List.getElem?_eq_some_iff.mp head).1]
    exact head
  · intro c
    rw [counted, passed', commit]
    exact inv.counted c

theorem Queues.within {s t : State ι κ} {i : ι} {pc : CommitPc κ} (inv : Queues cfg s)
    (mq : t.mq = s.mq) (id : t.currentBarrierId = s.currentBarrierId)
    (committed : t.committed = s.committed) (commit : t.commit = update s.commit i pc)
    (working : pc.Working cfg s i)
    (counted : ∀ c, t.counted c + (s.commit (cfg.home c)).ahead c =
      s.counted c + (t.commit (cfg.home c)).ahead c) : Queues cfg t := by
  have passed' : passed t = passed s := by
    funext c
    rw [passed, passed, mq, committed]
  refine ⟨?_, ?_, ?_, ?_⟩
  · simpa only [mq, committed] using inv.inside
  · simpa only [mq, id] using inv.paths
  · intro j
    have same : (update s.commit i pc j).Working cfg s j := by
      by_cases h : j = i
      · subst h
        simpa using working
      · simpa [h] using inv.working j
    rw [commit]
    exact same.congr (fun c _ => by rw [committed]) (fun c m head => by rw [mq]; exact head)
      (fun c _ => by rw [passed'])
  · intro c
    have before := inv.counted c
    have change := counted c
    rw [passed']
    omega

theorem Queues.ends {s t : State ι κ} {i : ι} {c : κ} {m : Msg} (inv : Queues cfg s)
    (home : cfg.home c = i) (head : (s.mq c)[s.committed c]? = some m)
    (mq : t.mq = s.mq) (id : t.currentBarrierId = s.currentBarrierId)
    (committed : t.committed = update s.committed c (s.committed c + 1))
    (commit : t.commit = update s.commit i .recv)
    (counted : ∀ c', cfg.home c' = i → c' ≠ c →
      t.counted c' + (s.commit i).ahead c' = s.counted c')
    (same : ∀ c', cfg.home c' ≠ i → t.counted c' = s.counted c')
    (own : t.counted c = passed s c + m.path?.toList.length) : Queues cfg t := by
  have passedOther : ∀ c', c' ≠ c → passed t c' = passed s c' := by
    intro c' other
    rw [passed, passed, mq, committed, update_of_ne other]
  refine ⟨?_, ?_, ?_, ?_⟩
  · intro c'
    rw [mq, committed]
    by_cases h : c' = c
    · subst h
      rw [update_self]
      exact (List.getElem?_eq_some_iff.mp head).1
    · rw [update_of_ne h]
      exact inv.inside c'
  · simpa only [mq, id] using inv.paths
  · intro j
    rw [commit]
    by_cases h : j = i
    · subst h
      simp [CommitPc.Working]
    · rw [update_of_ne h]
      have other : ∀ c', cfg.home c' = j → c' ≠ c := by
        rintro c' home' rfl
        exact h (home'.symm.trans home)
      refine (inv.working j).congr ?_ (fun c' m head => by rw [mq]; exact head) ?_
      · intro c' home'
        rw [committed, update_of_ne (other c' home')]
      · intro c' home'
        exact passedOther c' (other c' home')
  · intro c'
    rw [commit]
    by_cases h : c' = c
    · subst h
      rw [home, update_self, own, passed, passed, mq, committed, update_self,
        barrierPaths_take_succ head, List.length_append]
      simp [CommitPc.ahead]
    · rw [passedOther c' h]
      have before := inv.counted c'
      by_cases home' : cfg.home c' = i
      · rw [home', update_self]
        have change := counted c' home' h
        rw [home'] at before
        simp only [CommitPc.ahead]
        omega
      · rw [update_of_ne home', same c' home']
        exact before

theorem Queues.path_in_hand {s : State ι κ} (inv : Queues cfg s) {c : κ} {path : CString}
    (head : (s.mq c)[s.committed c]? = some (.barrier path)) :
    passed s c < s.currentBarrierId c ∧ passed s c < barrierIdMax - 1 ∧
      path = barrierPayload (cfg.optNum c (passed s c + 1)) (passed s c + 1) := by
  have entry := path_at_head head
  rw [inv.paths c, ← passed, List.getElem?_map, Option.map_eq_some_iff] at entry
  obtain ⟨slot, found, rfl⟩ := entry
  obtain ⟨bound, rfl⟩ := List.getElem?_eq_some_iff.mp found
  simp only [List.length_range, lt_min_iff] at bound
  simp [bound.1, bound.2]

theorem Queues.slot_in_hand {s : State ι κ} (inv : Queues cfg s)
    (digits : ∀ c k, cfg.optNum c k ≤ 9) {i : ι} {c : κ} {path : CString} {slot : Nat}
    (pc : s.commit i = .hold c (.barrier path)) (index : barrierIndex path = some slot) :
    AtBarrier cfg s i c slot ∧ path = barrierPayload (cfg.optNum c (slot + 1)) (slot + 1) := by
  have hold := inv.working i
  rw [pc] at hold
  obtain ⟨home, head⟩ := hold
  obtain ⟨-, bound, payload⟩ := inv.path_in_hand head
  rw [payload, barrierIndex_payload (digits _ _) (by omega)] at index
  cases index
  exact ⟨⟨home, rfl, payload ▸ head⟩, payload⟩

theorem paths_barrier {s : State ι κ} (inv : Queues cfg s) (c c' : κ) :
    barrierPaths ((paconBarrier cfg s c).mq c') =
      (List.range (min ((paconBarrier cfg s c).currentBarrierId c') (barrierIdMax - 1))).map
        fun slot => barrierPayload (cfg.optNum c' (slot + 1)) (slot + 1) := by
  have before := inv.paths c'
  by_cases other : c' = c
  · subst other
    simp only [paconBarrier, update_self]
    split
    · rename_i small
      rw [update_self, barrierPaths, List.filterMap_append, ← barrierPaths, before,
        min_eq_left (by omega), min_eq_left (by omega), List.range_succ, List.map_append]
      rfl
    · rename_i large
      rw [before, min_eq_right (by omega), min_eq_right (by omega)]
  · simp only [paconBarrier, update_of_ne other]
    split
    · rw [update_of_ne other]
      exact before
    · exact before

theorem Queues.append {s t : State ι κ} (inv : Queues cfg s) {c : κ} {m : Msg}
    (plain : m.path? = none) (mq : t.mq = update s.mq c (s.mq c ++ [m]))
    (id : t.currentBarrierId = s.currentBarrierId)
    (committed : t.committed = s.committed) (commit : t.commit = s.commit)
    (counted : t.counted = s.counted) : Queues cfg t := by
  refine inv.grow ?_ committed commit counted ?_
  · intro c'
    rw [mq]
    by_cases h : c' = c
    · subst h
      exact ⟨[m], update_self ..⟩
    · exact ⟨[], by rw [update_of_ne h, List.append_nil]⟩
  · intro c'
    rw [mq, id, ← inv.paths c']
    by_cases h : c' = c
    · subst h
      simp [barrierPaths, List.filterMap_append, plain]
    · rw [update_of_ne h]

theorem Queues.finishPlain {s : State ι κ} {i : ι} {c : κ} {m : Msg} (inv : Queues cfg s)
    (home : cfg.home c = i) (head : (s.mq c)[s.committed c]? = some m) (plain : m.path? = none)
    (level : ∀ c', (s.commit i).ahead c' = 0) : Queues cfg (finish s i c) := by
  refine inv.ends home head rfl rfl rfl rfl ?_ (fun c' _ => rfl) ?_
  · intro c' _ _
    rw [level]
    rfl
  · have count := inv.counted c
    rw [home, level] at count
    simpa [finish, plain] using count

theorem Queues.finishKey {s t : State ι κ} {i : ι} {c : κ} {slot : Nat} (inv : Queues cfg s)
    (pc : s.commit i = .setKey c slot) (mq : t.mq = s.mq)
    (id : t.currentBarrierId = s.currentBarrierId)
    (committed : t.committed = update s.committed c (s.committed c + 1))
    (commit : t.commit = update s.commit i .recv) (counted : t.counted = s.counted) :
    Queues cfg t := by
  have working := inv.working i
  rw [pc] at working
  obtain ⟨home, -, head⟩ := working
  refine inv.ends home head mq id committed commit ?_ (fun c' _ => by rw [counted]) ?_
  · intro c' _ other
    rw [counted, pc]
    simp [CommitPc.ahead, Ne.symm other]
  · have count := inv.counted c
    rw [home, pc] at count
    simpa [counted, CommitPc.ahead, Msg.path?] using count

theorem Queues.move {s t : State ι κ} {e : Event ι κ} (inv : Queues cfg s)
    (digits : ∀ c k, cfg.optNum c k ≤ 9) (move : Move cfg s e t) : Queues cfg t := by
  have working := inv.working
  cases move with
  | send => exact inv.append rfl rfl rfl rfl rfl rfl
  | flush => exact inv.append rfl rfl rfl rfl rfl rfl
  | @barrier c =>
      refine inv.grow ?_ rfl rfl rfl (paths_barrier inv c)
      intro c'
      simp only [paconBarrier]
      split
      · by_cases h : c' = c
        · subst h
          exact ⟨[_], update_self ..⟩
        · exact ⟨[], by rw [update_of_ne h, List.append_nil]⟩
      · exact ⟨[], (List.append_nil _).symm⟩
  | @receive c m pc head =>
      refine inv.within rfl rfl rfl rfl ⟨rfl, head⟩ ?_
      intro c'
      by_cases h : cfg.home c' = cfg.home c
      · simp [h, pc, CommitPc.ahead]
      · simp [h]
  | @commitOp i ok c pc =>
      have hold := working i
      rw [pc] at hold
      exact inv.finishPlain hold.1 hold.2 rfl (by simp [pc, CommitPc.ahead])
  | @leaveReachBarrier i ok c pc =>
      have hold := working i
      rw [pc] at hold
      exact inv.finishPlain hold.1 hold.2 rfl (by simp [pc, CommitPc.ahead])
  | @commitFlushdir i ok c pc =>
      have hold := working i
      rw [pc] at hold
      refine inv.within rfl rfl rfl rfl hold ?_
      intro c'
      by_cases h : cfg.home c' = i <;> simp [h, pc, CommitPc.ahead]
  | @declare i ok c path slot pc clear index declares =>
      obtain ⟨bar, payload⟩ := inv.slot_in_hand digits pc index
      refine inv.within rfl rfl rfl rfl ⟨bar, ?_⟩ ?_
      · rw [payload, barrierOptNum_payload]
      · intro c'
        by_cases h : cfg.home c' = i <;> simp [h, pc, CommitPc.ahead]
  | @declareNone i ok c path slot pc clear index declares =>
      obtain ⟨bar, -⟩ := inv.slot_in_hand digits pc index
      refine inv.within rfl rfl rfl rfl bar ?_
      intro c'
      by_cases h : cfg.home c' = i <;> simp [h, pc, CommitPc.ahead]
  | @getOptc i ok c slot n pc =>
      have at' := working i
      rw [pc] at at'
      refine inv.within rfl rfl rfl rfl at' ?_
      intro c'
      by_cases h : cfg.home c' = i <;> simp [h, pc, CommitPc.ahead]
  | @casOptc i ok c slot n v cas pc =>
      have at' := working i
      rw [pc] at at'
      refine inv.within rfl rfl rfl rfl at'.1 ?_
      intro c'
      by_cases h : cfg.home c' = i <;> simp [h, pc, CommitPc.ahead]
  | @casOptcFail i ok c slot n v cas pc =>
      have at' := working i
      rw [pc] at at'
      refine inv.within rfl rfl rfl rfl at' ?_
      intro c'
      by_cases h : cfg.home c' = i <;> simp [h, pc, CommitPc.ahead]
  | @count i ok c slot pc =>
      have bar := working i
      rw [pc] at bar
      obtain ⟨home, number, head⟩ := bar
      refine inv.ends home head rfl rfl rfl rfl ?_ ?_ ?_
      · intro c' _ other
        simp [finish, counting, pc, CommitPc.ahead, other]
      · intro c' away
        have other : c' ≠ c := by
          rintro rfl
          exact away home
        simp [finish, counting, other]
      · have count := inv.counted c
        rw [home, pc] at count
        simpa [finish, counting, CommitPc.ahead, Msg.path?] using count
  | @countLast i ok c slot pc =>
      have bar := working i
      rw [pc] at bar
      have home := bar.1
      refine inv.within rfl rfl rfl rfl bar ?_
      intro c'
      by_cases h : c' = c
      · subst h
        simp [counting, home, pc, CommitPc.ahead]
      · by_cases home' : cfg.home c' = i
        · simp [counting, home', pc, h, Ne.symm h, CommitPc.ahead]
        · simp [counting, home', h]
  | setKey pc => exact inv.finishKey pc rfl rfl rfl rfl rfl
  | setKeyFail pc => exact inv.finishKey pc rfl rfl rfl rfl rfl
  | _ => exact ⟨inv.inside, inv.paths, inv.working, inv.counted⟩

end Pacon.Barrier
