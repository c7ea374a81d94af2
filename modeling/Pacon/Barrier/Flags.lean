import Pacon.Barrier.Queues

set_option linter.unusedSectionVars false

namespace Pacon.Barrier
open Function Lib

variable {ι κ : Type} [DecidableEq ι] [DecidableEq κ] [Fintype κ] (cfg : Config ι κ)

def Reached (s : State ι κ) (i : ι) (slot : Nat) : Prop :=
  (∃ c, cfg.home c = i) ∧ ∀ c, cfg.home c = i → slot < s.counted c

structure Flags (s : State ι κ) : Prop where
  info : ∀ i slot, s.barrierInfo i slot =
    (Finset.univ.filter fun c => cfg.home c = i ∧ slot < s.counted c).card
  flag : ∀ i slot, s.barrier i slot = true → Reached cfg s i slot
  key : ∀ i slot, s.nodeKey i slot = true → Reached cfg s i slot
  setting : ∀ i c slot, s.commit i = .setKey c slot → Reached cfg s i slot
  kept : ∀ i slot, Reached cfg s i slot → s.barrier i slot = true ∨ slot ∈ s.released i

variable {cfg}

@[simp] theorem set₂_self {α β : Type} [DecidableEq α] (f : α → Nat → β) (a : α) (slot : Nat) (v : β) :
    set₂ f a slot v a slot = v := by
  simp [set₂]

theorem set₂_of_ne {α β : Type} [DecidableEq α] {f : α → Nat → β} {a b : α} {slot slot' : Nat} {v : β}
    (h : b = a → slot' ≠ slot) : set₂ f a slot v b slot' = f b slot' := by
  by_cases same : b = a
  · subst same
    simp [set₂, h rfl]
  · simp [set₂, same]

theorem set₂_true {α : Type} [DecidableEq α] {f : α → Nat → Bool} {a b : α} {slot slot' : Nat}
    (h : set₂ f a slot true b slot' = true) : (b = a ∧ slot' = slot) ∨ f b slot' = true := by
  by_cases same : b = a ∧ slot' = slot
  · exact .inl same
  · rw [set₂_of_ne fun eq eq' => same ⟨eq, eq'⟩] at h
    exact .inr h

theorem set₂_false {α : Type} [DecidableEq α] {f : α → Nat → Bool} {a b : α} {slot slot' : Nat}
    (h : set₂ f a slot false b slot' = true) : f b slot' = true ∧ ¬ (b = a ∧ slot' = slot) := by
  by_cases same : b = a ∧ slot' = slot
  · obtain ⟨rfl, rfl⟩ := same
    simp at h
  · rw [set₂_of_ne fun eq eq' => same ⟨eq, eq'⟩] at h
    exact ⟨h, same⟩

theorem Move.counted_mono {s t : State ι κ} {e : Event ι κ} (move : Move cfg s e t) (c : κ) :
    s.counted c ≤ t.counted c := by
  cases move with
  | @count i ok c' slot =>
      by_cases h : c = c'
      · subst h
        simp [finish, counting]
      · simp [finish, counting, h]
  | @countLast i ok c' slot =>
      by_cases h : c = c'
      · subst h
        simp [counting]
      · simp [counting, h]
  | _ => exact le_rfl

theorem Reached.mono {s t : State ι κ} {i : ι} {slot : Nat} (h : Reached cfg s i slot)
    (mono : ∀ c, s.counted c ≤ t.counted c) : Reached cfg t i slot :=
  ⟨h.1, fun c home => (h.2 c home).trans_le (mono c)⟩

theorem Reached.earlier {s : State ι κ} {i : ι} {slot slot' : Nat} (h : Reached cfg s i slot)
    (le : slot' ≤ slot) : Reached cfg s i slot' :=
  ⟨h.1, fun c home => le.trans_lt (h.2 c home)⟩

theorem Flags.initial : Flags cfg (initialState : State ι κ) := by
  refine ⟨?_, ?_, ?_, ?_, ?_⟩
  · simp [initialState]
  · simp [initialState]
  · simp [initialState]
  · simp [initialState]
  · intro i slot reached
    obtain ⟨⟨c, home⟩, all⟩ := reached
    exact absurd (all c home) (Nat.not_lt_zero _)

theorem Flags.reached_iff {s : State ι κ} (info : ∀ i slot, s.barrierInfo i slot =
      (Finset.univ.filter fun c => cfg.home c = i ∧ slot < s.counted c).card)
    {i : ι} {c : κ} (home : cfg.home c = i) (slot : Nat) :
    Reached cfg s i slot ↔ s.barrierInfo i slot = cfg.clientNum i := by
  rw [info, cfg.clientNum_eq]
  constructor
  · intro reached
    congr 1
    ext c'
    simpa using fun home' => reached.2 c' home'
  · intro equal
    refine ⟨⟨c, home⟩, ?_⟩
    have all := Finset.eq_of_subset_of_card_le
      (s := Finset.univ.filter fun c => cfg.home c = i ∧ slot < s.counted c)
      (t := Finset.univ.filter fun c => cfg.home c = i)
      (by intro c'; simp +contextual) equal.ge
    intro c' home'
    have member : c' ∈ Finset.univ.filter fun c => cfg.home c = i := by simpa using home'
    rw [← all] at member
    simp only [Finset.mem_filter] at member
    exact member.2.2

theorem counting_counted (s : State ι κ) (i : ι) (c : κ) (slot : Nat) :
    (counting s i c slot).counted = update s.counted c (s.counted c + 1) := rfl

theorem counting_barrierInfo (s : State ι κ) (i : ι) (c : κ) (slot : Nat) :
    (counting s i c slot).barrierInfo =
      set₂ s.barrierInfo i slot (s.barrierInfo i slot + 1) := rfl

theorem info_counting {s : State ι κ} (info : ∀ i slot, s.barrierInfo i slot =
      (Finset.univ.filter fun c => cfg.home c = i ∧ slot < s.counted c).card)
    {i : ι} {c : κ} (home : cfg.home c = i) (j : ι) (slot : Nat) :
    (counting s i c (s.counted c)).barrierInfo j slot =
      (Finset.univ.filter fun c' => cfg.home c' = j ∧
        slot < (counting s i c (s.counted c)).counted c').card := by
  by_cases own : j = i ∧ slot = s.counted c
  · obtain ⟨rfl, rfl⟩ := own
    simp only [counting, set₂_self, info]
    rw [← Finset.card_insert_of_notMem
      (s := Finset.univ.filter fun c' => cfg.home c' = j ∧ s.counted c < s.counted c')
      (a := c) (by simp)]
    congr 1
    ext c'
    by_cases h : c' = c
    · subst h
      simp [home]
    · simp [h]
  · rw [counting_barrierInfo, counting_counted, set₂_of_ne fun eq eq' => own ⟨eq, eq'⟩, info]
    refine congrArg Finset.card (Finset.filter_congr fun c' _ => ?_)
    by_cases h : c' = c
    · subst h
      rw [update_self]
      refine and_congr_right fun home' => ?_
      have : slot ≠ s.counted c' := fun eq => own ⟨home'.symm.trans home, eq⟩
      omega
    · rw [update_of_ne h]

theorem setKey_of_update {f : ι → CommitPc κ} {i j : ι} {pc : CommitPc κ} {c : κ} {slot : Nat}
    (h : update f i pc j = .setKey c slot) (no : ∀ c slot, pc ≠ .setKey c slot) :
    f j = .setKey c slot := by
  by_cases same : j = i
  · subst same
    rw [update_self] at h
    exact absurd h (no c slot)
  · rwa [update_of_ne same] at h

theorem Flags.within {s t : State ι κ} {i : ι} {pc : CommitPc κ} (inv : Flags cfg s)
    (counted : t.counted = s.counted) (info : t.barrierInfo = s.barrierInfo)
    (barrier : t.barrier = s.barrier) (released : t.released = s.released)
    (commit : t.commit = update s.commit i pc) (no : ∀ c slot, pc ≠ .setKey c slot)
    (key : ∀ i slot, t.nodeKey i slot = true → Reached cfg s i slot) : Flags cfg t := by
  have reached {i slot} (h : Reached cfg s i slot) : Reached cfg t i slot :=
    h.mono fun c => by rw [counted]
  refine ⟨?_, ?_, ?_, ?_, ?_⟩
  · simpa only [info, counted] using inv.info
  · intro j slot set
    exact reached (inv.flag j slot (barrier ▸ set))
  · intro j slot set
    exact reached (key j slot set)
  · intro j c slot pc'
    rw [commit] at pc'
    exact reached (inv.setting j c slot (setKey_of_update pc' no))
  · intro j slot reached'
    rw [barrier, released]
    exact inv.kept j slot (reached'.mono fun c => by rw [counted])

theorem Flags.release {s t : State ι κ} {i : ι} {slot : Nat} (inv : Flags cfg s)
    (counted : t.counted = s.counted) (info : t.barrierInfo = s.barrierInfo)
    (barrier : t.barrier = set₂ s.barrier i slot false)
    (released : t.released = update s.released i (s.released i ++ [slot]))
    (key : t.nodeKey = s.nodeKey) (commit : t.commit = s.commit) : Flags cfg t := by
  have reached {i slot} (h : Reached cfg s i slot) : Reached cfg t i slot :=
    h.mono fun c => by rw [counted]
  refine ⟨?_, ?_, ?_, ?_, ?_⟩
  · simpa only [info, counted] using inv.info
  · intro j slot' set
    rw [barrier] at set
    exact reached (inv.flag j slot' (set₂_false set).1)
  · intro j slot' set
    exact reached (inv.key j slot' (key ▸ set))
  · intro j c slot' pc
    exact reached (inv.setting j c slot' (commit ▸ pc))
  · intro j slot' reached'
    rw [barrier, released]
    by_cases own : j = i ∧ slot' = slot
    · obtain ⟨rfl, rfl⟩ := own
      simp
    · rw [set₂_of_ne fun eq eq' => own ⟨eq, eq'⟩]
      rcases inv.kept j slot' (reached'.mono fun c => by rw [counted]) with set | gone
      · exact .inl set
      · right
        by_cases same : j = i
        · subst same
          simp [gone]
        · rwa [update_of_ne same]

theorem Queues.slot_at_reach {s : State ι κ} (queues : Queues cfg s) {i : ι} {c : κ} {slot : Nat}
    (pc : s.commit i = .reach c slot) : cfg.home c = i ∧ slot = s.counted c := by
  have working := queues.working i
  rw [pc] at working
  obtain ⟨home, number, -⟩ := working
  refine ⟨home, ?_⟩
  rw [queues.counted, home, pc]
  exact number

theorem Flags.move {s t : State ι κ} {e : Event ι κ} (inv : Flags cfg s) (queues : Queues cfg s)
    (move : Move cfg s e t) : Flags cfg t := by
  have mono := move.counted_mono
  cases move with
  | receive => exact inv.within rfl rfl rfl rfl rfl (by simp) inv.key
  | commitOp => exact inv.within rfl rfl rfl rfl rfl (by simp) inv.key
  | commitFlushdir => exact inv.within rfl rfl rfl rfl rfl (by simp) inv.key
  | declare => exact inv.within rfl rfl rfl rfl rfl (by simp) inv.key
  | declareNone => exact inv.within rfl rfl rfl rfl rfl (by simp) inv.key
  | getOptc => exact inv.within rfl rfl rfl rfl rfl (by simp) inv.key
  | casOptc => exact inv.within rfl rfl rfl rfl rfl (by simp) inv.key
  | casOptcFail => exact inv.within rfl rfl rfl rfl rfl (by simp) inv.key
  | setKeyFail => exact inv.within rfl rfl rfl rfl rfl (by simp) inv.key
  | leaveReachBarrier => exact inv.within rfl rfl rfl rfl rfl (by simp) inv.key
  | @setKey i c slot pc =>
      refine inv.within rfl rfl rfl rfl rfl (by simp) ?_
      intro j slot' set
      rcases set₂_true set with ⟨rfl, rfl⟩ | set
      · exact inv.setting _ _ _ pc
      · exact inv.key _ _ set
  | @count i ok c slot pc more =>
      obtain ⟨home, rfl⟩ := queues.slot_at_reach pc
      have info := info_counting inv.info home
      refine ⟨info, ?_, ?_, ?_, ?_⟩
      · exact fun j slot set => (inv.flag j slot set).mono mono
      · exact fun j slot set => (inv.key j slot set).mono mono
      · exact fun j c slot pc =>
          (inv.setting j c slot (setKey_of_update pc (by simp))).mono mono
      · intro j slot reached
        by_cases own : j = i ∧ slot = s.counted c
        · obtain ⟨rfl, rfl⟩ := own
          have full : Reached cfg (counting s j c (s.counted c)) j (s.counted c) := reached
          rw [Flags.reached_iff info home] at full
          exact absurd full (by simpa [counting] using more)
        · refine inv.kept j slot ⟨reached.1, fun c' home' => ?_⟩
          have later := reached.2 c' home'
          by_cases h : c' = c
          · subst h
            have : slot ≠ s.counted c' := fun eq => own ⟨home'.symm.trans home, eq⟩
            simp [finish, counting] at later
            omega
          · simpa [finish, counting, h] using later
  | @countLast i ok c slot pc last =>
      obtain ⟨home, rfl⟩ := queues.slot_at_reach pc
      have info := info_counting inv.info home
      have now : Reached cfg (counting s i c (s.counted c)) i (s.counted c) := by
        rw [Flags.reached_iff info home]
        simpa [counting] using last
      refine ⟨info, ?_, ?_, ?_, ?_⟩
      · intro j slot set
        rcases set₂_true set with ⟨rfl, rfl⟩ | set
        · exact now
        · exact (inv.flag j slot set).mono mono
      · exact fun j slot set => (inv.key j slot set).mono mono
      · intro j c' slot pc'
        by_cases same : j = i
        · subst same
          simp only [update_self, CommitPc.setKey.injEq] at pc'
          obtain ⟨-, rfl⟩ := pc'
          exact now
        · simp only [update_of_ne same] at pc'
          exact (inv.setting j c' slot pc').mono mono
      · intro j slot reached
        by_cases own : j = i ∧ slot = s.counted c
        · obtain ⟨rfl, rfl⟩ := own
          simp
        · simp only [set₂_of_ne fun eq eq' => own ⟨eq, eq'⟩]
          refine inv.kept j slot ⟨reached.1, fun c' home' => ?_⟩
          have later := reached.2 c' home'
          by_cases h : c' = c
          · subst h
            have : slot ≠ s.counted c' := fun eq => own ⟨home'.symm.trans home, eq⟩
            simp [counting] at later
            omega
          · simpa [counting, h] using later
  | clear => exact inv.release rfl rfl rfl rfl rfl rfl
  | delClear => exact inv.release rfl rfl rfl rfl rfl rfl
  | reset =>
      refine ⟨inv.info, inv.flag, ?_, inv.setting, inv.kept⟩
      exact fun j slot set => inv.key j slot (set₂_false set).1
  | _ => exact ⟨inv.info, inv.flag, inv.key, inv.setting, inv.kept⟩

end Pacon.Barrier
