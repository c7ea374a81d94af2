import Pacon.Cuckoo.Index
import Pacon.Lib.Placement

namespace Pacon.Cuckoo
open Function Lib

inductive Place where
  | now (b : Nat) (s : Slot)
  | old (b : Nat) (s : Slot)
  deriving DecidableEq

variable {κ α : Type*} {hash : κ → BitVec 64}

/-- An item has the tag of its key, and is in one of the two buckets of it. -/
def Fits (hash : κ → BitVec 64) (hp oldHp : Nat) : Place → Item κ α → Prop
  | .now b _, x => x.tag = tagOf (hash x.key) ∧ Home hp (hash x.key) b
  | .old b _, x => x.tag = tagOf (hash x.key) ∧ Home oldHp (hash x.key) b

theorem Fits.tag {hp oldHp : Nat} {p : Place} {x : Item κ α} (fits : Fits hash hp oldHp p x) :
    x.tag = tagOf (hash x.key) := by
  cases p <;> exact fits.1

def placed (new old : Buckets κ α) (waits : Nat → Slot → Bool) : Place → Option (Item κ α)
  | .now b s => new.slots b s
  | .old b s => bif waits b s then old.slots b s else none

namespace Table

def place (t : Table κ α) : Place → Option (Item κ α) :=
  placed t.buckets t.oldBuckets fun b _ => !t.isMigrated (lockInd b)

end Table

theorem slots_set {x : Buckets κ α} {b b' : Nat} {s s' : Slot} {item : Option (Item κ α)} :
    (x.set b s item).slots b' s' = if b' = b ∧ s' = s then item else x.slots b' s' := by
  simp only [Buckets.set, update_apply]
  split
  · rename_i same
    subst same
    simp [update_apply]
  · simp [*]

theorem slots_setKV_of_ne {x : Buckets κ α} {b b' : Nat} {s : Slot} {item : Item κ α} (ne : b' ≠ b) :
    (x.setKV b s item).slots b' = x.slots b' := by
  funext s'
  rw [Buckets.setKV, slots_set, if_neg fun same => ne same.1]

variable {new old : Buckets κ α} {waits : Nat → Slot → Bool}

theorem placed_set {b : Nat} {s : Slot} {item : Option (Item κ α)} :
    placed (new.set b s item) old waits = update (placed new old waits) (.now b s) item := by
  funext p
  cases p with
  | now b' s' =>
      rw [update_apply]
      simp only [placed, slots_set, Place.now.injEq]
  | old b' s' => rw [update_of_ne Place.noConfusion, placed, placed]

theorem old_outside {hp b : Nat} {s : Slot}
    (arranged : Arranged Item.key (Fits hash hp old.hashpower) (placed new old waits)) (waiting : waits b s = true)
    (outside : ¬b < old.size) : old.slots b s = none := by
  by_contra full
  obtain ⟨item, content⟩ := Option.ne_none_iff_exists'.mp full
  have place : placed new old waits (.old b s) = some item := by rw [placed, waiting, cond_true, content]
  exact outside (arranged.fits place).2.lt

def doneAt (waits : Nat → Slot → Bool) (b : Nat) (s : Slot) : Nat → Slot → Bool :=
  fun b' s' => waits b' s' && !(b' = b && s' = s)

theorem placed_doneAt {b : Nat} {s : Slot} :
    placed new old (doneAt waits b s) = update (placed new old waits) (.old b s) none := by
  funext p
  cases p with
  | now b' s' => rw [update_of_ne Place.noConfusion, placed, placed]
  | old b' s' =>
      rw [update_apply]
      simp only [placed, Place.old.injEq]
      by_cases here : b' = b ∧ s' = s
      · have done : doneAt waits b s b' s' = false := by simp [doneAt, here]
        rw [if_pos here, done]
        rfl
      · have same : doneAt waits b s b' s' = waits b' s' := by
          have other : (decide (b' = b) && decide (s' = s)) = false := by simpa using here
          rw [doneAt, other, Bool.not_false, Bool.and_true]
        rw [if_neg here, same]

theorem placed_leave {b i : Nat} {s s' : Slot} {item : Item κ α} (thing : placed new old waits (.old b s) = some item) :
    placed (new.setKV i s' item) old (doneAt waits b s) =
      moveTo (placed new old waits) (.old b s) (.now i s') := by
  rw [Buckets.setKV, placed_set, placed_doneAt, moveTo, thing]

theorem placed_kick {b i : Nat} {s s' : Slot} {item : Item κ α} (thing : new.slots b s = some item)
    (apart : i ≠ b) :
    placed ((new.setKV i s' item).eraseKV b s) old waits =
      moveTo (placed new old waits) (.now b s) (.now i s') := by
  have ne : Place.now b s ≠ Place.now i s' := by
    intro same
    cases same
    exact apart rfl
  have here : placed new old waits (.now b s) = some item := thing
  rw [Buckets.eraseKV, placed_set, Buckets.setKV, placed_set, moveTo, here, update_comm ne.symm]

def upper (old : Buckets κ α) (b : Nat) : Nat := b + old.size

theorem upper_ne {b : Nat} : upper old b ≠ b := by
  have positive : 0 < old.size := Nat.two_pow_pos _
  unfold upper
  omega

theorem moveSlot_cases {b n : Nat} {s : Slot} (double : old.hashpower + 1 = new.hashpower)
    (fit : ∀ item, old.slots b s = some item → Fits hash new.hashpower old.hashpower (.old b s) item) :
    old.slots b s = none ∧ moveSlot hash old b (new, n) s = (new, n) ∨
      ∃ item i s' n', old.slots b s = some item ∧ moveSlot hash old b (new, n) s = (new.setKV i s' item, n') ∧
        (i = b ∧ s' = s ∧ n' = n ∨ i = upper old b ∧ s' = Fin.ofNat slotPerBucket n ∧ n' = n + 1) ∧
        Fits hash new.hashpower old.hashpower (.now i s') item := by
  cases content : old.slots b s with
  | none => exact .inl ⟨rfl, by rw [moveSlot, content]⟩
  | some item =>
      right
      obtain ⟨tag, home⟩ := fit item content
      have double := double ▸ home.double
      simp only [moveSlot, content]
      split
      · rename_i up
        exact ⟨item, _, _, _, rfl, rfl, .inr ⟨rfl, rfl, rfl⟩, tag, (if_pos up).mp double⟩
      · rename_i stays
        exact ⟨item, _, _, _, rfl, rfl, .inl ⟨rfl, rfl, rfl⟩, tag, (if_neg stays).mp double⟩

structure Transfers (hash : κ → BitVec 64) (old new new' : Buckets κ α) (waits waits' : Nat → Slot → Bool)
    (touched : Nat → Prop) : Prop where
  moved : Moved (Fits hash new.hashpower old.hashpower) (placed new old waits) (placed new' old waits')
  hashpower : new'.hashpower = new.hashpower
  frame : ∀ i, ¬touched i → new'.slots i = new.slots i

theorem Transfers.refl {touched : Nat → Prop} : Transfers hash old new new waits waits touched :=
  ⟨.refl, rfl, fun _ _ => rfl⟩

theorem Transfers.trans {new₁ new₂ : Buckets κ α} {waits₁ waits₂ : Nat → Slot → Bool} {touched touched₁ touched₂ : Nat → Prop}
    (first : Transfers hash old new new₁ waits waits₁ touched₁)
    (second : Transfers hash old new₁ new₂ waits₁ waits₂ touched₂) (inside₁ : ∀ i, touched₁ i → touched i)
    (inside₂ : ∀ i, touched₂ i → touched i) : Transfers hash old new new₂ waits waits₂ touched where
  moved := first.moved.trans (first.hashpower ▸ second.moved)
  hashpower := second.hashpower.trans first.hashpower
  frame i untouched :=
    (second.frame i fun member => untouched (inside₂ i member)).trans
      (first.frame i fun member => untouched (inside₁ i member))

abbrev Touched (old : Buckets κ α) (b i : Nat) : Prop := i = b ∨ i = upper old b

theorem moveSlots_transfers {b : Nat} (double : old.hashpower + 1 = new.hashpower) {slots : List Slot} {n : Nat}
    (distinct : slots.Nodup) (few : n + slots.length ≤ slotPerBucket) (waiting : ∀ s ∈ slots, waits b s = true)
    (free : ∀ s ∈ slots, new.slots b s = none) (above : ∀ s : Slot, n ≤ s.val → new.slots (upper old b) s = none)
    (arranged : Arranged Item.key (Fits hash new.hashpower old.hashpower) (placed new old waits)) :
    Transfers hash old new (slots.foldl (moveSlot hash old b) (new, n)).1 waits
      (slots.foldl (fun waits s => doneAt waits b s) waits) (Touched old b) := by
  induction slots generalizing new n waits with
  | nil => exact .refl
  | cons s slots ih =>
      obtain ⟨once, distinct⟩ := List.nodup_cons.mp distinct
      rw [List.length_cons] at few
      have here : placed new old waits (.old b s) = old.slots b s := by
        rw [placed, waiting s List.mem_cons_self, cond_true]
      -- the slots that are left still wait
      have waiting' : ∀ r ∈ slots, doneAt waits b s b r = true := by
        intro r member
        have other : r ≠ s := fun same => once (same ▸ member)
        simp [doneAt, waiting r (List.mem_cons_of_mem _ member), other]
      rw [List.foldl_cons, List.foldl_cons]
      have cases := moveSlot_cases (n := n) double fun item content => arranged.fits (here.trans content)
      rcases cases with ⟨empty, step⟩ | ⟨item, i, s', n', content, step, target, fit⟩
      · have same : placed new old (doneAt waits b s) = placed new old waits := by
          rw [placed_doneAt, update_eq_self_iff, here, empty]
        have rest := ih double distinct (by omega) waiting' (fun r member => free r (List.mem_cons_of_mem _ member))
          above (same ▸ arranged)
        rw [step]
        exact ⟨same ▸ rest.moved, rest.hashpower, rest.frame⟩
      · have free' : new.slots i s' = none := by
          rcases target with ⟨rfl, rfl, -⟩ | ⟨rfl, rfl, -⟩
          · exact free _ List.mem_cons_self
          · apply above
            rw [Fin.val_ofNat, Nat.mod_eq_of_lt (by omega)]
        have touched : Touched old b i := by
          rcases target with ⟨rfl, -⟩ | ⟨rfl, -⟩
          · exact .inl rfl
          · exact .inr rfl
        have first : Transfers hash old new (new.setKV i s' item) waits (doneAt waits b s) (Touched old b) := {
          moved := by
            rw [placed_leave (here.trans content)]
            exact .single (here.trans content) free' fit
          hashpower := rfl
          frame := fun j untouched => slots_setKV_of_ne fun same => untouched (same ▸ touched) }
        have double' : old.hashpower + 1 = (new.setKV i s' item).hashpower := double
        rw [step]
        refine first.trans (ih double' distinct ?_ waiting' ?_ ?_ (first.moved.arranged arranged)) (fun _ => id) fun _ => id
        · rcases target with ⟨-, -, rfl⟩ | ⟨-, -, rfl⟩ <;> omega
        · intro r member
          rw [Buckets.setKV, slots_set, if_neg]
          · exact free r (List.mem_cons_of_mem _ member)
          · rintro ⟨same, rfl⟩
            rcases target with ⟨-, rfl, -⟩ | ⟨rfl, -, -⟩
            · exact once member
            · exact upper_ne same.symm
        · intro r later
          rw [Buckets.setKV, slots_set, if_neg]
          · rcases target with ⟨-, -, rfl⟩ | ⟨-, -, rfl⟩
            · exact above r later
            · exact above r (by omega)
          · rintro ⟨same, rfl⟩
            rcases target with ⟨rfl, -, -⟩ | ⟨-, rfl, rfl⟩
            · exact upper_ne same
            · rw [Fin.val_ofNat, Nat.mod_eq_of_lt (by omega)] at later
              omega

def doneBucket (waits : Nat → Slot → Bool) (b : Nat) : Nat → Slot → Bool :=
  (List.finRange slotPerBucket).foldl (fun waits s => doneAt waits b s) waits

theorem foldl_doneAt {b b' : Nat} {s' : Slot} (slots : List Slot) :
    slots.foldl (fun waits s => doneAt waits b s) waits b' s' = true ↔ waits b' s' = true ∧ ¬(b' = b ∧ s' ∈ slots) := by
  induction slots generalizing waits with
  | nil => simp
  | cons s slots ih =>
      rw [List.foldl_cons, ih, doneAt]
      by_cases bucket : b' = b <;> by_cases slot : s' = s <;> simp [bucket, slot]

theorem doneBucket_eq {b b' : Nat} {s' : Slot} : doneBucket waits b b' s' = (waits b' s' && !decide (b' = b)) := by
  rw [Bool.eq_iff_iff, doneBucket, foldl_doneAt]
  simp [List.mem_finRange]

theorem moveBucket_transfers {b : Nat} (double : old.hashpower + 1 = new.hashpower)
    (waiting : ∀ s, waits b s = true) (free : ∀ s, new.slots b s = none) (above : ∀ s, new.slots (upper old b) s = none)
    (arranged : Arranged Item.key (Fits hash new.hashpower old.hashpower) (placed new old waits)) :
    Transfers hash old new (moveBucket hash old new b) waits (doneBucket waits b) (Touched old b) :=
  moveSlots_transfers double (List.nodup_finRange _) (by rw [List.length_finRange, Nat.zero_add]) (fun s _ => waiting s)
    (fun s _ => free s) (fun s _ => above s) arranged

theorem apart_of_lt {b b' i : Nat} (inside : b < old.size) (inside' : b' < old.size) (ne : b' ≠ b)
    (touched : Touched old b' i) : ¬Touched old b i := by
  unfold Touched upper at *
  omega

theorem moveBuckets_transfers (double : old.hashpower + 1 = new.hashpower) {bs : List Nat} (distinct : bs.Nodup)
    (inside : ∀ b ∈ bs, b < old.size) (waiting : ∀ b ∈ bs, ∀ s, waits b s = true)
    (free : ∀ b ∈ bs, ∀ i, Touched old b i → ∀ s, new.slots i s = none)
    (arranged : Arranged Item.key (Fits hash new.hashpower old.hashpower) (placed new old waits)) :
    Transfers hash old new (bs.foldl (moveBucket hash old) new) waits (bs.foldl doneBucket waits)
      fun i => ∃ b ∈ bs, Touched old b i := by
  induction bs generalizing new waits with
  | nil => exact .refl
  | cons b bs ih =>
      obtain ⟨once, distinct⟩ := List.nodup_cons.mp distinct
      have other {b' : Nat} (member : b' ∈ bs) : b' ≠ b := fun same => once (same ▸ member)
      have first := moveBucket_transfers double (waiting b List.mem_cons_self)
        (free b List.mem_cons_self b (.inl rfl)) (free b List.mem_cons_self _ (.inr rfl)) arranged
      have double' : old.hashpower + 1 = (moveBucket hash old new b).hashpower := by rw [first.hashpower, double]
      have arranged' := first.moved.arranged arranged
      rw [← first.hashpower] at arranged'
      have rest := ih double' distinct (fun b' member => inside b' (List.mem_cons_of_mem _ member))
        (fun b' member s => by
          rw [doneBucket_eq, waiting b' (List.mem_cons_of_mem _ member), decide_eq_false (other member)]
          rfl)
        (fun b' member i touched s => by
          have untouched := apart_of_lt (inside b List.mem_cons_self) (inside b' (List.mem_cons_of_mem _ member))
            (other member) touched
          rw [first.frame i untouched]
          exact free b' (List.mem_cons_of_mem _ member) i touched s)
        arranged'
      refine first.trans rest (fun i touched => ⟨b, List.mem_cons_self, touched⟩) ?_
      rintro i ⟨b', member, touched⟩
      exact ⟨b', List.mem_cons_of_mem _ member, touched⟩

theorem foldl_doneBucket {b' : Nat} {s' : Slot} (bs : List Nat) :
    bs.foldl doneBucket waits b' s' = (waits b' s' && !decide (b' ∈ bs)) := by
  induction bs generalizing waits with
  | nil => simp
  | cons b bs ih =>
      rw [List.foldl_cons, ih, doneBucket_eq]
      by_cases here : b' = b <;> simp [here]

end Pacon.Cuckoo
