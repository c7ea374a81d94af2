import Mathlib.Data.List.Induction
import Pacon.Cuckoo.Finding

/-!
# The search for an empty slot

`slot_search` goes breadth first from the two buckets of a key. The slot that it finds ends a shortest path, and if
it finds none, every bucket within the length of a path is full.
-/

namespace Pacon.Cuckoo
open Function Lib
variable {κ α : Type*} {hash : κ → BitVec 64} {t u : Table κ α} {hp i₁ i₂ : Nat}

section
variable {b : Bucket κ α} {x y : BSlot} {s : Slot}

theorem mem_slotOrder (x : BSlot) (s : Slot) : s ∈ slotOrder x := by
  apply List.mem_map.mpr
  refine ⟨Fin.ofNat slotPerBucket (s.val + slotPerBucket - x.pathcode % slotPerBucket), List.mem_finRange _, Fin.ext ?_⟩
  have small := s.isLt
  simp only [Fin.val_ofNat, slotPerBucket] at *
  omega

theorem length_slotOrder : (slotOrder x).length = slotPerBucket := by
  rw [slotOrder, List.length_map, List.length_finRange]

theorem examine_error {slots : List Slot} (found : examine hp b x slots = .error y) :
    ∃ s, b s = none ∧ y = { x with pathcode := x.pathcode * slotPerBucket + s.val } := by
  induction slots with
  | nil => cases found
  | cons s slots ih =>
      rw [examine] at found
      split at found
      · rename_i empty
        cases found
        exact ⟨s, empty, rfl⟩
      · cases rest : examine hp b x slots with
        | error z =>
            rw [rest] at found
            cases found
            exact ih rest
        | ok next =>
            rw [rest] at found
            cases found

structure Followed (hp : Nat) (b : Bucket κ α) (x : BSlot) (slots : List Slot) (next : List BSlot) : Prop where
  full : ∀ s ∈ slots, b s ≠ none
  few : next.length ≤ slots.length
  origin : ∀ y ∈ next, x.depth < maxBfsPathLen - 1 ∧ ∃ s item, b s = some item ∧ y = kicked hp x s item
  every : x.depth < maxBfsPathLen - 1 → ∀ s ∈ slots, ∀ item, b s = some item → kicked hp x s item ∈ next

theorem examine_ok {slots : List Slot} {next : List BSlot} (passed : examine hp b x slots = .ok next) :
    Followed hp b x slots next := by
  induction slots generalizing next with
  | nil =>
      cases passed
      exact ⟨by simp, Nat.le_refl _, by simp, by simp⟩
  | cons s slots ih =>
      rw [examine] at passed
      split at passed
      · cases passed
      · rename_i item content
        cases rest : examine hp b x slots with
        | error z =>
            rw [rest] at passed
            cases passed
        | ok later =>
            rw [rest] at passed
            cases passed
            have ih := ih rest
            constructor
            · intro r member
              rcases List.mem_cons.mp member with rfl | member
              · rw [content]
                exact Option.some_ne_none _
              · exact ih.full r member
            · split
              · exact Nat.succ_le_succ ih.few
              · exact ih.few.trans (Nat.le_succ _)
            · intro y member
              split at member
              · rename_i shallow
                rcases List.mem_cons.mp member with rfl | member
                · exact ⟨shallow, s, item, content, rfl⟩
                · exact ih.origin y member
              · exact ih.origin y member
            · intro shallow r member other content'
              simp only [if_pos shallow]
              rcases List.mem_cons.mp member with rfl | member
              · rw [Option.some.inj (content.symm.trans content')]
                exact List.mem_cons_self
              · exact List.mem_cons_of_mem _ (ih.every shallow r member other content')

end

def Walk (hp : Nat) (t : Table κ α) (b : Nat) : List Slot → Nat → Prop
  | [], c => c = b
  | s :: slots, c => Ready t b ∧ ∃ item, t.buckets.slots b s = some item ∧ Walk hp t (altIndex hp item.tag b) slots c

theorem walk_append {b d : Nat} {first second : List Slot} :
    Walk hp t b (first ++ second) d ↔ ∃ c, Walk hp t b first c ∧ Walk hp t c second d := by
  induction first generalizing b with
  | nil => simp [Walk]
  | cons s first ih =>
      simp only [List.cons_append, Walk, ih]
      constructor
      · rintro ⟨ready, item, content, c, before, after⟩
        exact ⟨c, ⟨ready, item, content, before⟩, after⟩
      · rintro ⟨c, ⟨ready, item, content, before⟩, after⟩
        exact ⟨ready, item, content, c, before, after⟩

theorem walk_snoc {b d : Nat} {slots : List Slot} {s : Slot} :
    Walk hp t b (slots ++ [s]) d ↔
      ∃ c, Walk hp t b slots c ∧ Ready t c ∧ ∃ item, t.buckets.slots c s = some item ∧ d = altIndex hp item.tag c := by
  simp only [walk_append, Walk]

theorem Locked.walk (locked : Locked hash t u) {b c : Nat} {slots : List Slot} (walk : Walk hp t b slots c) :
    Walk hp u b slots c := by
  induction slots generalizing b with
  | nil => exact walk
  | cons s slots ih =>
      obtain ⟨ready, item, content, rest⟩ := walk
      refine ⟨locked.ready ready, item, ?_, ih rest⟩
      rw [locked.tidied.frame b ready, content]

def encode (first : Nat) (slots : List Slot) : Nat := slots.foldl (fun code s => code * slotPerBucket + s.val) first

theorem encode_snoc {first : Nat} {slots : List Slot} {s : Slot} :
    encode first (slots ++ [s]) = encode first slots * slotPerBucket + s.val := by
  rw [encode, List.foldl_append]
  rfl

theorem unpack_encode {first : Nat} (slots : List Slot) : unpack slots.length (encode first slots) = (slots, first) := by
  induction slots using List.reverseRecOn with
  | nil => rfl
  | append_singleton slots s ih =>
      have small := s.isLt
      have quotient : (encode first slots * slotPerBucket + s.val) / slotPerBucket = encode first slots := by
        simp only [slotPerBucket] at *
        omega
      have digit : Fin.ofNat slotPerBucket (encode first slots * slotPerBucket + s.val) = s := by
        apply Fin.ext
        rw [Fin.val_ofNat]
        simp only [slotPerBucket] at *
        omega
      rw [encode_snoc, List.length_append, List.length_singleton, unpack, quotient, digit, ih]

def startOf (i₁ i₂ first : Nat) : Nat := if first = 0 then i₁ else i₂

def Walked (hp i₁ i₂ : Nat) (t : Table κ α) (x : BSlot) : Prop :=
  x.depth < maxBfsPathLen ∧ ∃ first slots, first ≤ 1 ∧ Walk hp t (startOf i₁ i₂ first) slots x.bucket ∧
    x.depth = slots.length ∧ x.pathcode = encode first slots

def starts (i₁ i₂ : Nat) : List BSlot := [⟨i₁, 0, 0⟩, ⟨i₂, 1, 0⟩]

abbrev lockAt (hash : κ → BitVec 64) (t : Table κ α) (x : BSlot) : Table κ α := lockOne hash t x.bucket

abbrev successors (hp : Nat) (t : Table κ α) (x : BSlot) : Except BSlot (List BSlot) :=
  examine hp (t.buckets.slots x.bucket) x (slotOrder x)

theorem tidies : Tidies (lockAt hash) (successors hp) (Locked hash t) (fun u x => Ready u x.bucket) BSlot.depth where
  stays x locked := locked.trans (lockOne_locked locked.valid locked.remaining x.bucket).1
  makes s x := by
    show (rehashLock hash true s (lockInd x.bucket)).isMigrated (lockInd x.bucket) = true
    rw [isMigrated_rehashLock, update_self]
  keeps {s y} x ready := by
    show (rehashLock hash true s (lockInd x.bucket)).isMigrated (lockInd y.bucket) = true
    rw [isMigrated_rehashLock, update_apply]
    split
    · rfl
    · exact ready
  same {s y} x locked ready := by
    have frame := (lockOne_locked locked.valid locked.remaining x.bucket).1.tidied.frame y.bucket ready
    exact congrArg (fun b => examine hp b y (slotOrder y)) frame
  deeper passed y member := by
    obtain ⟨-, s, item, -, rfl⟩ := (examine_ok passed).origin y member
    rfl

def room : Nat → Nat
  | 0 => 1
  | n + 1 => 1 + slotPerBucket * room n

theorem room_pos (n : Nat) : 0 < room n := by
  cases n with
  | zero => exact Nat.one_pos
  | succ n =>
      rw [room]
      omega

def weight (x : BSlot) : Nat := room (maxBfsPathLen - 1 - x.depth)

theorem weight_lighter {b : Bucket κ α} {x : BSlot} {next : List BSlot}
    (passed : examine hp b x (slotOrder x) = .ok next) : (next.map weight).sum < weight x := by
  have followed := examine_ok passed
  by_cases shallow : x.depth < maxBfsPathLen - 1
  · have each : ∀ n ∈ next.map weight, n = room (maxBfsPathLen - 1 - (x.depth + 1)) := by
      intro n member
      obtain ⟨y, follows, rfl⟩ := List.mem_map.mp member
      obtain ⟨-, s, item, -, rfl⟩ := followed.origin y follows
      rfl
    have left : maxBfsPathLen - 1 - x.depth = maxBfsPathLen - 1 - (x.depth + 1) + 1 := by omega
    have few : next.length ≤ slotPerBucket := length_slotOrder (x := x) ▸ followed.few
    rw [List.eq_replicate_of_mem each, List.sum_replicate_nat, List.length_map, weight, left, room, Nat.one_add]
    exact Nat.lt_succ_of_le (Nat.mul_le_mul_right _ few)
  · have none : next = [] := by
      apply List.eq_nil_iff_forall_not_mem.mpr
      intro y member
      exact shallow (followed.origin y member).1
    rw [none]
    exact room_pos _

def Shortest (hp : Nat) (t : Table κ α) (b n : Nat) : Prop :=
  ∀ slots c, Walk hp t b slots c → slots.length < n → ∀ s, t.buckets.slots c s ≠ none

theorem walk_met {n : Nat} (short : n ≤ maxBfsPathLen)
    (passed : ∀ y, Met (successors hp) u (starts i₁ i₂) y → y.depth < n →
      Passed (successors hp) (fun u x => Ready u x.bucket) u y)
    {first c : Nat} (either : first ≤ 1) {slots : List Slot} (walk : Walk hp u (startOf i₁ i₂ first) slots c)
    (less : slots.length < n) :
    ∃ y, Met (successors hp) u (starts i₁ i₂) y ∧ y.bucket = c ∧ y.depth = slots.length := by
  induction slots using List.reverseRecOn generalizing c with
  | nil =>
      rw [walk]
      rcases Nat.le_one_iff_eq_zero_or_eq_one.mp either with rfl | rfl
      · exact ⟨_, .start List.mem_cons_self, rfl, rfl⟩
      · exact ⟨_, .start (List.mem_cons_of_mem _ List.mem_cons_self), rfl, rfl⟩
  | append_singleton slots s ih =>
      rw [List.length_append, List.length_singleton] at less
      obtain ⟨b, before, -, item, content, rfl⟩ := walk_snoc.mp walk
      obtain ⟨y, met, rfl, depth⟩ := ih before (by omega)
      obtain ⟨-, next, expands⟩ := passed y met (by omega)
      have shallow : y.depth < maxBfsPathLen - 1 := by omega
      refine ⟨kicked hp y s item, .next met expands ?_, rfl, ?_⟩
      · exact (examine_ok expands).every shallow s (mem_slotOrder y s) item content
      · rw [List.length_append, List.length_singleton, ← depth]
        rfl

theorem shortest_of_passed {n : Nat} (short : n ≤ maxBfsPathLen)
    (passed : ∀ y, Met (successors hp) u (starts i₁ i₂) y → y.depth < n →
      Passed (successors hp) (fun u x => Ready u x.bucket) u y)
    {first : Nat} (either : first ≤ 1) : Shortest hp u (startOf i₁ i₂ first) n := by
  intro slots c walk less s
  obtain ⟨y, met, rfl, depth⟩ := walk_met short passed either walk less
  obtain ⟨-, next, expands⟩ := passed y met (by omega)
  exact (examine_ok expands).full s (mem_slotOrder y s)

theorem Walked.kicked {x y : BSlot} {next : List BSlot} (walked : Walked hp i₁ i₂ t x) (ready : Ready t x.bucket)
    (expands : successors hp t x = .ok next) (member : y ∈ next) : Walked hp i₁ i₂ t y := by
  obtain ⟨-, first, slots, either, walk, depth, code⟩ := walked
  obtain ⟨shallow, s, item, content, rfl⟩ := (examine_ok expands).origin y member
  refine ⟨Nat.add_lt_of_lt_sub shallow, first, slots ++ [s], either, ?_, ?_, ?_⟩
  · exact walk_snoc.mpr ⟨_, walk, ready, item, content, rfl⟩
  · rw [List.length_append, List.length_singleton, ← depth]
    rfl
  · rw [encode_snoc, ← code]
    rfl

theorem walked_starts {x : BSlot} (member : x ∈ starts i₁ i₂) : Walked hp i₁ i₂ t x := by
  simp only [starts, List.mem_cons, List.not_mem_nil, or_false] at member
  rcases member with rfl | rfl
  · exact ⟨Nat.succ_pos _, 0, [], Nat.zero_le _, rfl, rfl, rfl⟩
  · exact ⟨Nat.succ_pos _, 1, [], Nat.le_refl _, rfl, rfl, rfl⟩

theorem queued_starts : Queued BSlot.depth (starts i₁ i₂) := by
  constructor <;> simp [starts]

structure Found (hp i₁ i₂ : Nat) (t : Table κ α) (z : BSlot) : Prop where
  path : ∃ first slots s c, first ≤ 1 ∧ z.depth = slots.length ∧ z.pathcode = encode first (slots ++ [s]) ∧
    Walk hp t (startOf i₁ i₂ first) slots c ∧ Ready t c ∧ t.buckets.slots c s = none ∧
    Shortest hp t (startOf i₁ i₂ first) slots.length

theorem slotSearch_found (valid : Valid hash t) (remaining : Remaining t) {z : BSlot}
    (found : slotSearch hash hp t i₁ i₂ = (u, some z)) : Locked hash t u ∧ Found hp i₁ i₂ u z := by
  have result := search_found tidies (P := fun u x => Walked hp i₁ i₂ u x) ?_ ?_ (.refl valid remaining) .initial
    queued_starts (fun x member => walked_starts member) found
  · obtain ⟨locked, x, ⟨short, first, slots, either, walk, depth, code⟩, ready, expands, passed⟩ := result
    obtain ⟨s, empty, rfl⟩ := examine_error expands
    refine ⟨locked, first, slots, s, x.bucket, either, depth, ?_, walk, ready, empty, ?_⟩
    · rw [encode_snoc, ← code]
    · rw [← depth]
      exact shortest_of_passed (Nat.le_of_lt short) passed either
  · rintro s x y locked ⟨short, first, slots, either, walk, depth, code⟩
    have step := (lockOne_locked locked.valid locked.remaining y.bucket).1
    exact ⟨short, first, slots, either, step.walk walk, depth, code⟩
  · intro s x next walked ready expands y member
    exact walked.kicked ready expands member

theorem slotSearch_missed (valid : Valid hash t) (remaining : Remaining t)
    (missed : slotSearch hash hp t i₁ i₂ = (u, none)) :
    Locked hash t u ∧ ∀ first ≤ 1, Shortest hp u (startOf i₁ i₂ first) maxBfsPathLen := by
  obtain ⟨locked, passed⟩ := search_missed tidies (fun x => room_pos _) (fun expands => weight_lighter expands)
    (show ((starts i₁ i₂).map weight).sum ≤ maxCuckooCount from Nat.le_of_eq rfl) (.refl valid remaining) .initial missed
  exact ⟨locked, fun first either => shortest_of_passed (Nat.le_refl _) (fun y met _ => passed y met) either⟩

end Pacon.Cuckoo
