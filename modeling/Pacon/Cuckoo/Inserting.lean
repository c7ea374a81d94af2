import Pacon.Cuckoo.Kicking

namespace Pacon.Cuckoo
open Function Lib
variable {κ α : Type*} {hash : κ → BitVec 64} {t u v : Table κ α} {key : κ} {i₁ i₂ : Nat}

/-- The table has been worked on, and holds what it did. -/
structure Kept (hash : κ → BitVec 64) (t u : Table κ α) : Prop where
  valid : Valid hash u
  remaining : Remaining u
  holds : ∀ x, Holds u.place x ↔ Holds t.place x
  hashpower : u.buckets.hashpower = t.buckets.hashpower
  size : u.size = t.size
  migrated : ∀ l, t.isMigrated l = true → u.isMigrated l = true

theorem Kept.trans (first : Kept hash t u) (second : Kept hash u v) : Kept hash t v where
  valid := second.valid
  remaining := second.remaining
  holds x := (second.holds x).trans (first.holds x)
  hashpower := second.hashpower.trans first.hashpower
  size := second.size.trans first.size
  migrated l taken := second.migrated l (first.migrated l taken)

theorem Locked.kept (locked : Locked hash t u) : Kept hash t u where
  valid := locked.valid
  remaining := locked.remaining
  holds _ := locked.tidied.holds
  hashpower := locked.tidied.hashpower
  size := locked.tidied.size
  migrated := locked.tidied.migrated

theorem Rearranged.kept (rearranged : Rearranged hash t u) (valid : Valid hash t) (remaining : Remaining t) : Kept hash t u where
  valid := rearranged.valid valid
  remaining := rearranged.remaining remaining
  holds _ := rearranged.moved.holds
  hashpower := rearranged.hashpower
  size := by
    rw [rearranged.rest]
    rfl
  migrated l taken := by rwa [rearranged.isMigrated]

theorem Kept.secured (kept : Kept hash t u) (secured : Secured hash t key i₁ i₂) : Secured hash u key i₁ i₂ where
  buckets := (bucketsOf_congr kept.hashpower).trans secured.buckets
  first := kept.migrated _ secured.first
  second := kept.migrated _ secured.second

def Full (t : Table κ α) (i₁ i₂ : Nat) : Prop :=
  ∀ first ≤ 1, Shortest t.buckets.hashpower t (startOf i₁ i₂ first) maxBfsPathLen

theorem Full.bucket (full : Full t i₁ i₂) {i : Nat} (either : i = i₁ ∨ i = i₂) (s : Slot) :
    t.buckets.slots i s ≠ none := by
  rcases either with rfl | rfl
  · exact full 0 (Nat.zero_le _) [] _ rfl (Nat.succ_pos _) s
  · exact full 1 (Nat.le_refl _) [] _ rfl (Nat.succ_pos _) s

theorem startOf_either (first : Nat) : startOf i₁ i₂ first = i₁ ∨ startOf i₁ i₂ first = i₂ := by
  rw [startOf]
  split
  · exact .inl rfl
  · exact .inr rfl

theorem runCuckoo_spec (valid : Valid hash t) (remaining : Remaining t) (ready₁ : Ready t i₁) (ready₂ : Ready t i₂)
    (fuel : Nat) :
    ∃ u free, runCuckoo hash t.buckets.hashpower i₁ i₂ (fuel + 1) t = some (u, free) ∧ Kept hash t u ∧
      (free = none ∧ Full u i₁ i₂ ∨
        ∃ b s, free = some (b, s) ∧ (b = i₁ ∨ b = i₂) ∧ u.buckets.slots b s = none) := by
  rw [runCuckoo, cuckoopathSearch]
  cases search : slotSearch hash t.buckets.hashpower t i₁ i₂ with
  | mk u found =>
      cases found with
      | none =>
          obtain ⟨locked, full⟩ := slotSearch_missed valid remaining search
          refine ⟨u, none, rfl, locked.kept, .inl ⟨rfl, ?_⟩⟩
          rwa [Full, locked.tidied.hashpower]
      | some z =>
          obtain ⟨locked, first, slots, s, c, either, depth, code, walk, ready, empty, shortest⟩ :=
            slotSearch_found valid remaining search
          have path : unpack (z.depth + 1) z.pathcode = (slots ++ [s], first) := by
            have more : slots.length + 1 = (slots ++ [s]).length := by rw [List.length_append, List.length_singleton]
            rw [depth, code, more]
            exact unpack_encode _
          obtain ⟨records, follows, trail, length⟩ := follow_trail locked.valid walk ready empty
          rw [← locked.tidied.hashpower] at trail shortest
          have shortest' : Shortest u.buckets.hashpower u (startOf i₁ i₂ first) (records.length - 1) := by
            rwa [length]
          obtain ⟨w, s', moves, rearranged, head, free⟩ := cuckoopathMove_rearranged locked.valid
            (locked.ready ready₁) (locked.ready ready₂) trail shortest'
          refine ⟨w, some (startOf i₁ i₂ first, s'), ?_,
            locked.kept.trans (rearranged.kept locked.valid locked.remaining),
            .inr ⟨_, _, rfl, startOf_either first, free⟩⟩
          have goes : follow hash t.buckets.hashpower u (if first = 0 then i₁ else i₂) (slots ++ [s]) = (u, records) :=
            follows
          simp only [path, goes, moves, head]

section
variable [DecidableEq κ] {b : Bucket κ α}

theorem tryFindInsertBucket_error {slots : List Slot} {slot : Option Slot} {s : Slot}
    (found : tryFindInsertBucket hash b key slots slot = .error s) : ∃ x, b s = some x ∧ x.key = key := by
  induction slots generalizing slot with
  | nil => cases found
  | cons r slots ih =>
      rw [tryFindInsertBucket] at found
      split at found
      · exact ih found
      · rename_i x content
        split at found
        · rename_i same
          cases found
          exact ⟨x, content, same.2⟩
        · exact ih found

theorem tryFindInsertBucket_ok {slots : List Slot} {slot : Option Slot} {res : Option Slot}
    (free : ∀ s, slot = some s → b s = none) (passed : tryFindInsertBucket hash b key slots slot = .ok res) :
    (∀ s, res = some s → b s = none) ∧
      ∀ s ∈ slots, ∀ x, b s = some x → x.tag = tagOf (hash x.key) → x.key ≠ key := by
  induction slots generalizing slot with
  | nil =>
      cases passed
      exact ⟨free, fun _ member => by cases member⟩
  | cons r slots ih =>
      rw [tryFindInsertBucket] at passed
      split at passed
      · rename_i empty
        obtain ⟨free', others⟩ := ih (fun s same => by
          cases same
          exact empty) passed
        refine ⟨free', fun s member x content => ?_⟩
        rcases List.mem_cons.mp member with rfl | member
        · rw [empty] at content
          cases content
        · exact others s member x content
      · rename_i y content
        split at passed
        · cases passed
        · rename_i different
          obtain ⟨free', others⟩ := ih free passed
          refine ⟨free', fun s member x content' tag same => ?_⟩
          rcases List.mem_cons.mp member with rfl | member
          · cases content.symm.trans content'
            exact different ⟨by rw [tag, same], same⟩
          · exact others s member x content' tag same

def Attempted (t : Table κ α) (key : κ) (i₁ i₂ : Nat) : Status → Prop
  | .ok (i, s) => (i = i₁ ∨ i = i₂) ∧ t.buckets.slots i s = none ∧ ∀ x, Holds t.place x → x.key ≠ key
  | .duplicated _ => ∃ x, Holds t.place x ∧ x.key = key
  | .tableFull => Full t i₁ i₂ ∧ ∀ x, Holds t.place x → x.key ≠ key

theorem cuckooInsert_spec (valid : Valid hash t) (remaining : Remaining t) (secured : Secured hash t key i₁ i₂)
    (fuel : Nat) :
    ∃ u status, cuckooInsert hash (fuel + 1) t key i₁ i₂ = some (u, status) ∧ Kept hash t u ∧
      Attempted u key i₁ i₂ status := by
  have kept : Kept hash t t := (Locked.refl valid remaining).kept
  rw [cuckooInsert]
  cases first : tryFindInsertBucket hash (t.buckets.slots i₁) key (List.finRange slotPerBucket) none with
  | error s =>
      obtain ⟨x, content, same⟩ := tryFindInsertBucket_error first
      exact ⟨t, _, rfl, kept, x, ⟨.now i₁ s, content⟩, same⟩
  | ok res₁ =>
      cases second : tryFindInsertBucket hash (t.buckets.slots i₂) key (List.finRange slotPerBucket) none with
      | error s =>
          obtain ⟨x, content, same⟩ := tryFindInsertBucket_error second
          exact ⟨t, _, rfl, kept, x, ⟨.now i₂ s, content⟩, same⟩
      | ok res₂ =>
          obtain ⟨free₁, none₁⟩ := tryFindInsertBucket_ok (fun s none => by cases none) first
          obtain ⟨free₂, none₂⟩ := tryFindInsertBucket_ok (fun s none => by cases none) second
          -- the key is in neither bucket, so that it is not in the table
          have new : ∀ x, Holds t.place x → x.key ≠ key := by
            rintro x ⟨p, place⟩ same
            have tag := (valid.arranged.fits place).tag
            obtain ⟨i, s, rfl | rfl, content⟩ := secured.located valid place same
            · exact none₁ s (List.mem_finRange s) x content tag same
            · exact none₂ s (List.mem_finRange s) x content tag same
          cases res₁ with
          | some s => exact ⟨t, _, rfl, kept, .inl rfl, free₁ s rfl, new⟩
          | none =>
              cases res₂ with
              | some s => exact ⟨t, _, rfl, kept, .inr rfl, free₂ s rfl, new⟩
              | none =>
                  obtain ⟨u, free, runs, kept, result⟩ :=
                    runCuckoo_spec valid remaining secured.first secured.second fuel
                  have new' : ∀ x, Holds u.place x → x.key ≠ key := fun x held => new x ((kept.holds x).mp held)
                  rcases result with ⟨rfl, full⟩ | ⟨i, s, rfl, either, empty⟩
                  · exact ⟨u, .tableFull, by simp only [runs, Option.map_some], kept, full, new'⟩
                  · refine ⟨u, .ok (i, s), ?_, kept, either, empty, new'⟩
                    have missed : cuckooFind hash u key i₁ i₂ = none := by
                      apply Option.eq_none_iff_forall_ne_some.mpr
                      intro position found
                      obtain ⟨x, place, same⟩ := cuckooFind_some found
                      exact new' x ⟨_, place⟩ same
                    simp only [runs, Option.map_some, missed]

end
end Pacon.Cuckoo
