import Mathlib.Data.List.Chain
import Mathlib.Data.List.Nodup
import Pacon.Cuckoo.Searching

/-!
# Making room

A shortest path comes through no bucket twice, so that all its items can move, the last one first. With nobody else
at the table the first attempt succeeds.
-/

namespace Pacon.Cuckoo
open Function Lib
variable {κ α : Type*} {hash : κ → BitVec 64} {t u : Table κ α} {hp b i₁ i₂ : Nat}

inductive Trail (hash : κ → BitVec 64) (hp : Nat) (t : Table κ α) : Nat → List CuckooRecord → Prop
  | last {b : Nat} {s : Slot} (ready : Ready t b) (empty : t.buckets.slots b s = none) :
      Trail hash hp t b [⟨b, s, none⟩]
  | step {b : Nat} {s : Slot} {item : Item κ α} {rest : List CuckooRecord} (ready : Ready t b)
      (content : t.buckets.slots b s = some item) (trail : Trail hash hp t (altIndex hp item.tag b) rest) :
      Trail hash hp t b (⟨b, s, some (hash item.key)⟩ :: rest)

theorem follow_trail (valid : Valid hash t) {slots : List Slot} {c : Nat} {s : Slot} (walk : Walk hp t b slots c)
    (ready : Ready t c) (empty : t.buckets.slots c s = none) :
    ∃ records, follow hash hp t b (slots ++ [s]) = (t, records) ∧ Trail hash hp t b records ∧
      records.length = slots.length + 1 := by
  induction slots generalizing b with
  | nil =>
      rw [Walk] at walk
      subst walk
      refine ⟨_, ?_, .last ready empty, rfl⟩
      simp only [List.nil_append, follow, lockOne_ready ready, empty]
  | cons r slots ih =>
      obtain ⟨here, item, content, rest⟩ := walk
      obtain ⟨records, goes, trail, length⟩ := ih rest
      have tag : item.tag = tagOf (hash item.key) :=
        (valid.arranged.fits (show t.place (.now b r) = some item from content)).tag
      refine ⟨_, ?_, .step here content trail, congrArg Nat.succ length⟩
      simp only [List.cons_append, follow, lockOne_ready here, content, ← tag, goes]

namespace Trail
variable {records : List CuckooRecord}

theorem ready (trail : Trail hash hp t b records) : ∀ r ∈ records, Ready t r.bucket := by
  induction trail with
  | last ready empty =>
      intro r member
      rw [List.mem_singleton.mp member]
      exact ready
  | step ready content trail ih =>
      intro r member
      rcases List.mem_cons.mp member with rfl | member
      · exact ready
      · exact ih r member

theorem head (trail : Trail hash hp t b records) : ∃ first rest, records = first :: rest ∧ first.bucket = b := by
  cases trail with
  | last ready empty => exact ⟨_, _, rfl, rfl⟩
  | step ready content trail => exact ⟨_, _, rfl, rfl⟩

theorem empty (trail : Trail hash hp t b records) :
    ∀ r, records.getLast? = some r → t.buckets.slots r.bucket r.slot = none := by
  induction trail with
  | last ready empty =>
      intro r last
      cases last
      exact empty
  | step ready content trail ih =>
      obtain ⟨first, rest, rfl, -⟩ := trail.head
      intro r last
      rw [List.getLast?_cons_cons] at last
      exact ih r last

theorem walk (trail : Trail hash hp t b records) :
    ∃ slots c s, Walk hp t b slots c ∧ slots.length + 1 = records.length ∧ t.buckets.slots c s = none := by
  induction trail with
  | @last b s ready empty => exact ⟨[], b, s, rfl, rfl, empty⟩
  | @step b s item rest ready content trail ih =>
      obtain ⟨slots, c, s', walk, length, empty⟩ := ih
      exact ⟨s :: slots, c, s', ⟨ready, item, content, walk⟩, congrArg Nat.succ length, empty⟩

theorem suffix (trail : Trail hash hp t b records) {r : CuckooRecord} (member : r ∈ records) :
    ∃ rest, Trail hash hp t r.bucket rest ∧ rest.length ≤ records.length := by
  induction trail with
  | last ready empty =>
      rw [List.mem_singleton.mp member]
      exact ⟨_, .last ready empty, Nat.le_refl _⟩
  | step ready content trail ih =>
      rcases List.mem_cons.mp member with rfl | member
      · exact ⟨_, .step ready content trail, Nat.le_refl _⟩
      · obtain ⟨rest, later, short⟩ := ih member
        exact ⟨rest, later, short.trans (Nat.le_succ _)⟩

theorem distinct (trail : Trail hash hp t b records) (shortest : Shortest hp t b (records.length - 1)) :
    (records.map CuckooRecord.bucket).Nodup := by
  induction trail with
  | last ready empty => exact List.nodup_singleton _
  | @step b s item rest ready content trail ih =>
      obtain ⟨first, later, rfl, -⟩ := trail.head
      rw [List.map_cons]
      apply List.nodup_cons.mpr
      constructor
      · intro twice
        obtain ⟨r, member, same⟩ := List.mem_map.mp twice
        obtain ⟨rest, again, short⟩ := trail.suffix member
        obtain ⟨slots, c, s', walk, length, empty⟩ := again.walk
        rw [same] at walk
        exact shortest slots c walk (by simp only [List.length_cons] at *; omega) s' empty
      · apply ih
        intro slots c walk less
        apply shortest (s :: slots) c ⟨ready, item, content, walk⟩
        simp only [List.length_cons] at *
        omega

def Kicks (hash : κ → BitVec 64) (hp : Nat) (t : Table κ α) (source target : CuckooRecord) : Prop :=
  ∃ item, t.buckets.slots source.bucket source.slot = some item ∧ source.hv = some (hash item.key) ∧
    target.bucket = altIndex hp item.tag source.bucket

theorem kicks (trail : Trail hash hp t b records) : records.IsChain (Kicks hash hp t) := by
  induction trail with
  | last ready empty => exact .singleton _
  | step ready content trail ih =>
      obtain ⟨first, rest, rfl, bucket⟩ := trail.head
      exact .cons_cons ⟨_, content, rfl, bucket⟩ ih

end Trail

structure Rearranged (hash : κ → BitVec 64) (t u : Table κ α) : Prop where
  moved : Moved (Fits hash t.buckets.hashpower t.oldBuckets.hashpower) t.place u.place
  hashpower : u.buckets.hashpower = t.buckets.hashpower
  rest : u = { t with buckets := u.buckets }
  frame : ∀ i, ¬Ready t i → u.buckets.slots i = t.buckets.slots i

theorem Rearranged.refl : Rearranged hash t t :=
  ⟨.refl, rfl, rfl, fun _ _ => rfl⟩

theorem Rearranged.isMigrated (rearranged : Rearranged hash t u) : u.isMigrated = t.isMigrated := by
  rw [rearranged.rest]

theorem Rearranged.oldBuckets (rearranged : Rearranged hash t u) : u.oldBuckets = t.oldBuckets := by
  rw [rearranged.rest]

theorem Rearranged.trans {v : Table κ α} (first : Rearranged hash t u) (second : Rearranged hash u v) :
    Rearranged hash t v where
  moved := first.moved.trans (by
    have moved := second.moved
    rwa [first.hashpower, first.oldBuckets] at moved)
  hashpower := second.hashpower.trans first.hashpower
  rest := by rw [second.rest, first.rest]
  frame i unready := by
    rw [second.frame i (by rwa [Ready, first.isMigrated]), first.frame i unready]

theorem Rearranged.valid (rearranged : Rearranged hash t u) (valid : Valid hash t) : Valid hash u where
  arranged := by
    rw [rearranged.hashpower, rearranged.oldBuckets]
    exact rearranged.moved.arranged valid.arranged
  locks := by
    rw [rearranged.hashpower, ← valid.locks, rearranged.rest]
  doubled l waits := by
    rw [rearranged.isMigrated] at waits
    rw [rearranged.hashpower, rearranged.oldBuckets]
    exact valid.doubled l waits
  large l waits := by
    rw [rearranged.isMigrated] at waits
    rw [rearranged.oldBuckets]
    exact valid.large l waits
  untouched i s waits := by
    rw [rearranged.isMigrated] at waits
    rw [rearranged.frame i (Bool.eq_false_iff.mp waits)]
    exact valid.untouched i s waits

theorem Rearranged.remaining (rearranged : Rearranged hash t u) (remaining : Remaining t) : Remaining u := by
  rw [rearranged.rest]
  exact remaining

def kick (t : Table κ α) (source target : CuckooRecord) (item : Item κ α) : Table κ α :=
  { t with buckets := (t.buckets.setKV target.bucket target.slot item).eraseKV source.bucket source.slot }

theorem slots_kick_of_ne {source target : CuckooRecord} {item : Item κ α} {i : Nat} (first : i ≠ source.bucket)
    (second : i ≠ target.bucket) : (kick t source target item).buckets.slots i = t.buckets.slots i := by
  funext s
  rw [kick, Buckets.eraseKV, slots_set, if_neg fun same => first same.1, slots_setKV_of_ne second]

theorem slots_kick_source {source target : CuckooRecord} {item : Item κ α} :
    (kick t source target item).buckets.slots source.bucket source.slot = none := by
  rw [kick, Buckets.eraseKV, slots_set, if_pos ⟨rfl, rfl⟩]

theorem kick_rearranged (valid : Valid hash t) {source target : CuckooRecord} {item : Item κ α}
    (content : t.buckets.slots source.bucket source.slot = some item)
    (bucket : target.bucket = altIndex t.buckets.hashpower item.tag source.bucket)
    (apart : target.bucket ≠ source.bucket) (free : t.buckets.slots target.bucket target.slot = none)
    (ready : Ready t source.bucket) (ready' : Ready t target.bucket) :
    Rearranged hash t (kick t source target item) where
  moved := by
    have place : t.place (.now source.bucket source.slot) = some item := content
    obtain ⟨tag, home⟩ := valid.arranged.fits place
    have goes : (kick t source target item).place =
        moveTo t.place (.now source.bucket source.slot) (.now target.bucket target.slot) := placed_kick content apart
    rw [goes]
    refine .single place free ⟨tag, ?_⟩
    rw [bucket, tag]
    exact home.alt
  hashpower := rfl
  rest := rfl
  frame i unready := slots_kick_of_ne (fun same => unready (same ▸ ready)) fun same => unready (same ▸ ready')

theorem moveBack_rearranged (valid : Valid hash t) (ready₁ : Ready t i₁) (ready₂ : Ready t i₂)
    {records : List CuckooRecord} (ready : ∀ r ∈ records, Ready t r.bucket)
    (distinct : (records.map CuckooRecord.bucket).Nodup)
    (kicks : records.IsChain fun target source => Trail.Kicks hash t.buckets.hashpower t source target)
    (free : ∀ r, records.head? = some r → t.buckets.slots r.bucket r.slot = none) :
    ∃ u, moveBack hash t i₁ i₂ records = (u, true) ∧ Rearranged hash t u ∧
      ∀ r, records.getLast? = some r → u.buckets.slots r.bucket r.slot = none := by
  induction records generalizing t with
  | nil => exact ⟨t, rfl, .refl, fun _ none => by cases none⟩
  | cons target records ih =>
      cases records with
      | nil => exact ⟨t, rfl, .refl, free⟩
      | cons source rest =>
          obtain ⟨⟨item, content, hv, bucket⟩, chain⟩ := List.isChain_cons_cons.mp kicks
          rw [List.map_cons] at distinct
          obtain ⟨once, distinct'⟩ := List.nodup_cons.mp distinct
          have apart : target.bucket ≠ source.bucket := by
            intro same
            rw [same] at once
            exact once (List.mem_map_of_mem List.mem_cons_self)
          have readyTarget := ready target List.mem_cons_self
          have readySource := ready source (List.mem_cons_of_mem _ List.mem_cons_self)
          have free' := free target rfl
          have step := kick_rearranged valid content bucket apart free' readySource readyTarget
          -- the records that are left are in other buckets
          have other {r : CuckooRecord} (member : r ∈ rest) :
              (kick t source target item).buckets.slots r.bucket = t.buckets.slots r.bucket := by
            apply slots_kick_of_ne
            · intro same
              rw [List.map_cons, ← same] at distinct'
              exact (List.nodup_cons.mp distinct').1 (List.mem_map_of_mem member)
            · intro same
              rw [← same] at once
              exact once (List.mem_map_of_mem (List.mem_cons_of_mem _ member))
          have chain' : (source :: rest).IsChain fun target' source' =>
              Trail.Kicks hash t.buckets.hashpower (kick t source target item) source' target' := by
            apply chain.imp_of_mem_tail_imp
            rintro target' source' - member ⟨x, content, goes⟩
            exact ⟨x, by rw [other member, content], goes⟩
          have locked : (if rest = [] then lockThree hash t i₁ i₂ target.bucket
              else lockTwo hash t source.bucket target.bucket) = t := by
            split
            · exact lockThree_ready ready₁ ready₂ readyTarget
            · exact lockTwo_ready readySource readyTarget
          obtain ⟨u, moves, rearranged, free⟩ := ih (step.valid valid) ready₁ ready₂
            (fun r member => ready r (List.mem_cons_of_mem _ member)) distinct' chain' fun r first => by
              cases first
              exact slots_kick_source
          refine ⟨u, ?_, step.trans rearranged, ?_⟩
          · rw [moveBack, locked]
            simp only [free', content, hv, if_true]
            exact moves
          · intro r last
            rw [List.getLast?_cons_cons] at last
            exact free r last

theorem cuckoopathMove_rearranged (valid : Valid hash t) (ready₁ : Ready t i₁) (ready₂ : Ready t i₂)
    {records : List CuckooRecord} (trail : Trail hash t.buckets.hashpower t b records)
    (shortest : Shortest t.buckets.hashpower t b (records.length - 1)) :
    ∃ u s, cuckoopathMove hash t i₁ i₂ records = (u, true) ∧ Rearranged hash t u ∧
      (records.head?.map fun first => (first.bucket, first.slot)) = some (b, s) ∧ u.buckets.slots b s = none := by
  obtain ⟨first, rest, rfl, rfl⟩ := trail.head
  have last {r : CuckooRecord} (is : (first :: rest).reverse.head? = some r) : t.buckets.slots r.bucket r.slot = none := by
    rw [List.head?_reverse] at is
    exact trail.empty r is
  cases rest with
  | nil =>
      have free := trail.empty first rfl
      refine ⟨t, first.slot, ?_, .refl, rfl, free⟩
      simp only [cuckoopathMove, lockTwo_ready ready₁ ready₂, free, Option.isNone_none]
  | cons second rest =>
      have distinct := trail.distinct shortest
      obtain ⟨u, moves, rearranged, free⟩ := moveBack_rearranged valid ready₁ ready₂
        (fun r member => trail.ready r (List.mem_reverse.mp member))
        (by rwa [List.map_reverse, List.nodup_reverse]) (List.isChain_reverse.mpr trail.kicks) fun r => last
      refine ⟨u, first.slot, moves, rearranged, rfl, free first ?_⟩
      rw [List.getLast?_reverse]
      rfl

end Pacon.Cuckoo
