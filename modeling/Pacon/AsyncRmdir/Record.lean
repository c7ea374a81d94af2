import Pacon.AsyncRmdir.Model
import Pacon.Server.Reports

/-!
# What the record of asynchronous rmdirs holds

The entry that `rmdir_post` moves is the one behind the last, so only the last directory can be taken
out. At 128 entries a client looks at none of them.
-/

set_option linter.unusedSectionVars false

namespace Pacon.AsyncRmdir
open Lib Function Commit

variable {ι κ : Type} {s t : State ι κ} {r : RmdirRecord} {path : CString} {p q : Path}

structure Directory (p : Path) : Prop where
  named : Named p
  other : p ≠ []
  fits : (text p).length < Message.pathMax

instance (p : Path) : Decidable (Directory p) :=
  decidable_of_iff (Named p ∧ p ≠ [] ∧ (text p).length < Message.pathMax)
    ⟨fun h => ⟨h.1, h.2.1, h.2.2⟩, fun h => ⟨h.named, h.other, h.fits⟩⟩

def Opens (d : Server.Disk) (s : State ι κ) (p : Path) : Prop :=
  let q := resolve d.cwd (text p)
  Server.opens d s.base q ∧ ¬Server.Crashes d.opendir d.remove q (d.listing q)

theorem opens_iff_walk (d : Server.Disk) (s : State ι κ) (p : Path) :
    Opens d s p ↔ Server.traversedirDmkvDel (d.spelled (text p)) (resolve d.cwd (text p)) s.base ≠ none := by
  rw [Ne, Server.traversedirDmkvDel_none, Server.spelled_opens, (Server.spelled_calls d (text p)).1,
    (Server.spelled_calls d (text p)).2.1, (Server.spelled_calls d (text p)).2.2.2, Classical.not_imp]
  rfl

instance (d : Server.Disk) (s : State ι κ) (p : Path) : Decidable (Opens d s p) :=
  decidable_of_iff ((Server.traversedirDmkvDel (d.spelled (text p)) (resolve d.cwd (text p)) s.base).isSome = true)
    (Option.isSome_iff_ne_none.trans (opens_iff_walk d s p).symm)

def Distinct (s : State ι κ) : Event → Prop
  | .pre p _ _ => Directory p ∧ p ∉ s.recorded
  | .post p d _ _ => p ∈ s.recorded ∧ Opens d s p

instance (s : State ι κ) : DecidablePred (Distinct s)
  | .pre _ _ _ => inferInstanceAs (Decidable (_ ∧ _))
  | .post _ _ _ _ => inferInstanceAs (Decidable (_ ∧ _))

/-- At most 127 directories are recorded at a time and the last one is taken out first. -/
def LastFirst (s : State ι κ) : Event → Prop
  | .pre p _ _ => Directory p ∧ p ∉ s.recorded ∧ s.recorded.length + 1 < rmdirlistMax
  | .post p d _ _ => Named p ∧ (p ∉ s.recorded ∨ s.recorded.getLast? = some p) ∧ Opens d s p

instance (s : State ι κ) : DecidablePred (LastFirst s)
  | .pre _ _ _ => inferInstanceAs (Decidable (_ ∧ _))
  | .post _ _ _ _ => inferInstanceAs (Decidable (_ ∧ _))

def Told (s : State ι κ) : Prop :=
  ∀ p, Named p → (checkRmdirList s.record (text p) = -1 ↔ ∃ q ∈ s.recorded, q <:+ p)

structure Holds (s : State ι κ) : Prop where
  count : s.record.shmidCount = 1
  num : s.record.rmdirNum = s.recorded.length
  room : s.recorded.length < rmdirlistMax
  list : ∀ k (below : k < s.recorded.length), s.record.rmdirList shmkey k = text s.recorded[k]
  directory : ∀ p ∈ s.recorded, Directory p
  nodup : s.recorded.Nodup

theorem childCmpNew_text (namedP : Named p) (directory : Directory q) :
    childCmpNew (text p) (text q) ≠ 0 ↔ q <:+ p := by
  constructor
  · exact suffix_of_childCmpNew directory.named namedP
  · intro inside
    by_cases same : q = p
    · rw [childCmpNew_eq_two.mpr (by rw [same])]
      exact two_ne_zero
    · exact childCmpNew_ne_zero.mpr (.inr (text_slash_begins directory.other inside same))

theorem Holds.told (h : Holds s) : Told s := by
  intro p named
  have max : s.record.rmdirNum % rmdirlistMax = s.recorded.length := by
    rw [h.num, Nat.mod_eq_of_lt h.room]
  have one : checkRmdirList s.record (text p) =
      if (List.range s.recorded.length).any fun j => childCmpNew (text p) (s.record.rmdirList shmkey j) ≠ 0
      then -1 else 0 := by
    simp only [checkRmdirList, h.count, List.range_one, List.any_cons, List.any_nil, Bool.or_false, Nat.zero_add,
      lt_irrefl, if_false, max]
    rfl
  rw [one, ite_eq_left_iff, Bool.not_eq_true]
  have found : ((List.range s.recorded.length).any fun j =>
      childCmpNew (text p) (s.record.rmdirList shmkey j) ≠ 0) = true ↔ ∃ q ∈ s.recorded, q <:+ p := by
    simp only [List.any_eq_true, List.mem_range, decide_eq_true_iff]
    constructor
    · rintro ⟨k, below, positive⟩
      have member : s.recorded[k] ∈ s.recorded := List.getElem_mem below
      rw [h.list k below, childCmpNew_text named (h.directory _ member)] at positive
      exact ⟨_, member, positive⟩
    · rintro ⟨q, member, inside⟩
      obtain ⟨k, below, rfl⟩ := List.getElem_of_mem member
      refine ⟨k, below, ?_⟩
      rw [h.list k below, childCmpNew_text named (h.directory _ member)]
      exact inside
  rw [← found]
  cases (List.range s.recorded.length).any _ <;> simp

theorem Holds.initial (h : Initial s) : Holds s where
  count := h.count
  num := by rw [h.num, h.recorded]; rfl
  room := by rw [h.recorded]; decide
  list k below := by
    rw [h.recorded] at below
    cases below
  directory p member := by
    rw [h.recorded] at member
    cases member
  nodup := by rw [h.recorded]; exact List.nodup_nil

theorem set_rmdirList (r : RmdirRecord) (slot : Nat) (path : CString) :
    (r.set shmkey slot path).rmdirList shmkey = update (r.rmdirList shmkey) slot path := by
  simp only [RmdirRecord.set, update_self]

theorem rmdirPre_room (count : r.shmidCount = 1) (room : r.rmdirNum < rmdirlistMax)
    (fits : path.length < Message.pathMax) (remote : Bool) (broadcast : Int) :
    ∃ ret, rmdirPre r path remote broadcast =
      some (ret, { r.set shmkey r.rmdirNum path with rmdirNum := r.rmdirNum + 1 }) := by
  have stays : ¬r.shmidCount * rmdirlistMax < r.rmdirNum + 1 := by
    rw [count, Nat.one_mul]
    exact Nat.not_lt.mpr room
  have one : ¬(r.rmdirNum + 1 ≤ (r.shmidCount - 1) * rmdirlistMax ∧ 1 < r.shmidCount) := by
    rw [count]
    exact fun both => lt_irrefl 1 both.2
  unfold rmdirPre
  simp only [stays, if_false, if_neg one]
  rw [if_pos ⟨room, fits⟩]
  exact ⟨_, rfl⟩

theorem Holds.record (h : Holds s) (directory : Directory p) (fresh : p ∉ s.recorded)
    (room : s.recorded.length + 1 < rmdirlistMax) :
    Holds { s with record := { s.record.set shmkey s.record.rmdirNum (text p) with rmdirNum := s.record.rmdirNum + 1 }
                   recorded := s.recorded ++ [p] } where
  count := h.count
  num := by simp [h.num]
  room := by simpa using room
  list k below := by
    show (s.record.set shmkey s.record.rmdirNum (text p)).rmdirList shmkey k = _
    rw [set_rmdirList, h.num]
    by_cases last : k = s.recorded.length
    · simp [last]
    · have before : k < s.recorded.length := by
        rw [List.length_append, List.length_singleton] at below
        omega
      rw [update_of_ne last, h.list k before, List.getElem_append_left before]
  directory q member := by
    rcases List.mem_append.mp member with before | last
    · exact h.directory q before
    · exact List.mem_singleton.mp last ▸ directory
  nodup := List.nodup_append.mpr ⟨h.nodup, List.nodup_singleton p, fun q member r last same =>
    fresh (List.mem_singleton.mp last ▸ same ▸ member)⟩

theorem innerLoop_none {last fuel j : Nat} (bound : r.rmdirNum ≤ rmdirlistMax)
    (none : ∀ k, j ≤ k → k < r.rmdirNum → r.rmdirList shmkey k ≠ path) :
    innerLoop path last fuel j r = some r := by
  induction fuel generalizing j with
  | zero => rfl
  | succ fuel ih =>
      unfold innerLoop
      split
      · rename_i below
        have other : childCmpNew path (r.rmdirList shmkey j) ≠ 2 := fun two =>
          none j le_rfl below (childCmpNew_eq_two.mp two)
        rw [if_pos (by omega), if_neg other]
        exact ih fun k above => none k (by omega)
      · rfl

theorem innerLoop_last {last fuel n j : Nat} (num : r.rmdirNum = n + 1) (bound : n < rmdirlistMax)
    (none : ∀ k < n, r.rmdirList shmkey k ≠ path) (there : r.rmdirList shmkey n = path) (upTo : j ≤ n)
    (enough : n < j + fuel) (ends : (takeOut last n r).rmdirNum = n) :
    innerLoop path last fuel j r = some (takeOut last n r) := by
  induction fuel generalizing j with
  | zero => omega
  | succ fuel ih =>
      unfold innerLoop
      rw [if_pos (by omega), if_pos (by omega)]
      by_cases here : j = n
      · subst here
        rw [if_pos (childCmpNew_eq_two.mpr there)]
        exact innerLoop_none (by omega) fun k above below => by omega
      · have other : childCmpNew path (r.rmdirList shmkey j) ≠ 2 := fun two =>
          none j (by omega) (childCmpNew_eq_two.mp two)
        rw [if_neg other]
        exact ih (by omega) (by omega)

theorem outerLoop_one {last n : Nat} {r' : RmdirRecord} (count : r.shmidCount = 1)
    (inner : innerLoop path last r.rmdirNum 0 r = some r') (kept : r'.shmidCount = 1) :
    outerLoop path last (n + 1) r = some r' := by
  unfold outerLoop
  rw [if_neg (by omega), inner, Option.bind_some, if_pos (by omega)]

theorem takeOut_last {n : Nat} (num : r.rmdirNum = n + 1) (room : n + 1 < rmdirlistMax) :
    (takeOut 1 n r).rmdirNum = n ∧ (takeOut 1 n r).shmidCount = r.shmidCount ∧
      ∀ k < n, (takeOut 1 n r).rmdirList shmkey k = r.rmdirList shmkey k := by
  have behind : r.rmdirNum % rmdirlistMax = n + 1 := by rw [num, Nat.mod_eq_of_lt room]
  unfold takeOut
  simp only [behind, lt_irrefl, if_false, and_false]
  rw [if_neg (by omega)]
  refine ⟨by simp [num], rfl, fun k below => ?_⟩
  show ((r.set shmkey n _).set shmkey (n + 1) []).rmdirList shmkey k = _
  rw [set_rmdirList, set_rmdirList, update_of_ne (by omega), update_of_ne (by omega)]

theorem Holds.takenOut (h : Holds s) (named : Named p) (which : p ∉ s.recorded ∨ s.recorded.getLast? = some p)
    (base : Commit.State ι κ) :
    ∃ r, outerLoop (text p) s.record.shmidCount (s.record.rmdirNum + 1) s.record = some r ∧
      Holds (⟨r, base, s.recorded.erase p⟩ : State ι κ) := by
  have apart : ∀ k (below : k < s.recorded.length), s.recorded[k] ≠ p →
      s.record.rmdirList shmkey k ≠ text p := fun k below other same => other <|
    text_injective (h.directory _ (List.getElem_mem below)).named named (by rw [← h.list k below, same])
  rcases which with absent | last
  · refine ⟨s.record, outerLoop_one h.count (innerLoop_none ?_ fun k _ below => ?_) h.count, ?_⟩
    · rw [h.num]
      exact h.room.le
    · rw [h.num] at below
      exact apart k below fun is => absent (is ▸ List.getElem_mem below)
    · rw [List.erase_of_not_mem absent]
      exact ⟨h.count, h.num, h.room, h.list, h.directory, h.nodup⟩
  · obtain ⟨front, recorded⟩ := List.getLast?_eq_some_iff.mp last
    have num : s.record.rmdirNum = front.length + 1 := by rw [h.num, recorded]; simp
    have room : front.length + 1 < rmdirlistMax := by rw [← num, h.num]; exact h.room
    have nodup := h.nodup
    rw [recorded, List.nodup_append] at nodup
    have fresh : p ∉ front := fun member => nodup.2.2 p member p (by simp) rfl
    have entry : ∀ k (below : k < front.length), s.record.rmdirList shmkey k = text front[k] := by
      intro k below
      have before : k < s.recorded.length := by rw [← h.num, num]; omega
      rw [h.list k before]
      congr 1
      simp only [recorded, List.getElem_append_left below]
    have there : s.record.rmdirList shmkey front.length = text p := by
      rw [h.list front.length (by rw [← h.num, num]; exact front.length.lt_succ_self)]
      simp [recorded]
    have others : ∀ k < front.length, s.record.rmdirList shmkey k ≠ text p := by
      intro k below same
      rw [entry k below] at same
      have inFront : front[k] ∈ front := List.getElem_mem below
      have is := text_injective (h.directory _ (recorded ▸ List.mem_append_left _ inFront)).named named same
      exact fresh (is ▸ inFront)
    obtain ⟨num', count', list'⟩ := takeOut_last num room
    have erased : s.recorded.erase p = front := by
      rw [recorded, List.erase_append_right _ fresh, List.erase_cons_head, List.append_nil]
    refine ⟨takeOut 1 front.length s.record, outerLoop_one h.count ?_ (count'.trans h.count), ?_⟩
    · rw [h.count, num]
      exact innerLoop_last num (by omega) others there (Nat.zero_le _) (by omega) num'
    · rw [erased]
      exact {
        count := count'.trans h.count
        num := num'
        room := Nat.lt_of_succ_lt room
        list := fun k below => (list' k below).trans (entry k below)
        directory := fun q member => h.directory q (recorded ▸ List.mem_append_left _ member)
        nodup := nodup.1 }

theorem Holds.step (h : Holds s) {e : Event} (ok : LastFirst s e) : ∃ t, step s e = some t ∧ Holds t := by
  cases e with
  | pre p remote broadcast =>
      obtain ⟨directory, fresh, room⟩ := ok
      have below : s.record.rmdirNum < rmdirlistMax := by rw [h.num]; omega
      obtain ⟨ret, recorded⟩ := rmdirPre_room h.count below directory.fits remote broadcast
      refine ⟨_, ?_, h.record directory fresh room⟩
      simp only [AsyncRmdir.step, recorded, Option.map_some]
  | post p d remote broadcast =>
      obtain ⟨named, which, opens⟩ := ok
      obtain ⟨base, walk⟩ := Option.ne_none_iff_exists'.mp ((opens_iff_walk d s p).mp opens)
      obtain ⟨r, out, holds⟩ := h.takenOut named which base
      refine ⟨_, ?_, holds⟩
      simp only [AsyncRmdir.step, rmdirPost, walk, out, Option.map_some]

/-- As long as fewer than 128 directories are recorded and the last one is taken out first, every call
comes back within the arrays and the clients are told of the recorded directories. -/
theorem record_faithful (reach : (system ι κ).Reachable LastFirst s) :
    (∀ e, LastFirst s e → step s e ≠ none) ∧
    ∀ p, Named p → (checkRmdirList s.record (text p) = -1 ↔ ∃ q ∈ s.recorded, q <:+ p) := by
  have holds : Holds s := by
    refine System.Reachable.invariant (P := Holds) (fun _ => Holds.initial) (fun s e t _ h ok does => ?_) reach
    obtain ⟨t', does', holds⟩ := h.step ok
    cases does.symm.trans does'
    exact holds
  refine ⟨fun e ok => ?_, holds.told⟩
  obtain ⟨t, does, -⟩ := holds.step ok
  rw [does]
  exact Option.some_ne_none t

def exampleStart : State Unit Unit := ⟨⟨0, 1, fun _ _ => []⟩, Server.exampleState, []⟩

def exampleDisk : Server.Disk := Server.exampleDisk fun _ => false

def otherDir : Path := [['e'], ['w']]

theorem record_unfaithful : ∃ s : State Unit Unit, (system Unit Unit).Reachable Distinct s ∧
    ∃ p, Named p ∧ ¬(checkRmdirList s.record (text p) = -1 ↔ ∃ q ∈ s.recorded, q <:+ p) := by
  obtain ⟨s, reach, wrong⟩ := System.exists_reachable (system Unit Unit) Distinct (s := exampleStart) ⟨rfl, rfl, rfl⟩
    [.pre Server.exampleDir false 0, .pre otherDir false 0, .post Server.exampleDir exampleDisk false 0]
    (fun s => checkRmdirList s.record (text [['x'], ['w']]) = -1 ∧ s.recorded = [otherDir]) (by decide +kernel)
  obtain ⟨told, one⟩ := of_decide_eq_true wrong
  refine ⟨s, reach, [['x'], ['w']], by decide, fun same => ?_⟩
  obtain ⟨q, member, below⟩ := same.mp told
  rw [one, List.mem_singleton] at member
  subst member
  revert below
  decide

theorem record_faithful_nested : ∃ s : State Unit Unit, (system Unit Unit).Reachable LastFirst s ∧
    s.recorded = [otherDir] ∧ (∀ e, LastFirst s e → step s e ≠ none) ∧
    ∀ p, Named p → (checkRmdirList s.record (text p) = -1 ↔ ∃ q ∈ s.recorded, q <:+ p) := by
  obtain ⟨s, reach, one⟩ := System.exists_reachable (system Unit Unit) LastFirst (s := exampleStart) ⟨rfl, rfl, rfl⟩
    [.pre otherDir false 0, .pre Server.exampleDir false 0, .post Server.exampleDir exampleDisk false 0]
    (fun s => s.recorded = [otherDir]) (by decide +kernel)
  exact ⟨s, reach, of_decide_eq_true one, record_faithful reach⟩

end Pacon.AsyncRmdir
