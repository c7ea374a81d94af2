import Mathlib.Data.Multiset.AddSub
import Pacon.Lib.Transition
import Pacon.Removing.Model

/-!
# What the list of removing directories holds

One server through its RMDIR requests and the messages of the other servers. Both copies of the
deletion leave the empty string where they have moved the last entry to.
-/

namespace Pacon.Removing
open Lib Function

structure State where
  dirs : RemovingDirs
  serving : Option CString
  /-- History only: the directories that are added and not deleted. -/
  pending : Multiset CString

inductive Event
  | request (mesg : CString)
  | reply
  | cluster (mesg : CString)
  deriving DecidableEq

inductive Change
  | add (path : CString)
  | del (path : CString)
  | keep

def RemovingDirs.change (r : RemovingDirs) : Change → Option RemovingDirs
  | .add path => addRemovingDir r path
  | .del path => some (delRemovingDir r path)
  | .keep => some r

def change (s : State) : Event → Change
  | .request mesg =>
      match Message.commitToFsBarrier mesg with
      | some ⟨_, path, some '4'⟩ => .add path
      | _ => .keep
  | .reply =>
      match s.serving with
      | some path => .del path
      | none => .keep
  | .cluster mesg =>
      match (Message.commitToFs mesg).2 with
      | some '3' => .add (Message.commitToFs mesg).1
      | some '4' => .del (Message.commitToFs mesg).1
      | _ => .keep

def Change.pending (pending : Multiset CString) : Change → Multiset CString
  | .add path => path ::ₘ pending
  | .del path => pending.erase path
  | .keep => pending

def Change.added : Change → Option CString
  | .add path => some path
  | .del _ | .keep => none

def serving (s : State) (e : Event) : Option (Option CString) :=
  match e with
  | .request _ => if s.serving = none then some (change s e).added else none
  | .reply => if s.serving = none then none else some none
  | .cluster _ => some s.serving

def step (s : State) (e : Event) : Option State :=
  match serving s e, s.dirs.change (change s e) with
  | some next, some dirs => some ⟨dirs, next, (change s e).pending s.pending⟩
  | _, _ => none

def Initial (s : State) : Prop := s.dirs.count = 0 ∧ s.serving = none ∧ s.pending = 0

def system : System State Event := ⟨Initial, step⟩

def InOrder (s : State) (e : Event) : Prop :=
  match change s e with
  | .add _ => s.pending.card < Barrier.barrierIdMax
  | .del path => path ∈ s.pending
  | .keep => True

instance (s : State) (e : Event) : Decidable (InOrder s e) := by
  unfold InOrder
  split <;> infer_instance

def LastFirst (s : State) (e : Event) : Prop :=
  match change s e with
  | .add _ => s.pending.card < Barrier.barrierIdMax
  | .del path => 0 < s.dirs.count ∧ s.dirs.list (s.dirs.count - 1) = path
  | .keep => True

instance (s : State) (e : Event) : Decidable (LastFirst s e) := by
  unfold LastFirst
  split <;> infer_instance

def Faithful (s : State) : Prop := (entries s.dirs : Multiset CString) = s.pending

instance (s : State) : Decidable (Faithful s) := inferInstanceAs (Decidable (_ = _))

variable {r : RemovingDirs} {path : CString} {s t : State}

theorem entries_add (r : RemovingDirs) (path : CString) :
    entries ⟨r.count + 1, update r.list r.count path⟩ = entries r ++ [path] := by
  unfold entries
  rw [List.range_succ, List.map_append]
  congr 1
  · apply List.map_congr_left
    intro k member
    exact update_of_ne (Nat.ne_of_lt (List.mem_range.mp member)) ..
  · simp

theorem entries_del {n : Nat} (counted : r.count = n + 1) (last : r.list n = path) :
    entries r = entries (delRemovingDir r path) ++ [path] := by
  have here : delRemovingDir r path = delAt r n := by
    rw [delRemovingDir, counted, delLoop, childCmp, if_pos (childCmpNew_eq_two.mpr last.symm)]
  have kept : entries (delAt r n) = (List.range n).map r.list := by
    unfold entries delAt
    simp only [counted, ne_eq, not_true_eq_false, if_false, Nat.add_sub_cancel]
    apply List.map_congr_left
    intro k member
    exact update_of_ne (Nat.ne_of_lt (List.mem_range.mp member)) ..
  rw [here, kept, entries, counted, List.range_succ, List.map_append, List.map_singleton, last]

theorem Faithful.step (h : Faithful s) {e : Event} (ok : LastFirst s e) (does : step s e = some t) :
    Faithful t := by
  unfold Removing.step at does
  split at does
  · rename_i next dirs _ changed
    cases does
    unfold LastFirst at ok
    unfold Faithful at h ⊢
    generalize change s e = changes at ok changed ⊢
    cases changes with
    | add path =>
        obtain ⟨-, added⟩ := Option.ite_none_right_eq_some.mp changed
        cases added
        show (entries ⟨s.dirs.count + 1, _⟩ : Multiset CString) = path ::ₘ s.pending
        rw [entries_add, ← h]
        exact Multiset.coe_eq_coe.mpr (List.perm_append_singleton ..)
    | del path =>
        cases changed
        obtain ⟨n, counted⟩ := Nat.exists_eq_succ_of_ne_zero (Nat.pos_iff_ne_zero.mp ok.1)
        have last : s.dirs.list n = path := by
          have last := ok.2
          rwa [counted, Nat.succ_sub_one] at last
        show (entries (delRemovingDir s.dirs path) : Multiset CString) = s.pending.erase path
        have held : s.pending = path ::ₘ (entries (delRemovingDir s.dirs path) : Multiset CString) := by
          rw [← h, entries_del counted last]
          exact Multiset.coe_eq_coe.mpr (List.perm_append_singleton ..)
        rw [held, Multiset.erase_cons_head]
    | keep =>
        cases changed
        exact h
  · cases does

theorem Faithful.initial (h : Initial s) : Faithful s := by
  obtain ⟨none, -, empty⟩ := h
  rw [Faithful, entries, none, empty]
  rfl

/-- In every run whose deletions are all of the last entry, the list holds the directories that were
added and not deleted. -/
theorem entries_faithful (reach : system.Reachable LastFirst s) : (entries s.dirs : Multiset CString) = s.pending :=
  System.Reachable.invariant (P := Faithful) (fun _ => Faithful.initial)
    (fun _ _ _ _ faithful ok does => faithful.step ok does) reach

def emptyList : State := ⟨⟨0, fun _ => []⟩, none, 0⟩

theorem entries_unfaithful : ∃ s, system.Reachable InOrder s ∧
    (entries s.dirs : Multiset CString) ≠ s.pending := by
  obtain ⟨s, reach, wrong⟩ := System.exists_reachable system InOrder (s := emptyList) ⟨rfl, rfl, rfl⟩
    [.request "1/w/d:4170".toList, .cluster "/w/e:3".toList, .reply] (fun s => ¬Faithful s) (by decide)
  exact ⟨s, reach, of_decide_eq_true wrong⟩

theorem entries_faithful_nested : ∃ s, system.Reachable LastFirst s ∧
    (entries s.dirs : Multiset CString) = s.pending ∧ s.pending.card = 1 := by
  obtain ⟨s, reach, one⟩ := System.exists_reachable system LastFirst (s := emptyList) ⟨rfl, rfl, rfl⟩
    [.request "1/w/d:4170".toList, .cluster "/w/e:3".toList, .cluster "/w/e:4".toList]
    (fun s => s.pending.card = 1) (by decide)
  exact ⟨s, reach, entries_faithful reach, of_decide_eq_true one⟩

theorem delLoop_cases (r : RemovingDirs) (path : CString) (n : Nat) : (∀ k < n, r.list k ≠ path) ∧ delLoop r path n = r ∨
    ∃ pos < n, r.list pos = path ∧ (∀ k < n, pos < k → r.list k ≠ path) ∧ delLoop r path n = delAt r pos := by
  induction n with
  | zero => exact .inl ⟨fun k below => absurd below k.not_lt_zero, rfl⟩
  | succ n ih =>
      unfold delLoop
      split
      · rename_i two
        refine .inr ⟨n, n.lt_succ_self, (childCmpNew_eq_two.mp two).symm, fun k below above => ?_, rfl⟩
        omega
      · rename_i other
        have here : r.list n ≠ path := fun is => other (childCmpNew_eq_two.mpr is.symm)
        have each : ∀ k < n + 1, k ≠ n → k < n := fun k below apart => by omega
        rcases ih with ⟨none, same⟩ | ⟨pos, below, found, behind, same⟩
        · refine .inl ⟨fun k below => ?_, same⟩
          by_cases top : k = n
          · rwa [top]
          · exact none k (each k below top)
        · refine .inr ⟨pos, Nat.lt_succ_of_lt below, found, fun k upTo above => ?_, same⟩
          by_cases top : k = n
          · rwa [top]
          · exact behind k (each k upTo top) above

theorem entries_del_iff (named : [] ∉ entries r) (there : path ∈ entries r) :
    (entries (delRemovingDir r path) : Multiset CString) = (entries r : Multiset CString).erase path ↔
      r.list (r.count - 1) = path := by
  have member : ∀ {c : CString} {x : RemovingDirs}, c ∈ entries x ↔ ∃ k < x.count, x.list k = c := by
    simp [entries]
  constructor
  · intro right
    rcases delLoop_cases r path r.count with ⟨none, -⟩ | ⟨pos, below, found, -, same⟩
    · obtain ⟨k, below, found⟩ := member.mp there
      exact absurd found (none k below)
    · by_cases last : pos = r.count - 1
      · rw [← last, found]
      · have hole : [] ∈ entries (delAt r pos) := by
          refine member.mpr ⟨pos, ?_, ?_⟩
          · show pos < r.count - 1
            omega
          · unfold delAt
            exact update_self ..
        rw [delRemovingDir, same] at right
        have kept : [] ∈ (entries r : Multiset CString).erase path := right ▸ Multiset.mem_coe.mpr hole
        exact absurd (Multiset.mem_coe.mp (Multiset.mem_of_mem_erase kept)) named
  · intro last
    obtain ⟨k, below, -⟩ := member.mp there
    obtain ⟨n, counted⟩ := Nat.exists_eq_succ_of_ne_zero (Nat.ne_zero_of_lt below)
    rw [counted, Nat.succ_sub_one] at last
    have held : (entries r : Multiset CString) = path ::ₘ (entries (delRemovingDir r path) : Multiset CString) := by
      rw [entries_del counted last]
      exact Multiset.coe_eq_coe.mpr (List.perm_append_singleton ..)
    rw [held, Multiset.erase_cons_head]

end Pacon.Removing
