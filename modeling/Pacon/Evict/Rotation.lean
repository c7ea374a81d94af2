import Mathlib.Data.List.Rotate
import Pacon.Evict.Lock

/-!
# The turns of the eviction

The key `evict_record` holds the index of the entry of the root directory that is evicted next, among
all but `.` and `..`. Two of the variants begin again with the first entry where no entry has the index.
-/

set_option linter.unusedSectionVars false

namespace Pacon.EvictLock
open Lib Function

/-- The root directory as `readdir` lists it, with each of `.` and `..` once at most. -/
structure Root where
  entries : List DirEntry
  dots : entries.count .dot ≤ 2

def Root.evictable (root : Root) : List DirEntry := root.entries.filter (· ≠ .dot)

def Root.size (root : Root) : Nat := root.evictable.length

def Lists (root : Root) (env : Env) : Prop := env.opened = true ∧ env.entries = root.entries

instance (root : Root) (env : Env) : Decidable (Lists root env) := inferInstanceAs (Decidable (_ ∧ _))

def pick (es : List DirEntry) : Int → Scanned
  | .ofNat i =>
      match es[i]? with
      | some e => .found (e = .dir)
      | none => .ended
  | .negSucc _ => .ended

theorem pick_nil (k : Int) : pick [] k = .ended := by
  cases k <;> rfl

theorem pick_cons {k : Int} (other : k ≠ 0) (e : DirEntry) (es : List DirEntry) :
    pick (e :: es) k = pick es (k - 1) := by
  cases k with
  | ofNat i =>
      cases i with
      | zero => exact absurd rfl other
      | succ i =>
          have before : Int.ofNat (i + 1) - 1 = Int.ofNat i := by simp
          rw [before]
          rfl
  | negSucc i => rfl

theorem scan_eq {v : Variant} {es : List DirEntry} {rr c : Int} {r1 : Nat}
    (few : v = .new → r1 + es.count .dot ≤ 2) :
    scan v rr c r1 es = pick (es.filter (· ≠ .dot)) (rr - c) := by
  induction es generalizing c r1 with
  | nil => exact (pick_nil _).symm
  | cons e es ih =>
      cases e with
      | dot =>
          have later : v = .new → r1 + 1 + es.count .dot ≤ 2 := by
            intro is
            have := few is
            rw [List.count_cons_self] at this
            omega
          have low : ¬(v = .new ∧ 3 ≤ r1 + 1) := fun both => by
            have := later both.1
            omega
          rw [scan, if_neg low, ih later]
          rfl
      | file | dir =>
          have later : v = .new → r1 + es.count .dot ≤ 2 := by simpa using few
          rw [scan, List.filter_cons_of_pos (by decide)]
          split
          · rename_i here
            rw [here, Int.sub_self]
            rfl
          · rename_i other
            rw [pick_cons (by omega), ih later, Int.sub_sub]

section
variable {root : Root} {v : Variant} {rr : Int} {env : Env}

theorem scan_root (v : Variant) (rr : Int) (root : Root) :
    scan v rr 0 0 root.entries = pick root.evictable rr := by
  rw [scan_eq fun _ => by rw [Nat.zero_add]; exact root.dots, Int.sub_zero]
  rfl

theorem searched_inside (low : 0 ≤ rr) (high : rr < root.size) :
    ∃ dir, searched v rr (scan v rr 0 0 root.entries) = .flush v rr dir := by
  obtain ⟨i, rfl⟩ := Int.eq_ofNat_of_zero_le low
  have inside : i < root.evictable.length := Int.ofNat_lt.mp high
  refine ⟨root.evictable[i] = DirEntry.dir, ?_⟩
  have found : pick root.evictable (i : Int) = .found (root.evictable[i] = DirEntry.dir) := by
    show (match root.evictable[i]? with
      | some e => Scanned.found (e = DirEntry.dir)
      | none => .ended) = _
    rw [List.getElem?_eq_getElem inside]
  rw [scan_root, found]
  rfl

theorem searched_outside (outside : ¬(0 ≤ rr ∧ rr < root.size)) :
    searched v rr (scan v rr 0 0 root.entries) = if v = .explicit then .setRecord v rr else .search v 0 := by
  have ended : pick root.evictable rr = .ended := by
    cases rr with
    | ofNat i =>
        have behind : root.evictable.length ≤ i := by
          by_contra inside
          exact outside ⟨Int.natCast_nonneg i, Int.ofNat_lt.mpr (Nat.lt_of_not_le inside)⟩
        show (match root.evictable[i]? with
          | some e => Scanned.found (e = DirEntry.dir)
          | none => .ended) = _
        rw [List.getElem?_eq_none behind]
    | negSucc i => rfl
  rw [scan_root, ended]
  rfl

variable {κ : Type} [DecidableEq κ] {s t : State κ} {c : κ}

def Searching (pc : ClientPc) : Prop := ∃ v rr, pc = .search v rr

inductive Leaves (root : Root) (c : κ) : State κ → Prop
  | left {s : State κ} (out : ¬Searching (s.client c)) : Leaves root c s
  | scan {s t : State κ} (env : Env) (searching : Searching (s.client c)) (listed : Lists root env)
      (h : step s (.client c env) = some t) (later : Leaves root c t) : Leaves root c s

theorem search_step (at_pc : s.client c = .search v rr) (listed : Lists root env) :
    step s (.client c env) = some (setPc s c (searched v rr (scan v rr 0 0 root.entries))) := by
  obtain ⟨opened, entries⟩ := listed
  show clientStep s c env = _
  unfold clientStep
  simp only [at_pc, opened, entries, if_true]

theorem setPc_client (s : State κ) (c : κ) (pc : ClientPc) : (setPc s c pc).client c = pc := update_self ..

def listing (root : Root) : Env := ⟨true, .answer, true, root.entries, 0⟩

theorem leaves_inside (at_pc : s.client c = .search v rr) (low : 0 ≤ rr) (high : rr < root.size) :
    Leaves root c s := by
  obtain ⟨dir, found⟩ := searched_inside (v := v) low high
  refine .scan (listing root) ⟨v, rr, at_pc⟩ ⟨rfl, rfl⟩ (search_step at_pc ⟨rfl, rfl⟩) (.left ?_)
  rw [setPc_client, found]
  rintro ⟨_, _, ⟨⟩⟩

theorem leaves_explicit (at_pc : s.client c = .search .explicit rr) : Leaves root c s := by
  by_cases inside : 0 ≤ rr ∧ rr < root.size
  · exact leaves_inside at_pc inside.1 inside.2
  · refine .scan (listing root) ⟨.explicit, rr, at_pc⟩ ⟨rfl, rfl⟩ (search_step at_pc ⟨rfl, rfl⟩) (.left ?_)
    rw [setPc_client, searched_outside inside]
    rintro ⟨_, _, ⟨⟩⟩

theorem leaves_of_evictable (some_entry : root.evictable ≠ []) (at_pc : s.client c = .search v rr) :
    Leaves root c s := by
  by_cases inside : 0 ≤ rr ∧ rr < root.size
  · exact leaves_inside at_pc inside.1 inside.2
  · by_cases explicit : v = .explicit
    · exact leaves_explicit (explicit ▸ at_pc)
    · -- The search begins again with the first entry, which is there.
      refine .scan (listing root) ⟨v, rr, at_pc⟩ ⟨rfl, rfl⟩ (search_step at_pc ⟨rfl, rfl⟩) ?_
      rw [searched_outside inside, if_neg explicit]
      exact leaves_inside (setPc_client ..) (Int.le_refl 0) (Int.ofNat_lt.mpr (List.length_pos_iff.mpr some_entry))

theorem never_leaves (empty : root.evictable = []) (loops : v ≠ .explicit) (leaves : Leaves root c s) :
    ∀ rr, s.client c ≠ .search v rr := by
  induction leaves with
  | left out =>
      intro rr at_pc
      exact out ⟨v, rr, at_pc⟩
  | scan _ _ listed h _ ih =>
      intro rr at_pc
      rw [search_step at_pc listed] at h
      cases h
      have outside : ¬(0 ≤ rr ∧ rr < root.size) := by
        rw [Root.size, empty, List.length_nil]
        rintro ⟨low, high⟩
        exact Int.lt_irrefl 0 (Int.lt_of_le_of_lt low high)
      refine ih 0 ?_
      rw [setPc_client, searched_outside outside, if_neg loops]

/-- The search ends exactly if there is an entry besides the dots, that of `evict_metadata_explicit` always. -/
theorem search_leaves_iff (root : Root) (at_pc : s.client c = .search v rr) :
    Leaves root c s ↔ v = .explicit ∨ root.evictable ≠ [] := by
  constructor
  · intro leaves
    by_contra neither
    rw [not_or, not_not] at neither
    exact never_leaves neither.2 neither.1 leaves rr at_pc
  · rintro (rfl | some_entry)
    · exact leaves_explicit at_pc
    · exact leaves_of_evictable some_entry at_pc

end

def searchingAt (v : Variant) (rr : Int) : State Bool :=
  ⟨8, some '1', some (printInt rr), fun c => if c then .search v rr else .idle, some true⟩

theorem search_leaves_iff_file : Leaves ⟨[.dot, .file, .dot], by decide⟩ true (searchingAt .new 7) :=
  (search_leaves_iff ⟨[.dot, .file, .dot], by decide⟩
    (show (searchingAt .new 7).client true = .search .new 7 from rfl)).mpr (.inr (by decide))

theorem search_never_ends : ¬Leaves ⟨[.dot, .dot], by decide⟩ true (searchingAt .new 0) ∧
    ¬Leaves ⟨[.dot, .dot], by decide⟩ true (searchingAt .metadata 0) := by
  have empty : Root.evictable ⟨[.dot, .dot], by decide⟩ = [] := by decide
  exact ⟨fun leaves => never_leaves (v := .new) empty (by decide) leaves 0 rfl,
    fun leaves => never_leaves (v := .metadata) empty (by decide) leaves 0 rfl⟩

/-- What the record stands for: `evict_metadata_new` takes an index of no entry for the first one. -/
def turnOf (n : Nat) (rr : Int) : Nat := if 0 ≤ rr ∧ rr < n then rr.toNat else 0

/-- The index of the entry that the step evicts, or that its call evicts none. -/
def evicts {κ : Type} (s : State κ) : Event κ → Option (Option Int)
  | .client c env =>
      match s.client c with
      | .search v rr =>
          if env.opened = true ∧ searched v rr (scan v rr 0 0 env.entries) = .setRecord v rr then some none else none
      | .flush v rr dir => if flushFails v dir env.flushed then none else some (some rr)
      | _ => none
  | .start _ _ | .expire => none

def turns (n start count : Nat) : List (Option Int) :=
  (List.range count).map fun k => some (((start + k) % n : Nat) : Int)

/-- Each call evicts an entry, the one behind the last, and `n` calls in a row every one of the `n` entries
once. -/
structure Rotates (n start : Nat) (evicted : List (Option Int)) : Prop where
  order : evicted = turns n start evicted.length
  cover : ∀ j, j + n ≤ evicted.length →
    ((evicted.drop j).take n).Perm ((List.range n).map fun i : Nat => some (i : Int))

theorem drop_take_range {j n length : Nat} (inside : j + n ≤ length) :
    ((List.range length).drop j).take n = (List.range n).map (j + ·) := by
  apply List.ext_getElem
  · simp
    omega
  · intro i low _
    simp

theorem rotated_range (n a : Nat) : ((List.range n).map fun i => (a + i) % n) = (List.range n).rotate a := by
  apply List.ext_getElem
  · simp
  · intro i low _
    simp [List.getElem_rotate, Nat.add_comm]

theorem rotates_of_order {n start : Nat} {evicted : List (Option Int)}
    (order : evicted = turns n start evicted.length) :
    Rotates n start evicted := by
  refine ⟨order, fun j inside => ?_⟩
  have window : (evicted.drop j).take n = ((List.range n).rotate (start + j)).map fun i : Nat => some (i : Int) := by
    rw [order, turns, ← List.map_drop, ← List.map_take, drop_take_range inside, ← rotated_range, List.map_map,
      List.map_map]
    simp only [Function.comp_def, Nat.add_assoc]
  rw [window]
  exact (List.rotate_perm _ _).map _

section
variable {κ : Type} [DecidableEq κ]

def systemFrom (κ : Type) [DecidableEq κ] (record : CString) : System (State κ) (Event κ) :=
  ⟨fun s => Initial s ∧ s.evictRecord = some record, step⟩

def ListsAt (root : Root) (env : Env) : ClientPc → Prop
  | .search _ _ => Lists root env
  | _ => True

instance (root : Root) (env : Env) : DecidablePred (ListsAt root env)
  | .search _ _ => inferInstanceAs (Decidable (Lists root env))
  | .idle | .getLock _ | .casLock _ _ | .getRecord _ | .flush _ _ _ | .setRecord _ _ | .freeLock _ | .returning _
  | .beyond => inferInstanceAs (Decidable True)

def Fixed (root : Root) (s : State κ) : Event κ → Prop
  | .start _ _ | .expire => True
  | .client c env => ListsAt root env (s.client c)

instance (root : Root) (s : State κ) : DecidablePred (Fixed root s)
  | .start _ _ | .expire => inferInstanceAs (Decidable True)
  | .client c env => inferInstanceAs (Decidable (ListsAt root env (s.client c)))

def Indexes (root : Root) : ClientPc → Prop
  | .search .explicit rr => 0 ≤ rr ∧ rr < root.size
  | _ => True

instance (root : Root) : DecidablePred (Indexes root)
  | .search .explicit rr => inferInstanceAs (Decidable (0 ≤ rr ∧ rr < (root.size : Int)))
  | .search .new _ | .search .metadata _ | .idle | .getLock _ | .casLock _ _ | .getRecord _ | .flush _ _ _
  | .setRecord _ _ | .freeLock _ | .returning _ | .beyond => inferInstanceAs (Decidable True)

/-- `evict_metadata_explicit` only looks for an entry that is there. -/
def InListing (root : Root) (s : State κ) : Event κ → Prop
  | .start _ _ | .expire => True
  | .client c _ => Indexes root (s.client c)

instance (root : Root) (s : State κ) : DecidablePred (InListing root s)
  | .start _ _ | .expire => inferInstanceAs (Decidable True)
  | .client c _ => inferInstanceAs (Decidable (Indexes root (s.client c)))

variable {root : Root} {start : Nat} {record : CString} {s t : State κ} {evicted : List (Option Int)}

def Due (n next : Nat) : ClientPc → Prop
  | .search _ rr => turnOf n rr = next
  | .flush _ rr _ => rr = next ∧ next < n
  | .setRecord _ rr => 0 ≤ rr ∧ turnOf n rr = next
  | _ => True

def Setting (pc : ClientPc) : Prop := ∃ v rr, pc = .setRecord v rr

structure Turn (root : Root) (start : Nat) (s : State κ) (evicted : List (Option Int)) : Prop where
  order : evicted = turns root.size start evicted.length
  due : ∀ c, Due root.size ((start + evicted.length) % root.size) (s.client c)
  record : (∀ c, ¬Setting (s.client c)) →
    ∃ val, s.evictRecord = some val ∧ turnOf root.size (atoi val) = (start + evicted.length) % root.size

theorem turnOf_inside {n : Nat} {rr : Int} (low : 0 ≤ rr) (high : rr < n) : (turnOf n rr : Int) = rr := by
  rw [turnOf, if_pos ⟨low, high⟩, Int.toNat_of_nonneg low]

theorem turnOf_next {n next : Nat} (inside : next < n) : turnOf n ((next : Int) + 1) = (next + 1) % n := by
  unfold turnOf
  split
  · rename_i both
    rw [Nat.mod_eq_of_lt (by omega)]
    omega
  · have last : next + 1 = n := by omega
    rw [last, Nat.mod_self]

theorem Turn.moved (turn : Turn root start s evicted) {u : State κ} {c : κ} {pc : ClientPc}
    (before : ¬Setting (s.client c)) (client : u.client = update s.client c pc)
    (same : u.evictRecord = s.evictRecord) (due : Due root.size ((start + evicted.length) % root.size) pc) :
    Turn root start u evicted where
  order := turn.order
  due d := by
    rw [client]
    by_cases here : d = c
    · subst here
      rwa [update_self]
    · rw [update_of_ne here]
      exact turn.due d
  record none := by
    rw [same]
    refine turn.record fun d => ?_
    by_cases here : d = c
    · subst here
      exact before
    · have := none d
      rwa [client, update_of_ne here] at this

theorem turns_succ (n start count : Nat) :
    turns n start (count + 1) = turns n start count ++ [some (((start + count) % n : Nat) : Int)] := by
  rw [turns, List.range_succ, List.map_append]
  rfl

theorem Turn.flushed (turn : Turn root start s evicted) (exclusive : CasLock.Exclusive (lockOf s)) {c : κ}
    {v : Variant} {rr : Int} {dir : Bool} (at_pc : s.client c = .flush v rr dir) :
    Turn root start (setPc s c (.setRecord v (rr + 1))) (evicted ++ [some rr]) := by
  have due := turn.due c
  rw [at_pc] at due
  obtain ⟨is, inside⟩ := due
  have grown : (evicted ++ [some rr]).length = evicted.length + 1 := by simp
  refine ⟨?_, fun d => ?_, fun none => ?_⟩
  · rw [grown, turns_succ, ← turn.order, is]
  · rw [grown]
    by_cases here : d = c
    · subst here
      have next := turnOf_next inside
      rw [Nat.mod_add_mod] at next
      rw [setPc_client, is]
      exact ⟨by omega, next⟩
    · -- No other client has anything in hand.
      have free : (s.client d).hold ≠ .inside := by
        intro held
        refine here (exclusive.one d c held ?_)
        show (s.client c).hold = _
        rw [at_pc]
        rfl
      show Due _ _ (update s.client c _ d)
      rw [update_of_ne here]
      revert free
      cases s.client d <;> simp [ClientPc.hold, Due]
  · refine absurd ⟨v, rr + 1, ?_⟩ (none c)
    exact setPc_client ..

theorem Turn.recorded (turn : Turn root start s evicted) {c : κ} {v : Variant} {rr : Int}
    (at_pc : s.client c = .setRecord v rr) :
    Turn root start (setPc { s with evictRecord := some (printInt rr) } c (.freeLock v)) evicted := by
  have due := turn.due c
  rw [at_pc] at due
  obtain ⟨low, is⟩ := due
  refine ⟨turn.order, fun d => ?_, fun _ => ⟨printInt rr, rfl, ?_⟩⟩
  · show Due _ _ (update s.client c _ d)
    by_cases here : d = c
    · subst here
      rw [update_self]
      trivial
    · rw [update_of_ne here]
      exact turn.due d
  · obtain ⟨i, rfl⟩ := Int.eq_ofNat_of_zero_le low
    rw [← is]
    exact congrArg _ (atoi_decimal i)

theorem Turn.read (turn : Turn root start s evicted) (exclusive : CasLock.Exclusive (lockOf s)) {c : κ} {v : Variant}
    (at_pc : s.client c = .getRecord v) {val : CString} (there : s.evictRecord = some val) :
    turnOf root.size (atoi val) = (start + evicted.length) % root.size := by
  have none : ∀ d, ¬Setting (s.client d) := by
    rintro d ⟨w, rr, setting⟩
    have same : d = c := by
      apply exclusive.one
      · show (s.client d).hold = _
        rw [setting]
        rfl
      · show (s.client c).hold = _
        rw [at_pc]
        rfl
    rw [same, at_pc] at setting
    cases setting
  obtain ⟨val', there', is⟩ := turn.record none
  cases there.symm.trans there'
  exact is

theorem due_searched (some_entry : 0 < root.size) {v : Variant} {rr : Int} {next : Nat}
    (is : turnOf root.size rr = next) (known : v = .explicit → 0 ≤ rr ∧ rr < root.size) :
    Due root.size next (searched v rr (scan v rr 0 0 root.entries)) ∧
      searched v rr (scan v rr 0 0 root.entries) ≠ .setRecord v rr := by
  by_cases inside : 0 ≤ rr ∧ rr < root.size
  · obtain ⟨dir, found⟩ := searched_inside (v := v) inside.1 inside.2
    have here := turnOf_inside inside.1 inside.2
    rw [found]
    rw [is] at here
    exact ⟨⟨here.symm, by omega⟩, by rintro ⟨⟩⟩
  · have loops : v ≠ .explicit := fun explicit => inside (known explicit)
    rw [searched_outside inside, if_neg loops]
    refine ⟨?_, by rintro ⟨⟩⟩
    rw [turnOf, if_neg inside] at is
    show turnOf root.size 0 = next
    rw [← is, turnOf, if_pos ⟨Int.le_refl 0, Int.ofNat_lt.mpr some_entry⟩]
    rfl

theorem turn_clientStep (some_entry : 0 < root.size) (exclusive : CasLock.Exclusive (lockOf s))
    (turn : Turn root start s evicted) {c : κ} {env : Env} (ok : Unfailing s (.client c env))
    (fixed : Fixed root s (.client c env)) (known : InListing root s (.client c env))
    (h : clientStep s c env = some t) :
    Turn root start t (evicted ++ (evicts s (.client c env)).toList) := by
  have quiet (silent : evicts s (.client c env) = none) (same : Turn root start t evicted) :
      Turn root start t (evicted ++ (evicts s (.client c env)).toList) := by
    rwa [silent, Option.toList_none, List.append_nil]
  have due := turn.due c
  unfold clientStep at h
  unfold Unfailing at ok
  cases at_pc : s.client c with
  | idle => simp [at_pc] at h
  | beyond => simp [at_pc] at h
  | getLock v =>
      simp only [at_pc, Option.some.injEq] at h
      refine quiet (by simp only [evicts, at_pc]) ?_
      subst h
      refine turn.moved (by rw [at_pc]; rintro ⟨_, _, ⟨⟩⟩) rfl rfl ?_
      split
      · trivial
      · split_ifs <;> trivial
  | casLock v cas =>
      simp only [at_pc] at h
      refine quiet (by simp only [evicts, at_pc]) ?_
      cases h
      have out : ¬Setting (s.client c) := by rw [at_pc]; rintro ⟨_, _, ⟨⟩⟩
      unfold casStep
      split
      · split_ifs
        · exact turn.moved out rfl rfl trivial
        · exact turn.moved out rfl rfl trivial
        · exact turn.moved out rfl rfl trivial
      · split_ifs
        · exact turn.moved out rfl rfl trivial
        · exact turn.moved out rfl rfl trivial
  | getRecord v =>
      simp only [at_pc, Option.some.injEq] at h ok
      obtain ⟨val, there⟩ := Option.ne_none_iff_exists'.mp ok.2
      simp only [there, ok.1, Bool.true_eq_false, if_false] at h
      refine quiet (by simp only [evicts, at_pc]) ?_
      subst h
      exact turn.moved (by rw [at_pc]; rintro ⟨_, _, ⟨⟩⟩) rfl rfl (turn.read exclusive at_pc there)
  | search v rr =>
      obtain ⟨opened, entries⟩ : Lists root env := by simpa only [Fixed, at_pc, ListsAt] using fixed
      have inside : v = .explicit → 0 ≤ rr ∧ rr < root.size := by
        intro explicit
        simpa only [InListing, at_pc, explicit, Indexes] using known
      rw [at_pc] at due
      obtain ⟨next, evicting⟩ := due_searched some_entry due inside
      simp only [at_pc, opened, if_true, entries, Option.some.injEq] at h
      refine quiet (by simp only [evicts, at_pc, entries, evicting, and_false, if_false]) ?_
      subst h
      exact turn.moved (by rw [at_pc]; rintro ⟨_, _, ⟨⟩⟩) rfl rfl next
  | flush v rr dir =>
      simp only [at_pc, Option.some.injEq] at h ok
      simp only [ok, Bool.false_eq_true, if_false] at h
      subst h
      have evicting : evicts s (.client c env) = some (some rr) := by
        simp only [evicts, at_pc, ok, Bool.false_eq_true, if_false]
      rw [evicting]
      exact turn.flushed exclusive at_pc
  | setRecord v rr =>
      simp only [at_pc, Option.some.injEq] at h ok
      simp only [ok] at h
      refine quiet (by simp only [evicts, at_pc]) ?_
      subst h
      exact turn.recorded at_pc
  | freeLock v =>
      simp only [at_pc, Option.some.injEq] at h
      refine quiet (by simp only [evicts, at_pc]) ?_
      have out : ¬Setting (s.client c) := by rw [at_pc]; rintro ⟨_, _, ⟨⟩⟩
      subst h
      split
      · exact turn.moved out rfl rfl trivial
      · split_ifs
        · exact turn.moved out rfl rfl trivial
        · exact turn.moved out rfl rfl trivial
  | returning result =>
      simp only [at_pc, Option.some.injEq] at h
      refine quiet (by simp only [evicts, at_pc]) ?_
      subst h
      exact turn.moved (by rw [at_pc]; rintro ⟨_, _, ⟨⟩⟩) rfl rfl trivial

theorem turn_step (some_entry : 0 < root.size) (exclusive : CasLock.Exclusive (lockOf s))
    (turn : Turn root start s evicted) {e : Event κ} (ok : Unfailing s e) (fixed : Fixed root s e)
    (known : InListing root s e) (h : step s e = some t) :
    Turn root start t (evicted ++ (evicts s e).toList) := by
  cases e with
  | client c env => exact turn_clientStep some_entry exclusive turn ok fixed known h
  | start c v =>
      obtain ⟨idle, rfl⟩ : s.client c = .idle ∧ setPc s c (.getLock v) = t := by
        simpa [step] using h
      rw [evicts, Option.toList_none, List.append_nil]
      exact turn.moved (by rw [idle]; rintro ⟨_, _, ⟨⟩⟩) rfl rfl trivial
  | expire =>
      cases h
      rw [evicts, Option.toList_none, List.append_nil]
      exact ⟨turn.order, turn.due, turn.record⟩

theorem turn_initial (some_entry : 0 < root.size) (initial : Initial s) (there : s.evictRecord = some record) :
    Turn root (turnOf root.size (atoi record)) s [] where
  order := rfl
  due c := by
    rw [initial.client]
    trivial
  record _ := by
    refine ⟨record, there, ?_⟩
    have low : turnOf root.size (atoi record) < root.size := by
      unfold turnOf
      split <;> omega
    rw [List.length_nil, Nat.add_zero, Nat.mod_eq_of_lt low]

theorem reachable_of_from {ok : State κ → Event κ → Prop} (h : (systemFrom κ record).Reachable ok s) :
    (system κ).Reachable ok s := by
  induction h with
  | initial start => exact .initial start.1
  | next _ guard does ih => exact .next ih guard does

def Successful (root : Root) (s : State κ) (e : Event κ) : Prop := Unfailing s e ∧ Fixed root s e

instance (root : Root) (s : State κ) (e : Event κ) : Decidable (Successful root s e) :=
  inferInstanceAs (Decidable (_ ∧ _))

/-- The calls of any clients evict the entries in turn, from the recorded one on, as long as
`evict_metadata_explicit` only comes upon indices of entries. -/
theorem eviction_rotates (some_entry : root.evictable ≠ []) {x : State κ × List (Option Int)}
    (h : ((systemFrom κ record).recording evicts).Reachable
      (fun x e => Successful root x.1 e ∧ InListing root x.1 e) x) :
    Rotates root.size (turnOf root.size (atoi record)) x.2 := by
  have positive : 0 < root.size := List.length_pos_iff.mpr some_entry
  have turns : (systemFrom κ record).Reachable (fun s e => Successful root s e ∧ InListing root s e) x.1 ∧
      Turn root (turnOf root.size (atoi record)) x.1 x.2 := by
    apply System.Reachable.recorded ?_ ?_ h
    · rintro s ⟨initial, there⟩
      exact turn_initial positive initial there
    · intro s evicted e t reach turn ok does
      have unfailing : (system κ).Reachable Unfailing s := (reachable_of_from reach).mono fun _ _ _ both => both.1.1
      exact turn_step positive (lock_invariant unfailing).1 turn ok.1.1 ok.1.2 ok.2 does
  exact rotates_of_order turns.2.order

end

def twoEntries : Root := ⟨[.dot, .file, .dot, .dir], by decide⟩

def call (v : Variant) (scans : Nat) : List (Event Bool) :=
  .start true v :: List.replicate (scans + 7) (.client true (listing twoEntries))

def atSecond : State Bool := { quiet with evictRecord := some ['1'] }

theorem eviction_rotates_twice : ∃ x : State Bool × List (Option Int),
    x.2 = [some 1, some 0] ∧ Rotates twoEntries.size (turnOf twoEntries.size (atoi ['1'])) x.2 := by
  obtain ⟨x, reach, found⟩ := System.exists_reachable ((systemFrom Bool ['1']).recording evicts)
    (fun x e => Successful twoEntries x.1 e ∧ InListing twoEntries x.1 e) (s := (atSecond, []))
    ⟨⟨⟨rfl, fun _ => rfl, rfl⟩, rfl⟩, rfl⟩ (call .explicit 1 ++ call .new 2) (fun x => x.2 = [some 1, some 0]) (by decide)
  exact ⟨x, of_decide_eq_true found, eviction_rotates (by decide) reach⟩

theorem eviction_stuck : ∃ x : State Bool × List (Option Int),
    ((systemFrom Bool ['1']).recording evicts).Reachable (fun x e => Successful twoEntries x.1 e) x ∧
      x.2 = [some 1, none, none] ∧ ¬Rotates twoEntries.size (turnOf twoEntries.size (atoi ['1'])) x.2 := by
  obtain ⟨x, reach, found⟩ := System.exists_reachable ((systemFrom Bool ['1']).recording evicts)
    (fun x e => Successful twoEntries x.1 e) (s := (atSecond, [])) ⟨⟨⟨rfl, fun _ => rfl, rfl⟩, rfl⟩, rfl⟩
    (call .explicit 1 ++ call .explicit 0 ++ call .explicit 0) (fun x => x.2 = [some 1, none, none]) (by decide)
  refine ⟨x, reach, of_decide_eq_true found, fun rotates => ?_⟩
  have order := rotates.order
  rw [of_decide_eq_true found] at order
  revert order
  decide

end Pacon.EvictLock
