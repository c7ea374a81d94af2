import Pacon.Calls.Loading

/-!
# The parent check, from the state before the call

A creating call goes on behind `check_parent_dir` only if its parent is known or its record can be had and
is a directory's. A directory whose children have not been loaded is read first, and each name that
`readdir` gives is loaded, up to the first that cannot be.
-/

set_option linter.unusedSectionVars false

namespace Pacon.Calls
open Lib Function Commit

variable {ι κ : Type} [DecidableEq ι] [DecidableEq κ] (cfg : Config ι κ)

def loads (s : State ι κ) (q : Path) (name : CString) : Bool :=
  (text q).length + name.length < Message.pathMax - 1 && inWorkspace cfg (name :: q) && (s.dfs (name :: q)).isSome

def parentRecord (s : State ι κ) (w : World) (q : Path) : Option Value :=
  match s.cache q with
  | some e => some e.value
  | none => if q ≠ [] ∧ inWorkspace cfg q = true then (s.dfs q).map (loadedValue w.env) else none

def Unread (v : Value) : Prop :=
  getStatFlag v.stat .existedinDfs = true ∧ ¬getStatFlag v.stat .childCheck = true

structure Consults (s : State ι κ) (c : κ) (w : World) (m : Make) (p : Path) (v : Value) : Prop where
  permitted : w.permitted (Make.permission m) = true
  notRoot : p ≠ []
  short : (text p).length < Message.pathMax
  unknown : s.table c p.tail = false
  record : parentRecord cfg s w p.tail = some v
  dir : getStatFlag v.stat .type = false

inductive Accepts (s : State ι κ) (c : κ) (w : World) (m : Make) (p : Path) : Prop
  | root (permitted : w.permitted (Make.permission m) = true) (root : p = [])
  | known (permitted : w.permitted (Make.permission m) = true) (short : (text p).length < Message.pathMax)
      (known : s.table c p.tail = true)
  | read {v} (consults : Consults cfg s c w m p v) (read : ¬Unread v)
  | unread {v} (consults : Consults cfg s c w m p v) (unread : Unread v) (opens : s.dfs p.tail = some .dir)
      (loads : ∀ name ∈ w.entries, loads cfg s p.tail name = true)

structure LoadsPath (s : State ι κ) (c : κ) (w : World) (m : Make) (p : Path) : Prop where
  missing : s.cache p = none
  consults : ∃ v, Consults cfg s c w m p v ∧ Unread v
  opens : s.dfs p.tail = some .dir
  listed : ∃ name ∈ w.entries.takeWhile (loads cfg s p.tail), p = name :: p.tail

variable {cfg} {s t u : State ι κ} {c : κ} {w : World} {m : Make} {p q : Path} {ret : Int} {e : Entry}

theorem loads_congr (dfs : t.dfs = s.dfs) : loads cfg t = loads cfg s := by
  funext q name
  rw [loads, loads, dfs]

theorem loadToPacon_of_loads {name : CString} (h : loads cfg s q name = true) (w : World) :
    ∃ node, loadToPacon cfg s w (name :: q) = (0, (dmkvAdd s (name :: q) (loadedValue w.env node)).getD s) := by
  simp only [loads, Bool.and_eq_true, Option.isSome_iff_exists] at h
  obtain ⟨⟨-, inside⟩, node, there⟩ := h
  exact ⟨node, loadToPacon_found inside there w⟩

theorem loadChildren_cons (s : State ι κ) (w : World) (q : Path) (name : CString) (names : List CString) :
    loadChildren cfg w q s (name :: names) =
      if loads cfg s q name then loadChildren cfg w q (loadToPacon cfg s w (name :: q)).2 names else (-1, s) := by
  rw [loadChildren]
  by_cases short : (text q).length + name.length ≥ Message.pathMax - 1
  · rw [if_pos short, if_neg]
    simp [loads, Nat.not_lt.mpr short]
  rw [if_neg short]
  by_cases h : loads cfg s q name = true
  · obtain ⟨node, load⟩ := loadToPacon_of_loads h w
    rw [if_pos h, load]
    rfl
  · have fails : loadToPacon cfg s w (name :: q) = (-1, s) := by
      refine loadToPacon_missing (fun inside => ?_) w
      by_contra there
      refine h ?_
      simp [loads, Nat.lt_of_not_ge short, inside, Option.isSome_iff_ne_none, there]
    rw [if_neg h, fails]
    rfl

theorem loadChildren_result (names : List CString) :
    (loadChildren cfg w q s names).1 = 0 ↔ ∀ name ∈ names, loads cfg s q name = true := by
  induction names generalizing s with
  | nil => simp [loadChildren]
  | cons name names ih =>
      rw [loadChildren_cons, List.forall_mem_cons]
      have dfs : (loadToPacon cfg s w (name :: q)).2.dfs = s.dfs := (loadToPacon_loaded (p := q) s w _).dfs
      split
      · rename_i first
        rw [ih, loads_congr dfs, and_iff_right first]
      · rename_i first
        simp [first]

theorem loadChildren_changes {name : CString} (names : List CString) :
    (loadChildren cfg w q s names).2.cache (name :: q) ≠ s.cache (name :: q) ↔
      s.cache (name :: q) = none ∧ name ∈ names.takeWhile (loads cfg s q) := by
  induction names generalizing s with
  | nil => simp [loadChildren]
  | cons other names ih =>
      rw [loadChildren_cons]
      by_cases first : loads cfg s q other = true
      swap
      · simp [first]
      obtain ⟨node, load⟩ := loadToPacon_of_loads first w
      rw [if_pos first, load, List.takeWhile_cons_of_pos first, List.mem_cons]
      dsimp only
      cases added : dmkvAdd s (other :: q) (loadedValue w.env node) with
      | none =>
          rw [Option.getD_none, ih]
          have cached : s.cache (other :: q) ≠ none := by
            intro missing
            simp [dmkvAdd, missing] at added
          constructor
          · exact fun both => ⟨both.1, .inr both.2⟩
          · rintro ⟨missing, rfl | member⟩
            · exact absurd missing cached
            · exact ⟨missing, member⟩
      | some t =>
          obtain ⟨missing, -, rfl⟩ := dmkvAdd_some added
          rw [Option.getD_some]
          have later := ih (s := store s (other :: q) (loadedValue w.env node))
          rw [loads_congr (show (store s (other :: q) (loadedValue w.env node)).dfs = s.dfs from rfl)] at later
          by_cases here : name = other
          · subst here
            have there : (store s (name :: q) (loadedValue w.env node)).cache (name :: q) ≠ none := by
              rw [store_cache, update_self]
              exact Option.some_ne_none _
            have kept := not_iff_not.mpr later
            simp only [there, false_and, not_false_eq_true, iff_true, not_not] at kept
            rw [kept]
            exact iff_of_true (missing ▸ there) ⟨missing, .inl rfl⟩
          · have same : (store s (other :: q) (loadedValue w.env node)).cache (name :: q) = s.cache (name :: q) := by
              rw [store_cache, update_of_ne (by simpa using here)]
            rw [same] at later
            rw [later]
            simp [here]

theorem loadChildren_keeps (s : State ι κ) (w : World) (q : Path) (names : List CString) :
    (loadChildren cfg w q s names).2.cache q = s.cache q := by
  induction names generalizing s with
  | nil => rfl
  | cons name names ih =>
      rw [loadChildren_cons]
      split
      · rw [ih]
        exact loadToPacon_cache s w fun same => by simpa using congrArg List.length same
      · rfl

theorem checkParentEntry_unread (there : s.cache q = some e) (dir : getStatFlag e.value.stat .type = false)
    (unread : Unread e.value) (opens : s.dfs q = some .dir) :
    checkParentEntry cfg s c w q e = some (
      if (loadChildren cfg w q s w.entries).1 = 0 then
        (0, addToDirCheckTable (store (loadChildren cfg w q s w.entries).2 q (flagged e.value .childCheck)) c q)
      else (-1, (loadChildren cfg w q s w.entries).2)) := by
  have kept : (loadChildren cfg w q s w.entries).2.cache q = s.cache q := loadChildren_keeps s w q w.entries
  rw [there] at kept
  unfold checkParentEntry
  rw [dir, if_neg Bool.false_ne_true, if_pos ⟨unread.1, unread.2⟩, if_pos opens]
  generalize loadChildren cfg w q s w.entries = x at kept ⊢
  obtain ⟨r, t⟩ := x
  by_cases zero : r = 0
  · subst zero
    have kept : t.cache q = some e := kept
    simp only [dmkvCas, kept, if_true]
  · simp only [if_neg zero]

theorem checkParentEntry_accepts (there : s.cache q = some e) :
    (∃ t, checkParentEntry cfg s c w q e = some (0, t)) ↔ getStatFlag e.value.stat .type = false ∧
      (Unread e.value → s.dfs q = some .dir ∧ ∀ name ∈ w.entries, loads cfg s q name = true) := by
  cases dir : getStatFlag e.value.stat .type with
  | true => simp [checkParentEntry, dir]
  | false =>
      rw [and_iff_right rfl]
      by_cases unread : Unread e.value
      swap
      · have known : checkParentEntry cfg s c w q e = some (0, addToDirCheckTable s c q) := by
          unfold checkParentEntry
          rw [dir, if_neg Bool.false_ne_true]
          exact if_neg unread
        exact iff_of_true ⟨_, known⟩ fun h => absurd h unread
      rw [forall_prop_of_true unread]
      by_cases opens : s.dfs q = some .dir
      · rw [checkParentEntry_unread there dir unread opens, and_iff_right opens, ← loadChildren_result (w := w)]
        by_cases all : (loadChildren cfg w q s w.entries).1 = 0 <;> simp [all]
      · have none : checkParentEntry cfg s c w q e = Option.none := by
          unfold checkParentEntry
          rw [dir, if_neg Bool.false_ne_true, if_pos ⟨unread.1, unread.2⟩, if_neg opens]
        simp [none, opens]

theorem checkParentEntry_changes {name : CString} (there : s.cache q = some e) :
    (∃ ret t, checkParentEntry cfg s c w q e = some (ret, t) ∧ t.cache (name :: q) ≠ s.cache (name :: q)) ↔
      getStatFlag e.value.stat .type = false ∧ Unread e.value ∧ s.dfs q = some .dir ∧
        s.cache (name :: q) = none ∧ name ∈ w.entries.takeWhile (loads cfg s q) := by
  rw [← loadChildren_changes (w := w)]
  have other : name :: q ≠ q := fun same => by simpa using congrArg List.length same
  constructor
  · rintro ⟨ret, t, run, changed⟩
    have check := run
    unfold checkParentEntry at check
    split at check
    · cases check
      exact absurd rfl changed
    rename_i dir
    split at check
    swap
    · cases check
      exact absurd rfl changed
    rename_i unread
    split at check
    swap
    · cases check
    rename_i opens
    have dir : getStatFlag e.value.stat .type = false := by simpa using dir
    refine ⟨dir, unread, opens, ?_⟩
    have ends := (checkParentEntry_unread there dir unread opens).symm.trans run
    intro same
    refine changed ?_
    split at ends <;> cases ends
    · exact (update_of_ne other ..).trans same
    · exact same
  · rintro ⟨dir, unread, opens, changed⟩
    rw [checkParentEntry_unread there dir unread opens]
    split
    · exact ⟨_, _, rfl, fun same => changed ((update_of_ne other ..).symm.trans same)⟩
    · exact ⟨_, _, rfl, changed⟩

theorem checkParentDir_found {name : CString} {v : Value} (short : (text (name :: q)).length < Message.pathMax)
    (unknown : s.table c q = false) (record : parentRecord cfg s w q = some v) :
    ∃ u e, checkParentDir cfg s c w (name :: q) = checkParentEntry cfg u c w q e ∧ u.cache q = some e ∧
      e.value = v ∧ u.dfs = s.dfs ∧ u.cache (name :: q) = s.cache (name :: q) := by
  have other : name :: q ≠ q := fun same => by simpa using congrArg List.length same
  unfold checkParentDir
  rw [if_neg (List.cons_ne_nil name q), if_neg (Nat.not_le_of_lt short), List.tail_cons, unknown,
    if_neg Bool.false_ne_true]
  cases there : s.cache q with
  | some e =>
      simp only [parentRecord, there, Option.some.injEq] at record
      rw [getOrLoad_cached there]
      exact ⟨s, e, by simp only [there], there, record, rfl, rfl⟩
  | none =>
      simp only [parentRecord, there, Option.ite_none_right_eq_some] at record
      obtain ⟨⟨notRoot, inside⟩, mapped⟩ := record
      obtain ⟨node, onDfs, rfl⟩ := Option.map_eq_some_iff.mp mapped
      have added : dmkvAdd s q (loadedValue w.env node) = some (store s q (loadedValue w.env node)) :=
        if_neg (by simp [notRoot, there])
      have load : getOrLoad cfg s w q = (0, store s q (loadedValue w.env node)) := by
        simp only [getOrLoad, there, loadToPacon_found inside onDfs, added, Option.getD_some]
      rw [load]
      have cached : (store s q (loadedValue w.env node)).cache q = some ⟨s.clock, loadedValue w.env node⟩ :=
        update_self ..
      exact ⟨_, _, by simp only [cached], cached, rfl, rfl, update_of_ne other ..⟩

theorem checkParentDir_unfound {name : CString} (unknown : s.table c q = false)
    (record : parentRecord cfg s w q = none) (check : checkParentDir cfg s c w (name :: q) = some (ret, t)) :
    ret = -1 ∧ t = s := by
  unfold checkParentDir at check
  rw [if_neg (List.cons_ne_nil name q), List.tail_cons, unknown, if_neg Bool.false_ne_true] at check
  split at check
  · cases check
    exact ⟨rfl, rfl⟩
  cases there : s.cache q with
  | some e => simp [parentRecord, there] at record
  | none =>
      simp only [parentRecord, there] at record
      simp only [getOrLoad, there] at check
      unfold loadToPacon at check
      by_cases inside : inWorkspace cfg q = true
      swap
      · rw [if_neg inside] at check
        cases check
        exact ⟨rfl, rfl⟩
      rw [if_pos inside] at check
      cases onDfs : s.dfs q with
      | none =>
          rw [onDfs] at check
          cases check
          exact ⟨rfl, rfl⟩
      | some node =>
          have root : q = [] := by
            by_contra notRoot
            simp [notRoot, inside, onDfs] at record
          have refused : dmkvAdd s q (loadedValue w.env node) = none := if_pos (.inl root)
          simp only [onDfs, refused, Option.getD_none, there] at check
          cases check

theorem accepts_iff : Accepts cfg s c w m p ↔ ∃ t, checked cfg s c w m p = some (0, t) := by
  unfold checked
  by_cases permitted : w.permitted (Make.permission m) = true
  swap
  · rw [if_neg permitted]
    refine iff_of_false (fun accepts => ?_) (by simp)
    cases accepts with
    | root h | known h => exact permitted h
    | read h | unread h => exact permitted h.permitted
  rw [if_pos permitted]
  cases p with
  | nil => exact iff_of_true (.root permitted rfl) ⟨s, if_pos rfl⟩
  | cons name q =>
      by_cases short : (text (name :: q)).length < Message.pathMax
      swap
      · have refused : checkParentDir cfg s c w (name :: q) = some (-1, s) := by
          rw [checkParentDir, if_neg (List.cons_ne_nil name q), if_pos (Nat.le_of_not_lt short)]
        refine iff_of_false (fun accepts => ?_) (by simp [refused])
        cases accepts with
        | root _ root => cases root
        | known _ h => exact short h
        | read h | unread h => exact short h.short
      cases known : s.table c q with
      | true =>
          refine iff_of_true (.known permitted short known) ⟨s, ?_⟩
          rw [checkParentDir, if_neg (List.cons_ne_nil name q), if_neg (Nat.not_le_of_lt short)]
          exact if_pos known
      | false =>
          have consults {v} (record : parentRecord cfg s w q = some v) (dir : getStatFlag v.stat .type = false) :
              Consults cfg s c w m (name :: q) v :=
            ⟨permitted, List.cons_ne_nil name q, short, known, record, dir⟩
          cases record : parentRecord cfg s w q with
          | none =>
              refine iff_of_false (fun accepts => ?_) ?_
              · cases accepts with
                | root _ root => cases root
                | known _ _ h => cases known.symm.trans h
                | read h | unread h => cases record.symm.trans h.record
              · rintro ⟨t, check⟩
                exact absurd (checkParentDir_unfound known record check).1 (by decide)
          | some v =>
              obtain ⟨u, e, goes, there, rfl, dfs, -⟩ := checkParentDir_found short known record
              rw [goes, checkParentEntry_accepts there, dfs, loads_congr dfs]
              constructor
              · intro accepts
                cases accepts with
                | root _ root => cases root
                | known _ _ h => cases known.symm.trans h
                | read h read =>
                    cases record.symm.trans h.record
                    exact ⟨h.dir, fun unread => absurd unread read⟩
                | unread h unread opens loads =>
                    cases record.symm.trans h.record
                    exact ⟨h.dir, fun _ => ⟨opens, loads⟩⟩
              · rintro ⟨dir, rest⟩
                by_cases unread : Unread e.value
                · exact .unread (consults record dir) unread (rest unread).1 (rest unread).2
                · exact .read (consults record dir) unread

theorem loadsPath_iff : LoadsPath cfg s c w m p ↔
    ∃ ret t, checked cfg s c w m p = some (ret, t) ∧ t.cache p ≠ s.cache p := by
  constructor
  · rintro ⟨missing, ⟨v, consults, unread⟩, opens, name, member, path⟩
    obtain ⟨permitted, -, short, unknown, record, dir⟩ := consults
    generalize p.tail = q at *
    subst path
    obtain ⟨u, e, goes, there, rfl, dfs, same⟩ := checkParentDir_found short unknown record
    rw [checked, if_pos permitted, goes, ← same]
    exact (checkParentEntry_changes there).mpr
      ⟨dir, unread, dfs.symm ▸ opens, same.trans missing, loads_congr dfs ▸ member⟩
  · rintro ⟨ret, t, check, changed⟩
    unfold checked at check
    split at check
    swap
    · cases check
      exact absurd rfl changed
    rename_i permitted
    cases p with
    | nil =>
        rw [checkParentDir, if_pos rfl] at check
        cases check
        exact absurd rfl changed
    | cons name q =>
        by_cases short : (text (name :: q)).length < Message.pathMax
        swap
        · rw [checkParentDir, if_neg (List.cons_ne_nil name q), if_pos (Nat.le_of_not_lt short)] at check
          cases check
          exact absurd rfl changed
        cases known : s.table c q with
        | true =>
            rw [checkParentDir, if_neg (List.cons_ne_nil name q), if_neg (Nat.not_le_of_lt short), List.tail_cons,
              if_pos known] at check
            cases check
            exact absurd rfl changed
        | false =>
            cases record : parentRecord cfg s w q with
            | none => exact absurd (congrFun (congrArg State.cache (checkParentDir_unfound known record check).2) _) changed
            | some v =>
                obtain ⟨u, e, goes, there, rfl, dfs, same⟩ := checkParentDir_found short known record
                rw [goes] at check
                rw [← same] at changed
                obtain ⟨dir, unread, opens, missing, member⟩ :=
                  (checkParentEntry_changes there).mp ⟨ret, t, check, changed⟩
                exact ⟨same.symm.trans missing,
                  ⟨_, ⟨permitted, List.cons_ne_nil name q, short, known, record, dir⟩, unread⟩,
                  dfs ▸ opens, name, loads_congr dfs ▸ member, rfl⟩

end Pacon.Calls
