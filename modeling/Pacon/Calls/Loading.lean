import Pacon.Calls.Model

set_option linter.unusedSectionVars false

namespace Pacon.Calls
open Lib Function Commit

variable {ι κ : Type} [DecidableEq ι] [DecidableEq κ] {cfg : Config ι κ}

structure Loaded (w : World) (p : Path) (s t : State ι κ) : Prop where
  dfs : t.dfs = s.dfs
  out : t.out = s.out
  clock : s.clock ≤ t.clock
  entry : t.cache p = s.cache p ∨
    s.cache p = none ∧ ∃ e node, t.cache p = some e ∧ e.value = loadedValue w.env node

variable {s t u : State ι κ} {c : κ} {w : World} {m : Make} {p q : Path} {ret : Int} {e : Entry}

theorem Loaded.refl (s : State ι κ) : Loaded w p s s := ⟨rfl, rfl, le_rfl, .inl rfl⟩

theorem Loaded.trans (h : Loaded w p s t) (g : Loaded w p t u) : Loaded w p s u where
  dfs := g.dfs.trans h.dfs
  out := g.out.trans h.out
  clock := h.clock.trans g.clock
  entry := by
    rcases g.entry with same | ⟨missing, new⟩
    · rw [same]
      exact h.entry
    · rcases h.entry with same | ⟨-, e, node, there, -⟩
      · exact .inr ⟨same.symm.trans missing, new⟩
      · rw [missing] at there
        cases there

theorem dmkvAdd_some {v : Value} (added : dmkvAdd s p v = some t) :
    s.cache p = none ∧ p ≠ [] ∧ t = store s p v := by
  unfold dmkvAdd at added
  split at added
  · cases added
  · rename_i free
    cases added
    rw [not_or, Option.not_isSome_iff_eq_none] at free
    exact ⟨free.2, free.1, rfl⟩

theorem Loaded.add (s : State ι κ) (q : Path) (node : Node) :
    Loaded w p s ((dmkvAdd s q (loadedValue w.env node)).getD s) := by
  cases added : dmkvAdd s q (loadedValue w.env node) with
  | none => exact .refl s
  | some t =>
      obtain ⟨missing, -, rfl⟩ := dmkvAdd_some added
      refine ⟨rfl, rfl, Nat.le_succ _, ?_⟩
      by_cases here : p = q
      · subst here
        exact .inr ⟨missing, _, node, by rw [Option.getD_some, store_cache, update_self], rfl⟩
      · exact .inl (by rw [Option.getD_some, store_cache, update_of_ne here])

theorem loadToPacon_loaded (s : State ι κ) (w : World) (q : Path) :
    Loaded w p s (loadToPacon cfg s w q).2 := by
  unfold loadToPacon
  split
  · split
    · exact .refl s
    · exact .add s q _
  · exact .refl s

theorem getOrLoad_loaded (s : State ι κ) (w : World) (q : Path) : Loaded w p s (getOrLoad cfg s w q).2 := by
  unfold getOrLoad
  split
  · exact .refl s
  · exact loadToPacon_loaded s w q

theorem loadToPacon_cache (s : State ι κ) (w : World) (other : p ≠ q) :
    (loadToPacon cfg s w q).2.cache p = s.cache p := by
  unfold loadToPacon
  split
  · split
    · rfl
    · rename_i node _
      dsimp only
      cases added : dmkvAdd s q (loadedValue w.env node) with
      | none => rfl
      | some t =>
          obtain ⟨-, -, rfl⟩ := dmkvAdd_some added
          rw [Option.getD_some, store_cache, update_of_ne other]
  · rfl

theorem getOrLoad_cache (s : State ι κ) (w : World) (other : p ≠ q) :
    (getOrLoad cfg s w q).2.cache p = s.cache p := by
  unfold getOrLoad
  split
  · rfl
  · exact loadToPacon_cache s w other

theorem loadChildren_loaded (s : State ι κ) (w : World) (q : Path) (names : List CString) :
    Loaded w p s (loadChildren cfg w q s names).2 := by
  induction names generalizing s with
  | nil => exact .refl s
  | cons name names ih =>
      unfold loadChildren
      split
      · exact .refl s
      · have first : Loaded w p s (loadToPacon cfg s w (name :: q)).2 := loadToPacon_loaded s w _
        split
        · rename_i t load
          rw [load] at first
          exact first.trans (ih t)
        · rename_i load
          rw [load] at first
          exact first

theorem Loaded.store (s : State ι κ) (v : Value) (other : p ≠ q) : Loaded w p s (store s q v) :=
  ⟨rfl, rfl, Nat.le_succ _, .inl (by rw [store_cache, update_of_ne other])⟩

theorem Loaded.table (s : State ι κ) (c : κ) (q : Path) : Loaded w p s (addToDirCheckTable s c q) :=
  ⟨rfl, rfl, le_rfl, .inl rfl⟩

theorem checked_iff (s : State ι κ) (c c' : κ) (q q' : Path) :
    (addToDirCheckTable s c q).table c' q' = true ↔ s.table c' q' = true ∨ c' = c ∧ q' = q := by
  unfold addToDirCheckTable
  dsimp only
  by_cases same : c' = c
  · subst same
    by_cases here : q' = q
    · simp [here]
    · simp [here]
  · simp [same]

theorem mem_addToMq {s : State ι κ} {c c' : κ} {msg m : Msg} (member : m ∈ (addToMq s c msg).2.out c') :
    m ∈ s.out c' ∨ m = msg := by
  unfold addToMq at member
  split at member
  · exact .inl member
  · by_cases same : c' = c
    · subst same
      simpa using member
    · exact .inl (by simpa [same] using member)

inductive EntryCheck (cfg : Config ι κ) (s : State ι κ) (c : κ) (w : World) (q : Path) (e : Entry) :
    Int → State ι κ → Prop
  | file : EntryCheck cfg s c w q e (-1) s
  | failed {r : Int} {u : State ι κ} (load : loadChildren cfg w q s w.entries = (r, u)) :
      EntryCheck cfg s c w q e (-1) u
  | loaded {u : State ι κ} (load : loadChildren cfg w q s w.entries = (0, u)) :
      EntryCheck cfg s c w q e 0 (addToDirCheckTable (Commit.store u q (flagged e.value .childCheck)) c q)
  | known : EntryCheck cfg s c w q e 0 (addToDirCheckTable s c q)

theorem entryCheck_of_run (check : checkParentEntry cfg s c w q e = some (ret, t)) : EntryCheck cfg s c w q e ret t := by
  unfold checkParentEntry at check
  split at check
  · cases check
    exact .file
  split at check
  swap
  · cases check
    exact .known
  split at check
  swap
  · cases check
  split at check
  · rename_i load
    split at check
    · cases check
      exact .loaded load
    all_goals
      cases check
      exact .failed load
  · rename_i load
    cases check
    exact .failed load

inductive ParentCheck (cfg : Config ι κ) (s : State ι κ) (c : κ) (w : World) (p : Path) : Int → State ι κ → Prop
  | root (none : p = []) : ParentCheck cfg s c w p 0 s
  | long : ParentCheck cfg s c w p (-1) s
  | checked (checked : s.table c p.tail = true) : ParentCheck cfg s c w p 0 s
  | missing {r : Int} {u : State ι κ} (load : getOrLoad cfg s w p.tail = (r, u)) : ParentCheck cfg s c w p (-1) u
  | entry {u t : State ι κ} {e : Entry} {ret : Int} (notRoot : p ≠ []) (load : getOrLoad cfg s w p.tail = (0, u))
      (there : u.cache p.tail = some e) (check : EntryCheck cfg u c w p.tail e ret t) :
      ParentCheck cfg s c w p ret t

theorem parentCheck_of_run (check : checkParentDir cfg s c w p = some (ret, t)) : ParentCheck cfg s c w p ret t := by
  unfold checkParentDir at check
  split at check
  · rename_i root
    cases check
    exact .root root
  rename_i notRoot
  split at check
  · cases check
    exact .long
  split at check
  · rename_i checked
    cases check
    exact .checked checked
  split at check
  · rename_i load
    split at check
    · cases check
    · rename_i there
      exact .entry notRoot load there (entryCheck_of_run check)
  · rename_i load
    cases check
    exact .missing load

theorem EntryCheck.loaded_of_ne (check : EntryCheck cfg s c w q e ret t) (other : p ≠ q) : Loaded w p s t := by
  have children : Loaded w p s (loadChildren cfg w q s w.entries).2 := loadChildren_loaded s w q _
  cases check with
  | file => exact .refl s
  | failed load =>
      rw [load] at children
      exact children
  | loaded load =>
      rw [load] at children
      exact children.trans ((Loaded.store _ _ other).trans (.table _ c q))
  | known => exact .table s c q

theorem checkParentDir_loaded (check : checkParentDir cfg s c w p = some (ret, t)) : Loaded w p s t := by
  have parent : Loaded w p s (getOrLoad cfg s w p.tail).2 := getOrLoad_loaded s w _
  cases parentCheck_of_run check with
  | root | long | checked => exact .refl s
  | missing load =>
      rw [load] at parent
      exact parent
  | entry notRoot load there check =>
      rw [load] at parent
      have other : p ≠ p.tail := by
        cases p with
        | nil => exact absurd rfl notRoot
        | cons name q => exact fun same => by simpa using congrArg List.length same
      exact parent.trans (check.loaded_of_ne other)

theorem checked_loaded (check : checked cfg s c w m p = some (ret, t)) : Loaded w p s t := by
  unfold checked at check
  split at check
  · exact checkParentDir_loaded check
  · cases check
    exact .refl s

theorem getOrLoad_cached (there : s.cache p = some e) (w : World) : getOrLoad cfg s w p = (0, s) := by
  simp [getOrLoad, there]

theorem loadToPacon_missing {q : Path} (missing : inWorkspace cfg q = true → s.dfs q = none) (w : World) :
    loadToPacon cfg s w q = (-1, s) := by
  unfold loadToPacon
  split
  · rename_i inside
    rw [missing inside]
  · rfl

theorem loadToPacon_found {q : Path} {node : Node} (inside : inWorkspace cfg q = true)
    (there : s.dfs q = some node) (w : World) :
    loadToPacon cfg s w q = (0, (dmkvAdd s q (loadedValue w.env node)).getD s) := by
  simp [loadToPacon, inside, there]

end Pacon.Calls
