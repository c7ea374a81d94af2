import Pacon.Lib.Buffer
import Pacon.PathOrder

/-!
# The root of the workspace

`set_root_path` copies the root into `mount_path`, and `load_to_pacon` later compares with the string that
it finds there. The terminator behind the copy is compared, not assigned.
-/

namespace Pacon.RootPath
open Lib

def mountPathMax : Nat := 128

structure Memory where
  mountPath : List Char
  size : mountPath.length = mountPathMax
  behind : List Char

def Memory.write (m : Memory) (i : Nat) (c : Char) : Option Memory :=
  if i < mountPathMax then some { m with mountPath := m.mountPath.set i c, size := by rw [List.length_set, m.size] }
  else none

/-- The string in `mount_path`. Nothing but its terminator ends it. -/
def Memory.root (m : Memory) : Option CString := cstring (m.mountPath ++ m.behind)

def copyRoot : Nat → CString → Memory → Option Memory
  | _, [], m => some m
  | i, c :: rPath, m => do
      let m ← m.write i c
      copyRoot (i + 1) rPath m

def setRootPath (m : Memory) (rPath : CString) : Option (Int × Memory) :=
  if rPath.length ≥ mountPathMax - 1 then some (-1, m)
  else do
    let m ← copyRoot 0 rPath m
    -- mount_path[i] == '\\0' has no effect
    some (0, m)

def loadVerdict (onDfs : CString → Bool) (mountPath path : CString) : Int :=
  if childCmpNew path mountPath = 0 then -1 else if onDfs path then 0 else -1

def loadToPacon (onDfs : CString → Bool) (m : Memory) (path : CString) : Option Int :=
  m.root.map fun mountPath => loadVerdict onDfs mountPath path

/-- In both runs every path is judged by the root that was set. -/
def JudgedByRoot (root : CString) (m m' : Memory) : Prop :=
  ∃ t t', setRootPath m root = some (0, t) ∧ setRootPath m' root = some (0, t') ∧ ∀ onDfs path,
    loadToPacon onDfs t path = loadToPacon onDfs t' path ∧
      loadToPacon onDfs t path = some (loadVerdict onDfs root path)

variable {m m' t : Memory} {root path : CString}

theorem copyRoot_eq {i : Nat} (fits : i + root.length < mountPathMax) (m : Memory) :
    ∃ t, copyRoot i root m = some t ∧ t.behind = m.behind ∧
      t.mountPath = m.mountPath.take i ++ root ++ m.mountPath.drop (i + root.length) := by
  induction root generalizing i m with
  | nil => exact ⟨m, rfl, rfl, by simp⟩
  | cons c root ih =>
      rw [List.length_cons] at fits
      have inside : i < m.mountPath.length := by
        rw [m.size]
        omega
      have rest : i + 1 + root.length < mountPathMax := by omega
      have same : (m.mountPath.set i c).length = mountPathMax := by rw [List.length_set, m.size]
      obtain ⟨u, written, behind, holds⟩ := ih rest ⟨m.mountPath.set i c, same, m.behind⟩
      refine ⟨u, ?_, behind, ?_⟩
      · rw [copyRoot, Memory.write, if_pos (m.size ▸ inside)]
        exact written
      · have upTo : (m.mountPath.set i c).take (i + 1) = m.mountPath.take i ++ [c] := by
          rw [List.take_add_one, List.take_set_of_le le_rfl, List.getElem?_set_self inside]
          rfl
        have after : (m.mountPath.set i c).drop (i + 1 + root.length) = m.mountPath.drop (i + (root.length + 1)) := by
          rw [List.drop_set_of_lt (by omega), Nat.add_assoc, Nat.add_comm 1]
        rw [holds, upTo, after, List.length_cons, List.append_assoc (m.mountPath.take i)]
        rfl

theorem setRootPath_eq (short : root.length < mountPathMax - 1) (m : Memory) :
    ∃ t, setRootPath m root = some (0, t) ∧ t.behind = m.behind ∧
      t.mountPath = root ++ m.mountPath.drop root.length := by
  have fits : 0 + root.length < mountPathMax := by
    have : mountPathMax = 128 := rfl
    omega
  obtain ⟨t, copied, behind, holds⟩ := copyRoot_eq fits m
  rw [List.take_zero, List.nil_append, Nat.zero_add] at holds
  refine ⟨t, ?_, behind, holds⟩
  rw [setRootPath, if_neg (Nat.not_le.mpr short), copied]
  rfl

theorem root_of_set (clear : nul ∉ root) (short : root.length < mountPathMax - 1)
    (holds : t.mountPath = root ++ m.mountPath.drop root.length) :
    t.root = some root ↔ m.mountPath[root.length]? = some nul := by
  have inside : root.length < m.mountPath.length := by
    rw [m.size]
    omega
  rw [Memory.root, holds, List.drop_eq_getElem_cons inside, List.getElem?_eq_getElem inside]
  constructor
  · intro is
    obtain ⟨rest, begins⟩ := (front_of_cstring is).1
    simp only [List.append_assoc, List.cons_append, List.nil_append] at begins
    exact congrArg some (List.cons.inj (List.append_cancel_left begins)).1.symm
  · intro ends
    rw [Option.some.inj ends]
    apply cstring_front clear
    exact ⟨m.mountPath.drop (root.length + 1) ++ t.behind, by simp⟩

theorem judged_iff (clear : nul ∉ root) (holds : t.mountPath = root ++ m.mountPath.drop root.length) :
    (∀ onDfs path, loadToPacon onDfs t path = some (loadVerdict onDfs root path)) ↔ t.root = some root := by
  unfold loadToPacon
  constructor
  · intro judged
    obtain ⟨mountPath, is, verdict⟩ := Option.map_eq_some_iff.mp (judged (fun _ => true) root)
    have accepts : childCmpNew root mountPath ≠ 0 := by
      intro outside
      rw [loadVerdict, if_pos outside, loadVerdict, if_neg (childCmpNew_refl root)] at verdict
      cases verdict
    obtain ⟨ends, clear'⟩ := front_of_cstring is
    have begins : root <+: t.mountPath ++ t.behind := by
      rw [holds, List.append_assoc]
      exact List.prefix_append _ _
    have upTo : mountPath <+: root :=
      List.prefix_of_prefix_length_le ((List.prefix_append _ _).trans ends) begins (length_of_childCmpNew accepts)
    have whole : ¬mountPath.length < root.length := by
      intro shorter
      have terminator : mountPath ++ [nul] <+: root := by
        apply List.prefix_of_prefix_length_le ends begins
        rw [List.length_append]
        exact shorter
      exact clear (terminator.mem (List.mem_append_right _ List.mem_cons_self))
    rw [is, upTo.eq_of_length (Nat.le_antisymm upTo.length_le (Nat.not_lt.mp whole))]
  · intro is onDfs path
    rw [is]
    rfl

/-- Nothing of the old buffer shows exactly if it has happened to hold a terminator behind the place of the root,
in both runs. -/
theorem set_root_path_judges_iff (clear : nul ∉ root) (short : root.length < mountPathMax - 1) (m m' : Memory) :
    JudgedByRoot root m m' ↔ m.mountPath[root.length]? = some nul ∧ m'.mountPath[root.length]? = some nul := by
  obtain ⟨t, set, -, holds⟩ := setRootPath_eq short m
  obtain ⟨t', set', -, holds'⟩ := setRootPath_eq short m'
  rw [← root_of_set clear short holds, ← root_of_set clear short holds', ← judged_iff clear holds,
    ← judged_iff clear holds']
  constructor
  · rintro ⟨u, u', same, same', judged⟩
    cases set.symm.trans same
    cases set'.symm.trans same'
    constructor
    · intro onDfs path
      exact (judged onDfs path).2
    · intro onDfs path
      rw [← (judged onDfs path).1, (judged onDfs path).2]
  · rintro ⟨first, second⟩
    refine ⟨t, t', set, set', fun onDfs path => ⟨?_, first onDfs path⟩⟩
    rw [first, second]

def filled (c : Char) : Memory := ⟨List.replicate mountPathMax c, List.length_replicate, [nul]⟩

def reused : Memory := ⟨['/', 'v', nul] ++ List.replicate (mountPathMax - 3) 'x', by simp [mountPathMax], [nul]⟩

theorem set_root_path_judges_reused : JudgedByRoot ['/', 'w'] (filled nul) reused :=
  (set_root_path_judges_iff (by decide) (by decide) _ _).mpr ⟨rfl, rfl⟩

theorem set_root_path_leaks : ∃ old t u, setRootPath (filled nul) ['/', 'a', '/', 'b'] = some (0, old) ∧
    setRootPath old ['/', 'a'] = some (0, t) ∧ setRootPath (filled nul) ['/', 'a'] = some (0, u) ∧
    loadToPacon (fun _ => true) t ['/', 'a'] = some (-1) ∧ loadToPacon (fun _ => true) u ['/', 'a'] = some 0 := by
  have fits : ['/', 'a', '/', 'b'].length < mountPathMax - 1 := by decide
  have fits' : ['/', 'a'].length < mountPathMax - 1 := by decide
  obtain ⟨old, setOld, -, holdsOld⟩ := setRootPath_eq fits (filled nul)
  obtain ⟨t, set, -, holds⟩ := setRootPath_eq fits' old
  obtain ⟨u, set', -, holds'⟩ := setRootPath_eq fits' (filled nul)
  refine ⟨old, t, u, setOld, set, set', ?_, ?_⟩
  · have longer : t.root = some ['/', 'a', '/', 'b'] := by
      rw [Memory.root, holds, holdsOld]
      exact cstring_front (by decide) ⟨List.replicate 123 nul ++ t.behind, rfl⟩
    rw [loadToPacon, longer]
    decide
  · rw [(judged_iff (by decide) holds').mpr ((root_of_set (by decide) (by decide) holds').mpr rfl)]
    decide

end Pacon.RootPath
