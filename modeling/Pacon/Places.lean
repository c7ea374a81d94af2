import Pacon.Modes

/-!
# The mode of a place

`check_permission` returns one number for a special location, which is its index, and for none of
them, which is 0; the creating calls take the mode at that index.
-/

set_option linter.unusedSectionVars false

namespace Pacon.Places
open Lib Commit Calls Permission Modes

def kindOf : Make → Kind
  | .mkdir => .dir
  | .create | .createWrite _ => .file

def placeOf (info : PermissionInfo) (path : CString) : Option Special :=
  info.specials.reverse.find? fun x => x.path = dirname path

def placeMode (info : PermissionInfo) (kind : Kind) (path : CString) : BitVec 32 :=
  match placeOf info path with
  | some x => x.mode (kind = .dir)
  | none => info.normal (kind = .dir)

def OfPlace (info : PermissionInfo) (kind : Kind) (path : CString) (mode : BitVec 32) : Prop :=
  mode = placeMode info kind path ∧ mode ≠ unset

/-- The parent is a special location with a mode for what is created, or the first special location
happens to have the normal mode. -/
def Indexed (info : PermissionInfo) (kind : Kind) (path : CString) : Prop :=
  match placeOf info path with
  | some x => x.mode (kind = .dir) ≠ unset
  | none => ∃ first ∈ info.specials.head?, first.mode (kind = .dir) = info.normal (kind = .dir) ∧
      info.normal (kind = .dir) ≠ unset

theorem checkSpecials_step {dir : Bool} {returned : Nat → Int} {path : CString} {opt : Opt} {i : Nat}
    {x : Special} {xs : List Special} {norOrSp ret : Int} (nonneg : 0 ≤ ret)
    (run : checkSpecials dir returned path opt i (x :: xs) norOrSp = some ret) :
    checkSpecials dir returned path opt (i + 1) xs (if x.path = path then i else norOrSp) = some ret := by
  rw [checkSpecials] at run
  by_cases covers : 0 < childCmpNew path x.path
  · rw [if_pos covers] at run
    obtain ⟨answer, -, rest⟩ := Option.bind_eq_some_iff.mp run
    split at rest
    · cases rest
      cases nonneg
    · simpa only [childCmpNew_eq_two] using rest
  · have other : x.path ≠ path := by
      intro same
      rw [childCmpNew_eq_two.mpr same] at covers
      exact covers (by decide)
    rw [if_neg covers] at run
    rwa [if_neg other]

theorem checkSpecials_place {dir : Bool} {returned : Nat → Int} {path : CString} {opt : Opt} {i : Nat}
    {xs : List Special} {norOrSp ret : Int} (start : 0 ≤ norOrSp) (nonneg : 0 ≤ ret)
    (run : checkSpecials dir returned path opt i xs norOrSp = some ret) :
    match xs.reverse.find? fun x => x.path = path with
    | some x => ∃ k : Nat, xs[k]? = some x ∧ ret = ↑(i + k)
    | none => ret = norOrSp := by
  induction xs generalizing i norOrSp with
  | nil =>
      cases run
      show (if 0 < norOrSp then norOrSp else 0) = norOrSp
      split <;> omega
  | cons x xs ih =>
      have start' : 0 ≤ if x.path = path then (i : Int) else norOrSp := by split <;> omega
      have rest := ih start' (checkSpecials_step nonneg run)
      rw [List.reverse_cons, List.find?_append]
      cases later : xs.reverse.find? fun x => x.path = path with
      | some y =>
          rw [later] at rest
          obtain ⟨k, there, index⟩ := rest
          have place : i + (k + 1) = i + 1 + k := by omega
          exact ⟨k + 1, there, by rw [index, place]⟩
      | none =>
          rw [later] at rest
          by_cases same : x.path = path
          · rw [if_pos same] at rest
            simp only [Option.none_or, List.find?_cons, same, decide_true]
            exact ⟨0, rfl, rest⟩
          · rw [if_neg same] at rest
            simpa only [Option.none_or, List.find?_cons, List.find?_nil, same, decide_false] using rest

section
variable {info : PermissionInfo} {junk : Junk} {kind : Kind} {path : CString}

theorem makes_permissionOpt (kind : Kind) : (permissionOpt kind).makes = true := by
  cases kind <;> rfl

theorem permissionResult_place (allowed : 0 ≤ permissionResult info junk path (permissionOpt kind)) :
    match placeOf info path with
    | some x => ∃ k : Nat, info.specials[k]? = some x ∧ permissionResult info junk path (permissionOpt kind) = ↑k
    | none => permissionResult info junk path (permissionOpt kind) = 0 := by
  unfold permissionResult at allowed ⊢
  cases run : checkPermission info junk path (permissionOpt kind) with
  | none =>
      rw [run] at allowed
      cases allowed
  | some ret =>
      rw [run, Option.getD_some] at allowed
      obtain ⟨copy, copied, rest⟩ := Option.bind_eq_some_iff.mp run
      obtain ⟨-, is⟩ := Option.ite_none_right_eq_some.mp copied
      obtain ⟨answer, -, specials⟩ := Option.bind_eq_some_iff.mp rest
      have parent : dirname path = copy := (if_pos (makes_permissionOpt kind)).symm.trans (Option.some.inj is)
      split at specials
      · cases specials
        cases allowed
      · have place := checkSpecials_place (le_refl 0) allowed specials
        rw [placeOf, parent]
        simpa only [Nat.zero_add, Option.getD_some] using place

theorem chosenMode_place (allowed : 0 ≤ permissionResult info junk path (permissionOpt kind)) :
    chosenMode (some info) junk kind path =
      match placeOf info path with
      | some x => x.mode (kind = .dir)
      | none => spMode info kind 0 := by
  have place := permissionResult_place allowed
  unfold chosenMode
  cases found : placeOf info path with
  | some x =>
      rw [found] at place
      obtain ⟨k, there, index⟩ := place
      simp only [index, Int.toNat_natCast, spMode, there]
  | none =>
      rw [found] at place
      have index : permissionResult info junk path (permissionOpt kind) = 0 := place
      simp only [index, Int.toNat_zero]

theorem ofPlace_chosen_iff (allowed : 0 ≤ permissionResult info junk path (permissionOpt kind)) :
    OfPlace info kind path (chosenMode (some info) junk kind path) ↔ Indexed info kind path := by
  rw [chosenMode_place allowed]
  unfold OfPlace placeMode Indexed
  cases placeOf info path with
  | some x => exact and_iff_right rfl
  | none =>
      dsimp only
      cases list : info.specials with
      | nil =>
          have noMode : spMode info kind 0 = unset := by rw [spMode, list]; rfl
          simp [noMode]
      | cons first others =>
          have entry : spMode info kind 0 = first.mode (kind = .dir) := by rw [spMode, list]; rfl
          rw [entry, List.head?_cons]
          constructor
          · rintro ⟨same, set⟩
            exact ⟨first, rfl, same, same ▸ set⟩
          · rintro ⟨_, is, same, set⟩
            cases is
            exact ⟨same, same ▸ set⟩

end

section
variable {ι κ : Type} [DecidableEq ι] [DecidableEq κ] {cfg : Config ι κ}
variable {s t : State ι κ} {c : κ} {w : World} {m : Make} {p : Path} {ret : Int}
variable {info : PermissionInfo} {junk : Junk}

theorem permission_eq (m : Make) : Make.permission m = permissionOpt (kindOf m) := by
  cases m <;> rfl

theorem mode_newValue (env : Env) (m : Make) : (newValue env m).stat.mode = env.stat.mode := by
  cases m <;> rfl

theorem stored_allowed (run : create cfg s c w p m = some (ret, t)) (stored : StoredNew (s.cache p) (t.cache p) w m) :
    w.permitted (permissionOpt (kindOf m)) = true := by
  by_contra denied
  have check : checked cfg s c w m p = some (-1, s) := by
    rw [checked, permission_eq, if_neg denied]
  rw [create_refused check (by decide)] at run
  cases run
  exact stored.1 rfl

/-- What a creating call stores has the mode of its place exactly under the condition. -/
theorem place_mode_iff (run : create cfg s c (caller w (some info) junk (kindOf m) (text p)) p m = some (ret, t))
    (stored : StoredNew (s.cache p) (t.cache p) (caller w (some info) junk (kindOf m) (text p)) m) :
    (∃ e, t.cache p = some e ∧ OfPlace info (kindOf m) (text p) e.value.stat.mode) ↔
      Indexed info (kindOf m) (text p) := by
  have allowed := of_decide_eq_true (stored_allowed run stored)
  obtain ⟨-, e, there, value, -⟩ := stored
  have mode : e.value.stat.mode = chosenMode (some info) junk (kindOf m) (text p) := by
    rw [value, mode_newValue]
    rfl
  rw [← ofPlace_chosen_iff allowed, ← mode]
  constructor
  · rintro ⟨e', there', right⟩
    cases there.symm.trans there'
    exact right
  · intro right
    exact ⟨e, there, right⟩

end

def workspaceEntry : PermissionInfo := ⟨755, 644, [⟨text [['w']], 777, 666⟩]⟩

def normalOnly : PermissionInfo := ⟨755, 644, []⟩

theorem place_mode_iff_create : ∃ t : State Unit Unit,
    create fileWorkspace emptyWorkspace () (caller exampleWorld (some workspaceEntry) exampleJunk .file
      (text exampleFile)) exampleFile .create = some (0, t) ∧
    ∃ e, t.cache exampleFile = some e ∧ OfPlace workspaceEntry .file (text exampleFile) e.value.stat.mode := by
  refine ⟨_, rfl, ?_⟩
  have run : create fileWorkspace emptyWorkspace () (caller exampleWorld (some workspaceEntry) exampleJunk
    (kindOf .create) (text exampleFile)) exampleFile .create = some (0, _) := rfl
  refine (place_mode_iff run ⟨by decide, _, rfl, rfl, by decide⟩).mpr ?_
  show (666 : BitVec 32) ≠ unset
  decide

theorem place_mode_fails : ∃ t : State Unit Unit,
    create fileWorkspace emptyWorkspace () (caller exampleWorld (some normalOnly) exampleJunk .dir (text exampleFile))
      exampleFile .mkdir = some (0, t) ∧
    ∃ e, t.cache exampleFile = some e ∧ e.value.stat.mode = unset ∧
      ¬ OfPlace normalOnly .dir (text exampleFile) e.value.stat.mode := by
  refine ⟨_, rfl, _, rfl, by decide, ?_⟩
  intro right
  exact right.2 (by decide)

end Pacon.Places
