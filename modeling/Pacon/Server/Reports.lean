import Pacon.Server.Requests

/-!
# What the reply says

The walks are void functions and `commit_to_fs_barrier` returns the result of the barrier's end. When
the directory or the old name is gone all the same, whatever call on the DFS fails.
-/

set_option linter.unusedSectionVars false

namespace Pacon.Server
open Lib Function Commit

variable {ι κ : Type} {d : Disk} {s t : State ι κ} {q p : Path} {es : Listing CString}

inductive Crashes (opendir remove : Path → Bool) : Path → Listing CString → Prop
  | opened {q name sub rest} (fails : opendir (name :: q) = true) : Crashes opendir remove q (.dir name sub rest)
  | inside {q name sub rest} (crash : Crashes opendir remove (name :: q) sub) :
      Crashes opendir remove q (.dir name sub rest)
  | afterDir {q name sub rest} (crash : Crashes opendir remove q rest) :
      Crashes opendir remove q (.dir name sub rest)
  | afterFile {q name rest} (removed : remove (name :: q) = false) (crash : Crashes opendir remove q rest) :
      Crashes opendir remove q (.file name rest)

def Removable (remove rmdir : Path → Bool) (q : Path) : Listing CString → Prop
  | .nil => True
  | .file name rest => remove (name :: q) = false ∧ Removable remove rmdir q rest
  | .dir name sub rest =>
      Removable remove rmdir (name :: q) sub ∧ rmdir (name :: q) = false ∧ Removable remove rmdir q rest

theorem rmdirCall_snd (x : State ι κ × Bool) : (rmdirCall d q x).2 = true ↔ x.2 = true ∧ d.rmdir q = false := by
  unfold rmdirCall
  split
  · rename_i both
    simpa using both
  · rename_i other
    simpa using other

theorem delLoop_none (s : State ι κ) : delLoop d q es s = none ↔ Crashes d.opendir d.remove q es := by
  induction es generalizing q s with
  | nil => exact ⟨fun none => (by cases none), fun crash => (by cases crash)⟩
  | file name rest ih =>
      unfold delLoop
      dsimp only
      split
      · rename_i fails
        refine ⟨fun none => (by cases none), fun crash => ?_⟩
        cases crash with
        | afterFile removed => rw [fails] at removed; cases removed
      · rename_i removed
        rw [ih]
        refine ⟨.afterFile (Bool.eq_false_of_not_eq_true removed), fun crash => ?_⟩
        cases crash with
        | afterFile _ crash => exact crash
  | dir name sub rest ihSub ihRest =>
      unfold delLoop
      dsimp only
      split
      · rename_i fails
        exact ⟨fun _ => .opened fails, fun _ => rfl⟩
      rename_i opened
      cases inside : delLoop d (name :: q) sub ((delKey d s (name :: q)).getD s) with
      | none => exact ⟨fun _ => .inside ((ihSub _).mp inside), fun _ => rfl⟩
      | some x =>
          dsimp only
          rw [Option.map_eq_none_iff, ihRest]
          refine ⟨.afterDir, fun crash => ?_⟩
          cases crash with
          | opened fails => exact absurd fails opened
          | inside crash => rw [(ihSub _).mpr crash] at inside; cases inside
          | afterDir crash => exact crash

theorem delLoop_snd {x : State ι κ × Bool} (loop : delLoop d q es s = some x) :
    x.2 = true ↔ Removable d.remove d.rmdir q es := by
  induction es generalizing q s x with
  | nil =>
      cases loop
      exact ⟨fun _ => trivial, fun _ => rfl⟩
  | file name rest ih =>
      unfold delLoop at loop
      dsimp only at loop
      split at loop
      · rename_i fails
        cases loop
        simp [Removable, fails]
      · rename_i removed
        rw [ih loop]
        simp [Removable, Bool.eq_false_of_not_eq_true removed]
  | dir name sub rest ihSub ihRest =>
      unfold delLoop at loop
      dsimp only at loop
      split at loop
      · cases loop
      split at loop
      · cases loop
      rename_i x' inside
      obtain ⟨z, later, rfl⟩ := Option.map_eq_some_iff.mp loop
      rw [Bool.and_eq_true, rmdirCall_snd, ihSub inside, ihRest later, Removable, and_assoc]

theorem delLoop_dfs {x : State ι κ × Bool} (loop : delLoop d q es s = some x) (other : ¬es.Has q p) :
    x.1.dfs p = s.dfs p := by
  induction es generalizing q s x with
  | nil =>
      cases loop
      rfl
  | file name rest ih =>
      rw [Listing.Has, not_or] at other
      unfold delLoop at loop
      dsimp only at loop
      split at loop
      · cases loop
        exact congrFun (delKey_getD_dfs d s _) p
      · rw [ih loop other.2, removeNode_dfs, update_of_ne other.1, delKey_getD_dfs]
  | dir name sub rest ihSub ihRest =>
      rw [Listing.Has, not_or, not_or] at other
      unfold delLoop at loop
      dsimp only at loop
      split at loop
      · cases loop
      split at loop
      · cases loop
      rename_i x' inside
      obtain ⟨z, later, rfl⟩ := Option.map_eq_some_iff.mp loop
      have call : (rmdirCall d (name :: q) x').1.dfs p = x'.1.dfs p := by
        unfold rmdirCall
        split
        · exact update_of_ne other.1 ..
        · rfl
      rw [ihRest later other.2.2, call, ihSub inside other.2.1, delKey_getD_dfs]

def Deletes (d : Disk) (s : State ι κ) (p : Path) : Prop := d.dmkvDel p = false ∧ s.cache p ≠ none

theorem delKey_some (s : State ι κ) (p : Path) : delKey d s p = some t ↔ Deletes d s p ∧ t = dmkvDel s p := by
  unfold delKey Deletes
  split
  · rename_i fails
    refine ⟨fun some => (by cases some), fun both => ?_⟩
    rcases fails with fails | missing
    · rw [fails] at both
      cases both.1.1
    · exact absurd missing both.1.2
  · rename_i there
    rw [not_or] at there
    refine ⟨fun del => ⟨⟨Bool.eq_false_of_not_eq_true there.1, there.2⟩, (Option.some.inj del).symm⟩, fun both => ?_⟩
    rw [both.2]

inductive RenameCrashes (d : Disk) (s : State ι κ) : Path → Listing CString → Prop
  | opened {q name sub rest} (deleted : Deletes d s (name :: q)) (fails : d.opendir (name :: q) = true) :
      RenameCrashes d s q (.dir name sub rest)
  | inside {q name sub rest} (deleted : Deletes d s (name :: q)) (crash : RenameCrashes d s (name :: q) sub) :
      RenameCrashes d s q (.dir name sub rest)
  | afterDir {q name sub rest} (deleted : Deletes d s (name :: q)) (crash : RenameCrashes d s q rest) :
      RenameCrashes d s q (.dir name sub rest)
  | afterFile {q name rest} (deleted : Deletes d s (name :: q)) (crash : RenameCrashes d s q rest) :
      RenameCrashes d s q (.file name rest)

theorem renameLoop_dfs (loop : renameLoop d q es s = some t) : t.dfs = s.dfs := by
  induction es generalizing q s t with
  | nil =>
      cases loop
      rfl
  | file name rest ih =>
      unfold renameLoop at loop
      split at loop
      · cases loop
        rfl
      · rename_i del
        rw [ih loop, delKey_dfs d del]
  | dir name sub rest ihSub ihRest =>
      unfold renameLoop at loop
      split at loop
      · cases loop
        rfl
      split at loop
      · cases loop
      rename_i del _
      obtain ⟨u, inside, later⟩ := Option.bind_eq_some_iff.mp loop
      rw [ihRest later, ihSub inside, delKey_dfs d del]

theorem dmkvDel_cache (s : State ι κ) {p p' : Path} (other : p ≠ p') : (dmkvDel s p').cache p = s.cache p :=
  update_of_ne other ..

theorem renameLoop_cache (loop : renameLoop d q es s = some t) (other : ¬es.Has q p) : t.cache p = s.cache p := by
  induction es generalizing q s t with
  | nil =>
      cases loop
      rfl
  | file name rest ih =>
      rw [Listing.Has, not_or] at other
      unfold renameLoop at loop
      split at loop
      · cases loop
        rfl
      · rename_i u del
        obtain ⟨-, rfl⟩ := (delKey_some s _).mp del
        rw [ih loop other.2, dmkvDel_cache s other.1]
  | dir name sub rest ihSub ihRest =>
      rw [Listing.Has, not_or, not_or] at other
      unfold renameLoop at loop
      split at loop
      · cases loop
        rfl
      split at loop
      · cases loop
      rename_i u del _
      obtain ⟨-, rfl⟩ := (delKey_some s _).mp del
      obtain ⟨v, inside, later⟩ := Option.bind_eq_some_iff.mp loop
      rw [ihRest later other.2.2, ihSub inside other.2.1, dmkvDel_cache s other.1]

theorem renameLoop_none (distinct : es.Distinct)
    (same : ∀ p, es.Has q p → t.cache p = s.cache p) :
    renameLoop d q es t = none ↔ RenameCrashes d s q es := by
  induction es generalizing q t with
  | nil => exact ⟨fun none => (by cases none), fun crash => (by cases crash)⟩
  | file name rest ih =>
      have here : t.cache (name :: q) = s.cache (name :: q) := same _ (.inl rfl)
      unfold renameLoop
      split
      · rename_i del
        refine ⟨fun none => (by cases none), fun crash => ?_⟩
        cases crash with
        | afterFile deleted =>
            have deleted' : Deletes d t (name :: q) := ⟨deleted.1, by rw [here]; exact deleted.2⟩
            rw [(delKey_some t _).mpr ⟨deleted', rfl⟩] at del
            cases del
      · rename_i u del
        obtain ⟨deleted, rfl⟩ := (delKey_some t _).mp del
        rw [ih distinct.2]
        · refine ⟨.afterFile ⟨deleted.1, by rw [← here]; exact deleted.2⟩, fun crash => ?_⟩
          cases crash with
          | afterFile _ crash => exact crash
        · intro p later
          have other : p ≠ name :: q := fun is =>
            Listing.not_has_rest distinct.1 List.suffix_rfl (is ▸ later)
          rw [dmkvDel_cache t other, same p (.inr later)]
  | dir name sub rest ihSub ihRest =>
      have here : t.cache (name :: q) = s.cache (name :: q) := same _ (.inl rfl)
      unfold renameLoop
      split
      · rename_i del
        have stays : ¬Deletes d s (name :: q) := by
          intro deleted
          have deleted' : Deletes d t (name :: q) := ⟨deleted.1, by rw [here]; exact deleted.2⟩
          rw [(delKey_some t _).mpr ⟨deleted', rfl⟩] at del
          cases del
        refine ⟨fun none => (by cases none), fun crash => ?_⟩
        cases crash with
        | opened deleted | inside deleted | afterDir deleted => exact absurd deleted stays
      rename_i u del
      obtain ⟨deleted', rfl⟩ := (delKey_some t _).mp del
      have deleted : Deletes d s (name :: q) := ⟨deleted'.1, by rw [← here]; exact deleted'.2⟩
      split
      · rename_i fails
        exact ⟨fun _ => .opened deleted fails, fun _ => rfl⟩
      rename_i opened
      have inside := @ihSub (dmkvDel t (name :: q)) (name :: q) distinct.2.1 fun p has => by
        rw [dmkvDel_cache t (Listing.below_of_has has).2, same p (.inr (.inl has))]
      cases loop : renameLoop d (name :: q) sub (dmkvDel t (name :: q)) with
      | none => exact ⟨fun _ => .inside deleted (inside.mp loop), fun _ => rfl⟩
      | some v =>
          rw [Option.bind_some]
          rw [@ihRest v q distinct.2.2 fun p later => by
            have other : ∀ p', name :: q <:+ p' → p ≠ p' := fun p' below is =>
              Listing.not_has_rest distinct.1 below (is ▸ later)
            have notInside : ¬sub.Has (name :: q) p := fun has =>
              other p (Listing.below_of_has has).1 rfl
            rw [renameLoop_cache loop notInside, dmkvDel_cache t (other _ List.suffix_rfl),
              same p (.inr (.inr later))]]
          refine ⟨.afterDir deleted, fun crash => ?_⟩
          cases crash with
          | opened _ fails => exact absurd fails opened
          | inside _ crash => rw [inside.mpr crash] at loop; cases loop
          | afterDir _ crash => exact crash

/-- What a request is to make disappear: the directory or the old name. -/
inductive Target (cwd : Path) (request : Message.BarrierRequest) : Path → Prop
  | rmdir (opt : request.opt = some '4') : Target cwd request (resolve cwd request.path)
  | rename (opt : request.opt = some 'A') : Target cwd request (resolve cwd (oldName request.path))

/-- The function returns 0 only if the target is gone. -/
def Reports (d : Disk) (mesg : CString) (s : State ι κ) (q : Path) : Prop :=
  ∀ t, commitToFsBarrier d mesg s = some (0, t) → t.dfs q = none

def RmdirClean (d : Disk) (s : State ι κ) (q : Path) : Prop :=
  opens d s q → Crashes d.opendir d.remove q (d.listing q) ∨
    Removable d.remove d.rmdir q (d.listing q) ∧ d.rmdir q = false

/-- The call of `rename` succeeds and is not one of a name to itself, unless the server crashes or the names
overrun their buffers. -/
def RenameClean (d : Disk) (s : State ι κ) (path : CString) : Prop :=
  let old := resolve d.cwd (oldName path)
  let new := resolve d.cwd (newName path)
  if path.length ≤ 1 then s.dfs old = none
  else NamesFit path → opens d s old → RenameCrashes (d.spelled (oldName path)) s old (d.listing old) ∨
    (renameNames d s.dfs path).isSome ∧ old ≠ new

def Clean (d : Disk) (s : State ι κ) (request : Message.BarrierRequest) : Prop :=
  (request.opt = some '4' → RmdirClean d s (resolve d.cwd request.path)) ∧
    (request.opt = some 'A' → RenameClean d s request.path)

theorem spelled_calls (d : Disk) (str : CString) : (d.spelled str).opendir = d.opendir ∧
    (d.spelled str).remove = d.remove ∧ (d.spelled str).rmdir = d.rmdir ∧
    (d.spelled str).listing = d.listing := by
  unfold Disk.spelled
  split <;> exact ⟨rfl, rfl, rfl, rfl⟩

theorem spelled_opens (s : State ι κ) (str : CString) : opens (d.spelled str) s q ↔ opens d s q := by
  rw [opens, opens, (spelled_calls d str).1]

theorem rmdirCall_gone (x : State ι κ × Bool) (there : x.1.dfs q ≠ none) :
    (rmdirCall d q x).1.dfs q = none ↔ x.2 = true ∧ d.rmdir q = false := by
  rw [← rmdirCall_snd (d := d) (q := q)]
  unfold rmdirCall
  split
  · exact ⟨fun _ => rfl, fun _ => update_self ..⟩
  · exact ⟨fun gone => absurd gone there, fun flag => (by cases flag)⟩

theorem traversedirDmkvDel_none :
    traversedirDmkvDel d q s = none ↔ (opens d s q → Crashes d.opendir d.remove q (d.listing q)) := by
  unfold traversedirDmkvDel
  by_cases opened : opens d s q
  · rw [if_pos opened, Option.map_eq_none_iff, delLoop_none]
    simp only [opened, forall_const]
  · rw [if_neg opened]
    exact ⟨fun _ opened' => absurd opened' opened, fun _ => rfl⟩

theorem traversedirDmkvDel_gone :
    (∀ t, traversedirDmkvDel d q s = some t → t.dfs q = none) ↔ RmdirClean d s q := by
  unfold traversedirDmkvDel RmdirClean
  by_cases opened : opens d s q
  · rw [if_pos opened]
    simp only [opened, forall_const]
    cases loop : delLoop d q (d.listing q) s with
    | none => exact ⟨fun _ => .inl ((delLoop_none s).mp loop), fun _ t some => (by cases some)⟩
    | some x =>
        have root : ¬(d.listing q).Has q q := fun has => (Listing.below_of_has has).2 rfl
        have there : x.1.dfs q ≠ none := by
          rw [delLoop_dfs loop root, opened.1]
          exact Option.some_ne_none _
        have finished : ¬Crashes d.opendir d.remove q (d.listing q) := by
          rw [← delLoop_none s, loop]
          exact Option.some_ne_none _
        simp only [Option.map_some, Option.some.injEq, forall_eq', rmdirCall_gone x there, delLoop_snd loop,
          finished, false_or]
  · rw [if_neg opened]
    exact ⟨fun _ opened' => absurd opened' opened, fun _ t some => (by cases some)⟩

theorem rmdirClean_spelled (str : CString) : RmdirClean (d.spelled str) s q ↔ RmdirClean d s q := by
  obtain ⟨opendir, remove, rmdir, listing⟩ := spelled_calls d str
  rw [RmdirClean, RmdirClean, spelled_opens, opendir, remove, rmdir, listing]

theorem moved_old {dfs : Path → Option Node} {old new : Path} (apart : ¬new <:+ old) : moved dfs old new old = none := by
  simp [moved, apart]

theorem renameCall_some {dfs dfs' : Path → Option Node} {old new : Path} (call : renameCall d dfs old new = some dfs') :
    dfs old ≠ none ∧ (old = new ∧ dfs' = dfs ∨
      old ≠ new ∧ ¬old <:+ new ∧ ¬new <:+ old ∧ dfs new.tail = some .dir ∧ dfs' = moved dfs old new) := by
  unfold renameCall at call
  split at call
  · cases call
  split at call
  · cases call
  rename_i node there
  refine ⟨by rw [there]; exact Option.some_ne_none _, ?_⟩
  split at call
  · rename_i same
    cases call
    exact .inl ⟨same, rfl⟩
  rename_i other
  split at call
  · cases call
  rename_i apart
  rw [not_or] at apart
  split at call
  · rename_i place
    cases call
    exact .inr ⟨other, apart.1, apart.2, place.1, rfl⟩
  · cases call

theorem traversedirDmkvRename_none (d : Disk) (s : State ι κ) (q : Path) :
    traversedirDmkvRename d q s = none ↔ (opens d s q → RenameCrashes d s q (d.listing q)) := by
  unfold traversedirDmkvRename
  by_cases opened : opens d s q
  · rw [if_pos opened, renameLoop_none (d.distinct q) fun _ _ => rfl]
    simp only [opened, forall_const]
  · rw [if_neg opened]
    exact ⟨fun _ opened' => absurd opened' opened, fun _ => rfl⟩

theorem traversedirDmkvRename_dfs (walk : traversedirDmkvRename d q s = some t) : opens d s q ∧ t.dfs = s.dfs := by
  unfold traversedirDmkvRename at walk
  split at walk
  · rename_i opened
    exact ⟨opened, renameLoop_dfs walk⟩
  · cases walk

theorem renameUpdateDc_gone (path : CString) :
    (∀ t, renameUpdateDc d path s = some t → t.dfs (resolve d.cwd (oldName path)) = none) ↔ RenameClean d s path := by
  unfold renameUpdateDc RenameClean
  dsimp only
  split
  · exact ⟨fun gone => gone s rfl, fun missing t same => by cases same; exact missing⟩
  by_cases fits : NamesFit path
  · simp only [fits, if_true, forall_const]
    have call_some {u dfs} (call : renameNames d u path = some dfs) :
        renameCall d u (resolve d.cwd (oldName path)) (resolve d.cwd (newName path)) = some dfs := by
      unfold renameNames at call
      split at call
      · cases call
      · exact call
    generalize resolve d.cwd (oldName path) = old at call_some ⊢
    generalize resolve d.cwd (newName path) = new at call_some ⊢
    have crash := traversedirDmkvRename_none (d.spelled (oldName path)) s old
    rw [spelled_opens, (spelled_calls d (oldName path)).2.2.2] at crash
    cases walk : traversedirDmkvRename (d.spelled (oldName path)) old s with
    | none => exact ⟨fun _ opened => .inl (crash.mp walk opened), fun _ t some => (by cases some)⟩
    | some u =>
        obtain ⟨opened, same⟩ := traversedirDmkvRename_dfs walk
        rw [spelled_opens] at opened
        have finished : ¬RenameCrashes (d.spelled (oldName path)) s old (d.listing old) := fun crashes => by
          rw [crash.mpr fun _ => crashes] at walk
          cases walk
        simp only [opened, forall_const, Option.map_some, Option.some.injEq, forall_eq', finished, false_or, same]
        cases call : renameNames d s.dfs path with
        | none =>
            simp only [Option.isSome_none, Bool.false_eq_true, false_and, iff_false]
            rw [same, opened.1]
            exact Option.some_ne_none _
        | some dfs =>
            simp only [Option.isSome_some, true_and]
            obtain ⟨there, ⟨same, rfl⟩ | ⟨other, -, apart, -, rfl⟩⟩ := renameCall_some (call_some call)
            · exact ⟨fun gone => absurd gone there, fun other => absurd same other⟩
            · exact ⟨fun _ => other, fun _ => moved_old apart⟩
  · simp [fits]

def exampleDir : Path := [['d'], ['w']]

def exampleListing (q : Path) : Listing CString :=
  if q = exampleDir then .file ['f'] .nil
  else if q = exampleDir.tail then .dir ['d'] (.file ['f'] .nil) .nil
  else if q = [] then .dir ['w'] (.dir ['d'] (.file ['f'] .nil) .nil) .nil
  else .nil

theorem exampleListing_distinct (q : Path) : (exampleListing q).Distinct := by
  unfold exampleListing
  split_ifs <;> simp [Listing.Distinct, Listing.names]

def exampleDisk (busy : Path → Bool) : Disk where
  opendir _ := false
  remove := busy
  rmdir _ := false
  rename := false
  dmkvDel _ := false
  listing := exampleListing
  distinct := exampleListing_distinct
  vacant := false
  cwd := []

def exampleState : State Unit Unit :=
  let dfs p : Option Node :=
    if p = ['f'] :: exampleDir then some (.file [])
    else if p = exampleDir ∨ p = exampleDir.tail ∨ p = [] then some .dir
    else none
  { initialState (.oneNode Unit exampleDir.tail) .zero with dfs := dfs }

def rmdirMessage : CString := "1/w/d:41700000000".toList

def renameMessage : CString := "1/w/d-/w/x/y:A1700000000".toList

theorem not_reports {mesg : CString}
    (stays : (commitToFsBarrier d mesg s).any (fun x => decide (x.1 = 0 ∧ x.2.dfs q ≠ none)) = true) :
    ¬Reports d mesg s q := by
  intro reports
  obtain ⟨⟨ret, t⟩, run, there⟩ := (Option.any_eq_true _ _).mp stays
  obtain ⟨zero, there⟩ := of_decide_eq_true there
  dsimp only at zero
  subst zero
  exact there (reports t run)

end Pacon.Server
