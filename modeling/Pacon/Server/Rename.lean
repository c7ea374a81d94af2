import Pacon.Calls.Removed
import Pacon.Server.Reports

/-!
# A rename from the client to the DFS

The client makes sure that the old name is cached, the server deletes what it lists below the old name
and renames. The key of the old name itself is deleted by nobody.
-/

set_option linter.unusedSectionVars false

namespace Pacon.Server
open Lib Function Commit Calls

variable {ι κ : Type} [DecidableEq ι] [DecidableEq κ] {cfg : Config ι κ}

/-- A path whose text the server reads back. -/
structure Plain (p : Path) : Prop where
  named : Named p
  noDash : '-' ∉ text p
  noColon : ':' ∉ text p

/-- The names, the joint path, the request and the server's copies stay in their buffers. -/
structure Fits (w : World) (old new : Path) : Prop where
  oldName : (text old).length < Message.pathMax / 2
  newName : (text new).length < Message.pathMax / 2
  request : (Message.paconRename w.barrierId (text old) (text new) w.timestamp).Fits
  sent : (Message.paconRename w.barrierId (text old) (text new) w.timestamp).sent ≠ none

def Moved (s t : State ι κ) (old new : Path) : Prop :=
  ∀ r, t.dfs (r ++ new) = s.dfs (r ++ old) ∧ t.dfs (r ++ old) = none

def Untouched (s t : State ι κ) (old new : Path) : Prop :=
  ∀ p, old <:+ p ∨ new <:+ p → t.dfs p = s.dfs p ∧ (s.cache p ≠ none → t.cache p = s.cache p)

def Coherent (cfg : Config ι κ) (d : Disk) (s : State ι κ) (w : World) (old new : Path) : Prop :=
  ∀ ret t, paconRename cfg (listenLocalRpc d) s w old new = some (ret, t) →
    (ret = 0 → Moved s t old new ∧ ∀ p, old <:+ p → t.cache p = none) ∧
    (ret = -1 → Untouched s t old new)

/-- What the client checks: the old name is there and the new one is not. -/
structure Passes (cfg : Config ι κ) (s : State ι κ) (w : World) (old new : Path) : Prop where
  permitted : w.permitted .rename = true
  found : s.cache old ≠ none ∨ inWorkspace cfg old = true ∧ s.dfs old ≠ none
  uncached : s.cache new = none
  missing : inWorkspace cfg new = true → s.dfs new = none

/-- The server comes back from its walk below the old name. -/
def Answers (d : Disk) (s : State ι κ) (old : Path) : Prop :=
  opens d s old ∧ ¬RenameCrashes (d.spelled (text old)) s old (d.listing old)

variable {d : Disk} {s t : State ι κ} {w : World} {old new : Path}

theorem getOrLoad_fails (uncached : s.cache old = none) (missing : inWorkspace cfg old = true → s.dfs old = none)
    (w : World) : getOrLoad cfg s w old = (-1, s) := by
  unfold getOrLoad
  rw [uncached]
  exact loadToPacon_missing missing w

theorem getOrLoad_found (there : s.cache old ≠ none ∨ inWorkspace cfg old = true ∧ s.dfs old ≠ none) (w : World) :
    (getOrLoad cfg s w old).1 = 0 := by
  unfold getOrLoad
  split
  · rfl
  · rename_i uncached
    obtain ⟨inside, found⟩ := there.resolve_left (not_not_intro uncached)
    obtain ⟨node, found⟩ := Option.ne_none_iff_exists'.mp found
    rw [loadToPacon_found inside found]

theorem getOrLoad_caches (there : s.cache old ≠ none ∨ inWorkspace cfg old = true ∧ s.dfs old ≠ none)
    (named : old ≠ []) (w : World) : (getOrLoad cfg s w old).2.cache old ≠ none := by
  unfold getOrLoad
  split
  · rename_i cached
    rw [cached]
    exact Option.some_ne_none _
  · rename_i uncached
    obtain ⟨inside, found⟩ := there.resolve_left (not_not_intro uncached)
    obtain ⟨node, found⟩ := Option.ne_none_iff_exists'.mp found
    have added : dmkvAdd s old (loadedValue w.env node) = some (store s old (loadedValue w.env node)) :=
      if_neg (by simp [named, uncached])
    rw [loadToPacon_found inside found, added]
    simp [store_cache]

theorem checkRename_found (permitted : w.permitted .rename = true) (found : (getOrLoad cfg s w old).1 = 0) :
    checkRename cfg s w old new =
      if ((getOrLoad cfg s w old).2.cache new).isSome then .newNameExisted (getOrLoad cfg s w old).2
      else
        match loadToPacon cfg (getOrLoad cfg s w old).2 w new with
        | (-1, u) => .passed u
        | (_, u) => .newNameExisted u := by
  unfold checkRename
  rw [if_pos permitted]
  generalize getOrLoad cfg s w old = x at found
  obtain ⟨ret, t⟩ := x
  dsimp only at found
  subst found
  rfl

theorem checkRename_passes (passes : Passes cfg s w old new) :
    checkRename cfg s w old new = .passed (getOrLoad cfg s w old).2 := by
  have found := getOrLoad_found passes.found w
  have loaded : ∀ p, Loaded w p s (getOrLoad cfg s w old).2 := fun p => getOrLoad_loaded s w old
  rw [checkRename_found passes.permitted found]
  have uncached : (getOrLoad cfg s w old).2.cache new = none := by
    have other : new ≠ old := by
      rintro rfl
      rcases passes.found with there | ⟨inside, there⟩
      · exact there passes.uncached
      · exact there (passes.missing inside)
    rw [getOrLoad_cache s w other]
    exact passes.uncached
  have missing : inWorkspace cfg new = true → (getOrLoad cfg s w old).2.dfs new = none := fun inside =>
    (congrFun (loaded new).dfs new).trans (passes.missing inside)
  rw [if_neg (by simp [uncached]), loadToPacon_missing missing]
  rfl

theorem paconRename_refused (serve : Server ι κ) (refused : ¬Passes cfg s w old new) :
    ∃ t, (∀ p, Loaded w p s t) ∧ paconRename cfg serve s w old new = some (-1, t) := by
  have first : ∀ p, Loaded w p s (getOrLoad cfg s w old).2 := fun p => getOrLoad_loaded s w old
  unfold paconRename
  by_cases permitted : w.permitted .rename = true
  swap
  · exact ⟨s, fun p => .refl s, by simp [checkRename, permitted]⟩
  by_cases found : s.cache old ≠ none ∨ inWorkspace cfg old = true ∧ s.dfs old ≠ none
  swap
  · rw [not_or, not_not] at found
    have missing : inWorkspace cfg old = true → s.dfs old = none := fun inside => by
      by_contra there
      exact found.2 ⟨inside, there⟩
    refine ⟨s, fun p => .refl s, ?_⟩
    unfold checkRename
    rw [if_pos permitted, getOrLoad_fails found.1 missing]
    rfl
  rw [checkRename_found permitted (getOrLoad_found found w)]
  by_cases cached : ((getOrLoad cfg s w old).2.cache new).isSome
  · exact ⟨_, first, by rw [if_pos cached]⟩
  rw [if_neg cached]
  have uncached : s.cache new = none := by
    rcases (first new).entry with same | ⟨missing, -⟩
    · rw [← same]
      exact Option.not_isSome_iff_eq_none.mp cached
    · exact missing
  obtain ⟨inside, there⟩ : inWorkspace cfg new = true ∧ s.dfs new ≠ none := by
    by_contra neither
    exact refused ⟨permitted, found, uncached, fun inside => by
      by_contra there
      exact neither ⟨inside, there⟩⟩
  obtain ⟨node, there⟩ := Option.ne_none_iff_exists'.mp there
  have there' : (getOrLoad cfg s w old).2.dfs new = some node := (congrFun (first new).dfs new).trans there
  have second : ∀ p, Loaded w p s (loadToPacon cfg (getOrLoad cfg s w old).2 w new).2 := fun p =>
    (first p).trans (loadToPacon_loaded _ w new)
  rw [loadToPacon_found inside there'] at second ⊢
  exact ⟨_, second, rfl⟩

theorem oldName_jointPath (clear : '-' ∉ text old) (new : Path) :
    oldName (Message.jointPath (text old) (text new)) = text old :=
  takeWhile_sep clear _

theorem newName_jointPath (old : Path) (clear : '-' ∉ text new) :
    newName (Message.jointPath (text old) (text new)) = text new := by
  have clear' : '-' ∉ (text new).reverse := by simpa using clear
  unfold newName Message.jointPath
  rw [List.reverse_append, List.reverse_cons, List.append_assoc, List.singleton_append,
    takeWhile_sep clear', List.reverse_reverse]

def renamed (d : Disk) (old new : Path) (t : State ι κ) : State ι κ :=
  match renameCall d t.dfs old new with
  | none => t
  | some dfs => unlinked t (renames old new) dfs

theorem renameUpdateDc_joint (plainOld : Plain old) (plainNew : Plain new) (d : Disk) (s : State ι κ) :
    renameUpdateDc d (Message.jointPath (text old) (text new)) s =
      if NamesFit (Message.jointPath (text old) (text new)) then
        (traversedirDmkvRename (d.spelled (text old)) old s).map (renamed d old new)
      else none := by
  have long : ¬(Message.jointPath (text old) (text new)).length ≤ 1 := by
    obtain ⟨rest, slash⟩ := List.head?_eq_some_iff.mp (head_text old)
    simp [Message.jointPath, slash]
  unfold renameUpdateDc renameNames
  rw [if_neg long, oldName_jointPath plainOld.noDash, newName_jointPath old plainNew.noDash,
    resolve_text plainOld.named, resolve_text plainNew.named]
  simp only [if_neg (text_ne_nil new)]
  rfl

theorem Fits.names (fits : Fits w old new) (plainOld : Plain old) (plainNew : Plain new) :
    NamesFit (Message.jointPath (text old) (text new)) := by
  have oldShort := fits.oldName
  have half : halfMax = Message.pathMax / 2 := rfl
  refine ⟨by simp [Message.jointPath], ?_, ?_, ?_⟩
  · rw [oldName_jointPath plainOld.noDash]
    exact text_ne_nil old
  · rw [newName_jointPath old plainNew.noDash, Message.jointPath, List.length_append, List.length_cons]
    omega
  · rw [newName_jointPath old plainNew.noDash]
    exact fits.newName

theorem rename_read (plainOld : Plain old) (plainNew : Plain new) {mesg : CString}
    (sent : (Message.paconRename w.barrierId (text old) (text new) w.timestamp).sent = some mesg) :
    ∃ b, Message.commitToFsBarrier mesg = some ⟨b, Message.jointPath (text old) (text new), some 'A'⟩ := by
  have clear : ':' ∉ Message.jointPath (text old) (text new) := by
    simp [Message.jointPath, plainOld.noColon, plainNew.noColon]
  have absolute : Message.Absolute (Message.jointPath (text old) (text new)) := by
    rw [Message.Absolute, Message.jointPath, List.head?_append, head_text]
    rfl
  unfold Message.paconRename at sent
  split at sent
  · cases sent
  · exact Message.prefixedRpc_read absolute clear sent

theorem rename_served (plainOld : Plain old) (plainNew : Plain new) (fits : Fits w old new) (d : Disk)
    (s : State ι κ) :
    addToLocalRpc (listenLocalRpc d) s (Message.paconRename w.barrierId (text old) (text new) w.timestamp) =
      (traversedirDmkvRename (d.spelled (text old)) old s).map fun t => (0, renamed d old new t) := by
  obtain ⟨mesg, sent⟩ := Option.ne_none_iff_exists'.mp fits.sent
  have short : mesg.length < Message.pathMax := fits.request.2 mesg sent
  obtain ⟨b, read⟩ := rename_read plainOld plainNew sent
  unfold addToLocalRpc listenLocalRpc
  rw [sent]
  dsimp only
  rw [Message.received, if_pos short]
  dsimp only
  unfold commitToFsBarrier
  rw [read]
  simp only [renameUpdateDc_joint plainOld plainNew, if_pos (fits.names plainOld plainNew), Option.map_map]
  rfl

theorem walk_loaded (cfg : Config ι κ) (d : Disk) (s : State ι κ) (w : World) (old : Path) :
    traversedirDmkvRename (d.spelled (text old)) old (getOrLoad cfg s w old).2 = none ↔ ¬Answers d s old := by
  have loaded : Loaded w old s (getOrLoad cfg s w old).2 := getOrLoad_loaded s w old
  have calls := spelled_calls d (text old)
  have loop := renameLoop_none (d := d.spelled (text old)) (q := old) (s := s)
    (t := (getOrLoad cfg s w old).2) ((d.spelled (text old)).distinct old) fun p has =>
      getOrLoad_cache s w (Listing.below_of_has has).2
  have opened : opens (d.spelled (text old)) (getOrLoad cfg s w old).2 old ↔ opens d s old := by
    rw [spelled_opens, opens, opens, loaded.dfs]
  unfold traversedirDmkvRename Answers
  rw [← calls.2.2.2, not_and_not_right, ← loop]
  by_cases opens' : opens d s old
  · rw [if_pos (opened.mpr opens')]
    exact ⟨fun none _ => none, fun crash => crash opens'⟩
  · rw [if_neg fun opens => opens' (opened.mp opens)]
    exact ⟨fun _ opens => absurd opens opens', fun _ => rfl⟩

theorem renamed_cache (d : Disk) (old new : Path) (t : State ι κ) : (renamed d old new t).cache = t.cache := by
  unfold renamed
  split <;> rfl

theorem renamed_root (d : Disk) (new : Path) (there : t.dfs [] ≠ none) : (renamed d [] new t).dfs [] ≠ none := by
  unfold renamed
  split
  · exact there
  · rename_i dfs call
    obtain ⟨-, ⟨-, rfl⟩ | ⟨-, below, -⟩⟩ := renameCall_some call
    · exact there
    · exact absurd (List.nil_suffix) below

/-- A rename that the client lets pass and the server answers leaves the old name in the cache, so
it is coherent only if one of them stops it. -/
theorem coherent_iff (plainOld : Plain old) (plainNew : Plain new) (fits : Fits w old new) :
    Coherent cfg d s w old new ↔ (Passes cfg s w old new → ¬Answers d s old) := by
  constructor
  · intro coherent passes answers
    obtain ⟨u, walk⟩ := Option.ne_none_iff_exists'.mp
      (mt (walk_loaded cfg d s w old).mp (not_not_intro answers))
    have run : paconRename cfg (listenLocalRpc d) s w old new = some (0, renamed d old new u) := by
      unfold paconRename
      rw [checkRename_passes passes]
      dsimp only
      rw [rename_served plainOld plainNew fits, walk]
      rfl
    obtain ⟨moves, purged⟩ := (coherent _ _ run).1 rfl
    obtain ⟨opened, same⟩ := traversedirDmkvRename_dfs walk
    by_cases root : old = []
    · subst root
      refine renamed_root d new ?_ (moves []).2
      rw [same, opened.1]
      exact Option.some_ne_none _
    · have cached := getOrLoad_caches passes.found root w
      have stays := purged old List.suffix_rfl
      rw [renamed_cache] at stays
      unfold traversedirDmkvRename at walk
      rw [if_pos opened] at walk
      rw [renameLoop_cache walk fun has => (Listing.below_of_has has).2 rfl] at stays
      exact cached stays
  · intro stopped ret t run
    by_cases passes : Passes cfg s w old new
    · have walk := (walk_loaded cfg d s w old).mpr (stopped passes)
      unfold paconRename at run
      rw [checkRename_passes passes] at run
      dsimp only at run
      rw [rename_served plainOld plainNew fits, walk] at run
      cases run
    · obtain ⟨u, loaded, refused⟩ := paconRename_refused (listenLocalRpc d) passes
      rw [refused] at run
      cases run
      refine ⟨fun zero => absurd zero (by decide), fun _ p _ => ⟨congrFun (loaded p).dfs p, fun cached => ?_⟩⟩
      exact (loaded p).entry.resolve_right fun new => cached new.1

def renameWorld : World := { exampleWorld with barrierId := 1, timestamp := 1700000000 }

def otherDir : Path := [['e'], ['w']]

theorem example_fits (short : (text new).length ≤ 8)
    (sent : (Message.paconRename 1 (text exampleDir) (text new) 1700000000).sent ≠ none) :
    Fits renameWorld exampleDir new where
  oldName := by decide
  newName := by
    have : Message.pathMax / 2 = 64 := rfl
    omega
  request := by
    refine (Message.paconRename_fits ..).mpr fun _ _ => ?_
    have id : (printInt renameWorld.barrierId.toInt).length = 1 := by decide
    have old : (text exampleDir).length = 4 := by decide
    have stamp : (Message.timestampText renameWorld.timestamp).length = 10 := by decide
    have room : Message.pathMax = 128 := rfl
    refine ⟨by omega, fun _ => ⟨.inl (by decide), ?_⟩⟩
    omega
  sent := sent

theorem rename_leaves_old : Plain exampleDir ∧ Plain otherDir ∧ Fits renameWorld exampleDir otherDir ∧
    Drained exampleState ∧
    ¬Coherent (.oneNode Unit exampleDir.tail) (exampleDisk fun _ => false) exampleState renameWorld exampleDir
      otherDir := by
  refine ⟨⟨by decide, by decide, by decide⟩, ⟨by decide, by decide, by decide⟩, example_fits (by decide) (by decide),
    by decide, fun coherent => ?_⟩
  have run : (paconRename (.oneNode Unit exampleDir.tail) (listenLocalRpc (exampleDisk fun _ => false))
      exampleState renameWorld exampleDir otherDir).any
        (fun x => decide (x.1 = 0 ∧ (x.2.cache exampleDir).isSome)) = true := by decide +kernel
  obtain ⟨⟨ret, t⟩, run, both⟩ := (Option.any_eq_true _ _).mp run
  obtain ⟨zero, cached⟩ := of_decide_eq_true both
  have purged := ((coherent ret t run).1 zero).2 exampleDir List.suffix_rfl
  dsimp only at cached
  rw [purged] at cached
  cases cached

theorem coherent_iff_existing : Coherent (.oneNode Unit exampleDir.tail) (exampleDisk fun _ => false)
    exampleState renameWorld exampleDir exampleDir.tail := by
  refine (coherent_iff ⟨by decide, by decide, by decide⟩ ⟨by decide, by decide, by decide⟩
    (example_fits (by decide) (by decide))).mpr fun passes => ?_
  have cached : exampleState.cache exampleDir.tail ≠ none := by decide
  exact absurd passes.uncached cached

end Pacon.Server
