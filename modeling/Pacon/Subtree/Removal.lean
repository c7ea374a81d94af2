import Pacon.Subtree.Walk

/-!
# Removing a directory

The walk of the server takes everything below the directory from the DFS. From memcached it takes the keys that
are spelled as it spells them.
-/

namespace Pacon.Subtree
open Lib Function Commit

structure NoFailure (d : Disk) : Prop where
  opendir : ∀ p, d.opendir p = false
  remove : ∀ p, d.remove p = false
  rmdir : ∀ p, d.rmdir p = false

def subtree (dfs : Path → Option Node) (q : Path) : Set Path := {p | q <:+ p ∧ (p = q ∨ dfs p ≠ none)}

/-- From `s` to `t` the directory has gone with all below it, and the keys that name any of it, and nothing else. -/
structure RemovesSubtree (cwd : Path) (path : CString) (s t : State) : Prop where
  removed : ∀ p, resolve cwd path <:+ p → t.dfs p = none
  otherEntries : ∀ p, ¬resolve cwd path <:+ p → t.dfs p = s.dfs p
  deleted : ∀ k, resolve cwd k ∈ subtree s.dfs (resolve cwd path) → t.cache k = none
  otherKeys : ∀ k, resolve cwd k ∉ subtree s.dfs (resolve cwd path) → t.cache k = s.cache k

/-- The directory's own key, or its path as given with names behind it. -/
def Spelled (path k : CString) : Prop := k = memcKey path ∨ ∃ r, Named r ∧ r ≠ [] ∧ k = path ++ below r

/-- The string is a directory's, all below it is listed and every path name fits the buffer. -/
structure Walkable (d : Disk) (path : CString) (s : State) : Prop where
  nonempty : path ≠ []
  dir : s.dfs (resolve d.cwd path) = some .dir
  lists : ListsBelow s.dfs (resolve d.cwd path) (d.listing (resolve d.cwd path))
  fits : Fits path (d.listing (resolve d.cwd path))

variable {d : Disk} {s t : State} {path k : CString} {q p : Path} {es : Listing CString}

theorem spelled_text (named : Named p) (other : q ≠ []) (inside : q <:+ p) : Spelled (text q) (text p) := by
  obtain ⟨r, rfl⟩ := inside
  by_cases own : r = []
  · subst own
    have whole : memcKey (text q) = text q := by
      have kept : memcKey ([] ++ below q) = [] ++ below q := memcKey_below named other
      rwa [List.nil_append, ← text_of_ne other] at kept
    exact .inl whole.symm
  · exact .inr ⟨r, fun name member => named name (List.mem_append_left _ member), own, text_append other r⟩

theorem dmkvDel_child {name : CString} (named : IsName name) (s : State) :
    (dmkvDel s (path ++ '/' :: name)).cache = eraseOn (fun _ => true) {path ++ '/' :: name} s.cache := by
  rw [dmkvDel_cache, memcKey_child named, update_none]

theorem removeNode_erases (s : State) (p : Path) : (removeNode s p).dfs = eraseOn (fun _ => true) {p} s.dfs := by
  rw [removeNode_dfs, update_none]

theorem delLoop_erases (works : NoFailure d) (nonempty : path ≠ []) (lists : Lists s.dfs (resolve d.cwd path) es)
    (fits : Fits path es) :
    ∃ t, delLoop d path es s = some (t, true) ∧
      t.cache = eraseOn (fun _ => true) (walkKeys path es) s.cache ∧
      t.dfs = eraseOn (fun _ => true) {p | es.Has (resolve d.cwd path) p} s.dfs := by
  induction es generalizing path s with
  | nil =>
      refine ⟨s, rfl, ?_, ?_⟩
      · rw [walkKeys_nil, eraseOn_empty]
      · exact (eraseOn_empty s.dfs).symm
  | file name rest ih =>
      obtain ⟨named, -, fresh, later⟩ := lists
      have at_name := resolve_child nonempty named d.cwd
      have other : ∀ p, rest.Has (resolve d.cwd path) p →
          (removeNode (dmkvDel s (path ++ '/' :: name)) (name :: resolve d.cwd path)).dfs p = s.dfs p := by
        intro p has
        refine update_of_ne (fun here => ?_) _ _
        subst here
        exact Listing.not_has_rest fresh List.suffix_rfl has
      obtain ⟨t, run, cache, dfs⟩ := ih nonempty (later.congr other) fun r has => fits r (.inr has)
      refine ⟨t, ?_, ?_, ?_⟩
      · rw [delLoop, dirNew_of_fits fits (.inl rfl)]
        simp only [at_name, works.remove, Bool.false_eq_true, if_false]
        exact run
      · rw [cache, removeNode_cache, dmkvDel_child named, eraseOn_eraseOn, walkKeys_file]
      · rw [dfs, removeNode_erases, dmkvDel_dfs, eraseOn_eraseOn]
        rfl
  | dir name sub rest ihSub ihRest =>
      obtain ⟨named, dir, inner, fresh, later⟩ := lists
      have at_name := resolve_child nonempty named d.cwd
      have longer : path ++ '/' :: name ≠ [] := by simp
      obtain ⟨t, runSub, cacheSub, dfsSub⟩ := ihSub (s := dmkvDel s (path ++ '/' :: name)) longer
        (by rw [at_name]; exact inner) fits.inner
      rw [at_name] at dfsSub
      have other : ∀ p, rest.Has (resolve d.cwd path) p → (removeNode t (name :: resolve d.cwd path)).dfs p = s.dfs p := by
        intro p has
        have outside : ¬name :: resolve d.cwd path <:+ p := fun below => Listing.not_has_rest fresh below has
        have here : p ≠ name :: resolve d.cwd path := by
          rintro rfl
          exact outside List.suffix_rfl
        rw [removeNode_dfs, update_of_ne here, dfsSub]
        exact eraseOn_of_notMem fun inside => outside (Listing.below_of_has inside).1
      obtain ⟨u, run, cache, dfs⟩ := ihRest nonempty (later.congr other) fun r has => fits r (.inr (.inr has))
      refine ⟨u, ?_, ?_, ?_⟩
      · have opened : opens d (dmkvDel s (path ++ '/' :: name)) (path ++ '/' :: name) :=
          ⟨longer, by rw [at_name]; exact dir, works.opendir _⟩
        have emptied : rmdirCall d (path ++ '/' :: name) (t, true) = (removeNode t (name :: resolve d.cwd path), true) := by
          simp [rmdirCall, works.rmdir, at_name]
        rw [delLoop, dirNew_of_fits fits (.inl rfl)]
        simp only [if_pos opened, runSub, emptied, run]
        rfl
      · rw [cache, removeNode_cache, cacheSub, dmkvDel_child named, eraseOn_eraseOn, eraseOn_eraseOn, walkKeys_dir]
      · rw [dfs, removeNode_erases, dfsSub, dmkvDel_dfs, eraseOn_eraseOn, eraseOn_eraseOn, Set.union_left_comm]
        rfl

theorem removeDirectory_erases (works : NoFailure d) (walkable : Walkable d path s) :
    ∃ t, removeDirectory d path s = some t ∧
      t.cache = eraseOn (fun _ => true) (walkKeys path (d.listing (resolve d.cwd path)) ∪ {memcKey path}) s.cache ∧
      t.dfs = eraseOn (fun _ => true) {p | resolve d.cwd path <:+ p} s.dfs := by
  obtain ⟨nonempty, dir, lists, fits⟩ := walkable
  obtain ⟨t, run, cache, dfs⟩ := delLoop_erases works nonempty lists.entries fits
  refine ⟨dmkvDel (removeNode t (resolve d.cwd path)) path, ?_, ?_, ?_⟩
  · have opened : opens d s path := ⟨nonempty, dir, works.opendir _⟩
    simp [removeDirectory, traversedirDmkvDel, opened, run, rmdirCall, works.rmdir]
  · rw [dmkvDel_cache, update_none, removeNode_cache, cache, eraseOn_eraseOn]
  · rw [dmkvDel_dfs, removeNode_erases, dfs, eraseOn_eraseOn, eraseOn_eq_iff]
    intro p node there _
    constructor
    · rintro (has | rfl)
      · exact (Listing.below_of_has has).1
      · exact List.suffix_rfl
    · intro below
      by_cases here : p = resolve d.cwd path
      · exact .inr here
      · exact .inl (lists.complete p below here (by simp [there]))

theorem mem_deleted_iff (walkable : Walkable d path s) (cached : s.cache k ≠ none) :
    k ∈ walkKeys path (d.listing (resolve d.cwd path)) ∪ {memcKey path} ↔
      resolve d.cwd k ∈ subtree s.dfs (resolve d.cwd path) ∧ Spelled path k := by
  obtain ⟨nonempty, -, lists, -⟩ := walkable
  rw [Set.mem_union, Set.mem_singleton_iff, mem_walkKeys_iff nonempty lists.entries, lists.has_iff]
  constructor
  · rintro (⟨⟨below, other, there⟩, r, named, rfl⟩ | rfl)
    · refine ⟨⟨below, .inr there⟩, .inr ⟨r, named, ?_, rfl⟩⟩
      rintro rfl
      exact other (resolve_below nonempty named d.cwd)
    · have named : memcKey path ≠ [] := fun empty => cached (empty ▸ s.noEmptyKey)
      rw [resolve_memcKey named]
      exact ⟨⟨List.suffix_rfl, .inl rfl⟩, .inl rfl⟩
  · rintro ⟨⟨below, there⟩, own | ⟨r, named, other, rfl⟩⟩
    · exact .inr own
    · rw [resolve_below nonempty named] at below there ⊢
      have longer : r ++ resolve d.cwd path ≠ resolve d.cwd path := by simpa using other
      exact .inl ⟨⟨below, longer, there.resolve_left longer⟩, r, named, rfl⟩

/-- The DFS always comes out right; memcached does if the cached keys of the subtree are spelled as the directory is,
and only then. -/
theorem removes_subtree_iff (works : NoFailure d) (walkable : Walkable d path s) :
    ∃ t, removeDirectory d path s = some t ∧
      (∀ p, t.dfs p = if resolve d.cwd path <:+ p then none else s.dfs p) ∧
      (RemovesSubtree d.cwd path s t ↔
        ∀ k, s.cache k ≠ none → resolve d.cwd k ∈ subtree s.dfs (resolve d.cwd path) → Spelled path k) := by
  obtain ⟨t, run, cache, dfs⟩ := removeDirectory_erases works walkable
  obtain ⟨gone, kept⟩ := eq_eraseOn_true_iff.mp dfs
  refine ⟨t, run, fun p => ?_, ?_⟩
  · split
    · rename_i below
      exact gone p below
    · rename_i outside
      exact kept p outside
  · have keys : RemovesSubtree d.cwd path s t ↔
        t.cache = eraseOn (fun _ => true) {k | resolve d.cwd k ∈ subtree s.dfs (resolve d.cwd path)} s.cache := by
      rw [eq_eraseOn_true_iff]
      exact ⟨fun removes => ⟨removes.deleted, removes.otherKeys⟩, fun ⟨deleted, others⟩ => ⟨gone, kept, deleted, others⟩⟩
    rw [keys, cache, eraseOn_eq_iff]
    constructor
    · intro agree k cached inside
      obtain ⟨e, there⟩ := Option.ne_none_iff_exists'.mp cached
      exact ((mem_deleted_iff walkable cached).mp ((agree k e there rfl).mpr inside)).2
    · intro spelled k e there _
      have cached : s.cache k ≠ none := by simp [there]
      rw [mem_deleted_iff walkable cached]
      exact ⟨And.left, fun inside => ⟨inside, spelled k cached inside⟩⟩

def exampleState (q : Path) : State where
  cache k := if k = below (['f'] :: q) then some ⟨0, ⟨Env.zero.stat, []⟩⟩ else none
  noEmptyKey := if_neg (by simp [below])
  dfs p := if p = q then some .dir else if p = ['f'] :: q then some (.file []) else none

def exampleDisk : Disk := ⟨fun _ => false, fun _ => false, fun _ => false, [], fun _ => .file ['f'] .nil⟩

theorem exampleDisk_works : NoFailure exampleDisk := ⟨fun _ => rfl, fun _ => rfl, fun _ => rfl⟩

theorem example_walkable {path : CString} {q : Path} (nonempty : path ≠ []) (is : resolve [] path = q)
    (short : path.length < 100) : Walkable exampleDisk path (exampleState q) where
  nonempty := nonempty
  dir := by
    show (exampleState q).dfs (resolve [] path) = some .dir
    rw [is]
    exact if_pos rfl
  lists := by
    show ListsBelow (exampleState q).dfs (resolve [] path) (.file ['f'] .nil)
    rw [is]
    have file : (exampleState q).dfs (['f'] :: q) = some (.file []) := by
      simp [exampleState]
    refine ⟨⟨by decide, ⟨[], file⟩, List.not_mem_nil, trivial⟩, fun p _ other there => .inl ?_⟩
    by_contra missing
    exact there ((if_neg other).trans (if_neg missing))
  fits r has := by
    rcases has with rfl | has
    · rw [List.length_append]
      exact Nat.add_lt_add short (by decide : (below [['f']]).length < 28)
    · exact has.elim

def exampleDir : Path := [['d'], ['w']]

theorem removes_subtree_iff_example :
    ∃ t, removeDirectory exampleDisk "/w/d".toList (exampleState exampleDir) = some t ∧
      RemovesSubtree [] "/w/d".toList (exampleState exampleDir) t := by
  have is : resolve [] "/w/d".toList = exampleDir := by decide
  obtain ⟨t, run, -, right⟩ := removes_subtree_iff exampleDisk_works (example_walkable (by decide) is (by decide))
  refine ⟨t, run, right.mpr fun k cached _ => ?_⟩
  have own : k = text (['f'] :: exampleDir) := by
    by_contra other
    exact cached (if_neg other)
  rw [own]
  exact spelled_text (q := exampleDir) (by decide) (by decide) (List.suffix_cons ..)

theorem removal_leaves_key : ¬∀ path : CString, Walkable exampleDisk path (exampleState exampleDir) →
    ∀ t, removeDirectory exampleDisk path (exampleState exampleDir) = some t →
      RemovesSubtree [] path (exampleState exampleDir) t := by
  intro right
  have left : (removeDirectory exampleDisk "/w/d/".toList (exampleState exampleDir)).any
      (fun t => (t.cache "/w/d/f".toList).isSome) = true := by decide
  obtain ⟨t, run, there⟩ := (Option.any_eq_true _ _).mp left
  have is : resolve [] "/w/d/".toList = exampleDir := by decide
  have gone := (right _ (example_walkable (by decide) is (by decide)) t run).deleted "/w/d/f".toList
    ⟨by decide, .inr (by decide)⟩
  rw [gone] at there
  cases there

end Pacon.Subtree
