import Pacon.Subtree.Removal

/-!
# Evicting below a directory

`flush_dir_new` looks at each key before it deletes it, so that the marks of removed files stay. It changes
nothing on the DFS, and does not come back from a directory that cannot be opened.
-/

namespace Pacon.Subtree
open Lib Function Commit

/-- The entry is not the mark of a removed file. -/
def live (e : Entry) : Bool := !getStatFlag e.value.stat .rm

/-- What a key names is on the DFS strictly below the directory. -/
def NamesBelow (cwd : Path) (path : CString) (dfs : Path → Option Node) (k : CString) : Prop :=
  resolve cwd path <:+ resolve cwd k ∧ resolve cwd k ≠ resolve cwd path ∧ dfs (resolve cwd k) ≠ none

structure FlushesSubtree (cwd : Path) (path : CString) (s t : State) : Prop where
  dfs : t.dfs = s.dfs
  deleted : ∀ k e, s.cache k = some e → live e = true → NamesBelow cwd path s.dfs k → t.cache k = none
  others : ∀ k, (∀ e, s.cache k = some e → live e = true → ¬NamesBelow cwd path s.dfs k) → t.cache k = s.cache k

variable {d : Disk} {s t : State} {path name k : CString} {q p : Path} {es sub rest : Listing CString}

theorem testEntryExist_iff : testEntryExist s path = 1 ↔ (dmkvGet s path).any live = true := by
  unfold testEntryExist live
  cases dmkvGet s path with
  | none => simp
  | some e => cases marked : getStatFlag e.value.stat .rm <;> simp [marked]

theorem flushEntry_dfs (s : State) (path : CString) : (flushEntry s path).dfs = s.dfs := by
  unfold flushEntry
  split <;> rfl

theorem flushEntry_erases (named : IsName name) (s : State) :
    (flushEntry s (path ++ '/' :: name)).cache = eraseOn live {path ++ '/' :: name} s.cache := by
  rw [← ite_update_none]
  unfold flushEntry
  simp only [testEntryExist_iff, dmkvGet, memcKey_child named]
  split
  · rw [dmkvDel_cache, memcKey_child named]
  · rfl

theorem flushLoop_dir (named : IsName name) (nonempty : path ≠ []) (dir : s.dfs (name :: resolve d.cwd path) = some .dir)
    (fits : Fits path (.dir name sub rest)) :
    flushLoop d path (.dir name sub rest) s =
      if d.opendir (name :: resolve d.cwd path) = false then
        (flushLoop d (path ++ '/' :: name) sub (flushEntry s (path ++ '/' :: name))).bind (flushLoop d path rest)
      else none := by
  have at_name := resolve_child nonempty named d.cwd
  have opened : opens d (flushEntry s (path ++ '/' :: name)) (path ++ '/' :: name) ↔
      d.opendir (name :: resolve d.cwd path) = false := by
    unfold opens
    rw [at_name, flushEntry_dfs, dir]
    simp
  rw [flushLoop, dirNew_of_fits fits (.inl rfl)]
  simp only [opened]

theorem flushLoop_erases (nonempty : path ≠ []) (lists : Lists s.dfs (resolve d.cwd path) es) (fits : Fits path es)
    (run : flushLoop d path es s = some t) :
    t.dfs = s.dfs ∧ t.cache = eraseOn live (walkKeys path es) s.cache := by
  induction es generalizing path s t with
  | nil =>
      cases run
      rw [walkKeys_nil, eraseOn_empty]
      exact ⟨rfl, rfl⟩
  | file name rest ih =>
      obtain ⟨named, -, -, later⟩ := lists
      rw [flushLoop, dirNew_of_fits fits (.inl rfl)] at run
      obtain ⟨dfs, cache⟩ := ih nonempty (by rw [flushEntry_dfs]; exact later) (fun r has => fits r (.inr has)) run
      rw [dfs, flushEntry_dfs, cache, flushEntry_erases named, eraseOn_eraseOn, walkKeys_file]
      exact ⟨rfl, rfl⟩
  | dir name sub rest ihSub ihRest =>
      obtain ⟨named, dir, inner, -, later⟩ := lists
      have longer : path ++ '/' :: name ≠ [] := by simp
      rw [flushLoop_dir named nonempty dir fits] at run
      split at run
      · obtain ⟨u, runSub, runRest⟩ := Option.bind_eq_some_iff.mp run
        have lists' : Lists (flushEntry s (path ++ '/' :: name)).dfs (resolve d.cwd (path ++ '/' :: name)) sub := by
          rw [flushEntry_dfs, resolve_child nonempty named]
          exact inner
        obtain ⟨dfsSub, cacheSub⟩ := ihSub longer lists' fits.inner runSub
        rw [flushEntry_dfs] at dfsSub
        obtain ⟨dfs, cache⟩ := ihRest nonempty (by rw [dfsSub]; exact later) (fun r has => fits r (.inr (.inr has))) runRest
        rw [dfs, dfsSub, cache, cacheSub, flushEntry_erases named, eraseOn_eraseOn, eraseOn_eraseOn, walkKeys_dir]
        exact ⟨rfl, rfl⟩
      · cases run

theorem flushLoop_returns (nonempty : path ≠ []) (lists : Lists s.dfs (resolve d.cwd path) es) (fits : Fits path es) :
    (flushLoop d path es s).isSome ↔
      ∀ p, es.Has (resolve d.cwd path) p → s.dfs p = some .dir → d.opendir p = false := by
  induction es generalizing path s with
  | nil => simp [flushLoop, Listing.Has]
  | file name rest ih =>
      obtain ⟨named, ⟨content, file⟩, -, later⟩ := lists
      rw [flushLoop, dirNew_of_fits fits (.inl rfl)]
      rw [ih nonempty (by rw [flushEntry_dfs]; exact later) fun r has => fits r (.inr has), flushEntry_dfs]
      constructor
      · rintro opened p (rfl | has) dir
        · rw [file] at dir
          cases dir
        · exact opened p has dir
      · exact fun opened p has => opened p (.inr has)
  | dir name sub rest ihSub ihRest =>
      obtain ⟨named, dir, inner, -, later⟩ := lists
      have longer : path ++ '/' :: name ≠ [] := by simp
      have at_name := resolve_child nonempty named d.cwd
      have lists' : Lists (flushEntry s (path ++ '/' :: name)).dfs (resolve d.cwd (path ++ '/' :: name)) sub := by
        rw [flushEntry_dfs, at_name]
        exact inner
      have below := ihSub longer lists' fits.inner
      rw [flushEntry_dfs, at_name] at below
      rw [flushLoop_dir named nonempty dir fits]
      split
      · rename_i opens
        cases runSub : flushLoop d (path ++ '/' :: name) sub (flushEntry s (path ++ '/' :: name)) with
        | none =>
            rw [runSub] at below
            simp only [Option.bind_none, Option.isSome_none, Bool.false_eq_true, false_iff]
            exact fun opened => absurd (below.mpr fun p has => opened p (.inr (.inl has))) (by simp)
        | some u =>
            rw [runSub] at below
            have dfsSub := (flushLoop_erases longer lists' fits.inner runSub).1
            rw [flushEntry_dfs] at dfsSub
            rw [Option.bind_some, ihRest nonempty (by rw [dfsSub]; exact later) fun r has => fits r (.inr (.inr has)),
              dfsSub]
            constructor
            · rintro opened p (rfl | has | has)
              · exact fun _ => opens
              · exact below.mp rfl p has
              · exact opened p has
            · exact fun opened p has => opened p (.inr (.inr has))
      · rename_i closed
        simp only [Option.isSome_none, Bool.false_eq_true, false_iff]
        exact fun opened => closed (opened _ (.inl rfl) dir)

/-- The live keys of what is on the DFS below the directory are deleted, and nothing else is changed, exactly if each
directory can be opened and these keys are spelled as the directory is. -/
theorem flushes_subtree_iff (walkable : Walkable d path s) :
    (∃ t, flushDirNew d path s = some t ∧ FlushesSubtree d.cwd path s t) ↔
      (∀ p, resolve d.cwd path <:+ p → s.dfs p = some .dir → d.opendir p = false) ∧
      ∀ k e, s.cache k = some e → live e = true → NamesBelow d.cwd path s.dfs k → ∃ r, Named r ∧ k = path ++ below r := by
  obtain ⟨nonempty, dir, lists, fits⟩ := walkable
  have keys {t : State} (run : flushLoop d path (d.listing (resolve d.cwd path)) s = some t) :
      FlushesSubtree d.cwd path s t ↔ ∀ k e, s.cache k = some e → live e = true → NamesBelow d.cwd path s.dfs k →
        ∃ r, Named r ∧ k = path ++ below r := by
    obtain ⟨dfs, cache⟩ := flushLoop_erases nonempty lists.entries fits run
    have flushes : FlushesSubtree d.cwd path s t ↔ t.cache = eraseOn live {k | NamesBelow d.cwd path s.dfs k} s.cache := by
      rw [eq_eraseOn_iff]
      exact ⟨fun right => ⟨fun k below e there alive => right.deleted k e there alive below, right.others⟩,
        fun ⟨deleted, others⟩ => ⟨dfs, fun k e there alive below => deleted k below e there alive, others⟩⟩
    have member (k : CString) : k ∈ walkKeys path (d.listing (resolve d.cwd path)) ↔
        NamesBelow d.cwd path s.dfs k ∧ ∃ r, Named r ∧ k = path ++ below r := by
      rw [mem_walkKeys_iff nonempty lists.entries, lists.has_iff]
      rfl
    rw [flushes, cache, eraseOn_eq_iff]
    constructor
    · exact fun agree k e there alive inside => ((member k).mp ((agree k e there alive).mpr inside)).2
    · exact fun spelled k e there alive => (member k).trans ⟨And.left, fun inside => ⟨inside, spelled k e there alive inside⟩⟩
  have returns := flushLoop_returns nonempty lists.entries fits
  have opened : flushDirNew d path s = if d.opendir (resolve d.cwd path) = false then
      flushLoop d path (d.listing (resolve d.cwd path)) s else none := by
    simp [flushDirNew, opens, nonempty, dir]
  rw [opened]
  constructor
  · rintro ⟨t, run, right⟩
    split at run
    · rename_i own
      refine ⟨fun p below is => ?_, (keys run).mp right⟩
      by_cases here : p = resolve d.cwd path
      · exact here ▸ own
      · exact returns.mp (by rw [run]; rfl) p (lists.complete p below here (by simp [is])) is
    · cases run
  · rintro ⟨all, spelled⟩
    rw [if_pos (all _ List.suffix_rfl dir)]
    obtain ⟨t, run⟩ := Option.isSome_iff_exists.mp
      (returns.mpr fun p has is => all p (Listing.below_of_has has).1 is)
    exact ⟨t, run, (keys run).mpr spelled⟩

theorem flushes_subtree_iff_example :
    ∃ t, flushDirNew exampleDisk "/w/d".toList (exampleState exampleDir) = some t ∧
      FlushesSubtree [] "/w/d".toList (exampleState exampleDir) t := by
  have is : resolve [] "/w/d".toList = exampleDir := by decide
  refine (flushes_subtree_iff (example_walkable (by decide) is (by decide))).mpr ⟨fun _ _ _ => rfl, ?_⟩
  intro k e there _ _
  refine ⟨[['f']], by decide, ?_⟩
  by_contra other
  cases there.symm.trans (if_neg other)

theorem flush_leaves_key : ¬∀ path : CString, Walkable exampleDisk path (exampleState [['d']]) →
    ∀ t, flushDirNew exampleDisk path (exampleState [['d']]) = some t →
      FlushesSubtree [] path (exampleState [['d']]) t := by
  intro right
  have left : (flushDirNew exampleDisk "//d".toList (exampleState [['d']])).any
      (fun t => (t.cache "/d/f".toList).isSome) = true := by decide
  obtain ⟨t, run, there⟩ := (Option.any_eq_true _ _).mp left
  have is : resolve [] "//d".toList = [['d']] := by decide
  have gone := (right _ (example_walkable (by decide) is (by decide)) t run).deleted "/d/f".toList
    ⟨0, ⟨Env.zero.stat, []⟩⟩ (by decide) (by decide) ⟨by decide, by decide, by decide⟩
  rw [gone] at there
  cases there

end Pacon.Subtree
