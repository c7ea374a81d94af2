import Pacon.Commit.Arrival
import Pacon.Commit.Finished

/-!
# What is on the DFS at any time

Whenever the caches and the queues are lost, the DFS has kept of each client the calls whose messages its
server has finished: the first ones, in their order, and nothing besides. What they have made is a tree.
-/

set_option linter.unusedSectionVars false

namespace Pacon.Commit
open Function Lib

variable {ι κ : Type} [DecidableEq ι] [DecidableEq κ] {cfg : Config ι κ} {s t : State ι κ}

def madeBy (s : State ι κ) (count : κ → Nat) : Set (Path × Kind) :=
  {x | ∃ c n m, n < count c ∧ (issued s c)[n]? = some m ∧ m.path = x.1 ∧ m.opt.kind = some x.2}

structure Kept (cfg : Config ι κ) (s : State ι κ) : Prop where
  parent : ∀ {p}, Below cfg p → s.dfs p ≠ none → s.dfs p.tail = some .dir
  source : ∀ {p}, Below cfg p → s.dfs p ≠ none → ∃ c n m, n < s.done c ∧ (issued s c)[n]? = some m ∧ m.path = p

theorem Kept.initial (h : Initial cfg s) : Kept cfg s where
  parent below there := absurd (h.empty _ below) there
  source below there := absurd (h.empty _ below) there

theorem Grown.issued_below (g : Grown cfg s) (w : Within cfg Makes s) {c : κ} {m : Msg} (member : m ∈ issued s c) :
    Below cfg m.path := by
  have ok := g.message member
  rcases Makes.opt (w.issued member) with opt | opt <;> simp only [MsgOk, opt] at ok <;> exact ok.1

theorem MakeMove.issued_mono {e : Event κ ι} (move : MakeMove cfg s e t) {c : κ} {n : Nat} {m : Msg}
    (message : (issued s c)[n]? = some m) : (issued t c)[n]? = some m := by
  rcases move.issues with same | ⟨c', new, more, -⟩
  · rwa [same]
  · rw [more]
    by_cases here : c = c'
    · subst here
      rw [update_self, List.getElem?_append_left (List.getElem?_eq_some_iff.mp message).1, message]
    · rwa [update_of_ne here]

theorem DfsEffect.parent {dfs dfs' : Path → Option Node} {m : Msg} (effect : DfsEffect dfs m dfs')
    (makes : m.opt = .mkdir ∨ m.opt = .create) (tree : ∀ {p}, Below cfg p → dfs p ≠ none → dfs p.tail = some .dir)
    {p : Path} (below : Below cfg p) (there : dfs' p ≠ none) : dfs' p.tail = some .dir := by
  have placed {new : Node} (parent : p = m.path → dfs p.tail = some .dir) (file : dfs m.path ≠ some .dir)
      (there : update dfs m.path (some new) p ≠ none) : update dfs m.path (some new) p.tail = some .dir := by
    have dir : dfs p.tail = some .dir := by
      by_cases here : p = m.path
      · exact parent here
      · rw [update_of_ne here] at there
        exact tree below there
    have other : p.tail ≠ m.path := by
      intro same
      rw [same] at dir
      exact file dir
    rw [update_of_ne other, dir]
  cases effect with
  | mkdir opt notRoot free parent | create opt notRoot free parent =>
      exact placed (fun here => here ▸ parent) (by rw [free]; simp) there
  | truncate opt file =>
      exact placed (fun here => tree below (by rw [here, file]; simp)) (by rw [file]; simp) there
  | remove opt => rcases makes with makes | makes <;> cases makes.symm.trans opt

theorem DfsEffect.source {dfs dfs' : Path → Option Node} {m : Msg} (effect : DfsEffect dfs m dfs') {p : Path}
    (there : dfs' p ≠ none) : p = m.path ∨ dfs p ≠ none := by
  by_cases here : p = m.path
  · exact .inl here
  · refine .inr ?_
    cases effect <;> rwa [update_of_ne here] at there

theorem Kept.move {e : Event κ ι} (k : Kept cfg s) (w : Within cfg Makes s) (move : MakeMove cfg s e t) : Kept cfg t := by
  have later {p : Path} (source : ∃ c n m, n < s.done c ∧ (issued s c)[n]? = some m ∧ m.path = p) :
      ∃ c n m, n < t.done c ∧ (issued t c)[n]? = some m ∧ m.path = p := by
    obtain ⟨c, n, m, finished, message, path⟩ := source
    exact ⟨c, n, m, finished.trans_le (move.done_le c), move.issued_mono message, path⟩
  have still (dfs : t.dfs = s.dfs) : Kept cfg t := by
    constructor
    · rw [dfs]
      exact k.parent
    · intro p below there
      rw [dfs] at there
      exact later (k.source below there)
  cases move with
  | quiet cache dfs => exact still dfs
  | add parent below absent cache dfs => exact still dfs
  | take | fail => exact still rfl
  | @succeed i env c m dfs pc effect makes =>
      constructor
      · intro p below there
        exact effect.parent makes k.parent below there
      · intro p below there
        rcases effect.source there with rfl | before
        · have head := (w.head (serving_of_attempt pc)).message
          refine ⟨c, s.done c, m, ?_, head, rfl⟩
          change s.done c < update s.done c (s.done c + 1) c
          rw [update_self]
          exact Nat.lt_succ_self _
        · exact later (k.source below before)

theorem kept_of_reachable (h : (system cfg).Reachable (Calls Makes) s) : Kept cfg s := by
  apply h.invariant
  · intro s initial
    exact .initial initial
  · intro s e t reach k guard step
    have w := within_of_reachable (fun _ _ => id) reach
    exact k.move w (makeMove_of_move (grown_of_reachable (fun _ _ => Makes.calls) reach) w (move_of_step step))

/-- What is on the DFS is a tree, and it is what the first messages of each client make, up to some message
of each; what the later ones make is not there. -/
theorem dfs_holds_prefixes (h : (system cfg).Reachable (Calls Makes) s) :
    dfsPaths cfg s = madeBy s s.done ∧
    (∀ c n m, s.done c ≤ n → (issued s c)[n]? = some m → s.dfs m.path = none) ∧
    ∀ p, Below cfg p → s.dfs p ≠ none → s.dfs p.tail = some .dir := by
  have kept := kept_of_reachable h
  have agrees := agrees_of_reachable h
  have finished := finished_of_reachable h
  have g := grown_of_reachable (fun _ _ => Makes.calls) h
  refine ⟨?_, fun c n m waits message => (agrees.pending ⟨message, waits⟩).2.1, fun p => kept.parent⟩
  ext ⟨p, kind⟩
  constructor
  · rintro ⟨below, node, there, rfl⟩
    obtain ⟨c, n, m, early, message, rfl⟩ := kept.source below (by rw [there]; simp)
    obtain ⟨node', there', same⟩ := finished c n m message early
    cases Option.some.inj (there.symm.trans there')
    exact ⟨c, n, m, early, message, rfl, same⟩
  · rintro ⟨c, n, m, early, message, rfl, same⟩
    obtain ⟨node, there, kind'⟩ := finished c n m message early
    have below := g.issued_below (within_of_reachable (fun _ _ => id) h) (List.mem_of_getElem? message)
    exact ⟨below, node, there, Option.some.inj (kind'.symm.trans same)⟩

theorem dfs_holds_prefixes_run : ∃ s, (system (.twoNodes exampleRoot)).Reachable (Calls Makes) s ∧
    (['a'] :: exampleRoot, .dir) ∈ madeBy s s.done ∧ (issued s true).length = 1 ∧
    s.dfs (['b'] :: ['a'] :: exampleRoot) = none ∧ dfsPaths (.twoNodes exampleRoot) s = madeBy s s.done := by
  obtain ⟨s, reach, h⟩ := System.exists_reachable (system (.twoNodes exampleRoot)) (Calls Makes)
    (s := initialState (.twoNodes exampleRoot) .zero) (initial_initialState _ _ (by simp [exampleRoot, Config.twoNodes]))
    makeRun.dropLast
    (fun s : State Bool Bool => decide (s.done true = 0 ∧ issued s true = [⟨.create, ['b'] :: ['a'] :: exampleRoot⟩] ∧
      s.done false = 1 ∧ (issued s false)[0]? = some (Msg.mk .mkdir (['a'] :: exampleRoot)))) rfl
  obtain ⟨none, waiting, one, first⟩ := of_decide_eq_true h
  obtain ⟨same, absent, -⟩ := dfs_holds_prefixes reach
  refine ⟨s, reach, ⟨false, 0, _, by omega, first, rfl, rfl⟩, by rw [waiting]; rfl, ?_, same⟩
  exact absent true 0 ⟨.create, ['b'] :: ['a'] :: exampleRoot⟩ (by omega) (by rw [waiting]; rfl)

end Pacon.Commit
