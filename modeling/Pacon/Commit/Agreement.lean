import Pacon.Commit.Growth
import Mathlib.Data.Set.Basic
import Mathlib.Data.List.Count

/-!
# The cached namespace and the namespace of the DFS

With `pacon_mkdir` and `pacon_create` alone, what is cached below the root is what is on the DFS
there together with what the pending messages will make.
-/

set_option linter.unusedSectionVars false

namespace Pacon.Commit
open Function Lib

def Node.kind : Node → Kind
  | .dir => .dir
  | .file _ => .file

def OptType.kind : OptType → Option Kind
  | .mkdir => some .dir
  | .create => some .file
  | .rm | .write => none

variable {ι κ : Type} [DecidableEq ι] [DecidableEq κ] (cfg : Config ι κ)

def Makes (call : Call) : Prop := call.op = .make .mkdir ∨ call.op = .make .create

instance (call : Call) : Decidable (Makes call) := inferInstanceAs (Decidable (_ ∨ _))

inductive MakeMove (s : State ι κ) : Event κ ι → State ι κ → Prop
  | quiet {e t} (cache : t.cache = s.cache) (dfs : t.dfs = s.dfs) (committed : t.committed = s.committed)
      (same : issued t = issued s) (done : t.done = s.done) (server : t.server = s.server) :
      MakeMove s e t
  | add {c env m p t} (parent : DirAt cfg s.cache p.tail) (below : Below cfg p)
      (absent : s.cache p = none) (cache : t.cache = (store s p (newValue env m)).cache)
      (dfs : t.dfs = s.dfs) (committed : t.committed = s.committed)
      (more : issued t = update (issued s) c (issued s c ++ [Call.msg ⟨.make m, p⟩]))
      (done : t.done = s.done) (server : t.server = s.server) : MakeMove s (.client c env) t
  | take {c m} (pc : s.server (cfg.home c) = .recv) (head : (s.out c)[s.done c]? = some m)
      (makes : m.opt = .mkdir ∨ m.opt = .create) :
      MakeMove s (.take c) { s with server := update s.server (cfg.home c) (.attempt c m) }
  | fail {i env c m} (pc : s.server i = .attempt c m ∨ s.server i = .retry c m)
      (call : dfsCall s.dfs env.vacant m = none) :
      MakeMove s (.server i env) { s with server := update s.server i (.retry c m) }
  | succeed {i env c m dfs} (pc : s.server i = .attempt c m ∨ s.server i = .retry c m)
      (effect : DfsEffect s.dfs m dfs) (makes : m.opt = .mkdir ∨ m.opt = .create) :
      MakeMove s (.server i env) (finish
        { s with dfs := dfs, committed := s.committed ++ [m.path],
                 synced := update s.synced m.path false } i c)

variable {cfg} {s t : State ι κ}

theorem Makes.keeps {call : Call} (h : Makes call) : Keeps call := by
  intro rm
  rcases h with h | h <;> cases h.symm.trans rm

theorem Makes.calls {e : Event κ ι} (h : Calls Makes s e) : Calls Keeps s e := by
  cases e with
  | start c call => exact Makes.keeps h
  | client | take | server => trivial

theorem Makes.opt {m : Msg} (h : ∃ call, Makes call ∧ m = call.msg) :
    m.opt = .mkdir ∨ m.opt = .create := by
  obtain ⟨⟨op, p⟩, makes, rfl⟩ := h
  rcases makes with is | is <;> cases is
  · exact .inl rfl
  · exact .inr rfl

theorem makeMove_of_move {e : Event κ ι} (g : Grown cfg s) (w : Within cfg Makes s)
    (move : Move cfg s e t) : MakeMove cfg s e t := by
  have at_client : ∀ {c pc}, s.client c = pc → ClientOk cfg s.cache s.clock pc :=
    fun at_pc => at_pc ▸ g.client _
  have runs : ∀ {c pc call}, s.client c = pc → pc.running = some call → Makes call :=
    fun at_pc runs => w.running (at_pc ▸ runs)
  have quiet : ∀ {u : State ι κ} {c pc} {e : Event κ ι}, u.cache = s.cache → u.dfs = s.dfs →
      u.committed = s.committed → u.client = s.client → u.out = s.out → u.done = s.done →
      u.server = s.server → (s.client c).unsent = none → pc.unsent = none →
      MakeMove cfg s e (setPc u c pc) :=
    fun cache dfs committed client out done server before after =>
      .quiet cache dfs committed ((issued_congr client out _ _).trans (issued_goOn before after)) done server
  have serves : ∀ {i c m}, (s.server i).serving = some (c, m) → m.opt = .mkdir ∨ m.opt = .create :=
    fun serves => Makes.opt (w.served serves)
  have not_serves : ∀ {i c p opt}, (s.server i).serving = some (c, ⟨opt, p⟩) → opt ≠ .mkdir →
      opt ≠ .create → False := fun h mkdir create => (serves h).elim mkdir create
  cases move with
  | start free => exact quiet rfl rfl rfl rfl rfl rfl rfl (by rw [free]; rfl) (beginCall_unsent _ _)
  | goOn at_pc goes =>
      exact quiet rfl rfl rfl rfl rfl rfl rfl (at_pc ▸ goes.unsent.1) goes.unsent.2
  | parentAdd at_pc =>
      exact quiet rfl rfl rfl rfl rfl rfl rfl (by rw [at_pc]; rfl) (afterParent_unsent _ _)
  | ret at_pc => exact quiet rfl rfl rfl rfl rfl rfl rfl (by rw [at_pc]; rfl) rfl
  | send at_pc => exact .quiet rfl rfl rfl (issued_send at_pc) rfl rfl
  | loadAdd at_pc key absent =>
      obtain ⟨m, p, rfl, -, -, there⟩ := at_client at_pc
      exact absurd absent there
  | childCas at_pc | addSet at_pc | rmCas at_pc | rmLate at_pc => exact (at_client at_pc).elim
  | add at_pc key absent =>
      have parent := at_client at_pc key
      exact .add parent (below_of_dirAt key parent) absent rfl rfl rfl
        ((issued_congr (s := s) rfl rfl _ _).trans
          (issued_decide (congrArg ClientPc.unsent at_pc))) rfl rfl
  | addAgain at_pc => rcases runs at_pc rfl with h | h <;> cases h
  | writeCas at_pc => rcases runs at_pc rfl with h | h <;> cases h
  | @take c m pc head =>
      have makes : m.opt = .mkdir ∨ m.opt = .create :=
        Makes.opt (w.issued (c := c) (List.mem_append_left _ (List.mem_of_getElem? head)))
      have attempt : dispatch c m = .attempt c m := by
        rcases makes with h | h <;> simp [dispatch, h]
      rw [attempt]
      exact .take pc head makes
  | rmVoid pc | rmFound pc | rmDel pc | dropWrite pc | openWrite pc | writeVoid pc | writeRead pc
  | writeBack pc => exact (not_serves (congrArg ServerPc.serving pc) nofun nofun).elim
  | @succeed i env c m dfs pc call =>
      have makes := serves (serving_of_attempt pc)
      unfold Commit.succeed
      split
      · rename_i rm
        rcases makes with h | h <;> cases h.symm.trans rm
      all_goals exact .succeed pc (dfsCall_effect call) makes
  | fail pc call => exact .fail pc call

structure Agrees (cfg : Config ι κ) (s : State ι κ) : Prop where
  there : ∀ {p}, Below cfg p → s.cache p ≠ none →
    s.dfs p ≠ none ∨ ∃ c n m, Pending s c n m ∧ m.path = p
  pending : ∀ {c n m}, Pending s c n m → Below cfg m.path ∧ s.dfs m.path = none ∧
    ∃ e, s.cache m.path = some e ∧ m.opt.kind = some e.value.kind
  unique : ∀ {c n m c' n' m'}, Pending s c n m → Pending s c' n' m' → m.path = m'.path →
    c = c' ∧ n = n'
  onDfs : ∀ {p node}, Below cfg p → s.dfs p = some node →
    ∃ e, s.cache p = some e ∧ e.value.kind = node.kind
  nodup : s.committed.Nodup
  committed : ∀ p, p ∈ s.committed ↔ Below cfg p ∧ s.dfs p ≠ none

theorem Agrees.initial (h : Initial cfg s) : Agrees cfg s where
  there {p} below there := absurd (h.cache p below.2) there
  pending {c n m} waits := by
    have message := waits.message
    simp [issued, h.out c, h.client c, ClientPc.unsent] at message
  unique {c n m c' n' m'} waits := by
    have message := waits.message
    simp [issued, h.out c, h.client c, ClientPc.unsent] at message
  onDfs {p node} below there := by
    rw [h.empty p below] at there
    cases there
  nodup := by simp [h.committed]
  committed p := by
    rw [h.committed]
    refine ⟨fun member => (List.not_mem_nil member).elim, ?_⟩
    rintro ⟨below, there⟩
    exact absurd (h.empty p below) there

theorem Agrees.quiet (a : Agrees cfg s) (cache : t.cache = s.cache) (dfs : t.dfs = s.dfs)
    (committed : t.committed = s.committed) (same : issued t = issued s) (done : t.done = s.done) :
    Agrees cfg t where
  there {p} below there := by
    simp only [cache, dfs, Pending.congr same done] at there ⊢
    exact a.there below there
  pending {c n m} waits := by
    rw [cache, dfs]
    exact a.pending ((Pending.congr same done).mp waits)
  unique waits waits' := a.unique ((Pending.congr same done).mp waits) ((Pending.congr same done).mp waits')
  onDfs := by rw [cache, dfs]; exact a.onDfs
  nodup := committed ▸ a.nodup
  committed := by rw [committed, dfs]; exact a.committed

theorem kind_newValue (env : Env) (m : Make) (p : Path) :
    (Call.msg ⟨.make m, p⟩).opt.kind = some (newValue env m).kind := by
  rw [Value.kind, newValue_type]
  cases m <;> rfl

theorem Agrees.add (a : Agrees cfg s) (q : Queued cfg s) (g : Grown cfg s) {v : Value} {new : Msg}
    {c : κ} (below : Below cfg new.path) (absent : s.cache new.path = none)
    (kind : new.opt.kind = some v.kind) (cache : t.cache = (store s new.path v).cache)
    (dfs : t.dfs = s.dfs) (committed : t.committed = s.committed)
    (more : issued t = update (issued s) c (issued s c ++ [new])) (done : t.done = s.done) :
    Agrees cfg t := by
  have offDfs : s.dfs new.path = none := by
    by_contra there
    exact g.onDfs below there absent
  have other : ∀ {c n m}, Pending s c n m → m.path ≠ new.path := by
    intro c n m waits same
    obtain ⟨-, -, e, entry, -⟩ := a.pending waits
    rw [same, absent] at entry
    cases entry
  have issue : ∀ {c' n m}, Pending t c' n m ↔ _ := Pending.issue q more done
  constructor
  · intro p belowP there
    rw [dfs]
    by_cases here : p = new.path
    · exact .inr ⟨c, _, new, issue.mpr (.inr ⟨rfl, rfl, rfl⟩), here.symm⟩
    · rw [cache, store_cache, update_of_ne here] at there
      refine (a.there belowP there).imp_right ?_
      rintro ⟨c', n, m, waits, same⟩
      exact ⟨c', n, m, issue.mpr (.inl waits), same⟩
  · intro c' n m waits
    rw [dfs, cache, store_cache]
    rcases issue.mp waits with old | ⟨-, -, rfl⟩
    · rw [update_of_ne (other old)]
      exact a.pending old
    · exact ⟨below, offDfs, ⟨s.clock, v⟩, update_self .., kind⟩
  · intro c₁ n₁ m₁ c₂ n₂ m₂ first second same
    rcases issue.mp first with old₁ | ⟨rfl, rfl, rfl⟩ <;>
      rcases issue.mp second with old₂ | ⟨rfl, rfl, rfl⟩
    · exact a.unique old₁ old₂ same
    · exact absurd same (other old₁)
    · exact absurd same.symm (other old₂)
    · exact ⟨rfl, rfl⟩
  · intro p node belowP there
    rw [dfs] at there
    have differs : p ≠ new.path := by
      rintro rfl
      rw [offDfs] at there
      cases there
    rw [cache, store_cache, update_of_ne differs]
    exact a.onDfs belowP there
  · exact committed ▸ a.nodup
  · rw [committed, dfs]
    exact a.committed

theorem Agrees.succeed (a : Agrees cfg s) {c : κ} {m : Msg} (waits : Pending s c (s.done c) m)
    {node : Node} (kind : m.opt.kind = some node.kind) (cache : t.cache = s.cache)
    (dfs : t.dfs = update s.dfs m.path (some node)) (committed : t.committed = s.committed ++ [m.path])
    (same : issued t = issued s) (done : t.done = update s.done c (s.done c + 1)) : Agrees cfg t := by
  obtain ⟨below, offDfs, e, entry, kindE⟩ := a.pending waits
  have finish : ∀ {c' n m'}, Pending t c' n m' ↔ _ := Pending.finish same done
  constructor
  · intro p belowP there
    rw [cache] at there
    by_cases here : p = m.path
    · exact .inl (by rw [dfs, here, update_self]; simp)
    · rw [dfs, update_of_ne here]
      refine (a.there belowP there).imp_right ?_
      rintro ⟨c', n, m', waits', rfl⟩
      refine ⟨c', n, m', finish.mpr ⟨waits', ?_⟩, rfl⟩
      rintro ⟨rfl, rfl⟩
      exact here (congrArg Msg.path (Option.some.inj (waits'.message.symm.trans waits.message)))
  · intro c' n m' waits'
    obtain ⟨old, later⟩ := finish.mp waits'
    have differs : m'.path ≠ m.path := fun same => later (a.unique old waits same)
    rw [dfs, cache, update_of_ne differs]
    exact a.pending old
  · intro c₁ n₁ m₁ c₂ n₂ m₂ first second
    exact a.unique (finish.mp first).1 (finish.mp second).1
  · intro p node' belowP there
    rw [cache]
    by_cases here : p = m.path
    · subst here
      rw [dfs, update_self] at there
      cases there
      exact ⟨e, entry, Option.some.inj (kindE.symm.trans kind)⟩
    · rw [dfs, update_of_ne here] at there
      exact a.onDfs belowP there
  · rw [committed]
    refine a.nodup.append (List.nodup_singleton _) ?_
    rw [List.disjoint_singleton]
    exact fun member => ((a.committed _).mp member).2 offDfs
  · intro p
    rw [committed, dfs, List.mem_append, List.mem_singleton, a.committed]
    by_cases here : p = m.path
    · subst here
      simp [below]
    · simp [here]

theorem Agrees.move {e : Event κ ι} (a : Agrees cfg s) (g : Grown cfg s) (w : Within cfg Makes s)
    (move : Move cfg s e t) : Agrees cfg t := by
  cases makeMove_of_move g w move with
  | quiet cache dfs committed same done server => exact a.quiet cache dfs committed same done
  | @add c env m p t parent below absent cache dfs committed more done =>
      exact a.add w.queued g below absent (kind_newValue env m p) cache dfs committed more done
  | take => exact a.quiet rfl rfl rfl rfl rfl
  | fail => exact a.quiet rfl rfl rfl rfl rfl
  | @succeed i env c m dfs pc effect makes =>
      have waits := w.head (serving_of_attempt pc)
      cases effect with
      | mkdir opt => exact a.succeed waits (by rw [opt]; rfl) rfl rfl rfl rfl rfl
      | create opt => exact a.succeed waits (by rw [opt]; rfl) rfl rfl rfl rfl rfl
      | truncate opt => exact a.succeed waits (by rw [opt]; rfl) rfl rfl rfl rfl rfl
      | remove opt => rcases makes with h | h <;> cases h.symm.trans opt

theorem agrees_of_reachable (h : (system cfg).Reachable (Calls Makes) s) : Agrees cfg s :=
  h.invariant (fun _ => .initial) fun _ _ _ reach a _ step =>
    a.move (grown_of_reachable (fun _ _ => Makes.calls) reach)
      (within_of_reachable (fun _ _ => id) reach) (move_of_step step)

def cachedPaths (cfg : Config ι κ) (s : State ι κ) : Set (Path × Kind) :=
  {x | Below cfg x.1 ∧ ∃ e, s.cache x.1 = some e ∧ e.value.kind = x.2}

def dfsPaths (cfg : Config ι κ) (s : State ι κ) : Set (Path × Kind) :=
  {x | Below cfg x.1 ∧ ∃ node, s.dfs x.1 = some node ∧ node.kind = x.2}

def pendingPaths (s : State ι κ) : Set (Path × Kind) :=
  {x | ∃ c n m, Pending s c n m ∧ m.path = x.1 ∧ m.opt.kind = some x.2}

theorem Agrees.union (a : Agrees cfg s) : cachedPaths cfg s = dfsPaths cfg s ∪ pendingPaths s := by
  ext ⟨p, kind⟩
  constructor
  · rintro ⟨below, e, entry, rfl⟩
    rcases a.there below (by rw [entry]; simp) with there | ⟨c, n, m, waits, rfl⟩
    · obtain ⟨node, there⟩ := Option.ne_none_iff_exists'.mp there
      obtain ⟨e', entry', same⟩ := a.onDfs below there
      cases Option.some.inj (entry.symm.trans entry')
      exact .inl ⟨below, node, there, same.symm⟩
    · obtain ⟨-, -, e', entry', same⟩ := a.pending waits
      cases Option.some.inj (entry.symm.trans entry')
      exact .inr ⟨c, n, m, waits, rfl, same⟩
  · rintro (⟨below, node, there, rfl⟩ | ⟨c, n, m, waits, rfl, same⟩)
    · obtain ⟨e, entry, kind⟩ := a.onDfs below there
      exact ⟨below, e, entry, kind⟩
    · obtain ⟨below, -, e, entry, kind'⟩ := a.pending waits
      exact ⟨below, e, entry, Option.some.inj (kind'.symm.trans same)⟩

/-- The cached namespace is at every time the disjoint union of what is on the DFS and what the
pending messages make, one message a path; drained queues leave the two namespaces equal, every path
committed once. -/
theorem cached_eq_dfs_union_pending (h : (system cfg).Reachable (Calls Makes) s) :
    cachedPaths cfg s = dfsPaths cfg s ∪ pendingPaths s ∧
    (∀ x ∈ dfsPaths cfg s, ∀ y ∈ pendingPaths s, x.1 ≠ y.1) ∧
    (∀ c n m c' n' m', Pending s c n m → Pending s c' n' m' → m.path = m'.path → c = c' ∧ n = n') ∧
    (Drained s → dfsPaths cfg s = cachedPaths cfg s ∧
      ∀ p, Below cfg p → s.cache p ≠ none → s.committed.count p = 1) := by
  have a := agrees_of_reachable h
  refine ⟨a.union, ?_, fun _ _ _ _ _ _ => a.unique, fun drained => ⟨?_, fun p below there => ?_⟩⟩
  · rintro x ⟨-, node, there, -⟩ y ⟨c, n, m, waits, path, -⟩ same
    rw [same, ← path, (a.pending waits).2.1] at there
    cases there
  · have nothing : pendingPaths s = ∅ := by
      apply Set.eq_empty_of_forall_notMem
      rintro x ⟨c, n, m, waits, -⟩
      exact drained.not_pending waits
    rw [a.union, nothing, Set.union_empty]
  · rcases a.there below there with onDfs | ⟨c, n, m, waits, -⟩
    · exact List.count_eq_one_of_mem a.nodup ((a.committed p).mpr ⟨below, onDfs⟩)
    · exact (drained.not_pending waits).elim

def exampleRoot : Path := [['w']]

def makeRun : List (Event Bool Bool) :=
  let client c := Event.client c .zero
  let server i := Event.server i .zero
  List.flatten
    [[.start false ⟨.make .mkdir, ['a'] :: exampleRoot⟩], List.replicate 3 (client false),
     [.start true ⟨.make .create, ['b'] :: ['a'] :: exampleRoot⟩], List.replicate 5 (client true),
     [.take true, server true, .take false, server false, server true]]

theorem cached_eq_dfs_union_pending_run : ∃ s, (system (.twoNodes exampleRoot)).Reachable (Calls Makes) s ∧
    Drained s ∧ dfsPaths (.twoNodes exampleRoot) s = cachedPaths (.twoNodes exampleRoot) s ∧
    s.committed.count (['b'] :: ['a'] :: exampleRoot) = 1 := by
  obtain ⟨s, reach, h⟩ := System.exists_reachable (system (.twoNodes exampleRoot)) (Calls Makes)
    (s := initialState (.twoNodes exampleRoot) .zero) (initial_initialState _ _ nofun) makeRun
    (fun s => decide (Drained s ∧ s.cache (['b'] :: ['a'] :: exampleRoot) ≠ none)) rfl
  obtain ⟨drained, there⟩ := of_decide_eq_true h
  obtain ⟨-, -, -, done⟩ := cached_eq_dfs_union_pending reach
  exact ⟨s, reach, drained, (done drained).1, (done drained).2 _ (by decide) there⟩

end Pacon.Commit
