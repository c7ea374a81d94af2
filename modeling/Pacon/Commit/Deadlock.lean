import Pacon.Lib.WaitGraph
import Pacon.Commit.Agreement

/-!
# Servers that wait for each other

`retry_commit` keeps a server at one message until the parent is on the DFS. A server so waits for
each one whose queue holds an ancestor of that message, and the servers deadlock exactly in circles.
-/

set_option linter.unusedSectionVars false

namespace Pacon.Commit
open Function Lib Relation

variable {ι κ : Type} [DecidableEq ι] [DecidableEq κ] (cfg : Config ι κ)

/-- The server is inside `retry_commit` on a message whose call on the DFS fails. -/
def Stuck (s : State ι κ) (i : ι) : Prop :=
  ∃ c m, s.server i = .retry c m ∧ ∀ vacant, dfsCall s.dfs vacant m = none

/-- Some message is uncommitted and every server that has messages is stuck. -/
def Deadlock (s : State ι κ) : Prop :=
  (∃ c n m, Pending s c n m) ∧ ∀ c n m, Pending s c n m → Stuck s (cfg.home c)

def InHand (s : State ι κ) (i : ι) (p : Path) : Prop :=
  ∃ c m, (s.server i).serving = some (c, m) ∧ m.path = p

def Untaken (s : State ι κ) (i : ι) (p : Path) : Prop :=
  (∃ c n m, cfg.home c = i ∧ Pending s c n m ∧ m.path = p) ∧ ¬InHand s i p

def Ancestor (u p : Path) : Prop := u <:+ p ∧ u ≠ p

theorem Ancestor.tail {u p : Path} (h : Ancestor u p) : u <:+ p.tail := by
  cases p with
  | nil => exact absurd (List.suffix_nil.mp h.1) h.2
  | cons name q => exact (List.suffix_cons_iff.mp h.1).resolve_left h.2

def WaitsBut (s : State ι κ) (but : Path) (i j : ι) : Prop :=
  ∃ p u, InHand s i p ∧ Ancestor u p ∧ u ≠ but ∧ Untaken cfg s j u

def WaitsFor (s : State ι κ) (i j : ι) : Prop :=
  ∃ p u, InHand s i p ∧ Ancestor u p ∧ Untaken cfg s j u

/-- Taking the next message of `c` closes no circle: no server where an ancestor of it lies untaken
waits, in the end, for the server that takes it. -/
def NoCircle (s : State ι κ) (c : κ) : Prop :=
  ∀ m j u, (s.out c)[s.done c]? = some m → Ancestor u m.path → Untaken cfg s j u →
    ¬ReflTransGen (WaitsBut cfg s m.path) j (cfg.home c)

def Uncircled (s : State ι κ) : Event κ ι → Prop
  | .start _ call => Makes call
  | .take c => NoCircle cfg s c
  | .client _ _ | .server _ _ => True

variable {cfg} {s t : State ι κ}

theorem Uncircled.calls {e : Event κ ι} (h : Uncircled cfg s e) : Calls Makes s e := by
  cases e with
  | start => exact h
  | client | take | server => trivial

theorem InHand.congr (serving : ∀ i, (t.server i).serving = (s.server i).serving) {i : ι} {p : Path} :
    InHand t i p ↔ InHand s i p := by
  simp only [InHand, serving]

theorem WaitsFor.congr (serving : ∀ i, (t.server i).serving = (s.server i).serving)
    (same : issued t = issued s) (done : t.done = s.done) {i j : ι} :
    WaitsFor cfg t i j ↔ WaitsFor cfg s i j := by
  simp only [WaitsFor, Untaken, InHand.congr serving, Pending.congr same done]

theorem Grown.ancestor (g : Grown cfg s) {p u : Path} (below : Below cfg p) (there : s.cache p ≠ none)
    (ancestor : Ancestor u p) (belowU : Below cfg u) : s.cache u ≠ none := by
  induction p with
  | nil => exact absurd (List.suffix_nil.mp ancestor.1) ancestor.2
  | cons name q ih =>
      have inside : u <:+ q := ancestor.tail
      obtain ⟨e, entry⟩ := Option.ne_none_iff_exists'.mp there
      rcases (g.cached entry below.2).parent with root | ⟨belowQ, e', entry', -⟩
      · -- nothing below the root lies above an entry of the root itself
        rw [List.tail_cons] at root
        exact absurd ((root ▸ inside).eq_of_length_le belowU.1.length_le) belowU.2
      · rw [List.tail_cons] at belowQ entry'
        by_cases same : u = q
        · simp [same, entry']
        · exact ih belowQ (by simp [entry']) ⟨inside, same⟩

theorem acyclic_initial (h : Initial cfg s) : Acyclic (WaitsFor cfg s) := by
  have nobody : ∀ i j, ¬WaitsFor cfg s i j := by
    rintro i j ⟨p, u, ⟨c, m, serves, -⟩, -⟩
    rw [h.server i] at serves
    cases serves
  intro i circle
  obtain ⟨j, first, -⟩ := TransGen.head'_iff.mp circle
  exact nobody i j first

theorem Agrees.inHand_pending (w : Within cfg Makes s) {i : ι} {p : Path} (h : InHand s i p) :
    ∃ c m, cfg.home c = i ∧ Pending s c (s.done c) m ∧ m.path = p := by
  obtain ⟨c, m, serves, rfl⟩ := h
  exact ⟨c, m, (w.queued.serving serves).1, w.head serves, rfl⟩

theorem waitsFor_add (a : Agrees cfg s) (g : Grown cfg s) (w : Within cfg Makes s) {c : κ} {new : Msg}
    (below : Below cfg new.path) (absent : s.cache new.path = none)
    (more : issued t = update (issued s) c (issued s c ++ [new])) (done : t.done = s.done)
    (server : t.server = s.server) {i j : ι} (waits : WaitsFor cfg t i j) : WaitsFor cfg s i j := by
  obtain ⟨p, u, inHand, ancestor, ⟨c', n, m, home, pending, rfl⟩, untaken⟩ := waits
  have inHand_iff : ∀ {i p}, InHand t i p ↔ InHand s i p := InHand.congr fun i => by rw [server]
  rw [inHand_iff] at inHand untaken
  refine ⟨p, m.path, inHand, ancestor, ⟨c', n, m, home, ?_, rfl⟩, untaken⟩
  rcases (Pending.issue w.queued more done).mp pending with old | ⟨-, -, rfl⟩
  · exact old
  · obtain ⟨c'', m', -, waits, rfl⟩ := Agrees.inHand_pending w inHand
    obtain ⟨belowP, -, e, entry, -⟩ := a.pending waits
    exact absurd absent (g.ancestor belowP (by simp [entry]) ancestor below)

theorem waitsFor_finish (a : Agrees cfg s) (w : Within cfg Makes s) {i : ι} {c : κ} {m : Msg}
    (serves : (s.server i).serving = some (c, m)) (same : issued t = issued s)
    (done : t.done = update s.done c (s.done c + 1)) (server : t.server = update s.server i .recv)
    {k j : ι} (waits : WaitsFor cfg t k j) : WaitsFor cfg s k j := by
  have inHand_iff : ∀ {k p}, InHand t k p ↔ k ≠ i ∧ InHand s k p := by
    intro k p
    simp only [InHand, server]
    by_cases here : k = i
    · subst here
      simp [ServerPc.serving]
    · simp [here]
  obtain ⟨p, u, inHand, ancestor, ⟨c', n, m', home, pending, rfl⟩, untaken⟩ := waits
  obtain ⟨old, later⟩ := (Pending.finish same done).mp pending
  refine ⟨p, m'.path, (inHand_iff.mp inHand).2, ancestor, ⟨c', n, m', home, old, rfl⟩, ?_⟩
  rintro ⟨c'', m'', serves', samePath⟩
  by_cases here : j = i
  · subst here
    cases serves.symm.trans serves'
    exact later (a.unique old (w.head serves) samePath.symm)
  · exact untaken (inHand_iff.mpr ⟨here, c'', m'', serves', samePath⟩)

theorem acyclic_take (a : Agrees cfg s) (acyclic : Acyclic (WaitsFor cfg s))
    {c : κ} {m : Msg} (pc : s.server (cfg.home c) = .recv) (head : (s.out c)[s.done c]? = some m)
    (guard : NoCircle cfg s c) (same : issued t = issued s) (done : t.done = s.done)
    (server : t.server = update s.server (cfg.home c) (.attempt c m)) : Acyclic (WaitsFor cfg t) := by
  have waits : Pending s c (s.done c) m := by
    obtain ⟨less, rfl⟩ := List.getElem?_eq_some_iff.mp head
    exact ⟨by simp [issued, List.getElem?_append_left less, less], le_rfl⟩
  have inHand_here : ∀ {p}, InHand t (cfg.home c) p ↔ m.path = p := by
    intro p
    simp only [InHand, server, update_self, ServerPc.serving]
    constructor
    · rintro ⟨c', m', same, path⟩
      cases same
      exact path
    · exact fun path => ⟨c, m, rfl, path⟩
  have inHand_other : ∀ {k p}, k ≠ cfg.home c → (InHand t k p ↔ InHand s k p) := by
    intro k p other
    simp only [InHand, server, update_of_ne other]
  have idle : ∀ p, ¬InHand s (cfg.home c) p := by
    rintro p ⟨c', m', serves, -⟩
    rw [pc] at serves
    cases serves
  have untaken_iff : ∀ {j u}, Untaken cfg t j u → u ≠ m.path ∧ Untaken cfg s j u := by
    rintro j u ⟨⟨c', n, m', home, pending, rfl⟩, untaken⟩
    have old := (Pending.congr same done).mp pending
    by_cases here : j = cfg.home c
    · subst here
      exact ⟨fun path => untaken (inHand_here.mpr path.symm), ⟨c', n, m', home, old, rfl⟩, idle _⟩
    · refine ⟨fun path => ?_, ⟨c', n, m', home, old, rfl⟩, fun h => untaken ((inHand_other here).mpr h)⟩
      obtain ⟨rfl, -⟩ := a.unique old waits path
      exact here home.symm
  refine (acyclic.mono (q := WaitsBut cfg s m.path) ?_).extend (i := cfg.home c) ?_ ?_
  · rintro i j ⟨p, u, inHand, ancestor, -, untaken⟩
    exact ⟨p, u, inHand, ancestor, untaken⟩
  · rintro i j ⟨p, u, inHand, ancestor, untaken⟩
    obtain ⟨other, untaken⟩ := untaken_iff untaken
    by_cases here : i = cfg.home c
    · exact .inl here
    · exact .inr ⟨p, u, (inHand_other here).mp inHand, ancestor, other, untaken⟩
  · rintro j ⟨p, u, inHand, ancestor, untaken⟩
    obtain rfl := inHand_here.mp inHand
    exact guard m j u head ancestor (untaken_iff untaken).2

theorem acyclic_move {e : Event κ ι} (a : Agrees cfg s) (g : Grown cfg s) (w : Within cfg Makes s)
    (acyclic : Acyclic (WaitsFor cfg s)) (guard : Uncircled cfg s e) (move : Move cfg s e t) :
    Acyclic (WaitsFor cfg t) := by
  cases makeMove_of_move g w move with
  | quiet cache dfs committed same done server =>
      exact acyclic.mono fun i j => (WaitsFor.congr (fun i => by rw [server]) same done).mp
  | add parent below absent cache dfs committed more done server =>
      exact acyclic.mono fun i j => waitsFor_add a g w below absent more done server
  | take pc head => exact acyclic_take a acyclic pc head guard rfl rfl rfl
  | @fail i env c m pc call =>
      have serving : ∀ j, (update s.server i (.retry c m) j).serving = (s.server j).serving := by
        intro j
        by_cases here : j = i
        · subst here
          rw [update_self, serving_of_attempt pc]
          rfl
        · rw [update_of_ne here]
      exact acyclic.mono fun k j =>
        (WaitsFor.congr (s := s) (t := { s with server := update s.server i (.retry c m) }) serving rfl rfl).mp
  | succeed pc effect =>
      refine acyclic.mono fun k j waits => waitsFor_finish a w (serving_of_attempt pc) ?_ ?_ ?_ waits <;> rfl

theorem acyclic_of_reachable (h : (system cfg).Reachable (Uncircled cfg) s) :
    Acyclic (WaitsFor cfg s) :=
  h.invariant (fun _ => acyclic_initial) fun _ _ _ reach acyclic guard step => by
    have made : (system cfg).Reachable (Calls Makes) _ := reach.mono fun _ _ _ => Uncircled.calls
    exact acyclic_move (agrees_of_reachable made) (grown_of_reachable (fun _ _ => Makes.calls) made)
      (within_of_reachable (fun _ _ => id) made) acyclic guard (move_of_step step)

theorem below_ne_nil {p : Path} (below : Below cfg p) : p ≠ [] := by
  rintro rfl
  exact below.2 (List.suffix_nil.mp below.1).symm

theorem parent_pending (a : Agrees cfg s) (g : Grown cfg s) {c : κ} {n : Nat} {m : Msg}
    (waits : Pending s c n m) (noDir : s.dfs m.path.tail ≠ some .dir) :
    ∃ c' n' m', Pending s c' n' m' ∧ m'.path = m.path.tail := by
  obtain ⟨below, -, e, entry, -⟩ := a.pending waits
  rcases (g.cached entry below.2).parent with root | ⟨belowQ, e', entry', dir⟩
  · exact absurd (root ▸ g.root) noDir
  · rcases a.there belowQ (by simp [entry']) with onDfs | pending
    · obtain ⟨node, onDfs⟩ := Option.ne_none_iff_exists'.mp onDfs
      obtain ⟨e'', entry'', kind⟩ := a.onDfs belowQ onDfs
      cases Option.some.inj (entry'.symm.trans entry'')
      cases node with
      | dir => exact absurd onDfs noDir
      | file content => simp [Value.kind, dir, Node.kind] at kind
    · exact pending

theorem topmost_pending (a : Agrees cfg s) (g : Grown cfg s) {c : κ} {n : Nat} {m : Msg}
    (waits : Pending s c n m) (noDir : s.dfs m.path.tail ≠ some .dir) :
    ∃ c' n' m', Pending s c' n' m' ∧ Ancestor m'.path m.path ∧ s.dfs m'.path.tail = some .dir := by
  obtain ⟨p, path⟩ : ∃ p, m.path = p := ⟨_, rfl⟩
  induction p generalizing c n m with
  | nil => exact absurd path (below_ne_nil (a.pending waits).1)
  | cons name q ih =>
      obtain ⟨c', n', m', waits', parent⟩ := parent_pending a g waits noDir
      simp only [path, List.tail_cons] at parent
      by_cases ready : s.dfs m'.path.tail = some .dir
      · refine ⟨c', n', m', waits', ?_, ready⟩
        rw [parent, path]
        exact ⟨List.suffix_cons _ _, fun same => List.cons_ne_self _ _ same.symm⟩
      · obtain ⟨c'', n'', m'', waits'', ancestor, ready''⟩ := ih waits' ready parent
        refine ⟨c'', n'', m'', waits'', ?_, ready''⟩
        rw [parent] at ancestor
        rw [path]
        refine ⟨ancestor.1.trans (List.suffix_cons _ _), fun same => ?_⟩
        have := ancestor.1.length_le
        rw [same, List.length_cons] at this
        omega

theorem Deadlock.waits (a : Agrees cfg s) (g : Grown cfg s) (w : Within cfg Makes s)
    (deadlock : Deadlock cfg s) {c : κ} {n : Nat} {m : Msg} (pending : Pending s c n m) :
    ∃ c' n' m', Pending s c' n' m' ∧ WaitsFor cfg s (cfg.home c) (cfg.home c') := by
  have noCall : ∀ {i c m}, s.server i = .retry c m → (∀ vacant, dfsCall s.dfs vacant m = none) →
      s.dfs m.path.tail ≠ some .dir := by
    intro i c m pc fails parent
    have serves := serving_of_attempt (.inr pc)
    obtain ⟨below, free, -⟩ := a.pending (w.head serves)
    exact dfsCall_free false (Makes.opt (w.served serves)) (below_ne_nil below) free parent (fails false)
  obtain ⟨c₁, m₁, pc₁, fails₁⟩ := deadlock.2 c n m pending
  have serves₁ := serving_of_attempt (.inr pc₁)
  obtain ⟨c₂, n₂, m₂, pending₂, ancestor, ready⟩ :=
    topmost_pending a g (w.head serves₁) (noCall pc₁ fails₁)
  refine ⟨c₂, n₂, m₂, pending₂, m₁.path, m₂.path, ⟨c₁, m₁, serves₁, rfl⟩, ancestor,
    ⟨c₂, n₂, m₂, rfl, pending₂, rfl⟩, ?_⟩
  rintro ⟨c₃, m₃, serves₃, same⟩
  obtain ⟨c₄, m₄, pc₄, fails₄⟩ := deadlock.2 c₂ n₂ m₂ pending₂
  cases (serving_of_attempt (.inr pc₄)).symm.trans serves₃
  exact noCall pc₄ fails₄ (same ▸ ready)

/-- As long as no server takes a message that closes a circle, there is no deadlock. -/
theorem no_deadlock [Finite ι] (h : (system cfg).Reachable (Uncircled cfg) s) : ¬Deadlock cfg s := by
  intro deadlock
  have made : (system cfg).Reachable (Calls Makes) s := h.mono fun _ _ _ => Uncircled.calls
  have a := agrees_of_reachable made
  have g := grown_of_reachable (fun _ _ => Makes.calls) made
  have w := within_of_reachable (A := Makes) (fun _ _ => id) made
  obtain ⟨c, n, m, pending⟩ := deadlock.1
  obtain ⟨i, ⟨c', n', m', home, pending'⟩, none⟩ := (acyclic_of_reachable h).exists_waits_for_none
    (g := {i | ∃ c n m, cfg.home c = i ∧ Pending s c n m}) ⟨cfg.home c, c, n, m, rfl, pending⟩
  obtain ⟨c'', n'', m'', pending'', waits⟩ := deadlock.waits a g w pending'
  exact none (cfg.home c'') ⟨c'', n'', m'', rfl, pending''⟩ (home ▸ waits)

theorem noCircle_of_idle {c : κ}
    (idle : ∀ m j u, (s.out c)[s.done c]? = some m → Ancestor u m.path → Untaken cfg s j u →
      j ≠ cfg.home c ∧ s.server j = .recv) : NoCircle cfg s c := by
  intro m j u head ancestor untaken circle
  obtain ⟨other, pc⟩ := idle m j u head ancestor untaken
  rcases circle.cases_head with same | ⟨k, ⟨p, v, ⟨c', m', serves, -⟩, -⟩, -⟩
  · exact other same
  · rw [pc] at serves
    cases serves

def childFirst : List (Event Bool Unit) :=
  let client c := Event.client c .zero
  List.flatten
    [[.start false ⟨.make .mkdir, ['a'] :: exampleRoot⟩], List.replicate 3 (client false),
     [.start true ⟨.make .create, ['b'] :: ['a'] :: exampleRoot⟩], List.replicate 5 (client true),
     [.take true, .server () .zero]]

theorem deadlock_reachable : ∃ s, (system (.oneNode Bool exampleRoot)).Reachable (Calls Makes) s ∧
    s.returned false = [(⟨.make .mkdir, ['a'] :: exampleRoot⟩, 0)] ∧
    s.returned true = [(⟨.make .create, ['b'] :: ['a'] :: exampleRoot⟩, 0)] ∧
    Deadlock (.oneNode Bool exampleRoot) s := by
  obtain ⟨s, reach, h⟩ := System.exists_reachable (system (.oneNode Bool exampleRoot)) (Calls Makes)
    (s := initialState (.oneNode Bool exampleRoot) .zero) (initial_initialState _ _ nofun) childFirst
    (fun s => decide (s.returned false = [(⟨.make .mkdir, ['a'] :: exampleRoot⟩, 0)] ∧
      s.returned true = [(⟨.make .create, ['b'] :: ['a'] :: exampleRoot⟩, 0)] ∧
      issued s false = [⟨.mkdir, ['a'] :: exampleRoot⟩] ∧ s.done false = 0 ∧
      s.server () = .retry true ⟨.create, ['b'] :: ['a'] :: exampleRoot⟩ ∧
      ∀ vacant, (dfsCall s.dfs vacant ⟨.create, ['b'] :: ['a'] :: exampleRoot⟩).isNone = true)) rfl
  obtain ⟨first, second, message, waits, pc, fails⟩ := of_decide_eq_true h
  exact ⟨s, reach, first, second, ⟨false, 0, _, by rw [message]; rfl, waits.le⟩, fun _ _ _ _ =>
    ⟨true, _, pc, fun vacant => Option.isNone_iff_eq_none.mp (fails vacant)⟩⟩

def aloneTakes (s : State Bool Bool) : Event Bool Bool → Bool
  | .start _ call => Makes call
  | .take c => (issued s c).length = s.done c + 1 ∧ s.server (!c) = .recv
  | .client _ _ | .server _ _ => true

theorem uncircled_of_aloneTakes {s : State Bool Bool} {e : Event Bool Bool} (h : aloneTakes s e = true) :
    Uncircled (.twoNodes exampleRoot) s e := by
  cases e with
  | start c call =>
      have makes : Makes call := of_decide_eq_true h
      exact makes
  | client | server => trivial
  | take c =>
      obtain ⟨last, idle⟩ := of_decide_eq_true h
      refine noCircle_of_idle fun m j u head ancestor untaken => ?_
      obtain ⟨⟨c', n, m', rfl, pending, rfl⟩, -⟩ := untaken
      have other : c' ≠ c := by
        rintro rfl
        obtain ⟨less, rfl⟩ := List.getElem?_eq_some_iff.mp pending.message
        have same : n = s.done c' := by
          have waits := pending.waits
          omega
        subst same
        have first : (issued s c')[s.done c']? = some m :=
          List.getElem?_append_left (List.getElem?_eq_some_iff.mp head).1 ▸ head
        rw [List.getElem?_eq_getElem less, Option.some.injEq] at first
        exact ancestor.2 (congrArg Msg.path first)
      refine ⟨other, ?_⟩
      rwa [show Config.home (.twoNodes exampleRoot) c' = !c from Bool.eq_not.mpr other]

theorem no_deadlock_retry : ∃ s, (system (.twoNodes exampleRoot)).Reachable (Uncircled (.twoNodes exampleRoot)) s ∧
    s.server true = .retry true ⟨.create, ['b'] :: ['a'] :: exampleRoot⟩ ∧
    issued s false = [⟨.mkdir, ['a'] :: exampleRoot⟩] ∧ s.done false = 0 ∧ s.server false = .recv ∧
    ¬Deadlock (.twoNodes exampleRoot) s := by
  obtain ⟨s, reach, h⟩ := System.exists_reachable (system (.twoNodes exampleRoot))
    (fun s e => aloneTakes s e = true) (s := initialState (.twoNodes exampleRoot) .zero)
    (initial_initialState _ _ nofun) (makeRun.take 12)
    (fun s => decide (s.server true = .retry true ⟨.create, ['b'] :: ['a'] :: exampleRoot⟩ ∧
      issued s false = [⟨.mkdir, ['a'] :: exampleRoot⟩] ∧ s.done false = 0 ∧ s.server false = .recv)) rfl
  obtain ⟨retries, message, waits, idle⟩ := of_decide_eq_true h
  have uncircled := reach.mono fun _ _ _ => uncircled_of_aloneTakes
  exact ⟨s, uncircled, retries, message, waits, idle, no_deadlock uncircled⟩

end Pacon.Commit
