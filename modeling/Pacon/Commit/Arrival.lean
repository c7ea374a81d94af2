import Pacon.Lib.Fair
import Pacon.Commit.Deadlock

/-!
# Servers that take messages in the order of the entries

Entries get their CAS ids in the order in which they are added, parents before children. A server that
takes the messages of its clients in this order waits for nobody for ever: the earliest pending message
finds its parent on the DFS.
-/

set_option linter.unusedSectionVars false

namespace Pacon.Commit
open Function Lib

variable {ι κ : Type} [DecidableEq ι] [DecidableEq κ] (cfg : Config ι κ)

def stamp (s : State ι κ) (p : Path) : Nat := ((s.cache p).map Entry.cas).getD 0

def Earliest (s : State ι κ) (c : κ) : Prop :=
  ∀ m ∈ (s.out c)[s.done c]?, ∀ d, cfg.home d = cfg.home c →
    ∀ m' ∈ (issued s d).drop (s.done d), stamp s m.path ≤ stamp s m'.path

def InArrival (s : State ι κ) : Event κ ι → Prop
  | .start _ call => Makes call
  | .take c => Earliest cfg s c
  | .client _ _ | .server _ _ => True

structure Stamped (s : State ι κ) : Prop where
  increasing : ∀ c, (issued s c).Pairwise fun m m' => stamp s m.path < stamp s m'.path
  child : ∀ {p}, s.cache p ≠ none → Below cfg p → Below cfg p.tail → stamp s p.tail < stamp s p
  distinct : ∀ {p q e e'}, s.cache p = some e → s.cache q = some e' → e.cas = e'.cas → p = q

def Foremost (s : State ι κ) : Prop :=
  ∀ i c m, (s.server i).serving = some (c, m) → ∀ d n m', cfg.home d = i → Pending s d n m' →
    stamp s m.path ≤ stamp s m'.path

variable {cfg} {s t : State ι κ}

theorem InArrival.calls {e : Event κ ι} (h : InArrival cfg s e) : Calls Makes s e := by
  cases e with
  | start => exact h
  | client | take | server => trivial

theorem Pending.mem_drop {c : κ} {n : Nat} {m : Msg} (h : Pending s c n m) : m ∈ (issued s c).drop (s.done c) := by
  rw [List.mem_iff_getElem?]
  exact ⟨n - s.done c, by rw [List.getElem?_drop, Nat.add_sub_cancel' h.waits, h.message]⟩

theorem Pending.mono {c : κ} {n : Nat} {m : Msg} (h : Pending t c n m) (same : issued t = issued s)
    (less : s.done ≤ t.done) : Pending s c n m :=
  ⟨same ▸ h.message, (less c).trans h.waits⟩

theorem stamp_of_entry {p : Path} {e : Entry} (entry : s.cache p = some e) : stamp s p = e.cas := by
  rw [stamp, entry]
  rfl

theorem stamp_congr {p : Path} (same : t.cache p = s.cache p) : stamp t p = stamp s p := by
  rw [stamp, stamp, same]

theorem stamp_store {p : Path} {v : Value} (cache : t.cache = (store s p v).cache) : stamp t p = s.clock := by
  rw [stamp, cache, store_cache, update_self]
  rfl

theorem Grown.stamp_lt (g : Grown cfg s) {p : Path} (there : s.cache p ≠ none) : stamp s p < s.clock := by
  obtain ⟨e, entry⟩ := Option.ne_none_iff_exists'.mp there
  rw [stamp_of_entry entry]
  exact g.cas entry

theorem Grown.issued_there (g : Grown cfg s) (w : Within cfg Makes s) {c : κ} {m : Msg} (member : m ∈ issued s c) :
    s.cache m.path ≠ none := by
  have ok := g.message member
  rcases Makes.opt (w.issued member) with opt | opt
  · simp only [MsgOk, opt] at ok
    obtain ⟨-, e, entry, -⟩ := ok
    simp [entry]
  · simp only [MsgOk, opt] at ok
    exact ok.2

theorem MakeMove.entry {e : Event κ ι} (move : MakeMove cfg s e t) {p : Path} (there : s.cache p ≠ none) :
    t.cache p = s.cache p := by
  cases move with
  | quiet cache => rw [cache]
  | add parent below absent cache =>
      rw [cache, store_cache, update_of_ne]
      exact fun same => there (same ▸ absent)
  | take | fail | succeed => rfl

theorem MakeMove.issues {e : Event κ ι} (move : MakeMove cfg s e t) : issued t = issued s ∨
    ∃ c new, issued t = update (issued s) c (issued s c ++ [new]) ∧ t.done = s.done ∧ t.server = s.server ∧
      s.cache new.path = none ∧ stamp t new.path = s.clock := by
  cases move with
  | quiet cache dfs committed same => exact .inl same
  | @add c env m p t parent below absent cache dfs committed more done server =>
      exact .inr ⟨c, _, more, done, server, absent, stamp_store cache⟩
  | take | fail | succeed => exact .inl rfl

theorem MakeMove.done_le {e : Event κ ι} (move : MakeMove cfg s e t) : s.done ≤ t.done := by
  cases move with
  | quiet cache dfs committed same done => exact done.ge
  | add parent below absent cache dfs committed more done => exact done.ge
  | take | fail => exact le_rfl
  | @succeed i env c => exact le_update_self_iff.mpr (Nat.le_succ (s.done c))

theorem MakeMove.cached {e : Event κ ι} (move : MakeMove cfg s e t) {p : Path} (there : t.cache p ≠ none) :
    s.cache p ≠ none ∨ s.cache p = none ∧ stamp t p = s.clock ∧ DirAt cfg s.cache p.tail := by
  cases move with
  | quiet cache => exact .inl (cache ▸ there)
  | @add c env m q t parent below absent cache =>
      by_cases here : p = q
      · subst here
        exact .inr ⟨absent, stamp_store cache, parent⟩
      · rw [cache, store_cache, update_of_ne here] at there
        exact .inl there
  | take | fail | succeed => exact .inl there

theorem Stamped.initial (h : Initial cfg s) : Stamped cfg s where
  increasing c := by simp [issued, h.out c, h.client c, ClientPc.unsent]
  child {p} there below := absurd (h.cache p below.2) there
  distinct {p q e e'} entry entry' _ := by
    have root {p e} (entry : s.cache p = some e) : p = cfg.root := by
      by_contra other
      rw [h.cache p other] at entry
      cases entry
    rw [root entry, root entry']

theorem Stamped.move {e : Event κ ι} (st : Stamped cfg s) (g : Grown cfg s) (w : Within cfg Makes s)
    (move : MakeMove cfg s e t) : Stamped cfg t := by
  have old {p : Path} (there : s.cache p ≠ none) : stamp t p = stamp s p := stamp_congr (move.entry there)
  have before {c : κ} : (issued s c).Pairwise fun m m' => stamp t m.path < stamp t m'.path :=
    (st.increasing c).imp_of_mem fun member member' less => by
      rwa [old (g.issued_there w member), old (g.issued_there w member')]
  constructor
  · intro c
    rcases move.issues with same | ⟨d, new, more, -, -, -, latest⟩
    · rw [same]
      exact before
    · rw [more]
      by_cases here : c = d
      · subst here
        rw [update_self, List.pairwise_append]
        refine ⟨before, List.pairwise_singleton .., ?_⟩
        intro m member m' is
        cases List.mem_singleton.mp is
        have there := g.issued_there w member
        rw [latest, old there]
        exact g.stamp_lt there
      · rw [update_of_ne here]
        exact before
  · intro p there below belowParent
    rcases move.cached there with earlier | ⟨-, latest, parent⟩
    · have parent : s.cache p.tail ≠ none := by
        obtain ⟨e, entry⟩ := Option.ne_none_iff_exists'.mp earlier
        rcases (g.cached entry below.2).parent with root | ⟨-, e', entry', -⟩
        · exact absurd root belowParent.2
        · simp [entry']
      rw [old earlier, old parent]
      exact st.child earlier below belowParent
    · rcases parent with root | ⟨-, e', entry', -⟩
      · exact absurd root belowParent.2
      · have there : s.cache p.tail ≠ none := by simp [entry']
        rw [latest, old there]
        exact g.stamp_lt there
  · intro p q e₁ e₂ entry₁ entry₂ same
    have id₁ := stamp_of_entry entry₁
    have id₂ := stamp_of_entry entry₂
    rcases move.cached (p := p) (by simp [entry₁]) with there | ⟨absent, latest, -⟩ <;>
      rcases move.cached (p := q) (by simp [entry₂]) with there' | ⟨absent', latest', -⟩
    · exact st.distinct ((move.entry there).symm.trans entry₁) ((move.entry there').symm.trans entry₂) same
    · have less := g.stamp_lt there
      rw [old there] at id₁
      omega
    · have less := g.stamp_lt there'
      rw [old there'] at id₂
      omega
    · cases move with
      | quiet cache =>
          rw [cache, absent] at entry₁
          cases entry₁
      | @add c env m r t parent below absentR cache =>
          have isNew {x : Path} {e : Entry} (entry : t.cache x = some e) (absent : s.cache x = none) : x = r := by
            by_contra other
            rw [cache, store_cache, update_of_ne other, absent] at entry
            cases entry
          rw [isNew entry₁ absent, isNew entry₂ absent']
      | take | fail | succeed => exact absurd (absent.symm.trans entry₁) nofun

theorem Foremost.goOn {i : ι} {pc : ServerPc κ} (f : Foremost cfg s) (cache : t.cache = s.cache)
    (server : t.server = update s.server i pc) (fewer : ∀ {d n m}, Pending t d n m → Pending s d n m)
    (new : ∀ c m, pc.serving = some (c, m) → ∀ d n m', cfg.home d = i → Pending s d n m' →
      stamp s m.path ≤ stamp s m'.path) : Foremost cfg t := by
  have same (p : Path) : stamp t p = stamp s p := stamp_congr (congrFun cache p)
  intro j c m serves d n m' home pending
  rw [same, same]
  rw [server] at serves
  by_cases here : j = i
  · subst here
    rw [update_self] at serves
    exact new c m serves d n m' home (fewer pending)
  · rw [update_of_ne here] at serves
    exact f j c m serves d n m' home (fewer pending)

theorem Foremost.move {e : Event κ ι} (f : Foremost cfg s) (g : Grown cfg s) (w : Within cfg Makes s)
    (guard : InArrival cfg s e) (move : MakeMove cfg s e t) : Foremost cfg t := by
  have old {c : κ} {m : Msg} (member : m ∈ issued s c) : stamp t m.path = stamp s m.path :=
    stamp_congr (move.entry (g.issued_there w member))
  have inHand {i : ι} {c : κ} {m : Msg} (serves : (s.server i).serving = some (c, m)) : m ∈ issued s c :=
    List.mem_of_getElem? (w.head serves).message
  cases move with
  | quiet cache dfs committed same done server =>
      intro i c m serves d n m' home pending
      rw [server] at serves
      have before := (Pending.congr same done).mp pending
      rw [old (inHand serves), old (List.mem_of_getElem? before.message)]
      exact f i c m serves d n m' home before
  | @add c' env m'' p t parent below absent cache dfs committed more done server =>
      intro i c m serves d n m' home pending
      rw [server] at serves
      rw [old (inHand serves)]
      rcases (Pending.issue w.queued more done).mp pending with before | ⟨-, -, rfl⟩
      · rw [old (List.mem_of_getElem? before.message)]
        exact f i c m serves d n m' home before
      · exact (g.stamp_lt (g.issued_there w (inHand serves))).le.trans (stamp_store cache).ge
  | @take c' m'' pc head makes =>
      refine f.goOn rfl rfl (fun pending => pending.mono rfl le_rfl) ?_
      intro c m serves d n m' home pending
      cases serves
      exact guard m'' head d home m' pending.mem_drop
  | @fail j env c' m'' pc call =>
      refine f.goOn rfl rfl (fun pending => pending.mono rfl le_rfl) ?_
      intro c m serves d n m' home pending
      exact f j c m ((serving_of_attempt pc).trans serves) d n m' home pending
  | @succeed j env c' m'' dfs pc effect makes =>
      refine f.goOn rfl rfl (fun pending => pending.mono rfl ?_) nofun
      exact le_update_self_iff.mpr (Nat.le_succ (s.done c'))

structure Arriving (cfg : Config ι κ) (s : State ι κ) : Prop where
  grown : Grown cfg s
  within : Within cfg Makes s
  agrees : Agrees cfg s
  stamped : Stamped cfg s
  foremost : Foremost cfg s

theorem arriving_of_reachable (h : (system cfg).Reachable (InArrival cfg) s) : Arriving cfg s := by
  have grown {s} (h : (system cfg).Reachable (InArrival cfg) s) : Grown cfg s :=
    grown_of_reachable (fun _ _ guard => Makes.calls guard.calls) h
  have within {s} (h : (system cfg).Reachable (InArrival cfg) s) : Within cfg Makes s :=
    within_of_reachable (fun _ _ => InArrival.calls) h
  apply h.invariant
  · intro s initial
    refine ⟨grown (.initial initial), within (.initial initial), .initial initial, .initial initial, ?_⟩
    intro i c m serves
    rw [initial.server i] at serves
    cases serves
  · intro s e t reach arriving guard step
    have move := makeMove_of_move arriving.grown arriving.within (move_of_step step)
    exact ⟨grown (.next reach guard step), within (.next reach guard step),
      arriving.agrees.move arriving.grown arriving.within (move_of_step step),
      arriving.stamped.move arriving.grown arriving.within move,
      arriving.foremost.move arriving.grown arriving.within guard move⟩

end Pacon.Commit
