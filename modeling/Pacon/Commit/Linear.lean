import Pacon.Commit.FileTree

/-!
# The calls take effect at an instant

With `pacon_mkdir`, `pacon_create` and inline writes the cached namespace behaves like a tree of files
that is accessed by one call at a time: each call takes effect at one instant between its start and
its return, whatever the other clients and the servers do.
-/

set_option linter.unusedSectionVars false

namespace Pacon.Commit
open Function Lib InlineWrite

def ClientPc.returns : ClientPc → Option Int
  | .returning _ result => some result
  | _ => none

variable {ι κ : Type} [DecidableEq ι] [DecidableEq κ] {cfg : Config ι κ} {s t u : State ι κ}

def fileUsage : System.Usage (State ι κ) (Event κ ι) κ Access Int where
  starts
    | .start c call => call.access.map fun op => (c, op)
    | _ => none
  own c e := ∃ env, e = .client c env
  undecided s c := (s.client c).undecided
  returns s c := (s.client c).returns

/-- What a call has come to, where it stands: `effect result` says that it has taken effect so. -/
def ClientPc.Reports (effect : Int → Prop) (call : Call) : ClientPc → Prop
  | .idle | .beyond => True
  | .parentGet m p | .parentAdd m p | .add m p => call = ⟨.make m, p⟩
  | .parentReget m p | .addGet m p _ => call = ⟨.make m, p⟩ ∧ effect (-1)
  | .loadStat l | .loadAdd l _ => call = l.call ∧ effect (-1)
  | .writeGet p buf offset | .writeCas p buf offset _ _ => call = ⟨.write buf offset, p⟩
  | .send call' => call = call' ∧ effect call.result
  | .returning call' result => call = call' ∧ effect result
  | _ => False

theorem ClientPc.Reports.mono {effect effect' : Int → Prop} {call : Call} {pc : ClientPc}
    (h : pc.Reports effect call) (more : ∀ result, effect result → effect' result) : pc.Reports effect' call := by
  cases pc with
  | parentReget | addGet | loadStat | loadAdd | send | returning => exact ⟨h.1, more _ h.2⟩
  | _ => exact h

theorem Plain.reports_beginCall {effect : Int → Prop} {table : Path → Bool} {call : Call} (plain : Plain s call) :
    (beginCall table call).Reports effect call := by
  apply beginCall_of (P := fun pc => pc.Reports effect call)
  · intro m p is _
    subst is
    rw [plain.afterParent]
    rfl
  · intro m p is _ _
    exact is
  · intro p is
    exact absurd (congrArg Call.op is) plain.keeps
  · intro p buf offset is
    exact is

section Steps
variable {effect : Int → Prop} {call : Call} {op : Access} {c : κ} {env : Env}

theorem Orderly.reports_parentFound (g : Grown cfg s) {m : Make} {p : Path} {e : Entry} (other : p.tail ≠ cfg.root)
    (entry : s.cache p.tail = some e)
    (refuse : fileTree.apply (treeOf cfg s) (.make m.node p) = (treeOf cfg s, -1) → effect (-1)) :
    (parentFound m p e).Reports effect ⟨.make m, p⟩ := by
  have entered := g.cached entry other
  unfold parentFound
  split
  · rename_i file
    refine ⟨rfl, refuse (refused_orphan other ?_)⟩
    intro e' entry'
    cases Option.some.inj (entry.symm.trans entry')
    exact kind_eq_file.mpr file
  · rw [if_neg (by simp [entered.existedinDfs])]
    rfl

theorem Local.reports {pc next : ClientPc} (goes : Local cfg s env pc next) (g : Grown cfg s) (o : Orderly cfg s)
    (ok : ClientOk cfg s.cache s.clock pc) (plain : pc.running = some call → Plain s call) (access : call.access = some op)
    (reports : pc.Reports effect call)
    (refuse : fileTree.apply (treeOf cfg s) op = (treeOf cfg s, -1) → effect (-1)) : next.Reports effect call := by
  cases goes with
  | parentMiss absent =>
      cases reports
      cases access
      have refused := refuse (refused_orphan ok.2 (by simp [absent]))
      unfold load
      split <;> exact ⟨rfl, refused⟩
  | parentHit entry =>
      cases reports
      cases access
      exact Orderly.reports_parentFound g ok.2 entry refuse
  | parentLoaded entry =>
      obtain ⟨rfl, -⟩ := reports
      cases access
      exact Orderly.reports_parentFound g ok.2 entry refuse
  | statFail | stat => exact reports
  | loadExists =>
      obtain ⟨m, p, rfl, -⟩ := ok
      exact reports
  | addExists there =>
      cases reports
      cases access
      exact ⟨rfl, refuse (refused_exists g there)⟩
  | addLost | addFails => exact reports
  | @addRemoved m p v e entry rm =>
      have goes : Local cfg s env (.addGet m p v) (.addSet m p v) := .addRemoved entry rm
      exact (g.local ok goes).elim
  | writeHit entry =>
      cases reports
      cases access
      unfold writeFound
      split
      · rename_i hole
        exact ⟨rfl, refuse (o.refused_hole (plain rfl) entry hole)⟩
      · split
        · rfl
        · trivial
  | writeExists => exact reports
  | writeLost absent =>
      cases reports
      obtain ⟨-, e, entry, -⟩ := (plain rfl).file
      rw [absent] at entry
      cases entry
  | parentLost | writeMiss => trivial
  | _ => exact reports.elim

theorem ClientPc.Reports.running {pc : ClientPc} {call' : Call} (reports : pc.Reports effect call)
    (runs : pc.running = some call') : call = call' := by
  cases pc with
  | idle | beyond => cases runs
  | parentGet | parentAdd | add | writeGet | writeCas => exact reports.trans (Option.some.inj runs)
  | parentReget | addGet | loadStat | loadAdd | send | returning => exact reports.1.trans (Option.some.inj runs)
  | _ => exact reports.elim

theorem Changes.reports (changes : Changes cfg s (.client c env) t) (o : Orderly cfg s) (access : call.access = some op)
    (reports : (s.client c).Reports effect call)
    (made : ∀ result, fileTree.apply (treeOf cfg s) op = (treeOf cfg t, result) → effect result) :
    (t.client c).Reports effect call := by
  obtain ⟨_, _, call', op', same, runs, -, access', after, applied⟩ := changes.access o
  cases same
  cases reports.running runs
  cases Option.some.inj (access.symm.trans access')
  rw [after]
  exact ⟨rfl, made _ applied⟩

theorem Move.reports (move : Move cfg s (.client c env) t) (g : Grown cfg s) (o : Orderly cfg s)
    (access : call.access = some op) (reports : (s.client c).Reports effect call)
    (refuse : fileTree.apply (treeOf cfg s) op = (treeOf cfg s, -1) → effect (-1))
    (made : ∀ result, fileTree.apply (treeOf cfg s) op = (treeOf cfg t, result) → effect result) :
    (t.client c).Reports effect call := by
  have ok := g.client c
  have plain : ∀ {call}, (s.client c).running = some call → Plain s call := o.running
  cases move with
  | add at_pc key absent => exact (g.changes_add at_pc key absent).reports o access reports made
  | writeCas at_pc entry same =>
      subst same
      have changes : Changes cfg s (.client c env) _ := g.changes_write at_pc entry
      exact changes.reports o access reports made
  | goOn at_pc goes =>
      rw [at_pc] at ok plain reports
      rw [setPc_client, update_self]
      exact goes.reports g o ok plain access reports refuse
  | parentAdd at_pc =>
      rw [at_pc] at plain reports
      rw [setPc_client, update_self, (plain rfl).afterParent]
      exact reports
  | loadAdd at_pc key absent =>
      rw [at_pc] at ok
      obtain ⟨m, p, rfl, -, -, there⟩ := ok
      exact absurd absent there
  | addAgain at_pc =>
      rw [at_pc] at plain
      exact absurd rfl ((plain rfl).not_createWrite _)
  | send at_pc =>
      rw [at_pc] at reports
      obtain ⟨rfl, done⟩ := reports
      rw [setPc_client, update_self]
      exact ⟨rfl, done⟩
  | ret at_pc =>
      rw [setPc_client, update_self]
      trivial
  | childCas at_pc | addSet at_pc | rmCas at_pc | rmLate at_pc =>
      rw [at_pc] at ok
      exact ok.elim

/-- Where a client stands after the step that made its change. -/
def ClientPc.Settled (result : Int) : ClientPc → Prop
  | .idle => True
  | .send call => call.result = result
  | .returning _ result' => result' = result
  | _ => False

theorem Move.settled {result : Int} (move : Move cfg s (.client c env) t) (settled : (s.client c).Settled result) :
    (t.client c).Settled result := by
  cases move with
  | goOn at_pc goes =>
      rw [at_pc] at settled
      cases goes <;> exact settled.elim
  | send at_pc =>
      rw [at_pc] at settled
      rw [setPc_client, update_self]
      exact settled
  | ret at_pc =>
      rw [setPc_client, update_self]
      trivial
  | parentAdd at_pc | loadAdd at_pc | childCas at_pc | add at_pc | addAgain at_pc | addSet at_pc | rmCas at_pc
  | rmLate at_pc | writeCas at_pc =>
      rw [at_pc] at settled
      exact settled.elim

theorem Local.undecided {pc next : ClientPc} (goes : Local cfg s env pc next) (ok : ClientOk cfg s.cache s.clock pc)
    (decided : pc.undecided = none) : next.undecided = none := by
  cases goes with
  | addLost | addRemoved | addFails | statFail => rfl
  | stat | loadExists =>
      obtain ⟨m, p, rfl, -⟩ := ok
      cases decided
  | parentMiss | parentHit | parentLost | parentLoaded | addExists | writeMiss | writeHit | writeExists | writeLost =>
      cases decided
  | opendir | opendirFail | readdir | readdirEnd | childExists | childLost | childReget
  | childRegetLost | rmMiss | rmHit | rmLost | rmLoaded | rmExists => exact ok.elim

theorem Move.undecided (move : Move cfg s (.client c env) t) (g : Grown cfg s)
    (decided : (s.client c).undecided = none) : (t.client c).undecided = none := by
  have ok := g.client c
  cases move with
  | goOn at_pc goes =>
      rw [at_pc] at ok decided
      rw [setPc_client, update_self]
      exact goes.undecided ok decided
  | parentAdd at_pc | add at_pc | writeCas at_pc =>
      rw [at_pc] at decided
      cases decided
  | loadAdd at_pc key absent =>
      rw [at_pc] at ok
      obtain ⟨m, p, rfl, -, -, there⟩ := ok
      exact absurd absent there
  | childCas at_pc | addSet at_pc | rmCas at_pc | rmLate at_pc =>
      rw [at_pc] at ok
      exact ok.elim
  | addAgain | send | ret =>
      rw [setPc_client, update_self]
      rfl

end Steps

theorem Move.others {e : Event κ ι} (move : Move cfg s e t) {c : κ} (own : ∀ env, e ≠ .client c env)
    (start : ∀ call, e ≠ .start c call) : t.client c = s.client c := by
  have at_other : ∀ {u : State ι κ} {c' pc}, u.client = s.client → c ≠ c' →
      (setPc u c' pc).client c = s.client c := by
    intro u c' pc client other
    rw [setPc_client, client, update_of_ne other]
  have mine : ∀ {c' env}, e = .client c' env → c ≠ c' := by
    intro c' env is same
    exact own env (same ▸ is)
  cases move with
  | start free =>
      apply at_other rfl
      intro same
      subst same
      exact start _ rfl
  | goOn | parentAdd | loadAdd | childCas | add | addAgain | addSet | rmCas | rmLate | writeCas | send | ret =>
      exact at_other rfl (mine rfl)
  | take | rmVoid | rmFound | fail | rmDel | dropWrite | openWrite | writeVoid | writeRead => rfl
  | succeed => rw [succeed_client]
  | writeBack => rw [finish_client, writeBack_client]

theorem starts_eq {e : Event κ ι} {c : κ} {op : Access} (h : (fileUsage (ι := ι)).starts e = some (c, op)) :
    ∃ call, e = .start c call ∧ call.access = some op := by
  simp only [fileUsage] at h
  split at h
  · rename_i c' call
    obtain ⟨op', access, same⟩ := Option.map_eq_some_iff.mp h
    cases same
    exact ⟨call, rfl, access⟩
  · cases h

theorem Plain.access {call : Call} (h : Plain s call) : ∃ op, call.access = some op := by
  obtain ⟨op, p⟩ := call
  cases op with
  | make | write => exact ⟨_, rfl⟩
  | rm => exact absurd rfl h.keeps

theorem own_or_same {e : Event κ ι} {c : κ} (move : Move cfg s e t) (only : PlainCalls s e)
    (none : ∀ op, fileUsage.starts e ≠ some (c, op)) : (∃ env, e = .client c env) ∨ t.client c = s.client c := by
  by_cases mine : ∃ env, e = .client c env
  · exact .inl mine
  · refine .inr (move.others (fun env is => mine ⟨env, is⟩) ?_)
    intro call is
    subst is
    obtain ⟨op, access⟩ := Plain.access only
    apply none op
    simp only [fileUsage, access, Option.map_some]

theorem returning_of_returns {c : κ} {result : Int} (h : fileUsage.returns s c = some result) :
    ∃ call, s.client c = .returning call result := by
  simp only [fileUsage] at h
  unfold ClientPc.returns at h
  split at h
  · rename_i call result' at_pc
    cases h
    exact ⟨call, at_pc⟩
  · cases h

theorem reports_of_follows (reach : (system cfg).Reachable PlainCalls s) {c : κ} {call : Call} {op : Access}
    (access : call.access = some op) (begun : ∀ {effect}, (s.client c).Reports effect call)
    (f : (system cfg).Follows (fileUsage.During PlainCalls c) s t) :
    (t.client c).Reports (fun result => (system cfg).TakesEffect (fileUsage.During PlainCalls c) fileTree
      (treeOf cfg) (fileUsage.own c) op result s t) call := by
  induction f with
  | refl => exact begun
  | @next t e u f guard step ih =>
      have now := reach.follows f.during
      have move : Move cfg t e u := move_of_step step
      have later := ih.mono fun result effect => effect.next guard step
      rcases own_or_same move guard.1 guard.2 with ⟨env, rfl⟩ | same
      · refine move.reports (grown_of_plain now) (orderly_of_reachable now) access later (fun refused => ?_)
          fun result made => ?_
        · exact (System.TakesEffect.now f refused).next guard step
        · exact System.TakesEffect.step f ⟨env, rfl⟩ guard step made
      · exact same ▸ later

theorem settled_of_follows {c : κ} {result : Int} (settled : (s.client c).Settled result)
    (f : (system cfg).Follows (fileUsage.During PlainCalls c) s t) : (t.client c).Settled result := by
  induction f with
  | refl => exact settled
  | @next t e u _ guard step ih =>
      have move : Move cfg t e u := move_of_step step
      rcases own_or_same move guard.1 guard.2 with ⟨env, rfl⟩ | same
      · exact move.settled ih
      · exact same ▸ ih

/-- With any clients on any nodes, in any interleaving with each other and with the commits:
`pacon_mkdir`, `pacon_create` and inline writes access one tree of files, each at one instant between
its start and its return. -/
theorem files_linearizable :
    (system cfg).Linearizable PlainCalls fileTree (treeOf cfg) (fileUsage (κ := κ)) where
  effect {s e u t c op result} reach guard starts step f returns := by
    obtain ⟨call, rfl, access⟩ := starts_eq starts
    obtain ⟨call', at_pc⟩ := returning_of_returns returns
    have begun : ∀ {effect}, (u.client c).Reports effect call := by
      intro effect
      have move : Move cfg s (.start c call) u := move_of_step step
      cases move
      rw [setPc_client, update_self]
      exact Plain.reports_beginCall guard
    have reports := reports_of_follows (reach.next guard step) access begun f
    rw [at_pc] at reports
    exact reports.2
  change {s e t} reach guard step := by
    have w := within_of_reachable (fun _ _ => PlainCalls.calls) reach
    have o := orderly_of_reachable reach
    rcases (move_of_step step).changes (grown_of_plain reach) w with cache | changes
    · exact .inl (treeOf_congr cache)
    · obtain ⟨c, env, call, op, rfl, runs, undecided, -, after, applied⟩ := changes.access o
      refine .inr ⟨c, op, call.result, ⟨env, rfl⟩, undecided, congrArg ClientPc.undecided after, applied, ?_⟩
      intro u result' f returns
      have settled : (u.client c).Settled call.result := settled_of_follows (after ▸ rfl) f
      obtain ⟨call', at_pc⟩ := returning_of_returns returns
      rw [at_pc] at settled
      exact settled
  once {s e t c} reach guard step decided none := by
    have move : Move cfg s e t := move_of_step step
    rcases own_or_same move guard none with ⟨env, rfl⟩ | same
    · exact move.undecided (grown_of_plain reach) decided
    · exact (congrArg ClientPc.undecided same).trans decided

instance (s : State ι κ) : (call : Call) → Decidable (Plain s call)
  | ⟨.make m, p⟩ => decidable_of_iff (Makes ⟨.make m, p⟩) ⟨.inl, fun h => h.resolve_right (by simp)⟩
  | ⟨.rm, p⟩ => .isFalse (by simp [Plain, Makes])
  | ⟨.write buf offset, p⟩ => decidable_of_iff (0 ∉ buf ∧ ∃ e ∈ s.cache p, e.value.kind = .file)
      (by simp [Plain, Makes])

instance (s : State ι κ) : (e : Event κ ι) → Decidable (PlainCalls s e)
  | .start _ call => inferInstanceAs (Decidable (Plain s call))
  | .client _ _ | .take _ | .server _ _ => .isTrue trivial

instance (c : κ) (s : State ι κ) (e : Event κ ι) : Decidable (fileUsage.During PlainCalls c s e) :=
  decidable_of_iff (PlainCalls s e ∧ ∀ x ∈ fileUsage.starts e, x.1 ≠ c) <| by
    refine and_congr_right fun _ => ⟨fun others op starts => others _ starts rfl, fun none x starts same => ?_⟩
    exact none x.2 (starts.trans (congrArg some (Prod.ext same rfl)))

def sharedFile : Path := ['f'] :: exampleRoot

def oneMakes : State Bool Bool := setPc (initialState (.twoNodes exampleRoot) .zero) false (.add .create sharedFile)

def raceRun : List (Event Bool Bool) :=
  let client c := Event.client c .zero
  List.flatten [List.replicate 3 (client false), [.take false, .server false .zero],
    [.start false ⟨.write [97] 0, sharedFile⟩], List.replicate 4 (client false), List.replicate 2 (client true)]

theorem files_linearizable_race : ∃ u t, (system (.twoNodes exampleRoot)).Reachable PlainCalls u ∧
    (system (.twoNodes exampleRoot)).Follows (fileUsage.During PlainCalls true) u t ∧
    treeOf (.twoNodes exampleRoot) t sharedFile = some (.file [97]) ∧
    (system (.twoNodes exampleRoot)).TakesEffect (fileUsage.During PlainCalls true) fileTree
      (treeOf (.twoNodes exampleRoot)) (fileUsage.own true) (.make (.file []) sharedFile) (-1) u t := by
  have named : (Config.twoNodes exampleRoot).root ≠ [] := nofun
  have start : (system (.twoNodes exampleRoot)).run PlainCalls (initialState (.twoNodes exampleRoot) .zero)
      [.start false ⟨.make .create, sharedFile⟩] = some oneMakes := rfl
  have reach := System.reachable_of_run (initial_initialState _ _ named) start
  have guard : PlainCalls oneMakes (Event.start (ι := Bool) true ⟨.make .create, sharedFile⟩) := .inl (.inr rfl)
  have step : (system (.twoNodes exampleRoot)).step oneMakes (.start true ⟨.make .create, sharedFile⟩) =
      some (setPc oneMakes true (.add .create sharedFile)) := rfl
  have race : (system (.twoNodes exampleRoot)).run (fileUsage.During PlainCalls true)
      (setPc oneMakes true (.add .create sharedFile)) raceRun = some _ := rfl
  have follows := System.follows_of_run race
  exact ⟨_, _, reach.next guard step, follows, rfl, files_linearizable.effect reach guard rfl step follows rfl⟩

end Pacon.Commit
