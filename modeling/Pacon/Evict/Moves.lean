import Pacon.Commit.Versions
import Pacon.Evict.Model

set_option linter.unusedSectionVars false

namespace Pacon.Evict
open Function Lib Commit

variable {ι κ α : Type} [DecidableEq ι] [DecidableEq κ] [DecidableEq α] (cfg : Config ι κ)

def AgentPc.copy : AgentPc → Option (Path × Value × Nat)
  | .openCached p _ v cas | .openCas p v cas => some (p, v, cas)
  | _ => none

def AgentPc.deletes : AgentPc → Option Path
  | .entryDel _ p _ | .flushDel p => some p
  | _ => none

def AgentPc.records : AgentPc → Option (Path × Value)
  | .getattrAdd p v | .openAdd p _ v => some (p, v)
  | _ => none

def AgentPc.misses : AgentPc → Option Path
  | .getattrStat p | .getattrAdd p _ | .openStat p _ | .openDfs p _ _ | .openAdd p _ _ => some p
  | _ => none

def AgentPc.opens : AgentPc → Option (Path × OpenFlags)
  | .openDfs p flags _ | .openCached p flags _ _ => some (p, flags)
  | _ => none

inductive OpenEffect (dfs : Path → Option Node) (flags : OpenFlags) (p : Path) : (Path → Option Node) → Prop
  | found {node} (there : dfs p = some node) : OpenEffect dfs flags p dfs
  | trunc {content} (trunc : flags.trunc = true) (file : dfs p = some (.file content)) :
      OpenEffect dfs flags p (update dfs p (some (.file [])))
  | creat (creat : flags.creat = true) (notRoot : p ≠ []) (free : dfs p = none)
      (parent : dfs p.tail = some .dir) : OpenEffect dfs flags p (update dfs p (some (.file [])))

/-- An agent goes on to something for which it holds nothing of the cache. -/
def AgentPc.Plain (pc : AgentPc) : Prop := pc.copy = none ∧ pc.misses = none

inductive Move (s : State ι κ α) : Event κ ι α → State ι κ α → Prop
  | base {e b} (move : Commit.Move cfg s.base e b) : Move s (.base e) (setBase s b)
  | start {a task} : Move s (.start a task) (setAgent s a task.begin)
  | look {a env dir next} (nothing : next.copy = none)
      (misses : ∀ p, next.misses = some p → cfg.root <:+ p ∨ (s.agent a).misses = some p) :
      Move s (.agent a env dir) (setAgent s a next)
  | read {a env dir p v e next} (entry : s.base.cache p = some e) (flags : v.stat.flags = e.value.stat.flags)
      (copy : next.copy = some (p, v, e.cas)) (hit : next.misses = none) :
      Move s (.agent a env dir) (setAgent s a next)
  | del {a env dir p next} (deletes : (s.agent a).deletes = some p) (plain : next.Plain) :
      Move s (.agent a env dir) (setAgent (setBase s (dmkvDel s.base p)) a next)
  | record {a env dir p v} (records : (s.agent a).records = some (p, v)) (key : p ≠ [])
      (absent : s.base.cache p = none) :
      Move s (.agent a env dir) (setAgent (setBase s (store s.base p v)) a (.returning 0))
  | opens {a env dir p flags dfs next} (opens : (s.agent a).opens = some (p, flags))
      (effect : OpenEffect s.base.dfs flags p dfs)
      (copy : ∀ q v cas, next.copy = some (q, v, cas) →
        ∃ u, (s.agent a).copy = some (q, u, cas) ∧ v.stat.flags = u.stat.flags)
      (misses : ∀ p, next.misses = some p → (s.agent a).misses = some p) :
      Move s (.agent a env dir) (setAgent (setBase s { s.base with dfs := dfs }) a next)
  | count {a env dir p v cas e} (at_pc : s.agent a = .openCas p v cas) (entry : s.base.cache p = some e)
      (same : e.cas = cas) :
      Move s (.agent a env dir) (setAgent (setBase s (store s.base p v)) a (.returning 0))

variable {cfg}

theorem openCall_effect {dfs dfs' : Path → Option Node} {flags : OpenFlags} {p : Path}
    (h : openCall dfs flags p = some dfs') : OpenEffect dfs flags p dfs' := by
  unfold openCall at h
  split at h
  · rename_i name q free
    simp only [Option.ite_none_right_eq_some, Option.some.injEq] at h
    obtain ⟨⟨creat, parent⟩, rfl⟩ := h
    exact .creat creat (List.cons_ne_nil _ _) free parent
  · rename_i file
    simp only [Option.some.injEq] at h
    subst h
    split
    · rename_i trunc
      exact .trunc trunc file
    · exact .found file
  · rename_i dir
    simp only [Option.ite_none_left_eq_some, Option.some.injEq] at h
    obtain ⟨-, rfl⟩ := h
    exact .found dir
  · cases h

theorem plain_returning (result : Int) : (AgentPc.returning result).Plain := ⟨rfl, rfl⟩

theorem Walk.resume_plain (w : Walk) : w.resume.Plain := by
  unfold Walk.resume
  split <;> exact ⟨rfl, rfl⟩

theorem Walk.entry_plain (w : Walk) (p : Path) (dir : Bool) : (w.entry p dir).Plain := by
  unfold Walk.entry
  split <;> exact ⟨rfl, rfl⟩

theorem Walk.afterEntry_plain (w : Walk) (p : Path) (dir : Bool) : (w.afterEntry p dir).Plain := by
  unfold Walk.afterEntry
  split
  · exact ⟨rfl, rfl⟩
  · exact w.resume_plain

theorem picked_plain (tests : Bool) (p : Path) (dir : Bool) : (picked tests p dir).Plain := by
  unfold picked
  split
  · exact ⟨rfl, rfl⟩
  · split <;> exact ⟨rfl, rfl⟩

theorem getattrCached_plain (e : Entry) : (getattrCached e).Plain := by
  unfold getattrCached
  split <;> exact ⟨rfl, rfl⟩

theorem Move.plain {s : State ι κ α} {a : α} {env : Env} {dir : Bool} {next : AgentPc} (plain : next.Plain) :
    Move cfg s (.agent a env dir) (setAgent s a next) :=
  .look plain.1 fun p misses => by rw [plain.2] at misses; cases misses

theorem agentStep_move {s t : State ι κ α} {a : α} {env : Env} {dir : Bool}
    (h : agentStep cfg s a env dir = some t) : Move cfg s (.agent a env dir) t := by
  cases at_pc : s.agent a with
  | idle | beyond => simp [agentStep, at_pc] at h
  | pick tests =>
      simp only [agentStep, at_pc, Option.some.injEq] at h
      subst h
      split
      · exact .plain (picked_plain _ _ _)
      · exact .plain ⟨rfl, rfl⟩
  | fileStat p =>
      simp only [agentStep, at_pc, Option.some.injEq] at h
      subst h
      split <;> exact .plain ⟨rfl, rfl⟩
  | flushStat p =>
      simp only [agentStep, at_pc, Option.some.injEq] at h
      subst h
      split <;> exact .plain ⟨rfl, rfl⟩
  | flushDel p =>
      simp only [agentStep, at_pc, Option.some.injEq] at h
      exact h ▸ .del (congrArg AgentPc.deletes at_pc) ⟨rfl, rfl⟩
  | opendir w =>
      simp only [agentStep, at_pc, Option.some.injEq] at h
      subst h
      split
      · split <;> exact .plain ⟨rfl, rfl⟩
      · exact .plain ⟨rfl, rfl⟩
  | readdir w =>
      simp only [agentStep, at_pc, Option.some.injEq] at h
      subst h
      split
      · exact .plain (w.entry_plain _ _)
      · exact .plain (Walk.resume_plain _)
      · exact .plain ⟨rfl, rfl⟩
  | entryGet w p isDir =>
      simp only [agentStep, at_pc, Option.some.injEq] at h
      subst h
      split
      · exact .plain ⟨rfl, rfl⟩
      · exact .plain (w.afterEntry_plain _ _)
  | entryDel w p isDir =>
      simp only [agentStep, at_pc, Option.some.injEq] at h
      subst h
      refine .del (congrArg AgentPc.deletes at_pc) ?_
      split
      · exact plain_returning _
      · exact w.afterEntry_plain _ _
  | getattrGet p =>
      simp only [agentStep, at_pc, Option.some.injEq] at h
      subst h
      split
      · split
        · rename_i inside
          exact .look rfl fun q misses => .inl (Option.some.inj misses ▸ inside.1)
        · exact .plain ⟨rfl, rfl⟩
      · exact .plain (getattrCached_plain _)
  | getattrStat p =>
      simp only [agentStep, at_pc, Option.some.injEq] at h
      subst h
      split
      · exact .plain ⟨rfl, rfl⟩
      · exact .look rfl fun q misses => .inr (by rw [at_pc]; exact misses)
  | getattrAdd p v =>
      simp only [agentStep, at_pc, Option.some.injEq, dmkvAdd] at h
      subst h
      split
      · exact .plain ⟨rfl, rfl⟩
      · rename_i free
        simp only [not_or, Bool.not_eq_true, Option.isSome_eq_false_iff, Option.isNone_iff_eq_none] at free
        exact .record (congrArg AgentPc.records at_pc) free.1 free.2
  | openGet p flags =>
      simp only [agentStep, at_pc, Option.some.injEq] at h
      subst h
      split
      · split
        · rename_i inside
          exact .look rfl fun q misses => .inl (Option.some.inj misses ▸ inside.1)
        · exact .plain ⟨rfl, rfl⟩
      · rename_i entry
        unfold openFound
        split
        · exact .read entry rfl rfl rfl
        · exact .plain ⟨rfl, rfl⟩
  | openStat p flags =>
      simp only [agentStep, at_pc, Option.some.injEq] at h
      exact h ▸ .look rfl fun q misses => .inr (by rw [at_pc]; exact misses)
  | openDfs p flags v =>
      simp only [agentStep, at_pc, Option.some.injEq] at h
      subst h
      split
      · exact .plain ⟨rfl, rfl⟩
      · rename_i call
        refine .opens (congrArg AgentPc.opens at_pc) (openCall_effect call) (fun q u cas copy => ?_)
          fun q misses => ?_
        · cases v <;> cases copy
        · cases v with
          | none => cases misses
          | some => exact at_pc ▸ misses
  | openAdd p flags v =>
      simp only [agentStep, at_pc, Option.some.injEq, dmkvAdd] at h
      subst h
      by_cases there : p = [] ∨ (s.base.cache p).isSome = true
      · simp only [if_pos there]
        exact .plain ⟨rfl, rfl⟩
      · have free := there
        simp only [not_or, Bool.not_eq_true, Option.isSome_eq_false_iff, Option.isNone_iff_eq_none] at free
        simp only [if_neg there]
        exact .record (congrArg AgentPc.records at_pc) free.1 free.2
  | openCached p flags v cas =>
      simp only [agentStep, at_pc, Option.some.injEq] at h
      subst h
      split
      · exact .plain ⟨rfl, rfl⟩
      · rename_i call
        refine .opens (congrArg AgentPc.opens at_pc) (openCall_effect call) (fun q u cas' copy => ?_)
          fun q misses => by cases misses
        cases copy
        exact ⟨v, by rw [at_pc]; rfl, rfl⟩
  | openCas p v cas =>
      simp only [agentStep, at_pc, Option.some.injEq, dmkvCas] at h
      subst h
      cases entry : s.base.cache p with
      | none => exact .plain ⟨rfl, rfl⟩
      | some e =>
          by_cases same : e.cas = cas
          · simpa [same] using Move.count at_pc entry same
          · simp only [same, if_false]
            exact .plain ⟨rfl, rfl⟩
  | openReget p =>
      simp only [agentStep, at_pc, Option.some.injEq] at h
      subst h
      split
      · exact .plain ⟨rfl, rfl⟩
      · rename_i entry
        exact .read (v := counted _) entry rfl rfl rfl
  | returning result =>
      simp only [agentStep, at_pc, Option.some.injEq] at h
      exact h ▸ .plain ⟨rfl, rfl⟩

theorem move_of_step {s t : State ι κ α} {e : Event κ ι α} (h : step cfg s e = some t) : Move cfg s e t := by
  cases e with
  | base e =>
      obtain ⟨b, does, rfl⟩ := Option.map_eq_some_iff.mp h
      exact .base (Commit.move_of_step does)
  | start a task =>
      simp only [step, Option.ite_none_right_eq_some, Option.some.injEq] at h
      exact h.2 ▸ .start
  | agent a env dir => exact agentStep_move h

structure Frame (b b' : Commit.State ι κ) : Prop where
  table : b'.table = b.table
  client : b'.client = b.client
  out : b'.out = b.out
  done : b'.done = b.done
  server : b'.server = b.server
  returned : b'.returned = b.returned

variable {s t : State ι κ α}

theorem Move.frame {e : Event κ ι α} (move : Move cfg s e t) (agent : ∀ e', e ≠ .base e') :
    Frame s.base t.base := by
  cases move with
  | base => exact absurd rfl (agent _)
  | _ => exact ⟨rfl, rfl, rfl, rfl, rfl, rfl⟩

theorem Frame.issued {b b' : Commit.State ι κ} (f : Frame b b') : issued b' = issued b := by
  funext c
  simp only [Commit.issued, f.client, f.out]

theorem Frame.queued {b b' : Commit.State ι κ} (f : Frame b b') (q : Queued cfg b) : Queued cfg b' :=
  q.client f.server f.done fun c => by rw [f.out]

theorem Move.queued {e : Event κ ι α} (move : Move cfg s e t) (q : Queued cfg s.base) :
    Queued cfg t.base := by
  cases e with
  | base e =>
      cases move with
      | base move => exact q.move move
  | start | agent => exact (move.frame (fun _ is => by cases is)).queued q

theorem queued_of_reachable {ok : State ι κ α → Event κ ι α → Prop} (h : (system cfg).Reachable ok s) :
    Queued cfg s.base := by
  refine h.invariant (P := fun s => Queued cfg s.base) (fun s initial => ?_)
    fun s e t _ q _ step => (move_of_step step).queued q
  exact .initial (Initial.base initial)

def FlagsOf (b : Commit.State ι κ) (p : Path) (v : Value) (cas : Nat) : Prop :=
  cas < b.clock ∧ ∀ e, b.cache p = some e → e.cas = cas → v.stat.flags = e.value.stat.flags

structure Versioned (s : State ι κ α) : Prop where
  base : Commit.Versioned s.base
  agent : ∀ a p v cas, (s.agent a).copy = some (p, v, cas) → FlagsOf s.base p v cas

theorem FlagsOf.copyOf {b : Commit.State ι κ} {p : Path} {v : Value} {cas : Nat} (h : FlagsOf b p v cas) :
    CopyOf b.cache b.clock p v cas :=
  ⟨h.1, fun e entry same => ⟨getStatFlag_congr (h.2 e entry same) _, getStatFlag_congr (h.2 e entry same) _,
    getStatFlag_congr (h.2 e entry same) _⟩⟩

theorem FlagsOf.renews {b b' : Commit.State ι κ} (renews : Renews b b') {p : Path} {v : Value} {cas : Nat}
    (h : FlagsOf b p v cas) : FlagsOf b' p v cas := by
  refine ⟨h.1.trans_le renews.clock, fun e entry same => ?_⟩
  rcases renews.fresh entry with old | new
  · exact h.2 e old same
  · exact absurd h.1 (by omega)

theorem Move.renews {e : Event κ ι α} (move : Move cfg s e t) : Renews s.base t.base := by
  cases move with
  | base move => exact move.renews
  | start | look | read => exact .same rfl rfl
  | del => exact .del _
  | record | count => exact .store _ _
  | opens => exact .same rfl rfl

theorem Versioned.move {e : Event κ ι α} (v : Versioned s) (move : Move cfg s e t) : Versioned t := by
  have renews := move.renews
  have kept : ∀ {a p w cas}, (s.agent a).copy = some (p, w, cas) → FlagsOf t.base p w cas :=
    fun copy => (v.agent _ _ _ _ copy).renews renews
  -- after a step of one agent the others hold what they held
  have agents : ∀ {u : State ι κ α} {a : α} {next : AgentPc}, u.agent = s.agent → u.base = t.base →
      (∀ p w cas, next.copy = some (p, w, cas) → FlagsOf t.base p w cas) →
      ∀ b p w cas, ((setAgent u a next).agent b).copy = some (p, w, cas) → FlagsOf t.base p w cas := by
    intro u a next same base new b p w cas copy
    by_cases here : b = a
    · subst here
      rw [setAgent_agent, update_self] at copy
      exact new p w cas copy
    · rw [setAgent_agent, update_of_ne here, same] at copy
      exact kept copy
  have nothing : ∀ {next : AgentPc}, next.copy = none → ∀ p w cas, next.copy = some (p, w, cas) →
      FlagsOf t.base p w cas := fun none p w cas copy => by simp [none] at copy
  cases move with
  | base move => exact ⟨v.base.move move, fun a p w cas => kept⟩
  | @start a task =>
      refine ⟨v.base, agents rfl rfl (nothing ?_)⟩
      cases task <;> rfl
  | look none => exact ⟨v.base, agents rfl rfl (nothing none)⟩
  | read entry flags copy =>
      refine ⟨v.base, agents rfl rfl fun p w cas copy' => ?_⟩
      cases copy.symm.trans copy'
      refine ⟨v.base.entry entry, fun e' entry' _ => ?_⟩
      cases Option.some.inj (entry.symm.trans entry')
      exact flags
  | del deletes plain => exact ⟨v.base.serverStep renews rfl, agents rfl rfl (nothing plain.1)⟩
  | record | count => exact ⟨v.base.serverStep renews rfl, agents rfl rfl (nothing rfl)⟩
  | opens opens effect copy =>
      refine ⟨v.base.serverStep renews rfl, agents rfl rfl fun p w cas copy' => ?_⟩
      obtain ⟨u, before, flags⟩ := copy p w cas copy'
      have held := v.agent _ _ _ _ before
      exact ⟨held.1, fun e entry same => flags.trans (held.2 e entry same)⟩

theorem versioned_of_reachable {ok : State ι κ α → Event κ ι α → Prop} (h : (system cfg).Reachable ok s) :
    Versioned s := by
  refine h.invariant (fun s initial => ⟨.initial initial.base, fun a p w cas copy => ?_⟩)
    fun _ _ _ _ v _ step => v.move (move_of_step step)
  rw [initial.agent a] at copy
  cases copy

end Pacon.Evict
