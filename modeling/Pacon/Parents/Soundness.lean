import Pacon.Parents.Reliance

/-!
# Checked parents

The table of checked parents is never cleared: `pacon_rmdir` and `pacon_rmdir_clean` clear the one of
the descriptors. So the parents of what is made are directories as long as nobody takes one away that
somebody relies on.
-/

set_option linter.unusedSectionVars false

namespace Pacon.Parents
open Function Lib Commit Server

variable {ι κ α : Type} [DecidableEq ι] [DecidableEq κ] [DecidableEq α] {cfg : Config ι κ} {s : State ι κ α}

structure RequestPc.Spares (s : Commit.State ι κ) (pc : RequestPc) : Prop where
  adds : ∀ x ∈ pc.adds, Relied s x.1 → s.cache x.1 = none → IsDir x.2
  deletes : ∀ q ∈ pc.deletes, Relied s q → s.dfs q = some .dir
  removes : ∀ q ∈ pc.removes, Relied s q → s.cache q ≠ none
  renames : ∀ x ∈ pc.renames, ∀ q, Relied s q → x.1 <:+ q ∨ x.2 <:+ q → s.cache q ≠ none

/-- No check comes to a marked entry. Under a path that a client relies on `pacon_rm` marks nothing
and no file is recorded; its key is deleted only while the DFS has the directory, which is removed or
moved only while it is cached. -/
def Spares (s : State ι κ α) : Event κ ι α → Prop
  | .base (.base (.client c _)) => (s.base.base.client c).Spares s.base.base
  | .base (.base (.server i _)) => (s.base.base.server i).Spares s.base.base
  | .base (.agent a _ _) => (s.base.agent a).Spares s.base.base
  | .request c _ _ _ => (s.request c).Spares s.base.base
  | .base (.base (.start _ _)) | .base (.base (.take _)) | .base (.start _ _) | .start _ _ | .clean _ => True

theorem Move.sound {e : Event κ ι α} {b : Evict.State ι κ α} (move : Move cfg s e b) (sound : Sound s.base.base)
    (versioned : Evict.Versioned s.base) (spares : Spares s e) : Sound b.base := by
  cases move with
  | base move =>
      rename_i e
      cases e with
      | base e =>
          cases move with
          | base move =>
              cases e with
              | start c call =>
                  cases move with
                  | start =>
                      exact sound.client (.same rfl rfl) rfl rfl fun q parent =>
                        .inl ⟨c, .inl (beginCall_parent _ parent)⟩
              | client c env => exact sound.clientStep versioned.base spares move
              | take c =>
                  cases move with
                  | take => exact sound.frame (.same rfl rfl) rfl rfl
              | server i env => exact sound.serverStep spares move
      | start a task =>
          cases move with
          | start => exact sound
      | agent a env dir => exact Evict.sound_agentStep sound versioned spares move
  | quiet => exact sound
  | @add _ _ _ _ p v adds absent =>
      exact sound.frame (.store fun relied _ => spares.adds (p, v) adds relied absent) rfl rfl
  | del deletes => exact sound.frame (.del (spares.deletes _ deletes)) rfl rfl
  | @remove _ _ _ _ p removes =>
      refine sound.frame (.dfs rfl fun q relied absent dir => ?_) rfl rfl
      have other : q ≠ p := by
        rintro rfl
        exact spares.removes q removes relied absent
      exact (update_of_ne other ..).trans dir
  | @rename _ _ _ _ p newp renames =>
      refine sound.frame (.dfs rfl fun q relied absent dir => ?_) rfl rfl
      have apart : ¬(p <:+ q ∨ newp <:+ q) := fun below => spares.renames (p, newp) renames q relied below absent
      rw [not_or] at apart
      show moved s.base.base.dfs p newp q = some .dir
      rw [moved, if_neg apart.2, if_neg apart.1, dir]

theorem sound_initial (initial : Initial cfg s) : Sound s.base.base := by
  have base := initial.base.base
  rintro q ⟨c, checked | parent⟩
  · have root := (base.table c q).mp checked
    subst root
    by_cases top : cfg.root = []
    · exact (liveDir_uncached (base.rootKey top)).mpr base.root
    · obtain ⟨env, e, entry, value, -⟩ := base.rootCached top
      refine (liveDir_cached entry).mpr ?_
      rw [value]
      exact ⟨by simp [loadedValue], Calls.live_loadedValue env .dir⟩
  · rw [base.client c] at parent
    cases parent

/-- The property of the creating calls; the root directory has no parent. -/
def ParentsLive (s : State ι κ α) : Prop :=
  ∀ c m p, s.base.base.client c = .returning ⟨.make m, p⟩ 0 → p ≠ [] → LiveDir s.base.base p.tail

/-- Whatever the clients, agents and servers do, a creating call returns 0 only under a directory, if
nobody takes one away that somebody relies on. -/
theorem parents_live (h : (system cfg).Reachable Spares s) : ParentsLive s := by
  have sound : Sound s.base.base := by
    refine h.invariant (P := fun s => Sound s.base.base) (fun s => sound_initial) fun s e t reach sound spares step => ?_
    exact (move_of_step step).sound sound (versioned_of_reachable reach) spares
  intro c m p returns notRoot
  refine sound p.tail ⟨c, .inr ?_⟩
  rw [returns]
  exact if_neg notRoot

/-- A client calls `pacon_rmdir_clean` before anything else once another one has called `pacon_rmdir`. -/
def Prescribed (s : State ι κ α) : Event κ ι α → Prop
  | .base (.base (.start c _)) | .start c _ => s.owes c = false
  | .base _ | .request _ _ _ _ | .clean _ => True

instance (s : State ι κ α) (e : Event κ ι α) : Decidable (Prescribed s e) := by
  unfold Prescribed
  split <;> infer_instance

def CallsRmdir : Event κ ι α → Prop
  | .start _ (.rmdir _) => True
  | .start _ (.rename _ _) | .base _ | .request _ _ _ _ | .clean _ => False

instance (e : Event κ ι α) : Decidable (CallsRmdir e) := by
  unfold CallsRmdir
  split <;> infer_instance

instance [Fintype κ] (s : Commit.State ι κ) (pc : ClientPc) : Decidable (pc.Spares s) :=
  decidable_of_iff ((∀ q ∈ pc.checks, ∀ e ∈ s.cache q, getStatFlag e.value.stat .rm = false) ∧
      (∀ q ∈ pc.marks, ¬Relied s q) ∧ (∀ q ∈ pc.addsFile, Relied s q → s.cache q ≠ none) ∧
      ∀ q ∈ pc.setsFile, ¬Relied s q)
    ⟨fun h => ⟨h.1, h.2.1, h.2.2.1, h.2.2.2⟩, fun h => ⟨h.1, h.2, h.3, h.4⟩⟩

instance [Fintype κ] (s : Commit.State ι κ) (pc : ServerPc κ) : Decidable (pc.Spares s) :=
  decidable_of_iff ((∀ q ∈ pc.removes, Relied s q → s.cache q ≠ none) ∧
      ∀ q ∈ pc.deletes, Relied s q → s.dfs q = some .dir)
    ⟨fun h => ⟨h.1, h.2⟩, fun h => ⟨h.1, h.2⟩⟩

instance [Fintype κ] (s : Commit.State ι κ) (pc : Evict.AgentPc) : Decidable (pc.Spares s) :=
  decidable_of_iff ((∀ x ∈ pc.records, Relied s x.1 → s.cache x.1 = none → IsDir x.2) ∧
      ∀ q ∈ pc.deletes, Relied s q → s.dfs q = some .dir)
    ⟨fun h => ⟨h.1, h.2⟩, fun h => ⟨h.1, h.2⟩⟩

noncomputable instance [Fintype κ] (s : Commit.State ι κ) (pc : RequestPc) : Decidable (pc.Spares s) :=
  match renames : pc.renames with
  | none =>
      decidable_of_iff ((∀ x ∈ pc.adds, Relied s x.1 → s.cache x.1 = none → IsDir x.2) ∧
          (∀ q ∈ pc.deletes, Relied s q → s.dfs q = some .dir) ∧ ∀ q ∈ pc.removes, Relied s q → s.cache q ≠ none)
        ⟨fun h => ⟨h.1, h.2.1, h.2.2, fun x member => by rw [renames] at member; cases member⟩,
          fun h => ⟨h.1, h.2, h.3⟩⟩
  | some _ => Classical.propDecidable _

noncomputable instance [Fintype κ] (s : State ι κ α) (e : Event κ ι α) : Decidable (Spares s e) := by
  unfold Spares
  split <;> infer_instance

def workspace : Config Unit Bool := .oneNode Bool [['w']]

def directory : Path := [['d'], ['w']]

def steps (c : Bool) (n : Nat) : List (Event Bool Unit Unit) := List.replicate n (.base (.base (.client c .zero)))

def called (c : Bool) (op : Op) (p : Path) (n : Nat) : List (Event Bool Unit Unit) :=
  .base (.base (.start c ⟨op, p⟩)) :: steps c n

def committed (c : Bool) : List (Event Bool Unit Unit) :=
  [.base (.base (.take c)), .base (.base (.server () .zero))]

def serves (c : Bool) (entry : Option CString) : Event Bool Unit Unit :=
  .request c { Env.zero with entry := entry, vacant := true } false (exampleDisk fun _ => false)

def cleanedRun : List (Event Bool Unit Unit) :=
  List.flatten [called true (.make .mkdir) directory 3, committed true,
    called true (.make .create) (['f'] :: directory) 5, committed true,
    [.start false (.rmdir directory), serves false none, serves false none, serves false (some ['f']),
      serves false none, serves false none, serves false none, serves false none, serves false none,
      serves false none, .clean true],
    called true (.make .mkdir) (['x'] :: directory) 2]

def markedRun : List (Event Bool Unit Unit) :=
  List.flatten [called true (.make .mkdir) directory 3, called true .rm directory 4,
    called true (.make .mkdir) (['x'] :: directory) 4]

def opened (n : Nat) : List (Event Bool Unit Unit) :=
  .base (.start () (.openFile (['f'] :: directory) ⟨true, false, true⟩)) ::
    List.replicate n (.base (.agent () .zero false))

def sparedRun : List (Event Bool Unit Unit) :=
  List.flatten [called true (.make .mkdir) directory 3, committed true, opened 4, opened 5,
    [.start false (.rmdir directory), serves false none, serves false none, serves false (some ['f']),
      serves false none, serves false none, serves false none, serves false none, serves false none,
      serves false none, .clean true],
    called true (.make .mkdir) directory 3, called true (.make .mkdir) (['x'] :: directory) 4]

def finished (s : State Unit Bool Unit) : Bool :=
  s.base.base.client true = .returning ⟨.make .mkdir, ['x'] :: directory⟩ 0

theorem not_parentsLive {s : State Unit Bool Unit} (both : (finished s && !decide (LiveDir s.base.base directory)) = true) :
    ¬ParentsLive s := by
  obtain ⟨returns, gone⟩ := (Bool.and_eq_true _ _).mp both
  intro live
  have there : LiveDir s.base.base directory :=
    live true .mkdir (['x'] :: directory) (of_decide_eq_true returns) (List.cons_ne_nil _ _)
  rw [decide_eq_true there] at gone
  cases gone

theorem parent_gone :
    (∃ s, (system workspace).Reachable Prescribed s ∧ s.base.base.cache directory = none ∧
      s.base.base.dfs directory = none ∧ ¬ParentsLive (s : State Unit Bool Unit)) ∧
    ∃ s, (system workspace).Reachable (fun s e => Prescribed s e ∧ ¬CallsRmdir e) s ∧
      ¬ParentsLive (s : State Unit Bool Unit) := by
  have initial := initial_initialState (α := Unit) workspace .zero (List.cons_ne_nil _ _)
  constructor
  · have run := System.exists_reachable (system workspace) Prescribed initial cleanedRun
      (fun s => decide (s.base.base.cache directory = none ∧ s.base.base.dfs directory = none) &&
        (finished s && !decide (LiveDir s.base.base directory))) (by decide +kernel)
    obtain ⟨s, reach, facts⟩ := run
    obtain ⟨removed, both⟩ := (Bool.and_eq_true _ _).mp facts
    obtain ⟨cache, dfs⟩ := of_decide_eq_true removed
    exact ⟨s, reach, cache, dfs, not_parentsLive both⟩
  · have run := System.exists_reachable (system workspace) (fun s e => Prescribed s e ∧ ¬CallsRmdir e) initial
      markedRun (fun s => finished s && !decide (LiveDir s.base.base directory)) (by decide +kernel)
    obtain ⟨s, reach, both⟩ := run
    exact ⟨s, reach, not_parentsLive both⟩

theorem parents_live_run : ∃ s : State Unit Bool Unit, (system workspace).Reachable Spares s ∧
    finished s = true ∧ ParentsLive s := by
  have run := System.exists_reachable (system workspace) Spares
    (initial_initialState (α := Unit) workspace .zero (List.cons_ne_nil _ _)) sparedRun finished (by decide +kernel)
  obtain ⟨s, reach, done⟩ := run
  exact ⟨s, reach, done, parents_live reach⟩

end Pacon.Parents
