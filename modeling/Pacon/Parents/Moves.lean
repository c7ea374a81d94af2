import Pacon.Evict.Moves
import Pacon.Evict.Removal
import Pacon.Parents.Model
import Pacon.Server.Reports

set_option linter.unusedSectionVars false

namespace Pacon.Parents
open Function Lib Commit Server

variable {ι κ α : Type} [DecidableEq ι] [DecidableEq κ] [DecidableEq α] (cfg : Config ι κ)

def RequestPc.adds : RequestPc → Option (Path × Value)
  | .add r v => some (r.path, v)
  | .newAdd _ newp v => some (newp, v)
  | _ => none

def RequestPc.deletes : RequestPc → Option Path
  | .entryDel _ _ p _ | .del p => some p
  | _ => none

def RequestPc.removes : RequestPc → Option Path
  | .remove _ _ p | .rmdir _ _ p => some p
  | _ => none

def RequestPc.renames : RequestPc → Option (Path × Path)
  | .rename p newp => some (p, newp)
  | _ => none

inductive Move (s : State ι κ α) : Event κ ι α → Evict.State ι κ α → Prop
  | base {e b} (move : Evict.Move cfg s.base e b) : Move s (.base e) b
  | quiet {e} : Move s e s.base
  | add {c env dir d p v} (adds : (s.request c).adds = some (p, v)) (absent : s.base.base.cache p = none) :
      Move s (.request c env dir d) (Evict.setBase s.base (store s.base.base p v))
  | del {c env dir d p} (deletes : (s.request c).deletes = some p) :
      Move s (.request c env dir d) (Evict.setBase s.base (dmkvDel s.base.base p))
  | remove {c env dir d p} (removes : (s.request c).removes = some p) :
      Move s (.request c env dir d)
        (Evict.setBase s.base
          (unlinked s.base.base (fun q => decide (q = p)) (update s.base.base.dfs p none)))
  | rename {c env dir d p newp} (renames : (s.request c).renames = some (p, newp)) :
      Move s (.request c env dir d)
        (Evict.setBase s.base (unlinked s.base.base (Server.renames p newp) (moved s.base.base.dfs p newp)))

variable {cfg} {s t : State ι κ α}

theorem dfsCall_rm {dfs dfs' : Path → Option Node} {vacant : Bool} {p : Path}
    (call : dfsCall dfs vacant ⟨.rm, p⟩ = some dfs') : dfs' = update dfs p none := by
  cases dfsCall_effect call with
  | mkdir opt | create opt | truncate opt => cases opt
  | remove => rfl

theorem removeCall_some {d : Disk} {dfs dfs' : Path → Option Node} {vacant : Bool} {p : Path}
    (call : removeCall d dfs vacant p = some dfs') : dfs' = update dfs p none := by
  unfold removeCall at call
  split at call
  · cases call
  · exact dfsCall_rm call

theorem rmdirCall_some {d : Disk} {dfs dfs' : Path → Option Node} {vacant : Bool} {p : Path}
    (call : rmdirCall d dfs vacant p = some dfs') : dfs' = update dfs p none := by
  unfold rmdirCall at call
  split at call
  · exact (Option.some.inj call).symm
  · cases call

theorem Move.added {c : κ} {env : Env} {dir : Bool} {d : Disk} {p : Path} {v : Value}
    (adds : (s.request c).adds = some (p, v)) :
    Move cfg s (.request c env dir d) (Evict.setBase s.base ((dmkvAdd s.base.base p v).getD s.base.base)) := by
  unfold dmkvAdd
  split
  · exact .quiet
  · rename_i free
    rw [not_or, Option.not_isSome_iff_eq_none] at free
    exact .add adds free.2

theorem requestStep_move {c : κ} {env : Env} {dir : Bool} {d : Disk}
    (h : requestStep cfg s c env dir d = some t) : Move cfg s (.request c env dir d) t.base := by
  cases at_pc : s.request c with
  | idle | beyond => simp [requestStep, at_pc] at h
  | get | stat | newGet | newStat | opendir | readdir | returning =>
      simp only [requestStep, at_pc, Option.some.injEq] at h
      exact h ▸ .quiet
  | add r v | newAdd p newp v =>
      simp only [requestStep, at_pc, Option.some.injEq] at h
      exact h ▸ .added (congrArg RequestPc.adds at_pc)
  | entryDel r dirs p isDir =>
      simp only [requestStep, at_pc, Option.some.injEq] at h
      subst h
      split
      · rename_i u deleted
        obtain ⟨-, rfl⟩ := (delKey_some s.base.base p).mp deleted
        exact .del (congrArg RequestPc.deletes at_pc)
      · exact .quiet
  | del p =>
      simp only [requestStep, at_pc, Option.some.injEq] at h
      subst h
      split
      · rename_i u deleted
        obtain ⟨-, rfl⟩ := (delKey_some s.base.base p).mp deleted
        exact .del (congrArg RequestPc.deletes at_pc)
      · exact .quiet
  | remove r dirs p =>
      simp only [requestStep, at_pc, Option.some.injEq] at h
      subst h
      split
      · rename_i dfs call
        rw [removeCall_some call]
        exact .remove (congrArg RequestPc.removes at_pc)
      · exact .quiet
  | rmdir r dirs p =>
      simp only [requestStep, at_pc, Option.some.injEq] at h
      subst h
      split
      · rename_i dfs call
        rw [rmdirCall_some call]
        exact .remove (congrArg RequestPc.removes at_pc)
      · exact .quiet
  | rename p newp =>
      simp only [requestStep, at_pc, Option.some.injEq] at h
      subst h
      split
      · rename_i dfs call
        obtain ⟨-, ⟨rfl, rfl⟩ | ⟨-, -, -, -, rfl⟩⟩ := renameCall_some call
        · rw [unlinked_renames_self]
          exact .quiet
        · exact .rename (congrArg RequestPc.renames at_pc)
      · exact .quiet

theorem move_of_step {e : Event κ ι α} (h : step cfg s e = some t) : Move cfg s e t.base := by
  unfold step at h
  split at h
  · simp only [Option.ite_none_right_eq_some] at h
    obtain ⟨b, goes, rfl⟩ := Option.map_eq_some_iff.mp h.2
    exact .base (Evict.move_of_step goes)
  · obtain ⟨b, goes, rfl⟩ := Option.map_eq_some_iff.mp h
    exact .base (Evict.move_of_step goes)
  · rename_i c r
    simp only [Option.ite_none_right_eq_some, Option.some.injEq] at h
    rw [← h.2]
    unfold begun
    split <;> exact .quiet
  · exact requestStep_move h
  · simp only [Option.ite_none_right_eq_some, Option.some.injEq] at h
    exact h.2 ▸ .quiet

theorem versioned_renews {b : Commit.State ι κ} (v : Evict.Versioned s.base) (renews : Renews s.base.base b)
    (client : b.client = s.base.base.client) : Evict.Versioned (Evict.setBase s.base b) where
  base := v.base.serverStep renews client
  agent a p w cas copy := (v.agent a p w cas copy).renews renews

theorem Move.versioned {e : Event κ ι α} {b : Evict.State ι κ α} (move : Move cfg s e b)
    (v : Evict.Versioned s.base) : Evict.Versioned b := by
  cases move with
  | base move => exact v.move move
  | quiet => exact v
  | add => exact versioned_renews v (.store _ _) rfl
  | del => exact versioned_renews v (.del _) rfl
  | remove | rename => exact versioned_renews v (.same rfl rfl) rfl

theorem versioned_of_reachable {ok : State ι κ α → Event κ ι α → Prop} (h : (system cfg).Reachable ok s) :
    Evict.Versioned s.base := by
  refine h.invariant (P := fun s => Evict.Versioned s.base) (fun s (initial : Initial cfg s) => ?_)
    fun _ _ _ _ v _ step => (move_of_step step).versioned v
  refine ⟨.initial initial.base.base, fun a p w cas copy => ?_⟩
  rw [initial.base.agent a] at copy
  cases copy

end Pacon.Parents
