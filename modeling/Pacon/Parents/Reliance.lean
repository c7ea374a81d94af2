import Pacon.Calls.Creating
import Pacon.Parents.Moves

/-!
# Directories that clients rely on

A client relies on a directory once its table has it, and from the parent check of a creating call to
its return. A step that takes no such directory away keeps all of them.
-/

set_option linter.unusedSectionVars false

namespace Pacon.Commit
open Function Lib

def ClientPc.parent : ClientPc → Option Path
  | .opendir _ p _ _ | .readdir _ p _ _ | .childCas _ p _ _ | .childReget _ p | .parentAdd _ p
  | .loadStat (.child _ p _ _ _) | .loadAdd (.child _ p _ _ _) _ => some p.tail
  | .add _ p | .addGet _ p _ | .addSet _ p _ | .send ⟨.make _, p⟩ | .returning ⟨.make _, p⟩ 0 =>
      if p = [] then none else some p.tail
  | _ => none

def ClientPc.checks : ClientPc → Option Path
  | .parentGet _ p | .parentReget _ p => some p.tail
  | _ => none

def IsDir (v : Value) : Prop := getStatFlag v.stat .type = false ∧ getStatFlag v.stat .rm = false

instance (v : Value) : Decidable (IsDir v) := inferInstanceAs (Decidable (_ ∧ _))

def ClientPc.addsFile : ClientPc → Option Path
  | .add m p => if m = .mkdir then none else some p
  | .loadAdd l v => if IsDir v then none else some l.target
  | _ => none

def ClientPc.setsFile : ClientPc → Option Path
  | .addSet m p _ => if m = .mkdir then none else some p
  | _ => none

def ServerPc.removes {κ : Type} : ServerPc κ → Option Path
  | .attempt _ ⟨.rm, p⟩ | .retry _ ⟨.rm, p⟩ => some p
  | _ => none

variable {ι κ : Type} [DecidableEq ι] [DecidableEq κ]

def LiveDir (s : State ι κ) (q : Path) : Prop :=
  match s.cache q with
  | some e => IsDir e.value
  | none => s.dfs q = some .dir

instance (s : State ι κ) (q : Path) : Decidable (LiveDir s q) := by
  unfold LiveDir
  split <;> infer_instance

def Relied (s : State ι κ) (q : Path) : Prop := ∃ c, s.table c q = true ∨ (s.client c).parent = some q

instance [Fintype κ] (s : State ι κ) (q : Path) : Decidable (Relied s q) :=
  inferInstanceAs (Decidable (∃ _, _ ∨ _))

def Sound (s : State ι κ) : Prop := ∀ q, Relied s q → LiveDir s q

def Preserved (s t : State ι κ) : Prop := ∀ q, Relied s q → LiveDir s q → LiveDir t q

variable {cfg : Config ι κ} {s t u : State ι κ} {env : Env} {p q : Path} {v : Value}

theorem LiveDir.congr (cache : t.cache q = s.cache q) (dfs : t.dfs q = s.dfs q) (live : LiveDir s q) : LiveDir t q := by
  unfold LiveDir at live ⊢
  rwa [cache, dfs]

theorem liveDir_cached {e : Entry} (entry : s.cache q = some e) : LiveDir s q ↔ IsDir e.value := by
  unfold LiveDir
  rw [entry]

theorem liveDir_uncached (absent : s.cache q = none) : LiveDir s q ↔ s.dfs q = some .dir := by
  unfold LiveDir
  rw [absent]

namespace Preserved

theorem same (cache : t.cache = s.cache) (dfs : t.dfs = s.dfs) : Preserved s t :=
  fun q _ live => live.congr (congrFun cache q) (congrFun dfs q)

theorem store (isDir : Relied s p → LiveDir s p → IsDir v) : Preserved s (Commit.store s p v) := by
  intro q relied live
  by_cases here : q = p
  · subst here
    have entry : (Commit.store s q v).cache q = some ⟨s.clock, v⟩ := by rw [store_cache, update_self]
    exact (liveDir_cached entry).mpr (isDir relied live)
  · exact live.congr (update_of_ne here ..) rfl

theorem del (onDfs : Relied s p → s.dfs p = some .dir) : Preserved s (dmkvDel s p) := by
  intro q relied live
  by_cases here : q = p
  · subst here
    exact (liveDir_uncached (update_self ..)).mpr (onDfs relied)
  · exact live.congr (update_of_ne here ..) rfl

theorem dfs (cache : t.cache = s.cache)
    (dfs : ∀ q, Relied s q → s.cache q = none → s.dfs q = some .dir → t.dfs q = some .dir) : Preserved s t := by
  intro q relied live
  cases entry : s.cache q with
  | some e => exact (liveDir_cached ((congrFun cache q).trans entry)).mpr ((liveDir_cached entry).mp live)
  | none =>
      refine (liveDir_uncached ((congrFun cache q).trans entry)).mpr ?_
      exact dfs q relied entry ((liveDir_uncached entry).mp live)

theorem swap {e : Entry} (entry : s.cache p = some e) (copy : CopyOf s.cache s.clock p v e.cas) :
    Preserved s (Commit.store s p v) := by
  refine .store fun _ live => ?_
  have isDir := (liveDir_cached entry).mp live
  have alike := copy.2 e entry rfl
  exact ⟨alike.type.trans isDir.1, alike.rm.trans isDir.2⟩

end Preserved

theorem Sound.preserve (sound : Sound s) (preserved : Preserved s t) (relied : ∀ q, Relied t q → Relied s q) : Sound t :=
  fun q h => preserved q (relied q h) (sound q (relied q h))

theorem Sound.client (sound : Sound s) {c : κ} {pc : ClientPc} (preserved : Preserved s u) (client : u.client = s.client)
    (table : u.table = s.table) (parent : ∀ q, pc.parent = some q → Relied s q ∨ LiveDir u q) :
    Sound (setPc u c pc) := by
  rintro q ⟨d, checked | relied⟩
  · rw [show (setPc u c pc).table = s.table from table] at checked
    have before : Relied s q := ⟨d, .inl checked⟩
    exact preserved q before (sound q before)
  · by_cases here : d = c
    · subst here
      rw [setPc_client, update_self] at relied
      rcases parent q relied with before | live
      · exact preserved q before (sound q before)
      · exact live
    · rw [setPc_client, update_of_ne here, client] at relied
      have before : Relied s q := ⟨d, .inr relied⟩
      exact preserved q before (sound q before)

theorem isDir_newValue (env : Env) : IsDir (newValue env .mkdir) := ⟨newValue_type env .mkdir, (newValue_flags env _).1⟩

theorem afterParent_parent (m : Make) (p : Path) :
    (afterParent m p).parent = none ∨ p ≠ [] ∧ (afterParent m p).parent = some p.tail := by
  apply afterParent_of (P := fun pc => pc.parent = none ∨ p ≠ [] ∧ pc.parent = some p.tail)
  · intro _
    by_cases root : p = [] <;> simp [ClientPc.parent, root]
  · exact .inl rfl

theorem beginCall_parent (table : Path → Bool) {call : Call} (parent : (beginCall table call).parent = some q) :
    table q = true := by
  revert parent
  apply beginCall_of (P := fun pc => pc.parent = some q → table q = true)
  · intro m p _ checked parent
    rcases afterParent_parent m p with none | ⟨notRoot, is⟩
    · rw [none] at parent
      cases parent
    · rw [is] at parent
      cases parent
      exact checked.resolve_left notRoot
  all_goals
    intros
    rename_i parent
    cases parent

theorem parentFound_parent {m : Make} {e : Entry} (entry : s.cache p.tail = some e)
    (unmarked : getStatFlag e.value.stat .rm = false) (parent : (parentFound m p e).parent = some q) : LiveDir s q := by
  unfold parentFound at parent
  split at parent
  · cases parent
  rename_i dir
  have isDir : IsDir e.value := ⟨by simpa using dir, unmarked⟩
  split at parent
  all_goals
    cases parent
    exact (liveDir_cached entry).mpr isDir

theorem load_parent {l : Load} (parent : (load cfg l).parent = some q) : (ClientPc.loadStat l).parent = some q := by
  unfold load at parent
  split at parent
  · exact parent
  · cases l <;> cases parent

theorem Local.parent {pc next : ClientPc} (goes : Local cfg s env pc next)
    (unmarked : ∀ q ∈ pc.checks, ∀ e ∈ s.cache q, getStatFlag e.value.stat .rm = false)
    (parent : next.parent = some q) : pc.parent = some q ∨ LiveDir s q := by
  cases goes with
  | parentHit entry | parentLoaded entry => exact .inr (parentFound_parent entry (unmarked _ rfl _ entry) parent)
  | parentMiss | rmMiss => cases load_parent parent
  | readdir => exact .inl (load_parent parent)
  | @statFail l => cases l <;> cases parent
  | @stat l | @loadExists l =>
      cases l with
      | child => exact .inl parent
      | parent | rm => cases parent
  | writeHit =>
      unfold writeFound at parent
      split at parent
      · cases parent
      · split at parent <;> cases parent
  | opendir | readdirEnd | childExists | childReget | addExists | addRemoved => exact .inl parent
  | _ => cases parent

/-- What a client at `pc` is about to do takes no directory away. -/
structure ClientPc.Spares (s : State ι κ) (pc : ClientPc) : Prop where
  checks : ∀ q ∈ pc.checks, ∀ e ∈ s.cache q, getStatFlag e.value.stat .rm = false
  marks : ∀ q ∈ pc.marks, ¬Relied s q
  adds : ∀ q ∈ pc.addsFile, Relied s q → s.cache q ≠ none
  sets : ∀ q ∈ pc.setsFile, ¬Relied s q

structure ServerPc.Spares (s : State ι κ) (pc : ServerPc κ) : Prop where
  removes : ∀ q ∈ pc.removes, Relied s q → s.cache q ≠ none
  deletes : ∀ q ∈ pc.deletes, Relied s q → s.dfs q = some .dir

theorem Sound.memo (sound : Sound s) (c : κ) (relied : Relied s p) : Sound (Calls.addToDirCheckTable s c p) := by
  refine sound.preserve (.same rfl rfl) fun q after => ?_
  obtain ⟨d, checked | parent⟩ := after
  · rcases (Calls.checked_iff s c d p q).mp checked with checked | ⟨-, rfl⟩
    · exact ⟨d, .inl checked⟩
    · exact relied
  · exact ⟨d, .inr parent⟩

theorem send_parent {call : Call} (parent : (ClientPc.returning call call.result).parent = some q) :
    (ClientPc.send call).parent = some q := by
  obtain ⟨op, p⟩ := call
  cases op with
  | make m => exact parent
  | rm | write => cases parent

theorem Sound.clientStep (sound : Sound s) (versioned : Versioned s) {c : κ} (spares : (s.client c).Spares s)
    (move : Move cfg s (.client c env) t) : Sound t := by
  have held : ∀ {pc}, s.client c = pc → CopyOk s.cache s.clock pc := fun at_pc => at_pc ▸ versioned.client c
  have before : ∀ {pc : ClientPc} {q}, s.client c = pc → pc.parent = some q → Relied s q :=
    fun at_pc parent => ⟨c, .inr (by rw [at_pc]; exact parent)⟩
  cases move with
  | goOn at_pc goes =>
      rw [at_pc] at spares
      refine sound.client (.same rfl rfl) rfl rfl fun q parent => ?_
      exact (goes.parent spares.checks parent).imp_left (before at_pc)
  | @parentAdd _ _ m p at_pc =>
      have memo : Sound (Calls.addToDirCheckTable s c p.tail) := sound.memo c (before at_pc rfl)
      refine memo.client (.same rfl rfl) rfl rfl fun q parent => .inl ⟨c, .inl ?_⟩
      rcases afterParent_parent m p with none | ⟨-, tail⟩
      · rw [none] at parent
        cases parent
      · rw [tail] at parent
        cases parent
        exact (Calls.checked_iff s c c p.tail p.tail).mpr (.inr ⟨rfl, rfl⟩)
  | @loadAdd _ _ l v at_pc key absent =>
      rw [at_pc] at spares
      refine sound.client (.store fun relied _ => ?_) rfl rfl fun q parent => .inl ?_
      · by_contra file
        exact spares.adds l.target (by simp [ClientPc.addsFile, file]) relied absent
      · cases l with
        | child => exact before at_pc parent
        | parent | rm => cases parent
  | childCas at_pc entry same =>
      subst same
      exact sound.client (.swap entry (held at_pc)) rfl rfl fun q parent => .inl (before at_pc parent)
  | @add _ _ m p at_pc key absent =>
      rw [at_pc] at spares
      refine sound.client (.store fun relied _ => ?_) rfl rfl fun q parent => .inl (before at_pc parent)
      by_cases dir : m = .mkdir
      · exact dir ▸ isDir_newValue _
      · exact absurd absent (spares.adds p (by simp [ClientPc.addsFile, dir]) relied)
  | addAgain at_pc =>
      exact sound.client (.same rfl rfl) rfl rfl fun q parent => .inl (before at_pc parent)
  | @addSet _ _ m p v at_pc =>
      have stored := held at_pc
      rw [at_pc] at spares
      refine sound.client (.store fun relied _ => ?_) rfl rfl fun q parent => .inl (before at_pc ?_)
      · obtain ⟨env, rfl⟩ := stored
        by_cases dir : m = .mkdir
        · exact dir ▸ isDir_newValue _
        · exact absurd relied (spares.sets p (by simp [ClientPc.setsFile, dir]))
      · cases m <;> exact parent
  | @rmCas _ _ p v cas e at_pc entry same =>
      rw [at_pc] at spares
      exact sound.client (.store fun relied _ => absurd relied (spares.marks p rfl)) rfl rfl
        fun q parent => by cases parent
  | rmLate => exact sound.client (.same rfl rfl) rfl rfl fun q parent => by cases parent
  | writeCas at_pc entry same =>
      subst same
      exact sound.client (.swap entry (held at_pc)) rfl rfl fun q parent => by cases parent
  | send at_pc =>
      exact sound.client (.same rfl rfl) rfl rfl fun q parent => .inl (before at_pc (send_parent parent))
  | ret => exact sound.client (.same rfl rfl) rfl rfl fun q parent => by cases parent

theorem Sound.frame (sound : Sound s) (preserved : Preserved s t) (client : t.client = s.client)
    (table : t.table = s.table) : Sound t := by
  refine sound.preserve preserved fun q relied => ?_
  unfold Relied at relied ⊢
  rwa [client, table] at relied

theorem dir_update {dfs : Path → Option Node} (node : Option Node) (noDir : dfs p ≠ some .dir)
    (dir : dfs q = some .dir) : update dfs p node q = some .dir := by
  have other : q ≠ p := fun here => noDir (here ▸ dir)
  exact (update_of_ne other ..).trans dir

theorem dfsCall_dir {dfs dfs' : Path → Option Node} {vacant : Bool} {m : Msg}
    (call : dfsCall dfs vacant m = some dfs') (dir : dfs q = some .dir) :
    dfs' q = some .dir ∨ m.opt = .rm ∧ m.path = q := by
  cases dfsCall_effect call with
  | mkdir opt notRoot free | create opt notRoot free =>
      exact .inl (dir_update _ (by simp [free]) dir)
  | truncate opt file => exact .inl (dir_update _ (by simp [file]) dir)
  | remove opt =>
      by_cases here : m.path = q
      · exact .inr ⟨opt, here⟩
      · exact .inl ((update_of_ne (Ne.symm here) ..).trans dir)

theorem Sound.serverStep (sound : Sound s) {i : ι} (spares : (s.server i).Spares s)
    (move : Move cfg s (.server i env) t) : Sound t := by
  cases move with
  | rmVoid | rmFound | fail | dropWrite | openWrite | writeVoid | writeRead =>
      exact sound.frame (.same rfl rfl) rfl rfl
  | @succeed _ _ c m dfs pc call =>
      obtain ⟨client, table, cache, after⟩ := succeed_frame s i c m dfs
      refine sound.frame (.dfs cache fun q relied absent dir => ?_) client table
      rw [after]
      refine (dfsCall_dir call dir).resolve_right fun ⟨opt, path⟩ => ?_
      obtain ⟨_, p⟩ := m
      cases opt
      cases path
      refine spares.removes p ?_ relied absent
      rcases pc with pc | pc <;> exact congrArg ServerPc.removes pc
  | @rmDel _ _ c p pc =>
      rw [pc] at spares
      have kept : Preserved s (dmkvDel s p) := .del (spares.deletes p rfl)
      exact sound.frame kept rfl rfl
  | @writeBack _ _ c p n data pc =>
      unfold Commit.writeBack
      split
      · rename_i content file
        obtain ⟨file, -⟩ := opened_eq_some.mp file
        exact sound.frame (.dfs rfl fun q _ _ => dir_update _ (by simp [file])) rfl rfl
      · exact sound.frame (.same rfl rfl) rfl rfl

end Pacon.Commit

namespace Pacon.Evict
open Function Lib Commit

variable {ι κ α : Type} [DecidableEq ι] [DecidableEq κ] [DecidableEq α] {cfg : Config ι κ} {s t : State ι κ α}

structure AgentPc.Spares (s : Commit.State ι κ) (pc : AgentPc) : Prop where
  adds : ∀ x ∈ pc.records, Relied s x.1 → s.cache x.1 = none → IsDir x.2
  deletes : ∀ q ∈ pc.deletes, Relied s q → s.dfs q = some .dir

theorem openEffect_dir {dfs dfs' : Path → Option Node} {flags : OpenFlags} {p q : Path}
    (effect : OpenEffect dfs flags p dfs') (dir : dfs q = some .dir) : dfs' q = some .dir := by
  cases effect with
  | found => exact dir
  | trunc _ file => exact dir_update _ (by simp [file]) dir
  | creat _ _ free => exact dir_update _ (by simp [free]) dir

theorem sound_agentStep (sound : Sound s.base) (versioned : Versioned s) {a : α} {env : Env} {dir : Bool}
    (spares : (s.agent a).Spares s.base) (move : Move cfg s (.agent a env dir) t) : Sound t.base := by
  cases move with
  | look | read => exact sound
  | del deletes => exact sound.frame (.del (spares.deletes _ deletes)) rfl rfl
  | @record _ _ _ p v records key absent =>
      exact sound.frame (.store fun relied _ => spares.adds (p, v) records relied absent) rfl rfl
  | opens _ effect => exact sound.frame (.dfs rfl fun q _ _ => openEffect_dir effect) rfl rfl
  | @count _ _ _ p v cas e at_pc entry same =>
      subst same
      have copy := (versioned.agent a p v e.cas (by rw [at_pc]; rfl)).copyOf
      exact sound.frame (.swap entry copy) rfl rfl

end Pacon.Evict
