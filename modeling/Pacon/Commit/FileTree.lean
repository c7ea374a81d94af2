import Pacon.Lib.Linear
import Pacon.Commit.Agreement
import Pacon.Commit.WriteBack

/-!
# The cached namespace as a tree of files

Runs of `pacon_mkdir`, `pacon_create` and inline writes: what is cached is a tree, and each step that
changes the cache is one access to it.
-/

set_option linter.unusedSectionVars false

namespace Pacon.Commit
open Function Lib InlineWrite

abbrev Tree := Path → Option Node

inductive Access
  | make (node : Node) (p : Path)
  | write (p : Path) (buf : List UInt8) (offset : Nat)

def Tree.access (tree : Tree) : Access → Tree × Int
  | .make node p =>
      if tree p.tail = some .dir ∧ tree p = none then (update tree p (some node), 0) else (tree, -1)
  | .write p buf offset =>
      match tree p with
      | some (.file content) =>
          if offset ≤ content.length then
            (update tree p (some (.file (overwrite content buf offset))), buf.length)
          else (tree, -1)
      | _ => (tree, -1)

def fileTree : Object Tree Access Int := ⟨Tree.access⟩

theorem Tree.make_new {tree : Tree} {node : Node} {p : Path} (parent : tree p.tail = some .dir) (free : tree p = none) :
    tree.access (.make node p) = (update tree p (some node), 0) :=
  if_pos ⟨parent, free⟩

theorem Tree.make_exists {tree : Tree} {node : Node} {p : Path} (there : tree p ≠ none) :
    tree.access (.make node p) = (tree, -1) :=
  if_neg fun both => there both.2

theorem Tree.make_orphan {tree : Tree} {node : Node} {p : Path} (parent : tree p.tail ≠ some .dir) :
    tree.access (.make node p) = (tree, -1) :=
  if_neg fun both => parent both.1

theorem Tree.write_inside {tree : Tree} {p : Path} {content buf : List UInt8} {offset : Nat}
    (file : tree p = some (.file content)) (inside : offset ≤ content.length) :
    tree.access (.write p buf offset) =
      (update tree p (some (.file (overwrite content buf offset))), (buf.length : Int)) := by
  simp only [Tree.access, file]
  exact if_pos inside

theorem Tree.write_hole {tree : Tree} {p : Path} {content buf : List UInt8} {offset : Nat}
    (file : tree p = some (.file content)) (hole : content.length < offset) :
    tree.access (.write p buf offset) = (tree, -1) := by
  simp only [Tree.access, file]
  exact if_neg (Nat.not_le.mpr hole)

def Make.node : Make → Node
  | .mkdir => .dir
  | .create => .file []
  | .createWrite buf => .file buf

def Call.access : Call → Option Access
  | ⟨.make m, p⟩ => some (.make m.node p)
  | ⟨.write buf offset, p⟩ => some (.write p buf offset)
  | ⟨.rm, _⟩ => none

def ClientPc.undecided : ClientPc → Option Access
  | .parentGet m p | .parentReget m p | .parentAdd m p | .add m p => some (.make m.node p)
  | .loadStat (.parent m p) | .loadAdd (.parent m p) _ => some (.make m.node p)
  | .writeGet p buf offset | .writeCas p buf offset _ _ => some (.write p buf offset)
  | _ => none

variable {ι κ : Type} [DecidableEq ι] [DecidableEq κ] (cfg : Config ι κ)

def nodeOf (v : Value) : Node :=
  match v.kind with
  | .dir => .dir
  | .file => .file v.data

/-- What is cached, below a root that is always there. -/
def treeOf (s : State ι κ) : Tree := fun p =>
  if p = cfg.root then some .dir else (s.cache p).map fun e => nodeOf e.value

/-- A call that makes a name, or one that writes a string to a file that is there. -/
def Plain (s : State ι κ) (call : Call) : Prop :=
  Makes call ∨ ∃ buf offset p e, call = ⟨.write buf offset, p⟩ ∧ 0 ∉ buf ∧ s.cache p = some e ∧ e.value.kind = .file

def PlainCalls (s : State ι κ) : Event κ ι → Prop
  | .start _ call => Plain s call
  | .client _ _ | .take _ | .server _ _ => True

variable {cfg} {s t u : State ι κ}

theorem Plain.keeps {call : Call} (h : Plain s call) : Keeps call := by
  rcases h with makes | ⟨buf, offset, p, e, rfl, -⟩
  · exact makes.keeps
  · intro is
    cases is

theorem PlainCalls.calls {e : Event κ ι} (h : PlainCalls s e) : Calls Keeps s e := by
  cases e with
  | start c call => exact Plain.keeps h
  | client | take | server => trivial

theorem Plain.not_createWrite {m : Make} {p : Path} (h : Plain s ⟨.make m, p⟩) (buf : List UInt8) :
    m ≠ .createWrite buf := by
  rintro rfl
  rcases h with (h | h) | ⟨_, _, _, _, h, -⟩ <;> cases h

theorem Plain.afterParent {m : Make} {p : Path} (h : Plain s ⟨.make m, p⟩) : afterParent m p = .add m p := by
  cases m with
  | mkdir | create => rfl
  | createWrite buf => exact absurd rfl (h.not_createWrite buf)

theorem Plain.file {buf : List UInt8} {offset : Nat} {p : Path} (h : Plain s ⟨.write buf offset, p⟩) :
    0 ∉ buf ∧ ∃ e, s.cache p = some e ∧ e.value.kind = .file := by
  rcases h with (h | h) | ⟨_, _, _, e, h, nulFree, entry, file⟩
  · cases h
  · cases h
  · cases h
    exact ⟨nulFree, e, entry, file⟩

inductive Changes (cfg : Config ι κ) (s : State ι κ) : Event κ ι → State ι κ → Prop
  | add {c env m p t} (at_pc : s.client c = .add m p) (below : Below cfg p) (parent : DirAt cfg s.cache p.tail)
      (absent : s.cache p = none) (cache : t.cache = (store s p (newValue env m)).cache)
      (after : t.client c = .send ⟨.make m, p⟩) : Changes cfg s (.client c env) t
  | write {c env p buf offset e env' t} (at_pc : s.client c = .writeCas p buf offset (writtenValue env' e.value buf offset) e.cas)
      (entry : s.cache p = some e) (inside : offset ≤ e.value.stat.size.toNat)
      (fits : newSize e.value buf offset < inlineMax - 1)
      (cache : t.cache = (store s p (writtenValue env' e.value buf offset)).cache)
      (after : t.client c = .send ⟨.write buf offset, p⟩) : Changes cfg s (.client c env) t

theorem Grown.changes_add (g : Grown cfg s) {c : κ} {env : Env} {m : Make} {p : Path} (at_pc : s.client c = .add m p)
    (key : p ≠ []) (absent : s.cache p = none) :
    Changes cfg s (.client c env) (setPc (store s p (newValue env m)) c (.send ⟨.make m, p⟩)) := by
  have ok := g.client c
  rw [at_pc] at ok
  refine .add at_pc (below_of_dirAt key (ok key)) (ok key) absent rfl ?_
  rw [setPc_client, update_self]

theorem Grown.changes_write (g : Grown cfg s) {c : κ} {env : Env} {p : Path} {buf : List UInt8} {offset : Nat} {v : Value}
    {e : Entry} (at_pc : s.client c = .writeCas p buf offset v e.cas) (entry : s.cache p = some e) :
    Changes cfg s (.client c env) (setPc (store s p v) c (.send ⟨.write buf offset, p⟩)) := by
  have ok := g.client c
  rw [at_pc] at ok
  obtain ⟨inside, fits, env', rfl⟩ := ok.2 e entry rfl
  refine .write at_pc entry inside fits rfl ?_
  rw [setPc_client, update_self]

theorem Move.changes {e : Event κ ι} (move : Move cfg s e t) (g : Grown cfg s) (w : Within cfg Keeps s) :
    t.cache = s.cache ∨ Changes cfg s e t := by
  have at_client : ∀ {c pc}, s.client c = pc → ClientOk cfg s.cache s.clock pc :=
    fun at_pc => at_pc ▸ g.client _
  cases move with
  | loadAdd at_pc key absent =>
      obtain ⟨m, p, rfl, -, -, there⟩ := at_client at_pc
      exact absurd absent there
  | childCas at_pc | addSet at_pc | rmCas at_pc => exact (at_client at_pc).elim
  | add at_pc key absent => exact .inr (g.changes_add at_pc key absent)
  | writeCas at_pc entry same =>
      subst same
      exact .inr (g.changes_write at_pc entry)
  | rmDel pc => exact (g.not_rm w (congrArg ServerPc.serving pc)).elim
  | succeed =>
      unfold Commit.succeed
      split <;> exact .inl rfl
  | writeBack =>
      unfold Commit.writeBack
      split <;> exact .inl rfl
  | start | goOn | parentAdd | addAgain | rmLate | send | ret | take | rmVoid | rmFound | fail | dropWrite | openWrite
  | writeVoid | writeRead => exact .inl rfl

theorem Changes.entry {e : Event κ ι} (h : Changes cfg s e t) {p : Path} {e₁ : Entry} (entry : s.cache p = some e₁) :
    ∃ e₂, t.cache p = some e₂ ∧ e₂.value.kind = e₁.value.kind := by
  cases h with
  | @add c env m q t at_pc below parent absent cache =>
      have other : p ≠ q := by
        rintro rfl
        rw [absent] at entry
        cases entry
      exact ⟨e₁, by rw [cache, store_cache, update_of_ne other, entry], rfl⟩
  | @write c env q buf offset e₃ env' t at_pc entry' inside fits cache =>
      by_cases here : p = q
      · subst here
        cases Option.some.inj (entry.symm.trans entry')
        refine ⟨⟨s.clock, writtenValue env' e₁.value buf offset⟩, ?_, (alike_writtenValue env' _ buf offset).kind⟩
        rw [cache, store_cache, update_self]
      · exact ⟨e₁, by rw [cache, store_cache, update_of_ne here, entry], rfl⟩

structure Orderly (cfg : Config ι κ) (s : State ι κ) : Prop where
  running : ∀ {c call}, (s.client c).running = some call → Plain s call
  root : ∀ {e}, s.cache cfg.root = some e → e.value.kind = .dir
  sound : ∀ {p e}, s.cache p = some e → e.value.kind = .file → e.value.Sound

theorem Orderly.initial (h : Initial cfg s) : Orderly cfg s := by
  have root : ∀ {e}, s.cache cfg.root = some e → e.value.kind = .dir := by
    intro e entry
    by_cases empty : cfg.root = []
    · rw [h.rootKey empty] at entry
      cases entry
    · obtain ⟨env, e', entry', value, -⟩ := h.rootCached empty
      cases Option.some.inj (entry.symm.trans entry')
      rw [value, kind_eq_dir]
      simp [loadedValue]
  refine ⟨fun {c call} runs => ?_, root, fun {p e} entry file => ?_⟩
  · rw [h.client c] at runs
    cases runs
  · by_cases here : p = cfg.root
    · subst here
      rw [root entry] at file
      cases file
    · rw [h.cache p here] at entry
      cases entry

theorem Plain.mono {call : Call} (h : Plain s call)
    (entry : ∀ {p e}, s.cache p = some e → ∃ e', t.cache p = some e' ∧ e'.value.kind = e.value.kind) : Plain t call := by
  rcases h with makes | ⟨buf, offset, p, e, rfl, nulFree, there, file⟩
  · exact .inl makes
  · obtain ⟨e', after, same⟩ := entry there
    exact .inr ⟨buf, offset, p, e', rfl, nulFree, after, same.trans file⟩

theorem Orderly.move {e : Event κ ι} (o : Orderly cfg s) (g : Grown cfg s) (w : Within cfg Keeps s)
    (only : PlainCalls s e) (move : Move cfg s e t) : Orderly cfg t := by
  have keeps : ∀ {p e₁}, s.cache p = some e₁ → ∃ e₂, t.cache p = some e₂ ∧ e₂.value.kind = e₁.value.kind := by
    intro p e₁ entry
    rcases move.changes g w with cache | changes
    · exact ⟨e₁, by rw [cache, entry], rfl⟩
    · exact changes.entry entry
  have running : ∀ {c call}, (t.client c).running = some call → Plain t call := by
    intro c call runs
    rcases move.running runs with before | rfl
    · exact (o.running before).mono keeps
    · exact Plain.mono only keeps
  rcases move.changes g w with cache | changes
  · exact ⟨running, cache ▸ o.root, cache ▸ o.sound⟩
  · cases changes with
    | @add c env m q t at_pc below parent absent cache =>
        have plain := o.running (congrArg ClientPc.running at_pc)
        refine ⟨running, fun {e} entry => ?_, fun {p e} entry file => ?_⟩
        · rw [cache, store_cache, update_of_ne below.2.symm] at entry
          exact o.root entry
        · by_cases here : p = q
          · subst here
            rw [cache, store_cache, update_self] at entry
            cases entry
            cases m with
            | mkdir | create => exact ⟨List.not_mem_nil, by simp [newValue, newStat, setStatFlag]⟩
            | createWrite buf => exact absurd rfl (plain.not_createWrite buf)
          · rw [cache, store_cache, update_of_ne here] at entry
            exact o.sound entry file
    | @write c env q buf offset e₁ env' t at_pc there inside fits cache =>
        obtain ⟨nulFree, e₂, there', kind⟩ := (o.running (congrArg ClientPc.running at_pc)).file
        cases Option.some.inj (there.symm.trans there')
        have sound := o.sound there kind
        refine ⟨running, fun {e} entry => ?_, fun {p e} entry file => ?_⟩
        · have other : cfg.root ≠ q := by
            rintro rfl
            rw [o.root there] at kind
            cases kind
          rw [cache, store_cache, update_of_ne other] at entry
          exact o.root entry
        · by_cases here : p = q
          · subst here
            rw [cache, store_cache, update_self] at entry
            cases entry
            exact writtenValue_sound sound nulFree (sound.size ▸ inside) fits env'
          · rw [cache, store_cache, update_of_ne here] at entry
            exact o.sound entry file

theorem grown_of_plain (h : (system cfg).Reachable PlainCalls s) : Grown cfg s :=
  grown_of_reachable (fun _ _ => PlainCalls.calls) h

theorem orderly_of_reachable (h : (system cfg).Reachable PlainCalls s) : Orderly cfg s :=
  h.invariant (fun _ => .initial) fun _ _ _ reach o guard step =>
    o.move (grown_of_plain reach) (within_of_reachable (fun _ _ => PlainCalls.calls) reach) guard (move_of_step step)

theorem treeOf_root : treeOf cfg s cfg.root = some .dir := if_pos rfl

theorem treeOf_of_ne {p : Path} (other : p ≠ cfg.root) : treeOf cfg s p = (s.cache p).map fun e => nodeOf e.value :=
  if_neg other

theorem treeOf_dirAt {p : Path} (dir : DirAt cfg s.cache p) : treeOf cfg s p = some .dir := by
  rcases dir with rfl | ⟨below, e, entry, type⟩
  · exact treeOf_root
  · rw [treeOf_of_ne below.2, entry, Option.map_some, nodeOf, kind_eq_dir.mpr type]

theorem treeOf_there {p : Path} (there : s.cache p ≠ none) : treeOf cfg s p ≠ none := by
  by_cases root : p = cfg.root
  · rw [root, treeOf_root]
    simp
  · rw [treeOf_of_ne root]
    simpa using there

theorem Orderly.treeOf_file (o : Orderly cfg s) {p : Path} {e : Entry} (entry : s.cache p = some e)
    (file : e.value.kind = .file) : p ≠ cfg.root ∧ treeOf cfg s p = some (.file e.value.data) := by
  have other : p ≠ cfg.root := by
    rintro rfl
    rw [o.root entry] at file
    cases file
  rw [treeOf_of_ne other, entry, Option.map_some, nodeOf, file]
  exact ⟨other, rfl⟩

theorem treeOf_congr (cache : t.cache = s.cache) : treeOf cfg t = treeOf cfg s := by
  funext p
  rw [treeOf, treeOf, cache]

theorem treeOf_store {p : Path} {v : Value} (other : p ≠ cfg.root) (cache : t.cache = (store s p v).cache) :
    treeOf cfg t = update (treeOf cfg s) p (some (nodeOf v)) := by
  funext q
  by_cases here : q = p
  · subst here
    rw [treeOf_of_ne other, cache, store_cache, update_self, update_self]
    rfl
  · rw [update_of_ne here, treeOf, treeOf, cache, store_cache, update_of_ne here]

theorem nodeOf_newValue (env : Env) {m : Make} (plain : ∀ buf, m ≠ .createWrite buf) :
    nodeOf (newValue env m) = m.node := by
  unfold nodeOf
  rw [Value.kind, newValue_type]
  cases m with
  | mkdir | create => rfl
  | createWrite buf => exact absurd rfl (plain buf)

theorem Changes.access {e : Event κ ι} (changes : Changes cfg s e t) (o : Orderly cfg s) : ∃ c env call op,
    e = .client c env ∧ (s.client c).running = some call ∧ (s.client c).undecided = some op ∧ call.access = some op ∧
    t.client c = .send call ∧ fileTree.apply (treeOf cfg s) op = (treeOf cfg t, call.result) := by
  cases changes with
  | @add c env m p t at_pc below parent absent cache after =>
      have plain := o.running (congrArg ClientPc.running at_pc)
      refine ⟨c, env, _, _, rfl, congrArg ClientPc.running at_pc, congrArg ClientPc.undecided at_pc, rfl, after, ?_⟩
      rw [treeOf_store below.2 cache, nodeOf_newValue env plain.not_createWrite]
      apply Tree.make_new (treeOf_dirAt parent)
      rw [treeOf_of_ne below.2, absent]
      rfl
  | @write c env p buf offset e₁ env' t at_pc there inside fits cache after =>
      obtain ⟨nulFree, e₂, there', kind⟩ := (o.running (congrArg ClientPc.running at_pc)).file
      cases Option.some.inj (there.symm.trans there')
      have sound := o.sound there kind
      have within : offset ≤ e₁.value.data.length := sound.size ▸ inside
      obtain ⟨other, file⟩ := o.treeOf_file there kind
      refine ⟨c, env, _, _, rfl, congrArg ClientPc.running at_pc, congrArg ClientPc.undecided at_pc, rfl, after, ?_⟩
      have new : nodeOf (writtenValue env' e₁.value buf offset) = .file (overwrite e₁.value.data buf offset) := by
        rw [nodeOf, (alike_writtenValue env' _ buf offset).kind, kind, writtenValue_data sound nulFree within]
      rw [treeOf_store other cache, new]
      exact Tree.write_inside file within

theorem refused_exists (g : Grown cfg s) {node : Node} {p : Path} (there : p = [] ∨ s.cache p ≠ none) :
    fileTree.apply (treeOf cfg s) (.make node p) = (treeOf cfg s, -1) := by
  rcases there with rfl | there
  · by_cases root : cfg.root = []
    · apply Tree.make_exists
      rw [← root, treeOf_root]
      simp
    · apply Tree.make_orphan
      rw [List.tail_nil, treeOf_of_ne (Ne.symm root), g.key]
      simp
  · exact Tree.make_exists (treeOf_there there)

theorem refused_orphan {node : Node} {p : Path} (other : p.tail ≠ cfg.root)
    (noDir : ∀ e, s.cache p.tail = some e → e.value.kind = .file) :
    fileTree.apply (treeOf cfg s) (.make node p) = (treeOf cfg s, -1) := by
  apply Tree.make_orphan
  rw [treeOf_of_ne other]
  cases entry : s.cache p.tail with
  | none => simp
  | some e => simp [nodeOf, noDir e entry]

theorem Orderly.refused_hole (o : Orderly cfg s) {p : Path} {buf : List UInt8} {offset : Nat} {e : Entry}
    (plain : Plain s ⟨.write buf offset, p⟩) (entry : s.cache p = some e) (hole : e.value.stat.size.toNat < offset) :
    fileTree.apply (treeOf cfg s) (.write p buf offset) = (treeOf cfg s, -1) := by
  obtain ⟨-, e', entry', file⟩ := plain.file
  cases Option.some.inj (entry.symm.trans entry')
  apply Tree.write_hole (o.treeOf_file entry file).2
  rwa [← (o.sound entry file).size]

end Pacon.Commit
