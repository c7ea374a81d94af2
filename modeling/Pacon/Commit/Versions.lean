import Pacon.Commit.Growth

set_option linter.unusedSectionVars false

namespace Pacon.Commit
open Function Lib

variable {ι κ : Type} [DecidableEq ι] [DecidableEq κ] {cfg : Config ι κ}

structure Renews (s t : State ι κ) : Prop where
  clock : s.clock ≤ t.clock
  fresh : ∀ {p e}, t.cache p = some e → s.cache p = some e ∨ s.clock ≤ e.cas ∧ e.cas < t.clock

def CopyOf (cache : Path → Option Entry) (clock : Nat) (p : Path) (v : Value) (cas : Nat) : Prop :=
  cas < clock ∧ ∀ e, cache p = some e → e.cas = cas → Alike e.value v

def Load.CopyOk (cache : Path → Option Entry) (clock : Nat) : Load → Prop
  | .child _ p v cas _ => CopyOf cache clock p.tail v cas
  | .parent .. | .rm _ => True

def CopyOk (cache : Path → Option Entry) (clock : Nat) : ClientPc → Prop
  | .opendir _ p v cas | .readdir _ p v cas | .childCas _ p v cas => CopyOf cache clock p.tail v cas
  | .loadStat l => l.CopyOk cache clock
  | .loadAdd l v => l.CopyOk cache clock ∧ ∃ env node, v = loadedValue env node
  | .addGet m _ v | .addSet m _ v => ∃ env, v = newValue env m
  | .rmCas p v cas => cas < clock ∧ ∀ e, cache p = some e → e.cas = cas → v = flagged e.value .rm
  | .writeCas p _ _ v cas => CopyOf cache clock p v cas
  | .idle | .parentGet .. | .parentReget .. | .childReget .. | .parentAdd .. | .add .. | .rmGet _
  | .rmReget _ | .writeGet .. | .send _ | .returning .. | .beyond => True

structure Versioned (s : State ι κ) : Prop where
  entry : ∀ {p e}, s.cache p = some e → e.cas < s.clock
  client : ∀ c, CopyOk s.cache s.clock (s.client c)

variable {s t : State ι κ}

theorem alike_flagged (v : Value) {flag : StatFlag} (type : flag ≠ .type) (rm : flag ≠ .rm)
    (existedinDfs : flag ≠ .existedinDfs) : Alike v (flagged v flag) := by
  constructor <;> simp [flagged, type.symm, rm.symm, existedinDfs.symm]

theorem Renews.same (cache : t.cache = s.cache) (clock : t.clock = s.clock) : Renews s t where
  clock := clock.ge
  fresh {p _} h := .inl ((congrFun cache p).symm.trans h)

theorem Renews.store (p : Path) (v : Value) : Renews s (store s p v) where
  clock := Nat.le_succ _
  fresh {q e} h := by
    by_cases here : q = p
    · subst here
      rw [store_cache, update_self] at h
      cases h
      exact .inr ⟨le_rfl, Nat.lt_succ_self _⟩
    · rw [store_cache, update_of_ne here] at h
      exact .inl h

theorem Renews.del (p : Path) : Renews s (dmkvDel s p) where
  clock := le_rfl
  fresh {q e} h := by
    by_cases here : q = p
    · subst here
      simp [dmkvDel] at h
    · exact .inl (by simpa [dmkvDel, here] using h)

theorem Renews.copyOf (h : Renews s t) {p : Path} {v : Value} {cas : Nat}
    (copy : CopyOf s.cache s.clock p v cas) : CopyOf t.cache t.clock p v cas := by
  refine ⟨copy.1.trans_le h.clock, fun e entry same => ?_⟩
  rcases h.fresh entry with old | new
  · exact copy.2 e old same
  · exact absurd copy.1 (by omega)

theorem Renews.copyOk (h : Renews s t) {pc : ClientPc} (ok : CopyOk s.cache s.clock pc) :
    CopyOk t.cache t.clock pc := by
  have load : ∀ l : Load, l.CopyOk s.cache s.clock → l.CopyOk t.cache t.clock := by
    intro l copy
    cases l with
    | child => exact h.copyOf copy
    | parent | rm => trivial
  cases pc with
  | opendir | readdir | childCas | writeCas => exact h.copyOf ok
  | loadStat l => exact load l ok
  | loadAdd l v => exact ⟨load l ok.1, ok.2⟩
  | rmCas p v cas =>
      refine ⟨ok.1.trans_le h.clock, fun e entry same => ?_⟩
      rcases h.fresh entry with old | new
      · exact ok.2 e old same
      · exact absurd ok.1 (by omega)
  | _ => exact ok

theorem Move.renews {e : Event κ ι} (move : Move cfg s e t) : Renews s t := by
  have after : ∀ {u : State ι κ} {c : κ} {pc : ClientPc}, Renews s u → Renews s (setPc u c pc) :=
    fun h => ⟨h.clock, h.fresh⟩
  cases move with
  | loadAdd | childCas | add | addSet | rmCas | writeCas => exact after (.store _ _)
  | @rmDel i env c p pc =>
      have renews : Renews s (dmkvDel s p) := .del p
      exact ⟨renews.clock, renews.fresh⟩
  | @succeed i env c m dfs pc call =>
      unfold Commit.succeed
      split <;> exact .same rfl rfl
  | @writeBack i env c p n data pc =>
      unfold Commit.writeBack
      split <;> exact .same rfl rfl
  | _ => exact .same rfl rfl

theorem Versioned.initial (h : Initial cfg s) : Versioned s where
  entry {p e} entry := (Grown.initial h).cas entry
  client c := by
    rw [h.client c]
    trivial

theorem Versioned.clientStep (v : Versioned s) {u : State ι κ} {c : κ} {pc : ClientPc} (renews : Renews s u)
    (client : u.client = s.client) (ok : CopyOk u.cache u.clock pc) : Versioned (setPc u c pc) where
  entry {p e} entry := by
    rcases renews.fresh entry with old | new
    · exact (v.entry old).trans_le renews.clock
    · exact new.2
  client d := by
    by_cases here : d = c
    · subst here
      rw [setPc_client, update_self]
      exact ok
    · rw [setPc_client, update_of_ne here, client]
      exact renews.copyOk (v.client d)

theorem Versioned.serverStep (v : Versioned s) (renews : Renews s t) (client : t.client = s.client) :
    Versioned t where
  entry {p e} entry := by
    rcases renews.fresh entry with old | new
    · exact (v.entry old).trans_le renews.clock
    · exact new.2
  client d := by
    rw [client]
    exact renews.copyOk (v.client d)

theorem afterParent_copyOk {cache : Path → Option Entry} {clock : Nat} (m : Make) (p : Path) :
    CopyOk cache clock (afterParent m p) :=
  afterParent_of (P := CopyOk cache clock) (fun _ => trivial) trivial

theorem beginCall_copyOk {cache : Path → Option Entry} {clock : Nat} (table : Path → Bool) (call : Call) :
    CopyOk cache clock (beginCall table call) := by
  apply beginCall_of (P := CopyOk cache clock) fun m p _ _ => afterParent_copyOk m p
  all_goals intros; trivial

theorem load_copyOk {cache : Path → Option Entry} {clock : Nat} {l : Load} (ok : l.CopyOk cache clock) :
    CopyOk cache clock (load cfg l) := by
  unfold load
  split
  · exact ok
  · trivial

theorem Versioned.copyOf (v : Versioned s) {p : Path} {e : Entry} (entry : s.cache p = some e) {w : Value}
    (alike : Alike e.value w) : CopyOf s.cache s.clock p w e.cas := by
  refine ⟨v.entry entry, fun e' entry' _ => ?_⟩
  cases Option.some.inj (entry.symm.trans entry')
  exact alike

theorem Versioned.parentFound (v : Versioned s) {m : Make} {p : Path} {e : Entry}
    (entry : s.cache p.tail = some e) : CopyOk s.cache s.clock (parentFound m p e) := by
  unfold Commit.parentFound
  split
  · trivial
  · split
    · exact v.copyOf entry (.refl _)
    · trivial

theorem Versioned.writeFound (v : Versioned s) (env : Env) {p : Path} {buf : List UInt8} {offset : Nat}
    {e : Entry} (entry : s.cache p = some e) :
    CopyOk s.cache s.clock (writeFound env p buf offset e) := by
  unfold Commit.writeFound
  split
  · trivial
  · split
    · exact v.copyOf entry (alike_writtenValue env e.value buf offset)
    · trivial

theorem Versioned.rmCas (v : Versioned s) {p : Path} {e : Entry} (entry : s.cache p = some e) :
    CopyOk s.cache s.clock (.rmCas p (flagged e.value .rm) e.cas) := by
  refine ⟨v.entry entry, fun e' entry' _ => ?_⟩
  cases Option.some.inj (entry.symm.trans entry')
  rfl

theorem Alike.trans {u v w : Value} (h : Alike u v) (h' : Alike v w) : Alike u w :=
  ⟨h'.type.trans h.type, h'.rm.trans h.rm, h'.existedinDfs.trans h.existedinDfs⟩

theorem alike_childCheck (v : Value) : Alike v (flagged v .childCheck) :=
  alike_flagged v (by decide) (by decide) (by decide)

theorem Versioned.local (v : Versioned s) {env : Env} {pc next : ClientPc}
    (ok : CopyOk s.cache s.clock pc) (goes : Local cfg s env pc next) : CopyOk s.cache s.clock next := by
  cases goes with
  | parentMiss | rmMiss => exact load_copyOk trivial
  | parentHit entry | parentLoaded entry => exact v.parentFound entry
  | opendir => exact ok
  | readdir => exact load_copyOk ok
  | readdirEnd => exact ⟨ok.1, fun e entry same => (ok.2 e entry same).trans (alike_childCheck _)⟩
  | childReget entry => exact v.copyOf entry (alike_childCheck _)
  | stat there => exact ⟨ok, _, _, rfl⟩
  | @loadExists l w there =>
      cases l with
      | child => exact ok.1
      | parent | rm => trivial
  | addExists => exact ⟨env, rfl⟩
  | addRemoved => exact ok
  | rmHit entry | rmLoaded entry => exact v.rmCas entry
  | writeHit entry => exact v.writeFound env entry
  | _ => trivial

theorem Versioned.move {e : Event κ ι} (v : Versioned s) (move : Move cfg s e t) : Versioned t := by
  have at_client : ∀ {c pc}, s.client c = pc → CopyOk s.cache s.clock pc :=
    fun at_pc => at_pc ▸ v.client _
  cases move with
  | start free => exact v.clientStep (.same rfl rfl) rfl (beginCall_copyOk _ _)
  | goOn at_pc goes => exact v.clientStep (.same rfl rfl) rfl (v.local (at_client at_pc) goes)
  | parentAdd => exact v.clientStep (.same rfl rfl) rfl (afterParent_copyOk _ _)
  | @loadAdd c env l w at_pc =>
      have renews : Renews s (store s l.target w) := .store _ _
      refine v.clientStep renews rfl ?_
      cases l with
      | child => exact renews.copyOf (at_client at_pc).1
      | parent | rm => trivial
  | childCas | add | rmCas | writeCas => exact v.clientStep (.store _ _) rfl trivial
  | addAgain | rmLate | send | ret => exact v.clientStep (.same rfl rfl) rfl trivial
  | @addSet c env m p w =>
      refine v.clientStep (.store _ _) rfl ?_
      cases m <;> trivial
  | @rmDel i env c p pc =>
      have renews : Renews s (dmkvDel s p) := .del p
      exact v.serverStep ⟨renews.clock, renews.fresh⟩ rfl
  | take | rmVoid | rmFound | fail | dropWrite | openWrite | writeVoid | writeRead =>
      exact v.serverStep (.same rfl rfl) rfl
  | @succeed i env c m dfs pc call =>
      unfold Commit.succeed
      split <;> exact v.serverStep (.same rfl rfl) rfl
  | @writeBack i env c p n data pc =>
      unfold Commit.writeBack
      split <;> exact v.serverStep (.same rfl rfl) rfl

theorem versioned_of_reachable {ok : State ι κ → Event κ ι → Prop} (h : (system cfg).Reachable ok s) :
    Versioned s :=
  h.invariant (fun _ => .initial) fun _ _ _ _ v _ step => v.move (move_of_step step)

end Pacon.Commit
