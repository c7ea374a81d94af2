import Pacon.Commit.Queues

set_option linter.unusedSectionVars false

namespace Pacon.Commit
open Function Lib

/-- Values that agree on the flags that a call decides on. -/
structure Alike (v w : Value) : Prop where
  type : getStatFlag w.stat .type = getStatFlag v.stat .type
  rm : getStatFlag w.stat .rm = getStatFlag v.stat .rm
  existedinDfs : getStatFlag w.stat .existedinDfs = getStatFlag v.stat .existedinDfs

theorem Alike.refl (v : Value) : Alike v v := ⟨rfl, rfl, rfl⟩

theorem getStatFlag_congr {st st' : PaconStat} (h : st.flags = st'.flags) (flag : StatFlag) :
    getStatFlag st flag = getStatFlag st' flag := by
  unfold getStatFlag
  rw [h]

theorem alike_writtenValue (env : Env) (v : Value) (buf : List UInt8) (offset : Nat) :
    Alike v (writtenValue env v buf offset) := by
  constructor <;>
    simp only [writtenValue, getStatFlag_setStatFlag, reduceCtorEq, if_false] <;>
    exact getStatFlag_congr rfl _

theorem getStatFlag_newStat (st : PaconStat) (size : Nat) (flag : StatFlag) :
    getStatFlag (newStat st size) flag = false := by
  simp [getStatFlag_eq, newStat]

theorem newValue_flags (env : Env) (m : Make) :
    getStatFlag (newValue env m).stat .rm = false ∧
      getStatFlag (newValue env m).stat .existedinDfs = false := by
  cases m <;> simp [newValue, getStatFlag_newStat]

theorem newValue_type (env : Env) (m : Make) :
    getStatFlag (newValue env m).stat .type = decide (m ≠ .mkdir) := by
  cases m <;> simp [newValue, getStatFlag_newStat]

variable {ι κ : Type} [DecidableEq ι] [DecidableEq κ] (cfg : Config ι κ)

def DirAt (cache : Path → Option Entry) (p : Path) : Prop :=
  p = cfg.root ∨ Below cfg p ∧ ∃ e, cache p = some e ∧ getStatFlag e.value.stat .type = false

structure Entered (cache : Path → Option Entry) (p : Path) (e : Entry) : Prop where
  below : Below cfg p
  rm : getStatFlag e.value.stat .rm = false
  existedinDfs : getStatFlag e.value.stat .existedinDfs = false
  parent : DirAt cfg cache p.tail

def MsgOk (cache : Path → Option Entry) (m : Msg) : Prop :=
  match m.opt with
  | .mkdir => Below cfg m.path ∧ ∃ e, cache m.path = some e ∧ getStatFlag e.value.stat .type = false
  | .create => Below cfg m.path ∧ cache m.path ≠ none
  | .write => cache m.path ≠ none
  | .rm => False

def WriteOk (cache : Path → Option Entry) (clock : Nat) (p : Path) (buf : List UInt8) (offset : Nat)
    (v : Value) (cas : Nat) : Prop :=
  cas < clock ∧ ∀ e, cache p = some e → e.cas = cas → offset ≤ e.value.stat.size.toNat ∧
    newSize e.value buf offset < inlineMax - 1 ∧ ∃ env, v = writtenValue env e.value buf offset

def ClientOk (cache : Path → Option Entry) (clock : Nat) : ClientPc → Prop
  | .idle | .returning _ _ | .writeGet _ _ _ | .send _ | .beyond => True
  | .parentGet _ p | .parentReget _ p => p ≠ [] ∧ p.tail ≠ cfg.root
  | .parentAdd _ p => p ≠ [] ∧ DirAt cfg cache p.tail
  | .loadStat l => ∃ m p, l = .parent m p ∧ p ≠ [] ∧ Below cfg p.tail
  | .loadAdd l _ => ∃ m p, l = .parent m p ∧ p ≠ [] ∧ Below cfg p.tail ∧ cache p.tail ≠ none
  | .add _ p | .addGet _ p _ => p ≠ [] → DirAt cfg cache p.tail
  | .writeCas p buf offset v cas => WriteOk cache clock p buf offset v cas
  | .opendir .. | .readdir .. | .childCas .. | .childReget .. | .addSet .. | .rmGet _ | .rmReget _
  | .rmCas .. => False

structure Grown (s : State ι κ) : Prop where
  root : s.dfs cfg.root = some .dir
  key : s.cache [] = none
  cas : ∀ {p e}, s.cache p = some e → e.cas < s.clock
  cached : ∀ {p e}, s.cache p = some e → p ≠ cfg.root → Entered cfg s.cache p e
  onDfs : ∀ {p}, Below cfg p → s.dfs p ≠ none → s.cache p ≠ none
  rootChecked : ∀ c, s.table c cfg.root = true
  table : ∀ {c p}, s.table c p = true → DirAt cfg s.cache p
  client : ∀ c, ClientOk cfg s.cache s.clock (s.client c)
  message : ∀ {c m}, m ∈ issued s c → MsgOk cfg s.cache m

structure Grows (s t : State ι κ) : Prop where
  keeps : ∀ {p e}, s.cache p = some e → ∃ e', t.cache p = some e' ∧ Alike e.value e'.value
  clock : s.clock ≤ t.clock
  fresh : ∀ {p e}, t.cache p = some e → s.cache p = some e ∨ s.clock ≤ e.cas

variable {cfg} {s t : State ι κ}

theorem Grows.same (cache : t.cache = s.cache) (clock : t.clock = s.clock) : Grows s t where
  keeps {p _} h := ⟨_, (congrFun cache p).trans h, .refl _⟩
  clock := clock.ge
  fresh {p _} h := .inl ((congrFun cache p).symm.trans h)

theorem Grows.store {p : Path} {v : Value} (alike : ∀ e, s.cache p = some e → Alike e.value v) :
    Grows s (store s p v) where
  keeps {q e} h := by
    by_cases here : q = p
    · subst here
      exact ⟨⟨s.clock, v⟩, update_self .., alike e h⟩
    · exact ⟨e, (update_of_ne here ..).trans h, .refl _⟩
  clock := Nat.le_succ _
  fresh {q e} h := by
    by_cases here : q = p
    · subst here
      rw [store_cache, update_self] at h
      cases h
      exact .inr le_rfl
    · rw [store_cache, update_of_ne here] at h
      exact .inl h

theorem Grows.there (grows : Grows s t) {p : Path} (h : s.cache p ≠ none) : t.cache p ≠ none := by
  obtain ⟨e, entry⟩ := Option.ne_none_iff_exists'.mp h
  obtain ⟨e', after, -⟩ := grows.keeps entry
  simp [after]

theorem Grows.dirAt (grows : Grows s t) {p : Path} (h : DirAt cfg s.cache p) :
    DirAt cfg t.cache p := by
  rcases h with root | ⟨below, e, entry, dir⟩
  · exact .inl root
  · obtain ⟨e', after, alike⟩ := grows.keeps entry
    exact .inr ⟨below, e', after, alike.type.trans dir⟩

theorem Grows.msgOk (grows : Grows s t) {m : Msg} (h : MsgOk cfg s.cache m) :
    MsgOk cfg t.cache m := by
  obtain ⟨opt, p⟩ := m
  cases opt with
  | mkdir =>
      obtain ⟨below, e, entry, dir⟩ := h
      obtain ⟨e', after, alike⟩ := grows.keeps entry
      exact ⟨below, e', after, alike.type.trans dir⟩
  | create => exact ⟨h.1, grows.there h.2⟩
  | write => exact grows.there h
  | rm => exact h

theorem Grows.clientOk (grows : Grows s t) {pc : ClientPc} (h : ClientOk cfg s.cache s.clock pc) :
    ClientOk cfg t.cache t.clock pc := by
  cases pc with
  | parentAdd m p => exact ⟨h.1, grows.dirAt h.2⟩
  | loadAdd l v =>
      obtain ⟨m, p, rfl, notRoot, below, there⟩ := h
      exact ⟨m, p, rfl, notRoot, below, grows.there there⟩
  | add m p | addGet m p v => exact fun notRoot => grows.dirAt (h notRoot)
  | writeCas p buf offset v cas =>
      refine ⟨h.1.trans_le grows.clock, fun e entry same => ?_⟩
      rcases grows.fresh entry with old | new
      · exact h.2 e old same
      · exact absurd h.1 (by omega)
  | _ => exact h

theorem Grows.entered (grows : Grows s t) {p : Path} {e : Entry} (h : Entered cfg s.cache p e) :
    Entered cfg t.cache p e :=
  { h with parent := grows.dirAt h.parent }

theorem Grown.initial (h : Initial cfg s) : Grown cfg s where
  root := h.root
  key := by
    by_cases root : cfg.root = []
    · exact root ▸ h.rootKey root
    · exact h.cache [] (Ne.symm root)
  cas {p e} entry := by
    by_cases here : p = cfg.root
    · subst here
      by_cases root : cfg.root = []
      · simp [h.rootKey root] at entry
      · obtain ⟨-, e', entry', -, less⟩ := h.rootCached root
        exact Option.some.inj (entry'.symm.trans entry) ▸ less
    · simp [h.cache p here] at entry
  cached {p e} entry other := by simp [h.cache p other] at entry
  onDfs {p} below there := absurd (h.empty p below) there
  rootChecked c := (h.table c _).mpr rfl
  table {c p} checked := .inl ((h.table c p).mp checked)
  client c := by
    rw [h.client c]
    trivial
  message {c m} member := by simp [issued, h.out c, h.client c, ClientPc.unsent] at member

theorem Grown.clientStep (g : Grown cfg s) {u : State ι κ} {c : κ} {pc : ClientPc} (grows : Grows s u)
    (dfs : u.dfs = s.dfs) (client : u.client = s.client)
    (entries : ∀ p e, u.cache p = some e → s.cache p = some e ∨
      p ≠ [] ∧ e.cas < u.clock ∧ (p ≠ cfg.root → Entered cfg u.cache p e))
    (rootChecked : ∀ c, u.table c cfg.root = true)
    (table : ∀ c p, u.table c p = true → s.table c p = true ∨ DirAt cfg u.cache p)
    (pcOk : ClientOk cfg u.cache u.clock pc)
    (message : ∀ c' m, m ∈ issued (setPc u c pc) c' → m ∈ issued s c' ∨ MsgOk cfg u.cache m) :
    Grown cfg (setPc u c pc) where
  root := (congrFun dfs _).trans g.root
  key := by
    by_contra there
    obtain ⟨e, entry⟩ := Option.ne_none_iff_exists'.mp there
    rcases entries [] e entry with old | new
    · rw [g.key] at old
      cases old
    · exact new.1 rfl
  cas {p e} entry := by
    rcases entries p e entry with old | new
    · exact (g.cas old).trans_le grows.clock
    · exact new.2.1
  cached {p e} entry other := by
    rcases entries p e entry with old | new
    · exact grows.entered (g.cached old other)
    · exact new.2.2 other
  onDfs {p} below there := grows.there (g.onDfs below (dfs ▸ there))
  rootChecked := rootChecked
  table {c p} checked := by
    rcases table c p checked with old | new
    · exact grows.dirAt (g.table old)
    · exact new
  client c' := by
    by_cases here : c' = c
    · subst here
      rw [setPc_client, update_self]
      exact pcOk
    · rw [setPc_client, update_of_ne here, client]
      exact grows.clientOk (g.client c')
  message {c' m} member := by
    rcases message c' m member with old | new
    · exact grows.msgOk (g.message old)
    · exact new

theorem issued_congr {u : State ι κ} (client : u.client = s.client) (out : u.out = s.out) (c : κ)
    (pc : ClientPc) : issued (setPc u c pc) = issued (setPc s c pc) := by
  funext c'
  simp only [issued, setPc, client, out]

theorem Grown.goOn (g : Grown cfg s) {u : State ι κ} {c : κ} {pc : ClientPc} (cache : u.cache = s.cache)
    (clock : u.clock = s.clock) (dfs : u.dfs = s.dfs) (client : u.client = s.client) (out : u.out = s.out)
    (rootChecked : ∀ c, u.table c cfg.root = true)
    (table : ∀ c p, u.table c p = true → s.table c p = true ∨ DirAt cfg s.cache p)
    (before : (s.client c).unsent = none) (after : pc.unsent = none)
    (pcOk : ClientOk cfg s.cache s.clock pc) : Grown cfg (setPc u c pc) := by
  refine g.clientStep (.same cache clock) dfs client (fun p e entry => .inl (cache ▸ entry)) rootChecked
    (cache ▸ table) (by rw [cache, clock]; exact pcOk) fun c' m member => .inl ?_
  rwa [issued_congr client out, issued_goOn before after] at member

theorem Grown.decide (g : Grown cfg s) {u : State ι κ} {c : κ} {call : Call} (grows : Grows s u)
    (dfs : u.dfs = s.dfs) (client : u.client = s.client) (out : u.out = s.out) (table : u.table = s.table)
    (entries : ∀ p e, u.cache p = some e → s.cache p = some e ∨
      p ≠ [] ∧ e.cas < u.clock ∧ (p ≠ cfg.root → Entered cfg u.cache p e))
    (before : (s.client c).unsent = none) (new : MsgOk cfg u.cache call.msg) :
    Grown cfg (setPc u c (.send call)) := by
  refine g.clientStep grows dfs client entries (table ▸ g.rootChecked) (fun _ _ h => .inl (table ▸ h))
    trivial fun c' m member => ?_
  rw [issued_congr client out, issued_decide before] at member
  by_cases here : c' = c
  · subst here
    rw [update_self, List.mem_append, List.mem_singleton] at member
    rcases member with old | rfl
    · exact .inl old
    · exact .inr new
  · rw [update_of_ne here] at member
    exact .inl member

theorem Grown.serverStep (g : Grown cfg s) (cache : t.cache = s.cache) (clock : t.clock = s.clock)
    (table : t.table = s.table) (client : t.client = s.client) (out : t.out = s.out)
    (root : t.dfs cfg.root = some .dir)
    (onDfs : ∀ p, Below cfg p → t.dfs p ≠ none → s.cache p ≠ none) : Grown cfg t where
  root := root
  key := cache ▸ g.key
  cas := by rw [cache, clock]; exact g.cas
  cached := by rw [cache]; exact g.cached
  onDfs {p} below there := by rw [cache]; exact onDfs p below there
  rootChecked := table ▸ g.rootChecked
  table := by rw [cache, table]; exact g.table
  client := by rw [cache, clock, client]; exact g.client
  message {c m} member := by
    rw [cache]
    refine g.message (c := c) ?_
    simpa only [issued, client, out] using member

theorem below_of_dirAt {cache : Path → Option Entry} {p : Path} (notRoot : p ≠ [])
    (parent : DirAt cfg cache p.tail) : Below cfg p := by
  cases p with
  | nil => exact absurd rfl notRoot
  | cons name q =>
      have inside : cfg.root <:+ q := by
        rcases parent with root | ⟨below, -⟩
        · exact root ▸ List.suffix_rfl
        · exact below.1
      refine ⟨inside.trans (List.suffix_cons _ _), fun same => ?_⟩
      have := inside.length_le
      rw [← same, List.length_cons] at this
      omega

theorem afterParent_ok {cache : Path → Option Entry} {clock : Nat} {m : Make} {p : Path}
    (parent : p ≠ [] → DirAt cfg cache p.tail) : ClientOk cfg cache clock (afterParent m p) :=
  afterParent_of (P := ClientOk cfg cache clock) (fun _ => parent) trivial

theorem Grown.beginCall_ok (g : Grown cfg s) (c : κ) {call : Call} (kept : call.op ≠ .rm) :
    ClientOk cfg s.cache s.clock (beginCall (s.table c) call) := by
  apply beginCall_of (P := ClientOk cfg s.cache s.clock)
  · intro m p _ checked
    exact afterParent_ok fun notRoot => g.table (checked.resolve_left notRoot)
  · intro m p _ notRoot unchecked
    refine ⟨notRoot, fun root => ?_⟩
    rw [root, g.rootChecked c] at unchecked
    cases unchecked
  · intro p is
    exact absurd (congrArg Call.op is) kept
  · intros
    trivial

theorem Grown.parentFound_ok (g : Grown cfg s) {m : Make} {p : Path} {e : Entry}
    (ok : p ≠ [] ∧ p.tail ≠ cfg.root) (entry : s.cache p.tail = some e) :
    ClientOk cfg s.cache s.clock (parentFound m p e) := by
  have entered := g.cached entry ok.2
  unfold parentFound
  split
  · trivial
  · rename_i dir
    rw [if_neg (by simp [entered.existedinDfs])]
    exact ⟨ok.1, .inr ⟨entered.below, e, entry, by simpa using dir⟩⟩

theorem Grown.writeFound_ok (g : Grown cfg s) (env : Env) {p : Path} {buf : List UInt8} {offset : Nat}
    {e : Entry} (entry : s.cache p = some e) :
    ClientOk cfg s.cache s.clock (writeFound env p buf offset e) := by
  unfold writeFound
  split
  · trivial
  · rename_i inside
    split
    · rename_i fits
      refine ⟨g.cas entry, fun e' entry' _ => ?_⟩
      cases Option.some.inj (entry.symm.trans entry')
      exact ⟨not_lt.mp inside, fits, env, rfl⟩
    · trivial

theorem Grown.local (g : Grown cfg s) {env : Env} {pc next : ClientPc}
    (ok : ClientOk cfg s.cache s.clock pc) (goes : Local cfg s env pc next) :
    ClientOk cfg s.cache s.clock next := by
  cases goes with
  | @parentMiss m p absent =>
      unfold load
      split
      · rename_i inside
        exact ⟨m, p, rfl, ok.1, inside.1, ok.2⟩
      · trivial
  | parentHit entry | parentLoaded entry => exact g.parentFound_ok ok entry
  | stat there =>
      obtain ⟨m, p, rfl, notRoot, below⟩ := ok
      exact ⟨m, p, rfl, notRoot, below, g.onDfs below (by rw [← Load.target, there]; simp)⟩
  | loadExists =>
      obtain ⟨m, p, rfl, notRoot, below, -⟩ := ok
      exact ⟨notRoot, below.2⟩
  | addExists => exact ok
  | @addRemoved m p v e entry rm =>
      have notRoot : p ≠ [] := by
        rintro rfl
        simp [g.key] at entry
      have below := below_of_dirAt notRoot (ok notRoot)
      simp [(g.cached entry below.2).rm] at rm
  | writeHit entry => exact g.writeFound_ok env entry
  | parentLost | statFail | addLost | addFails | writeMiss | writeExists | writeLost => trivial
  | opendir | opendirFail | readdir | readdirEnd | childExists | childLost | childReget
  | childRegetLost | rmMiss | rmHit | rmLost | rmLoaded | rmExists => exact ok.elim

def Keeps (call : Call) : Prop := call.op ≠ .rm

theorem Grown.not_rm (g : Grown cfg s) (w : Within cfg Keeps s) {i : ι} {c : κ} {p : Path}
    (serves : (s.server i).serving = some (c, ⟨.rm, p⟩)) : False :=
  g.message (List.mem_of_getElem? (w.head serves).message)

theorem Grown.add (g : Grown cfg s) {c : κ} {m : Make} {p : Path} {env : Env}
    (at_pc : s.client c = .add m p) (notRoot : p ≠ []) (absent : s.cache p = none) :
    Grown cfg (setPc (store s p (newValue env m)) c (.send ⟨.make m, p⟩)) := by
  have parent : DirAt cfg s.cache p.tail := by
    have ok := g.client c
    rw [at_pc] at ok
    exact ok notRoot
  have below := below_of_dirAt notRoot parent
  have grows : Grows s (store s p (newValue env m)) :=
    .store fun e entry => by simp [absent] at entry
  have new : (store s p (newValue env m)).cache p = some ⟨s.clock, newValue env m⟩ := by
    rw [store_cache, update_self]
  refine g.decide grows rfl rfl rfl rfl (fun q e entry => ?_) (by rw [at_pc]; rfl) ?_
  · by_cases here : q = p
    · subst here
      cases Option.some.inj (new.symm.trans entry)
      obtain ⟨rm, existed⟩ := newValue_flags env m
      exact .inr ⟨notRoot, Nat.lt_succ_self _, fun _ => ⟨below, rm, existed, grows.dirAt parent⟩⟩
    · rw [store_cache, update_of_ne here] at entry
      exact .inl entry
  · cases m with
    | mkdir => exact ⟨below, _, new, newValue_type env .mkdir⟩
    | create | createWrite buf => exact ⟨below, fun none => by cases new.symm.trans none⟩

theorem Grown.writeCas (g : Grown cfg s) {c : κ} {p : Path} {buf : List UInt8} {offset : Nat}
    {v : Value} {e : Entry} (at_pc : s.client c = .writeCas p buf offset v e.cas)
    (entry : s.cache p = some e) :
    Grown cfg (setPc (store s p v) c (.send ⟨.write buf offset, p⟩)) := by
  have ok := g.client c
  rw [at_pc] at ok
  obtain ⟨-, -, env, rfl⟩ := ok.2 e entry rfl
  have grows : Grows s (store s p (writtenValue env e.value buf offset)) := .store fun e' entry' => by
    cases Option.some.inj (entry.symm.trans entry')
    exact alike_writtenValue env e.value buf offset
  have new : (store s p (writtenValue env e.value buf offset)).cache p =
      some ⟨s.clock, writtenValue env e.value buf offset⟩ := by
    rw [store_cache, update_self]
  have notRoot : p ≠ [] := by
    rintro rfl
    simp [g.key] at entry
  refine g.decide grows rfl rfl rfl rfl (fun q e' entry' => ?_) (by rw [at_pc]; rfl) ?_
  · by_cases here : q = p
    · subst here
      cases Option.some.inj (new.symm.trans entry')
      refine .inr ⟨notRoot, Nat.lt_succ_self _, fun other => ?_⟩
      have entered := g.cached entry other
      have alike := alike_writtenValue env e.value buf offset
      exact ⟨entered.below, alike.rm.trans entered.rm, alike.existedinDfs.trans entered.existedinDfs,
        grows.dirAt entered.parent⟩
    · rw [store_cache, update_of_ne here] at entry'
      exact .inl entry'
  · exact fun none => by cases new.symm.trans none

theorem Grown.effect (g : Grown cfg s) {m : Msg} (ok : MsgOk cfg s.cache m)
    {dfs : Path → Option Node} (effect : DfsEffect s.dfs m dfs) :
    dfs cfg.root = some .dir ∧ ∀ p, Below cfg p → dfs p ≠ none → s.cache p ≠ none := by
  have made : ∀ node : Node, Below cfg m.path → s.cache m.path ≠ none →
      update s.dfs m.path (some node) cfg.root = some .dir ∧
        ∀ p, Below cfg p → update s.dfs m.path (some node) p ≠ none → s.cache p ≠ none := by
    intro node below there
    refine ⟨by rw [update_of_ne below.2.symm, g.root], fun p belowP thereP => ?_⟩
    by_cases here : p = m.path
    · exact here ▸ there
    · rw [update_of_ne here] at thereP
      exact g.onDfs belowP thereP
  obtain ⟨opt, p⟩ := m
  cases effect with
  | mkdir is =>
      cases is
      obtain ⟨below, e, entry, -⟩ := ok
      exact made _ below (by rw [entry]; simp)
  | create is | truncate is =>
      cases is
      exact made _ ok.1 ok.2
  | remove is =>
      cases is
      exact ok.elim

theorem Grown.writeBack (g : Grown cfg s) (p : Path) (n : Nat) (data : List UInt8) :
    Grown cfg (Commit.writeBack s p n data) := by
  unfold Commit.writeBack
  split
  · rename_i content file
    obtain ⟨file, -⟩ := opened_eq_some.mp file
    refine g.serverStep rfl rfl rfl rfl rfl ?_ fun q below there => ?_
    · have other : cfg.root ≠ p := by
        rintro rfl
        simp [g.root] at file
      exact (update_of_ne other ..).trans g.root
    · by_cases here : q = p
      · exact g.onDfs below (by rw [here, file]; simp)
      · exact g.onDfs below (by simpa only [update_of_ne here] using there)
  · exact g

theorem Grown.move {e : Event κ ι} (g : Grown cfg s) (w : Within cfg Keeps s) (only : Calls Keeps s e)
    (move : Move cfg s e t) : Grown cfg t := by
  have at_client : ∀ {c pc}, s.client c = pc → ClientOk cfg s.cache s.clock pc :=
    fun at_pc => at_pc ▸ g.client _
  have quiet : ∀ {u : State ι κ}, u.cache = s.cache → u.clock = s.clock → u.table = s.table →
      u.client = s.client → u.out = s.out → u.dfs = s.dfs → Grown cfg u :=
    fun cache clock table client out dfs => g.serverStep cache clock table client out
      ((congrFun dfs _).trans g.root) fun _ below there => g.onDfs below (dfs ▸ there)
  cases move with
  | @start c call free =>
      exact g.goOn rfl rfl rfl rfl rfl g.rootChecked (fun _ _ => .inl) (by rw [free]; rfl)
        (beginCall_unsent _ _) (g.beginCall_ok c only)
  | goOn at_pc goes =>
      exact g.goOn rfl rfl rfl rfl rfl g.rootChecked (fun _ _ => .inl) (at_pc ▸ goes.unsent.1)
        goes.unsent.2 (g.local (at_client at_pc) goes)
  | @parentAdd c env m p at_pc =>
      obtain ⟨-, parent⟩ := at_client at_pc
      refine g.goOn rfl rfl rfl rfl rfl (fun c' => ?_) (fun c' q checked => ?_) (by rw [at_pc]; rfl)
        (afterParent_unsent _ _) (afterParent_ok fun _ => parent)
      · by_cases here : c' = c
        · subst here
          simp only [update_self, update_apply, g.rootChecked, ite_self]
        · simp only [update_of_ne here, g.rootChecked]
      · by_cases here : c' = c
        · subst here
          by_cases same : q = p.tail
          · exact .inr (same ▸ parent)
          · exact .inl (by simpa [update_apply, same] using checked)
        · exact .inl (by simpa [update_of_ne here] using checked)
  | loadAdd at_pc key absent =>
      obtain ⟨m, p, rfl, -, -, there⟩ := at_client at_pc
      exact absurd absent there
  | childCas at_pc | addSet at_pc | rmCas at_pc | rmLate at_pc => exact (at_client at_pc).elim
  | add at_pc key absent => exact g.add at_pc key absent
  | @addAgain c env buf p v e at_pc entry live =>
      have notRoot : p ≠ [] := by
        rintro rfl
        simp [g.key] at entry
      exact g.decide (.same rfl rfl) rfl rfl rfl rfl (fun _ _ => .inl) (by rw [at_pc]; rfl)
        ⟨below_of_dirAt notRoot (at_client at_pc notRoot), by simp [Call.msg, entry]⟩
  | writeCas at_pc entry same =>
      cases same
      exact g.writeCas at_pc entry
  | send at_pc =>
      refine g.clientStep (.same rfl rfl) rfl rfl (fun _ _ => .inl) g.rootChecked (fun _ _ => .inl)
        trivial fun c' m member => .inl ?_
      rwa [issued_send at_pc] at member
  | ret at_pc =>
      exact g.goOn rfl rfl rfl rfl rfl g.rootChecked (fun _ _ => .inl) (by rw [at_pc]; rfl) rfl trivial
  | take | dropWrite | openWrite | writeVoid | writeRead | fail => exact quiet rfl rfl rfl rfl rfl rfl
  | rmVoid pc | rmFound pc | rmDel pc => exact (g.not_rm w (congrArg ServerPc.serving pc)).elim
  | @succeed i env c m dfs pc call =>
      have ok := g.message (List.mem_of_getElem? (w.head (serving_of_attempt pc)).message)
      obtain ⟨root, onDfs⟩ := g.effect ok (dfsCall_effect call)
      unfold Commit.succeed
      split <;> exact g.serverStep rfl rfl rfl rfl rfl root onDfs
  | @writeBack i env c p n data pc =>
      have after := g.writeBack p n data
      exact after.serverStep rfl rfl rfl rfl rfl after.root fun _ => after.onDfs

theorem grown_of_reachable {ok : State ι κ → Event κ ι → Prop}
    (only : ∀ s e, ok s e → Calls Keeps s e) (h : (system cfg).Reachable ok s) : Grown cfg s :=
  h.invariant (fun _ => .initial) fun s e _ reach g guard step =>
    g.move (within_of_reachable only reach) (only s e guard) (move_of_step step)

end Pacon.Commit
