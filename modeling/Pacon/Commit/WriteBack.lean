import Pacon.Commit.Recreate
import Pacon.InlineWrite

/-!
# Inline data on the DFS

A CREATE leaves an empty file, also of a file that `pacon_create_write` has given data. The data
comes to the DFS with the WRITE messages of later writes, each of which carries what is cached when
its server reads it.
-/

set_option linter.unusedSectionVars false

namespace Pacon.Commit
open Function Lib InlineWrite

variable {ι κ : Type} [DecidableEq ι] [DecidableEq κ] {cfg : Config ι κ} {s t : State ι κ}

def Op.buf : Op → List UInt8
  | .make (.createWrite buf) | .write buf _ => buf
  | .make .mkdir | .make .create | .rm => []

def Fills (call : Call) : Prop := call.op ≠ .rm ∧ 0 ∉ call.op.buf

instance (call : Call) : Decidable (Fills call) := inferInstanceAs (Decidable (_ ∧ _))

theorem Fills.calls {e : Event κ ι} (h : Calls Fills s e) : Calls Keeps s e := by
  cases e with
  | start c call => exact h.1
  | client | take | server => trivial

def AwaitedBesides (s : State ι κ) (c : κ) (m : Msg) : Prop :=
  ∃ d, m ∈ (issued s d).drop (update s.done c (s.done c + 1) d)

def Current (data content cached : List UInt8) : Prop :=
  data = cached ∨ cached.take data.length = data ∧ cached.drop data.length = content.drop data.length

def LeavesData (s : State ι κ) (env : Env) : ServerPc κ → Prop
  | .attempt _ m | .retry _ m =>
      m.opt = .create → dfsCall s.dfs env.vacant m ≠ none → ∀ e, s.cache m.path = some e →
        e.value.kind = .file → e.value.data = [] ∨ Awaited s ⟨.write, m.path⟩
  | .writeGet _ p _ => ∀ e, s.cache p = some e → (e.value.data.takeWhile (· ≠ 0)).length < serverInlineMax
  | .writeBack c p _ data => ∀ e content, s.cache p = some e → e.value.kind = .file →
      s.dfs p = some (.file content) → Current data content e.value.data ∨ AwaitedBesides s c ⟨.write, p⟩
  | _ => True

def Carried (s : State ι κ) : Event κ ι → Prop
  | .server i env => LeavesData s env (s.server i)
  | .start _ call => Fills call
  | .client _ _ | .take _ => True

theorem Carried.calls {e : Event κ ι} (h : Carried s e) : Calls Fills s e := by
  cases e with
  | start c call => exact h
  | client | take | server => trivial

theorem kind_eq_file {v : Value} : v.kind = .file ↔ getStatFlag v.stat .type = true := by
  unfold Value.kind
  split <;> simp_all

theorem kind_eq_dir {v : Value} : v.kind = .dir ↔ getStatFlag v.stat .type = false := by
  unfold Value.kind
  split <;> simp_all

theorem Alike.kind {v w : Value} (h : Alike v w) : w.kind = v.kind := by
  simp only [Value.kind, h.type]

def Landed (s : State ι κ) (p : Path) (data : List UInt8) : Prop :=
  s.dfs p = none ∧ Awaited s ⟨.create, p⟩ ∨
    ∃ content, s.dfs p = some (.file content) ∧ content.length ≤ data.length ∧
      (content = data ∨ Awaited s ⟨.write, p⟩)

def ServerPc.descriptor : ServerPc κ → Option (Path × Nat)
  | .writeGet _ p n | .writeBack _ p n _ => some (p, n)
  | .recv | .rmGet _ _ | .attempt _ _ | .retry _ _ | .rmDel _ _ | .writeOpen _ _ | .overrun _ _ => none

structure WrittenBack (cfg : Config ι κ) (s : State ι κ) : Prop where
  buf : ∀ {c buf p}, s.client c = .add (.createWrite buf) p → buf.length < inlineMax - 1
  root : ∀ {e}, s.cache cfg.root = some e → e.value.kind = .dir
  sound : ∀ {p e}, s.cache p = some e → p ≠ cfg.root → e.value.Sound
  descriptor : ∀ {i p n}, (s.server i).descriptor = some (p, n) → s.generation p = n
  hand : ∀ {i c p n data}, s.server i = .writeBack c p n data → p ≠ cfg.root →
    ∃ e, s.cache p = some e ∧ data.length ≤ e.value.data.length
  landed : ∀ {p e}, s.cache p = some e → e.value.kind = .file → Landed s p e.value.data

theorem WrittenBack.initial (h : Initial cfg s) : WrittenBack cfg s := by
  have root : ∀ {e}, s.cache cfg.root = some e → e.value.kind = .dir := by
    intro e entry
    by_cases empty : cfg.root = []
    · rw [h.rootKey empty] at entry
      cases entry
    · obtain ⟨env, e', entry', value, -⟩ := h.rootCached empty
      cases Option.some.inj (entry.symm.trans entry')
      rw [value, kind_eq_dir]
      simp [loadedValue]
  have only : ∀ {p e}, s.cache p = some e → p = cfg.root := by
    intro p e entry
    by_contra other
    rw [h.cache p other] at entry
    cases entry
  refine ⟨fun at_pc => ?_, root, fun entry other => absurd (only entry) other, fun pc => ?_, fun pc => ?_,
    fun entry file => ?_⟩
  · rw [h.client _] at at_pc
    cases at_pc
  · rw [h.server _] at pc
    cases pc
  · rw [h.server _] at pc
    cases pc
  · rw [only entry] at entry
    rw [root entry] at file
    cases file

theorem afterParent_add {m m' : Make} {p q : Path} (h : afterParent m p = .add m' q) {buf : List UInt8}
    (is : m' = .createWrite buf) : buf.length < inlineMax - 1 := by
  revert h
  apply afterParent_of (P := fun pc => pc = .add m' q → buf.length < inlineMax - 1)
  · rintro short ⟨rfl, rfl⟩
    exact short buf is
  · intro h
    cases h

theorem beginCall_add {table : Path → Bool} {call : Call} {m : Make} {q : Path}
    (h : beginCall table call = .add m q) {buf : List UInt8} (is : m = .createWrite buf) :
    buf.length < inlineMax - 1 := by
  revert h
  apply beginCall_of (P := fun pc => pc = .add m q → buf.length < inlineMax - 1)
  · exact fun _ _ _ _ h => afterParent_add h is
  all_goals intros; rename_i h; cases h

theorem Local.not_add {env : Env} {pc next : ClientPc} (goes : Local cfg s env pc next) {m : Make} {p : Path} :
    next ≠ .add m p := by
  have load : ∀ l, load cfg l ≠ .add m p := by
    intro l h
    unfold Commit.load at h
    split at h <;> cases h
  have found : ∀ m' q e, parentFound m' q e ≠ .add m p := by
    intro m' q e h
    unfold parentFound at h
    split at h
    · cases h
    · split at h <;> cases h
  intro is
  cases goes with
  | parentMiss | readdir | rmMiss => exact load _ is
  | parentHit | parentLoaded => exact found _ _ _ is
  | @loadExists l => cases l <;> cases is
  | writeHit =>
      unfold writeFound at is
      split at is
      · cases is
      · split at is <;> cases is
  | _ => cases is

theorem Landed.frame {p : Path} {data : List UInt8} (h : Landed s p data) (dfs : t.dfs p = s.dfs p)
    (awaits : ∀ opt, opt = .create ∨ opt = .write → Awaited s ⟨opt, p⟩ → Awaited t ⟨opt, p⟩) :
    Landed t p data := by
  rcases h with ⟨free, waits⟩ | ⟨content, file, short, current⟩
  · exact .inl ⟨dfs.trans free, awaits _ (.inl rfl) waits⟩
  · exact .inr ⟨content, dfs.trans file, short, current.imp_right (awaits _ (.inr rfl))⟩

theorem WrittenBack.goOn (b : WrittenBack cfg s) {u : State ι κ} {c : κ} {pc : ClientPc}
    (cache : u.cache = s.cache) (dfs : u.dfs = s.dfs) (generation : u.generation = s.generation)
    (server : u.server = s.server) (client : u.client = s.client)
    (awaits : ∀ m, Awaited s m → Awaited (setPc u c pc) m)
    (adds : ∀ {buf p}, pc = .add (.createWrite buf) p → buf.length < inlineMax - 1) :
    WrittenBack cfg (setPc u c pc) where
  buf {c' buf p} at_pc := by
    rw [setPc_client, client] at at_pc
    by_cases here : c' = c
    · subst here
      rw [update_self] at at_pc
      exact adds at_pc
    · rw [update_of_ne here] at at_pc
      exact b.buf at_pc
  root entry := b.root (cache ▸ entry)
  sound entry := b.sound (cache ▸ entry)
  descriptor at_i := (congrFun generation _).trans (b.descriptor (server ▸ at_i))
  hand at_i other := by
    obtain ⟨e, entry, short⟩ := b.hand (server ▸ at_i) other
    exact ⟨e, cache.symm ▸ entry, short⟩
  landed {p e} entry file := (b.landed (cache ▸ entry) file).frame (congrFun dfs p) fun _ _ => awaits _

theorem WrittenBack.serverStep (b : WrittenBack cfg s) (cache : t.cache = s.cache) (client : t.client = s.client)
    (descriptor : ∀ {i p n}, (t.server i).descriptor = some (p, n) → t.generation p = n)
    (hand : ∀ {i c p n data}, t.server i = .writeBack c p n data → p ≠ cfg.root →
      ∃ e, s.cache p = some e ∧ data.length ≤ e.value.data.length)
    (landed : ∀ {p e}, s.cache p = some e → e.value.kind = .file → Landed t p e.value.data) :
    WrittenBack cfg t where
  buf at_pc := b.buf (client ▸ at_pc)
  root entry := b.root (cache ▸ entry)
  sound entry := b.sound (cache ▸ entry)
  descriptor := descriptor
  hand pc := cache ▸ hand pc
  landed entry := landed (cache ▸ entry)

theorem newValue_sound (env : Env) {m : Make} (nulFree : 0 ∉ (Op.make m).buf)
    (short : ∀ buf, m = .createWrite buf → buf.length < inlineMax - 1) : (newValue env m).Sound := by
  cases m with
  | mkdir | create => exact ⟨List.not_mem_nil, by simp [newValue, newStat, setStatFlag]⟩
  | createWrite buf =>
      have fits : buf.length < 2 ^ 32 := (short buf rfl).trans (by decide)
      have data : (newValue env (.createWrite buf)).data = buf := take_strcpy nulFree env.val
      refine ⟨by rwa [data], ?_⟩
      rw [data]
      simpa [newValue, newStat, setStatFlag] using fits

theorem WrittenBack.store (b : WrittenBack cfg s) (q : Queued cfg s) {p : Path} {v : Value} {c : κ} {call : Call}
    (before : (s.client c).unsent = none) (root : p = cfg.root → v.kind = .dir) (sound : p ≠ cfg.root → v.Sound)
    (longer : p ≠ cfg.root → ∀ e, s.cache p = some e → e.value.data.length ≤ v.data.length)
    (landed : v.kind = .file → (Awaited s ⟨.create, p⟩ ∨ call.msg = ⟨.create, p⟩) ∧ s.dfs p = none ∨
      call.msg = ⟨.write, p⟩ ∧ ∃ content, s.dfs p = some (.file content) ∧ content.length ≤ v.data.length) :
    WrittenBack cfg (setPc (store s p v) c (.send call)) := by
  have awaits : ∀ {m}, Awaited (setPc (Commit.store s p v) c (.send call)) m ↔ Awaited s m ∨ m = call.msg :=
    Awaited.issue (t := setPc (Commit.store s p v) c (.send call)) q
      ((issued_congr (s := s) rfl rfl _ _).trans (issued_decide before)) rfl
  have here : (setPc (Commit.store s p v) c (.send call)).cache p = some ⟨s.clock, v⟩ := update_self ..
  have elsewhere : ∀ {r}, r ≠ p → (setPc (Commit.store s p v) c (.send call)).cache r = s.cache r :=
    fun other => update_of_ne other ..
  refine ⟨fun {c' buf r} at_pc => ?_, fun entry => ?_, fun {r e} entry other => ?_, b.descriptor,
    fun {i c' r n data} at_i other => ?_, fun {r e} entry file => ?_⟩
  · rw [setPc_client] at at_pc
    by_cases same : c' = c
    · subst same
      rw [update_self] at at_pc
      cases at_pc
    · rw [update_of_ne same] at at_pc
      exact b.buf at_pc
  · by_cases same : cfg.root = p
    · rw [same, here] at entry
      cases entry
      exact root same.symm
    · rw [elsewhere same] at entry
      exact b.root entry
  · by_cases same : r = p
    · subst same
      rw [here] at entry
      cases entry
      exact sound other
    · rw [elsewhere same] at entry
      exact b.sound entry other
  · obtain ⟨e, entry, short⟩ := b.hand at_i other
    by_cases same : r = p
    · subst same
      exact ⟨_, here, short.trans (longer other e entry)⟩
    · exact ⟨e, (elsewhere same).trans entry, short⟩
  · by_cases same : r = p
    · subst same
      rw [here] at entry
      cases entry
      rcases landed file with ⟨waits, free⟩ | ⟨write, content, there, short⟩
      · exact .inl ⟨free, awaits.mpr (waits.imp_right Eq.symm)⟩
      · exact .inr ⟨content, there, short, .inr (awaits.mpr (.inr write.symm))⟩
    · rw [elsewhere same] at entry
      exact (b.landed entry file).frame rfl fun _ _ waits => awaits.mpr (.inl waits)

theorem WrittenBack.add (b : WrittenBack cfg s) (w : Within cfg Fills s) (g : Grown cfg s) {c : κ} {env : Env}
    {m : Make} {p : Path} (at_pc : s.client c = .add m p) (key : p ≠ []) (absent : s.cache p = none) :
    WrittenBack cfg (setPc (Commit.store s p (newValue env m)) c (.send ⟨.make m, p⟩)) := by
  have below : Below cfg p := by
    have ok := g.client c
    rw [at_pc] at ok
    exact below_of_dirAt key (ok key)
  have fills : Fills ⟨.make m, p⟩ := w.running (by rw [at_pc]; rfl)
  refine b.store w.queued (by rw [at_pc]; rfl) (fun root => absurd root below.2) (fun _ => ?_) (fun _ e entry => ?_)
    fun file => .inl ⟨.inr ?_, ?_⟩
  · exact newValue_sound env fills.2 fun buf is => b.buf (by rw [at_pc, is])
  · rw [absent] at entry
    cases entry
  · cases m with
    | mkdir =>
        rw [kind_eq_file, newValue_type] at file
        cases file
    | create | createWrite => rfl
  · by_contra there
    exact g.onDfs below there absent

theorem WrittenBack.writeCas (b : WrittenBack cfg s) (w : Within cfg Fills s) (g : Grown cfg s) {c : κ} {p : Path}
    {buf : List UInt8} {offset : Nat} {v : Value} {e : Entry} (at_pc : s.client c = .writeCas p buf offset v e.cas)
    (entry : s.cache p = some e) :
    WrittenBack cfg (setPc (Commit.store s p v) c (.send ⟨.write buf offset, p⟩)) := by
  have runs : (s.client c).running = some ⟨.write buf offset, p⟩ := by rw [at_pc]; rfl
  have nulFree : 0 ∉ buf := (w.running runs).2
  have ok := g.client c
  rw [at_pc] at ok
  obtain ⟨inside, fits, env, rfl⟩ := ok.2 e entry rfl
  have kind := (alike_writtenValue env e.value buf offset).kind
  have longer : p ≠ cfg.root → e.value.data.length ≤ (writtenValue env e.value buf offset).data.length := by
    intro other
    have sound := b.sound entry other
    rw [sound.size] at inside
    rw [writtenValue_data sound nulFree inside, length_overwrite inside]
    exact le_max_right ..
  refine b.store w.queued (by rw [at_pc]; rfl) (fun root => ?_) (fun other => ?_)
    (fun other e' entry' => ?_) fun file => ?_
  · subst root
    exact kind.trans (b.root entry)
  · have sound := b.sound entry other
    exact writtenValue_sound sound nulFree (sound.size ▸ inside) fits env
  · cases Option.some.inj (entry.symm.trans entry')
    exact longer other
  · rw [kind] at file
    have other : p ≠ cfg.root := by
      rintro rfl
      rw [b.root entry] at file
      cases file
    rcases b.landed entry file with ⟨free, waits⟩ | ⟨content, there, short, -⟩
    · exact .inl ⟨.inl waits, free⟩
    · exact .inr ⟨rfl, content, there, short.trans (longer other)⟩

theorem length_writeBack {data content cached : List UInt8} (short : content.length ≤ cached.length)
    (hand : data.length ≤ cached.length) : (overwrite content data 0).length ≤ cached.length := by
  rw [length_overwrite (Nat.zero_le _)]
  omega

theorem Current.overwrite_eq {data content cached : List UInt8} (h : Current data content cached)
    (short : content.length ≤ cached.length) : overwrite content data 0 = cached := by
  rw [overwrite, List.take_zero, List.nil_append, Nat.zero_add]
  rcases h with rfl | ⟨start, rest⟩
  · rw [List.drop_eq_nil_of_le short, List.append_nil]
  · calc data ++ content.drop data.length = cached.take data.length ++ cached.drop data.length := by rw [start, rest]
      _ = cached := List.take_append_drop ..

theorem WrittenBack.handed (b : WrittenBack cfg s) {i : ι} {pc : ServerPc κ} (quiet : pc.descriptor = none) {j : ι}
    {c : κ} {p : Path} {n : Nat} {data : List UInt8} (at_j : update s.server i pc j = .writeBack c p n data)
    (other : p ≠ cfg.root) : ∃ e, s.cache p = some e ∧ data.length ≤ e.value.data.length := by
  by_cases here : j = i
  · subst here
    rw [update_self] at at_j
    rw [at_j] at quiet
    cases quiet
  · rw [update_of_ne here] at at_j
    exact b.hand at_j other

theorem WrittenBack.descriptors (b : WrittenBack cfg s) {i : ι} {pc : ServerPc κ}
    (new : ∀ p n, pc.descriptor = some (p, n) → s.generation p = n) {j : ι} {p : Path} {n : Nat}
    (at_j : (update s.server i pc j).descriptor = some (p, n)) : s.generation p = n := by
  by_cases here : j = i
  · subst here
    rw [update_self] at at_j
    exact new p n at_j
  · rw [update_of_ne here] at at_j
    exact b.descriptor at_j

theorem dispatch_quiet (c : κ) (m : Msg) : (dispatch c m).descriptor = none := by
  obtain ⟨opt, q⟩ := m
  cases opt <;> rfl

theorem WrittenBack.succeed (b : WrittenBack cfg s) (w : Within cfg Fills s) (g : Grown cfg s) {i : ι} {c : κ}
    {m : Msg} {dfs : Path → Option Node} (serves : (s.server i).serving = some (c, m))
    (effect : DfsEffect s.dfs m dfs)
    (leaves : m.opt = .create → ∀ e, s.cache m.path = some e → e.value.kind = .file →
      e.value.data = [] ∨ Awaited s ⟨.write, m.path⟩) : WrittenBack cfg (succeed s i c m dfs) := by
  have message := g.message (List.mem_of_getElem? (w.head serves).message)
  obtain ⟨client, -, cache, -⟩ := succeed_frame s i c m dfs
  have makes : m.opt ≠ .rm := by
    obtain ⟨opt, p⟩ := m
    rintro rfl
    exact message
  obtain ⟨server, after, same, done⟩ := succeed_made (s := s) (i := i) (c := c) dfs makes
  have awaits : ∀ {m'}, m' ≠ m → (Awaited (Commit.succeed s i c m dfs) m' ↔ Awaited s m') :=
    Awaited.finish w.queued serves same done
  have notWrite : ∀ {r}, m ≠ ⟨.write, r⟩ := by
    rintro r rfl
    cases effect with
    | mkdir is | create is | truncate is | remove is => cases is
  have generation : (Commit.succeed s i c m dfs).generation = s.generation := by
    unfold Commit.succeed
    split
    · exact absurd ‹_› makes
    all_goals rfl
  refine b.serverStep cache client (fun at_j => ?_) (fun at_j => ?_) fun {r e} entry file => ?_
  · rw [server] at at_j
    rw [generation]
    exact b.descriptors (fun _ _ none => by cases none) at_j
  · rw [server] at at_j
    exact b.handed rfl at_j
  by_cases here : r = m.path
  · subst here
    have create : m.opt = .create := by
      obtain ⟨opt, p⟩ := m
      cases opt with
      | mkdir =>
          obtain ⟨-, e', entry', dir⟩ := message
          cases Option.some.inj (entry.symm.trans entry')
          rw [kind_eq_file, dir] at file
          cases file
      | create => rfl
      | rm => exact absurd rfl makes
      | write => exact absurd rfl notWrite
    have empty : dfs m.path = some (.file []) := by
      cases effect with
      | mkdir is | remove is => rw [create] at is; cases is
      | create | truncate => exact update_self ..
    refine .inr ⟨[], (congrFun after _).trans empty, Nat.zero_le _, ?_⟩
    exact (leaves create e entry file).imp Eq.symm (awaits notWrite.symm).mpr
  · have other : ∀ opt, (⟨opt, r⟩ : Msg) ≠ m := by
      rintro opt rfl
      exact here rfl
    refine (b.landed entry file).frame ?_ fun opt _ => (awaits (other opt)).mpr
    rw [after]
    cases effect <;> exact update_of_ne here ..

theorem WrittenBack.writeBack (b : WrittenBack cfg s) (w : Within cfg Fills s) {i : ι} {c : κ} {p : Path}
    {n : Nat} {data : List UInt8} (pc : s.server i = .writeBack c p n data)
    (leaves : ∀ e content, s.cache p = some e → e.value.kind = .file → s.dfs p = some (.file content) →
      Current data content e.value.data ∨ AwaitedBesides s c ⟨.write, p⟩) :
    WrittenBack cfg (finish (Commit.writeBack s p n data) i c) := by
  have kept : (Commit.writeBack s p n data).cache = s.cache ∧ (Commit.writeBack s p n data).client = s.client ∧
      (Commit.writeBack s p n data).server = s.server ∧ (Commit.writeBack s p n data).generation = s.generation ∧ (Commit.writeBack s p n data).done = s.done ∧
      issued (Commit.writeBack s p n data) = issued s := by
    unfold Commit.writeBack
    split <;> exact ⟨rfl, rfl, rfl, rfl, rfl, rfl⟩
  obtain ⟨cache, client, server, generation, done, same⟩ := kept
  have serves : (s.server i).serving = some (c, ⟨.write, p⟩) := congrArg ServerPc.serving pc
  have finished : (finish (Commit.writeBack s p n data) i c).done = update s.done c (s.done c + 1) := by
    simp only [Commit.finish, done]
  have still : issued (finish (Commit.writeBack s p n data) i c) = issued s := same
  have awaits : ∀ {m}, m ≠ ⟨.write, p⟩ → (Awaited (finish (Commit.writeBack s p n data) i c) m ↔ Awaited s m) :=
    Awaited.finish w.queued serves still finished
  have besides : AwaitedBesides s c ⟨.write, p⟩ →
      Awaited (finish (Commit.writeBack s p n data) i c) ⟨.write, p⟩ := by
    rw [awaited_iff_mem_drop, still, finished]
    exact id
  have current' : s.generation p = n := b.descriptor (congrArg ServerPc.descriptor pc)
  refine b.serverStep cache client (fun at_j => ?_) (fun at_j => ?_) fun {r e} entry file => ?_
  · simp only [Commit.finish, server] at at_j
    exact (congrFun generation _).trans (b.descriptors (fun _ _ none => by cases none) at_j)
  · simp only [Commit.finish, server] at at_j
    exact b.handed rfl at_j
  by_cases here : r = p
  · subst here
    rcases b.landed entry file with ⟨free, waits⟩ | ⟨content, there, short, -⟩
    · refine .inl ⟨?_, (awaits fun is => by cases is).mpr waits⟩
      simp [Commit.finish, Commit.writeBack, opened, free]
    · obtain ⟨e', entry', hand⟩ := b.hand pc fun root => by
        subst root
        rw [b.root entry] at file
        cases file
      cases Option.some.inj (entry.symm.trans entry')
      refine .inr ⟨_, ?_, length_writeBack short hand, ?_⟩
      · simp only [Commit.finish, Commit.writeBack, opened_eq_some.mpr ⟨there, current'⟩]
        exact update_self ..
      · exact (leaves e content entry file there).imp (fun current => current.overwrite_eq short) besides
  · refine (b.landed entry file).frame ?_ fun opt _ => (awaits fun is => ?_).mpr
    · simp only [Commit.finish, Commit.writeBack]
      split
      · exact update_of_ne here ..
      · rfl
    · cases is
      exact here rfl

theorem WrittenBack.drop (b : WrittenBack cfg s) (w : Within cfg Fills s) {i : ι} {c : κ} {p : Path}
    (serves : (s.server i).serving = some (c, ⟨.write, p⟩))
    (void : (∀ content, s.dfs p ≠ some (.file content)) ∨ s.cache p = none) : WrittenBack cfg (finish s i c) := by
  have awaits : ∀ {m}, m ≠ ⟨.write, p⟩ → (Awaited (finish s i c) m ↔ Awaited s m) :=
    Awaited.finish w.queued serves rfl rfl
  refine b.serverStep rfl rfl (b.descriptors fun _ _ none => by cases none) (b.handed rfl) fun {r e} entry file => ?_
  have landed := b.landed entry file
  by_cases here : r = p
  · subst here
    have noFile : ∀ content, s.dfs r ≠ some (.file content) :=
      void.resolve_right fun absent => by cases absent.symm.trans entry
    rcases landed with ⟨free, waits⟩ | ⟨content, there, -⟩
    · exact .inl ⟨free, (awaits fun is => by cases is).mpr waits⟩
    · exact absurd there (noFile content)
  · refine landed.frame rfl fun opt _ => (awaits fun is => ?_).mpr
    cases is
    exact here rfl

theorem WrittenBack.move {e : Event κ ι} (b : WrittenBack cfg s) (w : Within cfg Fills s) (g : Grown cfg s)
    (ok : Carried s e) (move : Move cfg s e t) : WrittenBack cfg t := by
  have at_client : ∀ {c pc}, s.client c = pc → ClientOk cfg s.cache s.clock pc :=
    fun at_pc => at_pc ▸ g.client _
  have no_rm : ∀ {i c p}, (s.server i).serving = some (c, ⟨.rm, p⟩) → False :=
    fun serves => g.message (List.mem_of_getElem? (w.head serves).message)
  have stays : ∀ {u : State ι κ}, issued u = issued s → u.done = s.done → ∀ m, Awaited s m → Awaited u m :=
    fun same done _ => (Awaited.congr same done).mpr
  have sees : ∀ {i pc p e}, s.cache p = some e → e.value.kind = .file →
      Landed { s with server := update s.server i pc } p e.value.data := fun {i pc} _ _ entry file =>
    (b.landed entry file).frame rfl fun _ _ =>
      stays (u := { s with server := update s.server i pc }) rfl rfl _
  have looks : ∀ {i pc}, pc.descriptor = none → WrittenBack cfg { s with server := update s.server i pc } :=
    fun quiet => b.serverStep rfl rfl (b.descriptors fun _ _ some' => by rw [quiet] at some'; cases some')
      (b.handed quiet) sees
  cases move with
  | start free =>
      exact b.goOn rfl rfl rfl rfl rfl (stays (issued_goOn (by rw [free]; rfl) (beginCall_unsent _ _)) rfl)
        fun is => beginCall_add is rfl
  | goOn at_pc goes =>
      exact b.goOn rfl rfl rfl rfl rfl (stays (issued_goOn (at_pc ▸ goes.unsent.1) goes.unsent.2) rfl)
        fun is => absurd is goes.not_add
  | parentAdd at_pc =>
      exact b.goOn rfl rfl rfl rfl rfl (stays ((issued_congr (s := s) rfl rfl _ _).trans
        (issued_goOn (by rw [at_pc]; rfl) (afterParent_unsent _ _))) rfl) fun is => afterParent_add is rfl
  | loadAdd at_pc key absent =>
      obtain ⟨m, p, rfl, -, -, there⟩ := at_client at_pc
      exact absurd absent there
  | childCas at_pc | addSet at_pc | rmCas at_pc | rmLate at_pc => exact (at_client at_pc).elim
  | add at_pc key absent => exact b.add w g at_pc key absent
  | addAgain at_pc =>
      refine b.goOn rfl rfl rfl rfl rfl (fun m waits => ?_) fun is => by cases is
      exact (Awaited.issue w.queued (issued_decide (by rw [at_pc]; rfl)) rfl).mpr (.inl waits)
  | writeCas at_pc entry same =>
      subst same
      exact b.writeCas w g at_pc entry
  | send at_pc => exact b.goOn rfl rfl rfl rfl rfl (stays (issued_send at_pc) rfl) fun is => by cases is
  | ret at_pc =>
      exact b.goOn rfl rfl rfl rfl rfl (stays ((issued_congr (s := s) rfl rfl _ _).trans
        (issued_goOn (by rw [at_pc]; rfl) rfl)) rfl) fun is => by cases is
  | take => exact looks (dispatch_quiet _ _)
  | fail => exact looks rfl
  | @openWrite i env c p content pc file =>
      refine b.serverStep rfl rfl (b.descriptors fun q n some' => ?_) (fun {j d r n data} at_j other => ?_) sees
      · cases some'
        rfl
      · by_cases here : j = i
        · subst here
          simp only [update_self] at at_j
          cases at_j
        · exact b.hand ((update_of_ne here ..).symm.trans at_j) other
  | rmVoid pc | rmFound pc | rmDel pc => exact (no_rm (congrArg ServerPc.serving pc)).elim
  | dropWrite pc noFile => exact b.drop w (congrArg ServerPc.serving pc) (.inl noFile)
  | writeVoid pc absent => exact b.drop w (congrArg ServerPc.serving pc) (.inr absent)
  | @writeRead i env c p n e pc entry =>
      have opened : s.generation p = n := b.descriptor (congrArg ServerPc.descriptor pc)
      refine b.serverStep rfl rfl (b.descriptors fun q m some' => ?_) (fun {j d r m data} at_j other => ?_) sees
      · unfold Commit.writeRead at some'
        split at some' <;> cases some'
        exact opened
      by_cases here : j = i
      · subst here
        simp only [update_self, Commit.writeRead] at at_j
        split at at_j
        · cases at_j
          refine ⟨e, entry, ?_⟩
          rw [← (b.sound entry other).size]
          exact List.length_take_le ..
        · cases at_j
      · exact b.hand ((update_of_ne here ..).symm.trans at_j) other
  | @succeed i env c m dfs pc call =>
      have leaves : LeavesData s env (.attempt c m) := by
        rcases pc with pc | pc <;> (rw [Carried, pc] at ok; exact ok)
      refine b.succeed w g (serving_of_attempt pc) (dfsCall_effect call) fun create => leaves create ?_
      rw [call]
      exact Option.some_ne_none _
  | writeBack pc =>
      rw [Carried, pc] at ok
      exact b.writeBack w pc ok

theorem writtenBack_of_reachable (h : (system cfg).Reachable Carried s) : WrittenBack cfg s :=
  h.invariant (fun _ => .initial) fun _ _ _ reach b ok step =>
    b.move (within_of_reachable (fun _ _ => Carried.calls) reach)
      (grown_of_reachable (fun _ _ ok => Fills.calls ok.calls) reach) ok (move_of_step step)

/-- Once the queues are drained, every file is on the DFS with its inline data. -/
theorem written_back (reach : (system cfg).Reachable Carried s) (drained : Drained s) {p : Path} {e : Entry}
    (entry : s.cache p = some e) (file : e.value.kind = .file) : s.dfs p = some (.file e.value.data) := by
  rcases (writtenBack_of_reachable reach).landed entry file with ⟨-, waits⟩ | ⟨content, there, -, current⟩
  · exact absurd waits drained.not_awaited
  · rw [there, current.resolve_right drained.not_awaited]

theorem never_written_back : ∃ s e, (system fileWorkspace).Reachable (Calls Fills) s ∧ Drained s ∧
    s.cache exampleFile = some e ∧ getStatFlag e.value.stat .rm = false ∧
    getStatFlag e.value.stat .inline = true ∧ e.value.data = [97, 98, 99] ∧
    s.dfs exampleFile = some (.file []) := by
  obtain ⟨s, reach, h⟩ := System.exists_reachable (system fileWorkspace) (Calls Fills)
    (s := initialState fileWorkspace .zero) (initial_initialState _ _ (List.cons_ne_nil _ _))
    (callRun (.make (.createWrite [97, 98, 99])) 3 ++ commitRun 1)
    (fun s : State Unit Unit => decide (Drained s ∧ s.dfs exampleFile = some (.file [])) &&
      (s.cache exampleFile).any fun e : Entry => decide (getStatFlag e.value.stat .rm = false ∧
        getStatFlag e.value.stat .inline = true ∧ e.value.data = [97, 98, 99])) rfl
  obtain ⟨empty, cached⟩ := (Bool.and_eq_true _ _).mp h
  obtain ⟨drained, file⟩ := of_decide_eq_true empty
  obtain ⟨e, entry, holds⟩ := (Option.any_eq_true _ _).mp cached
  obtain ⟨live, inline, data⟩ := of_decide_eq_true holds
  exact ⟨s, e, reach, drained, entry, live, inline, data, file⟩

def promptly (s : State Unit Unit) : Event Unit Unit → Bool
  | .start _ call => Fills call
  | .server i _ =>
      match s.server i with
      | .attempt _ m | .retry _ m => (s.cache m.path).all fun e => e.value.data = []
      | .writeGet _ p _ => (s.cache p).all fun e => (e.value.data.takeWhile (· ≠ 0)).length < serverInlineMax
      | .writeBack _ p _ data => (s.cache p).all fun e => data = e.value.data
      | _ => true
  | .client _ _ | .take _ => true

theorem carried_of_promptly {s : State Unit Unit} {e : Event Unit Unit} (h : promptly s e = true) : Carried s e := by
  cases e with
  | start c call =>
      have fills : Fills call := of_decide_eq_true h
      exact fills
  | client | take => trivial
  | server i env =>
      cases pc : s.server i <;> simp only [promptly, pc] at h <;> simp only [Carried, pc, LeavesData]
      case attempt | retry =>
        intro _ _ e entry _
        rw [entry] at h
        exact .inl (of_decide_eq_true h)
      case writeGet =>
        intro e entry
        rw [entry] at h
        exact of_decide_eq_true h
      case writeBack =>
        intro e _ entry _ _
        rw [entry] at h
        exact .inl (.inl (of_decide_eq_true h))

theorem written_back_run : ∃ s : State Unit Unit, (system fileWorkspace).Reachable Carried s ∧ Drained s ∧
    s.dfs exampleFile = some (.file [97, 98, 99]) := by
  obtain ⟨s, reach, h⟩ := System.exists_reachable (system fileWorkspace) (fun s e => promptly s e = true)
    (s := initialState fileWorkspace .zero) (initial_initialState _ _ (List.cons_ne_nil _ _))
    (List.flatten [callRun (.make .create) 3, commitRun 1, callRun (.write [97, 98, 99] 0) 4, commitRun 3])
    (fun s : State Unit Unit => decide (Drained s) && (s.cache exampleFile).any fun e : Entry =>
      decide (e.value.kind = .file ∧ e.value.data = [97, 98, 99])) rfl
  obtain ⟨drained, cached⟩ := (Bool.and_eq_true _ _).mp h
  obtain ⟨e, entry, holds⟩ := (Option.any_eq_true _ _).mp cached
  obtain ⟨file, data⟩ := of_decide_eq_true holds
  have carried := reach.mono fun _ _ _ => carried_of_promptly
  have drained := of_decide_eq_true drained
  exact ⟨s, carried, drained, data ▸ written_back carried drained entry file⟩

end Pacon.Commit
