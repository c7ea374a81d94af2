import Pacon.Commit.Growth

/-!
# One file created and removed again and again

An RM finds the cache entry it deletes by path alone. A create that overwrites a flagged entry while
an RM waits therefore loses its own entry; without that the file on the DFS follows the calls.
-/

set_option linter.unusedSectionVars false

namespace Pacon.Commit
open Function Lib

variable {ι : Type} [DecidableEq ι]

def OnPath (p : Path) (call : Call) : Prop :=
  (call.op = .make .create ∨ call.op = .rm) ∧ call.path = p

instance (p : Path) (call : Call) : Decidable (OnPath p call) := inferInstanceAs (Decidable (_ ∧ _))

def outcomes (s : State ι Unit) : List (Call × Int) := s.returned () ++ (s.client ()).outcome.toList

/-- The operation of the last call that returned 0. -/
def lastSuccess (l : List (Call × Int)) : Option Op :=
  ((l.filter fun x => x.2 = 0).getLast?).map fun x => x.1.op

def queue (s : State ι Unit) : List Msg := (issued s ()).drop (s.done ())

theorem lastSuccess_fail (l : List (Call × Int)) (call : Call) :
    lastSuccess (l ++ [(call, -1)]) = lastSuccess l := by
  simp [lastSuccess]

theorem lastSuccess_ok (l : List (Call × Int)) (call : Call) :
    lastSuccess (l ++ [(call, 0)]) = some call.op := by
  simp [lastSuccess]

def Live (e : Entry) : Prop :=
  getStatFlag e.value.stat .rm = false ∧ getStatFlag e.value.stat .type = true

def Flagged (e : Entry) : Prop := getStatFlag e.value.stat .rm = true

/-- The stages of the file: its cache entry, the file on the DFS, the pending messages, where the
server stands, the last successful call. In `stuck` an RM waits for a file that a later message of
the same queue makes. -/
inductive Phase (p : Path) : Option Entry → Option Node → List Msg → ServerPc Unit → Option Op → Prop
  | gone {k pc last} (waits : pc = .recv ∨ pc = .rmGet () p) (other : last ≠ some (.make .create)) :
      Phase p none none (.replicate k ⟨.rm, p⟩) pc last
  | made {e pc} (live : Live e) : Phase p (some e) none [⟨.create, p⟩] pc (some (.make .create))
  | kept {e content pc} (live : Live e) (before : pc ≠ .rmDel () p) :
      Phase p (some e) (some (.file content)) [] pc (some (.make .create))
  | doomed {e k pc} (flag : Flagged e) :
      Phase p (some e) none (⟨.create, p⟩ :: .replicate (k + 1) ⟨.rm, p⟩) pc (some .rm)
  | removing {e content k pc} (flag : Flagged e) (before : pc ≠ .rmDel () p) :
      Phase p (some e) (some (.file content)) (.replicate (k + 1) ⟨.rm, p⟩) pc (some .rm)
  | removed {e k} (flag : Flagged e) :
      Phase p (some e) none (.replicate (k + 1) ⟨.rm, p⟩) (.rmDel () p) (some .rm)
  | stuck {e rest pc last} (before : pc ≠ .rmDel () p) :
      Phase p (some e) none (⟨.rm, p⟩ :: rest) pc last

namespace Phase
variable {p : Path} {cache : Option Entry} {dfs : Option Node} {q : List Msg} {pc : ServerPc Unit}
  {last : Option Op}

theorem goOn (h : Phase p cache dfs q pc last) {next : ServerPc Unit} (now : pc ≠ .rmDel () p)
    (before : next ≠ .rmDel () p) (void : cache = none → next = .recv ∨ next = .rmGet () p) :
    Phase p cache dfs q next last := by
  cases h with
  | gone waits other => exact .gone (void rfl) other
  | made live => exact .made live
  | kept live _ => exact .kept live before
  | doomed flag => exact .doomed flag
  | removing flag _ => exact .removing flag before
  | removed flag => exact absurd rfl now
  | stuck _ => exact .stuck before

theorem void (h : Phase p none dfs q pc last) : Phase p none dfs q.tail .recv last := by
  cases h with
  | @gone k _ _ waits other =>
      rw [List.tail_replicate]
      exact .gone (.inl rfl) other

theorem created (h : Phase p cache dfs q pc last) (head : q.head? = some ⟨.create, p⟩) :
    Phase p cache (some (.file [])) q.tail .recv last := by
  cases h with
  | @gone k | @removing _ _ k | @removed _ k => simp [List.head?_replicate] at head
  | made live => exact .kept live nofun
  | kept => cases head
  | doomed flag => exact .removing flag nofun
  | stuck => cases head

theorem taken (h : Phase p cache dfs q pc last) (head : q.head? = some ⟨.rm, p⟩)
    (there : dfs ≠ none) : Phase p cache none q (.rmDel () p) last := by
  cases h with
  | removing flag => exact .removed flag
  | kept => cases head
  | gone | made | doomed | removed | stuck => exact absurd rfl there

theorem deleted (h : Phase p cache dfs q (.rmDel () p) last) (head : q.head? = some ⟨.rm, p⟩) :
    Phase p none dfs q.tail .recv last := by
  cases h with
  | removed flag =>
      rw [List.tail_replicate]
      exact .gone (.inl rfl) nofun
  | gone waits => rcases waits with h | h <;> cases h
  | made | doomed => cases head
  | kept _ before | removing _ before | stuck before => exact absurd rfl before

theorem add (h : Phase p none dfs q pc last) {e : Entry} (live : Live e) :
    Phase p (some e) dfs (q ++ [⟨.create, p⟩]) pc (some (.make .create)) := by
  cases h with
  | @gone k _ _ waits other =>
      cases k with
      | zero => exact .made live
      | succ k =>
          rw [List.replicate_succ, List.cons_append]
          exact .stuck (by rcases waits with rfl | rfl <;> exact nofun)

theorem set (h : Phase p cache dfs q pc last) {e : Entry} (live : Live e)
    (dead : ∀ e, cache = some e → Flagged e) (noRm : ∀ m ∈ q, m.opt ≠ .rm) :
    Phase p (some e) dfs (q ++ [⟨.create, p⟩]) pc (some (.make .create)) := by
  cases h with
  | @gone k _ _ waits other =>
      cases k with
      | zero => exact .made live
      | succ k => exact absurd rfl (noRm ⟨.rm, p⟩ (by simp))
  | made live' | kept live' => exact absurd (dead _ rfl) (by simp [Flagged, live'.1])
  | doomed | removing | removed => exact absurd rfl (noRm ⟨.rm, p⟩ (by simp))
  | stuck => exact absurd rfl (noRm ⟨.rm, p⟩ (by simp))

theorem flag (h : Phase p cache dfs q pc last) (there : cache ≠ none) {e : Entry} (flag : Flagged e) :
    Phase p (some e) dfs (q ++ [⟨.rm, p⟩]) pc (some .rm) := by
  cases h with
  | gone => exact absurd rfl there
  | made live => exact .doomed (k := 0) flag
  | kept live before => exact .removing (k := 0) flag before
  | doomed _ =>
      rw [List.cons_append, ← List.replicate_succ']
      exact .doomed flag
  | removing _ before =>
      rw [← List.replicate_succ']
      exact .removing flag before
  | removed _ =>
      rw [← List.replicate_succ']
      exact .removed flag
  | stuck before => exact .stuck before

theorem late (h : Phase p none dfs q pc last) : Phase p none dfs (q ++ [⟨.rm, p⟩]) pc (some .rm) := by
  cases h with
  | gone waits other =>
      rw [← List.replicate_succ']
      exact .gone waits nofun

theorem head_rm (h : Phase p none dfs q pc last) {m : Msg} (head : q.head? = some m) : m = ⟨.rm, p⟩ := by
  cases h with
  | @gone k =>
      cases k with
      | zero => cases head
      | succ k => exact (Option.some.inj head).symm

theorem idle (h : Phase p none dfs q pc last) : pc = .recv ∨ pc = .rmGet () p := by
  cases h with
  | gone waits => exact waits

theorem noDfs (h : Phase p none dfs q pc last) : dfs = none := by
  cases h with
  | gone => rfl

theorem drained (h : Phase p cache dfs [] pc last) :
    (dfs ≠ none ↔ last = some (.make .create)) ∧
      (last = some (.make .create) → ∃ e, cache = some e ∧ Live e) := by
  generalize empty : ([] : List Msg) = q at h
  cases h with
  | gone waits other => exact ⟨⟨absurd rfl, fun h => absurd h other⟩, fun h => absurd h other⟩
  | kept live => exact ⟨⟨fun _ => rfl, nofun⟩, fun _ => ⟨_, rfl, live⟩⟩
  | made | doomed | removing | removed | stuck => cases empty

end Phase

variable (cfg : Config ι Unit) (p : Path)

def ClientOn (cache : Option Entry) : ClientPc → Prop
  | .idle | .returning _ _ | .send _ | .beyond | .rmGet _ | .add _ _ => True
  | .parentGet _ _ => p.tail ≠ cfg.root
  | .loadStat l => l = .parent .create p ∧ p.tail ≠ cfg.root ∨ l = .rm p ∧ cache = none
  | .addGet _ _ v => ∃ env, v = newValue env .create
  | .addSet _ _ v => (∃ env, v = newValue env .create) ∧ ∀ e, cache = some e → Flagged e
  | .rmCas _ v cas => ∀ e, cache = some e → e.cas = cas ∧ v = flagged e.value .rm
  | .parentReget .. | .opendir .. | .readdir .. | .childCas .. | .childReget .. | .parentAdd ..
  | .loadAdd .. | .rmReget _ | .writeGet .. | .writeCas .. => False

structure Recreated (s : State ι Unit) : Prop where
  phase : Phase p (s.cache p) (s.dfs p) (queue s) (s.server (cfg.home ())) (lastSuccess (outcomes s))
  cache : ∀ q, Below cfg q → q ≠ p → s.cache q = none
  dfs : ∀ q, Below cfg q → q ≠ p → s.dfs q = none
  table : ∀ q, s.table () q = true ↔ q = cfg.root
  client : ClientOn cfg p (s.cache p) (s.client ())

/-- Creates and removals of one path; none sets its entry while an RM of it is pending. -/
def Uncrossed (s : State ι Unit) : Event Unit ι → Prop
  | .start _ call => OnPath p call
  | .client _ _ => ∀ m q v, s.client () = .addSet m q v → ∀ msg ∈ queue s, msg.opt ≠ .rm
  | .take _ | .server _ _ => True

variable {cfg p} {s t : State ι Unit}

theorem Uncrossed.calls {e : Event Unit ι} (h : Uncrossed p s e) : Calls (OnPath p) s e := by
  cases e with
  | start => exact h
  | client | take | server => trivial

theorem OnPath.make {m : Make} {q : Path} (h : OnPath p ⟨.make m, q⟩) : m = .create ∧ q = p := by
  obtain ⟨is | is, path⟩ := h
  · cases is
    exact ⟨rfl, path⟩
  · cases is

theorem live_newValue (env : Env) (cas : Nat) : Live ⟨cas, newValue env .create⟩ :=
  ⟨(newValue_flags env .create).1, newValue_type env .create⟩

theorem flagged_flagged (v : Value) (cas : Nat) : Flagged ⟨cas, flagged v .rm⟩ := by
  simp [Flagged, Commit.flagged]

theorem outcomes_quiet {u : State ι Unit} {next : ClientPc} (returned : u.returned = s.returned)
    (before : (s.client ()).outcome = none) (after : ∀ x, next.outcome = some x → x.2 = -1) :
    lastSuccess (outcomes (setPc u () next)) = lastSuccess (outcomes s) := by
  simp only [outcomes, update_self, setPc, returned, before, Option.toList_none, List.append_nil]
  cases result : next.outcome with
  | none => simp
  | some x =>
      obtain ⟨call, r⟩ := x
      cases after _ result
      exact lastSuccess_fail _ call

theorem outcomes_decide {u : State ι Unit} {call : Call} (zero : call.result = 0) :
    lastSuccess (outcomes (setPc u () (.send call))) = some call.op := by
  simp only [outcomes, update_self, setPc, ClientPc.outcome, zero]
  exact lastSuccess_ok _ call

theorem queue_congr (same : issued t = issued s) (done : t.done = s.done) : queue t = queue s := by
  rw [queue, queue, same, done]

theorem queue_decide (q : Queued cfg s) {u : State ι Unit} {call : Call} (client : u.client = s.client)
    (out : u.out = s.out) (done : u.done = s.done) (before : (s.client ()).unsent = none) :
    queue (setPc u () (.send call)) = queue s ++ [call.msg] := by
  have enough := q.done_le ()
  unfold queue
  rw [issued_congr client out, issued_decide before, update_self]
  exact (congrArg (List.drop · _) (congrFun done ())).trans (List.drop_append_of_le_length enough)

theorem queue_finish (same : issued t = issued s) (done : t.done = update s.done () (s.done () + 1)) :
    queue t = (queue s).tail := by
  rw [queue, queue, same, done, update_self, List.tail_drop]

theorem Recreated.initial (h : Initial cfg s) (below : Below cfg p) : Recreated cfg p s where
  phase := by
    have queue : queue s = [] := by simp [queue, issued, h.out (), h.client (), ClientPc.unsent]
    have outcomes : outcomes s = [] := by simp [outcomes, h.returned (), h.client (), ClientPc.outcome]
    rw [queue, outcomes, h.cache p below.2, h.empty p below, h.server]
    exact .gone (k := 0) (.inl rfl) (by simp [lastSuccess])
  cache q belowQ _ := h.cache q belowQ.2
  dfs q belowQ _ := h.empty q belowQ
  table := h.table ()
  client := by
    rw [h.client ()]
    trivial

theorem Recreated.goOn (r : Recreated cfg p s) {u : State ι Unit} {next : ClientPc}
    (cache : u.cache = s.cache) (dfs : u.dfs = s.dfs) (table : u.table = s.table)
    (server : u.server = s.server) (same : queue (setPc u () next) = queue s)
    (last : lastSuccess (outcomes (setPc u () next)) = lastSuccess (outcomes s))
    (knows : ClientOn cfg p (s.cache p) next) : Recreated cfg p (setPc u () next) where
  phase := by
    rw [last, same]
    exact cache ▸ dfs ▸ server ▸ r.phase
  cache := cache ▸ r.cache
  dfs := dfs ▸ r.dfs
  table := table ▸ r.table
  client := by
    rw [setPc_client, update_self]
    exact cache ▸ knows

theorem Recreated.decide (r : Recreated cfg p s) (q : Queued cfg s) {u : State ι Unit} {call : Call}
    (cache : ∀ q, q ≠ p → u.cache q = s.cache q) (dfs : u.dfs = s.dfs) (table : u.table = s.table)
    (client : u.client = s.client) (out : u.out = s.out) (done : u.done = s.done)
    (server : u.server = s.server) (before : (s.client ()).unsent = none) (zero : call.result = 0)
    (phase : Phase p (u.cache p) (s.dfs p) (queue s ++ [call.msg]) (s.server (cfg.home ()))
      (some call.op)) : Recreated cfg p (setPc u () (.send call)) where
  phase := by
    rw [outcomes_decide zero, queue_decide q client out done before]
    exact dfs ▸ server ▸ phase
  cache q below other := (cache q other).trans (r.cache q below other)
  dfs := dfs ▸ r.dfs
  table := table ▸ r.table
  client := by
    rw [setPc_client, update_self]
    trivial

theorem Recreated.serverStep (r : Recreated cfg p s) (client : t.client = s.client)
    (returned : t.returned = s.returned) (table : t.table = s.table)
    (cache : ∀ q, q ≠ p → t.cache q = s.cache q) (dfs : ∀ q, q ≠ p → t.dfs q = s.dfs q)
    (gone : t.cache p = s.cache p ∨ t.cache p = none)
    (phase : Phase p (t.cache p) (t.dfs p) (queue t) (t.server (cfg.home ())) (lastSuccess (outcomes s))) :
    Recreated cfg p t where
  phase := by
    have same : outcomes t = outcomes s := by simp only [outcomes, returned, client]
    rwa [same]
  cache q below other := (cache q other).trans (r.cache q below other)
  dfs q below other := (dfs q other).trans (r.dfs q below other)
  table := table ▸ r.table
  client := by
    have knows := r.client
    rw [client]
    rcases gone with same | gone
    · rwa [same]
    · rw [gone]
      cases pc : s.client () with
      | loadStat l =>
          rw [pc] at knows
          exact knows.imp_right fun h => ⟨h.1, rfl⟩
      | addSet m q v =>
          rw [pc] at knows
          exact ⟨knows.1, fun e h => by cases h⟩
      | rmCas q v cas => exact fun e h => by cases h
      | _ =>
          rw [pc] at knows
          exact knows

theorem Recreated.serverGoOn (r : Recreated cfg p s) {next : ServerPc Unit}
    (now : s.server (cfg.home ()) ≠ .rmDel () p) (before : next ≠ .rmDel () p)
    (void : s.cache p = none → next = .recv ∨ next = .rmGet () p) :
    Recreated cfg p { s with server := update s.server (cfg.home ()) next } := by
  refine r.serverStep rfl rfl rfl (fun _ _ => rfl) (fun _ _ => rfl) (.inl rfl) ?_
  show Phase p (s.cache p) (s.dfs p) (queue s) (update s.server _ next (cfg.home ())) _
  rw [update_self]
  exact r.phase.goOn now before void

theorem Recreated.finish (r : Recreated cfg p s) (client : t.client = s.client)
    (returned : t.returned = s.returned) (table : t.table = s.table) (out : t.out = s.out)
    (cache : ∀ q, q ≠ p → t.cache q = s.cache q) (dfs : ∀ q, q ≠ p → t.dfs q = s.dfs q)
    (gone : t.cache p = s.cache p ∨ t.cache p = none)
    (server : t.server = update s.server (cfg.home ()) .recv)
    (done : t.done = update s.done () (s.done () + 1))
    (phase : Phase p (t.cache p) (t.dfs p) (queue s).tail .recv (lastSuccess (outcomes s))) :
    Recreated cfg p t := by
  have same : issued t = issued s := by
    funext c
    simp only [issued, client, out]
  refine r.serverStep client returned table cache dfs gone ?_
  rw [queue_finish same done, server, update_self]
  exact phase

theorem Recreated.parent (r : Recreated cfg p s) (below : Below cfg p) (other : p.tail ≠ cfg.root) :
    cfg.root <:+ p.tail ∧ s.cache p.tail = none ∧ s.dfs p.tail = none := by
  have inside : cfg.root <:+ p.tail ∧ p.tail ≠ p := by
    obtain ⟨suffix, differs⟩ := below
    cases p with
    | nil => exact absurd (List.suffix_nil.mp suffix).symm differs
    | cons name q =>
        exact ⟨(List.suffix_cons_iff.mp suffix).resolve_left (Ne.symm differs),
          fun same => List.cons_ne_self _ _ same.symm⟩
  exact ⟨inside.1, r.cache _ ⟨inside.1, other⟩ inside.2, r.dfs _ ⟨inside.1, other⟩ inside.2⟩

theorem Recreated.local (r : Recreated cfg p s) (below : Below cfg p) {env : Env} {pc next : ClientPc}
    (knows : ClientOn cfg p (s.cache p) pc) (runs : ∀ call, pc.running = some call → OnPath p call)
    (goes : Local cfg s env pc next) : ClientOn cfg p (s.cache p) next := by
  cases goes with
  | @parentMiss m q absent =>
      obtain ⟨rfl, rfl⟩ := (runs _ rfl).make
      unfold load
      split
      · exact .inl ⟨rfl, knows⟩
      · trivial
  | parentHit entry =>
      obtain ⟨rfl, rfl⟩ := (runs _ rfl).make
      rw [(r.parent below knows).2.1] at entry
      cases entry
  | stat there =>
      rcases knows with ⟨rfl, other⟩ | ⟨rfl, absent⟩
      · rw [Load.target, (r.parent below other).2.2] at there
        cases there
      · have phase := r.phase
        rw [absent] at phase
        rw [Load.target, phase.noDfs] at there
        cases there
  | addExists =>
      obtain ⟨rfl, rfl⟩ := (runs _ rfl).make
      exact ⟨env, rfl⟩
  | addRemoved entry rm =>
      obtain ⟨rfl, rfl⟩ := (runs _ rfl).make
      refine ⟨knows, fun e there => ?_⟩
      cases Option.some.inj (entry.symm.trans there)
      exact rm
  | rmMiss absent =>
      obtain ⟨-, rfl⟩ := runs _ rfl
      unfold load
      split
      · exact .inr ⟨rfl, absent⟩
      · trivial
  | rmHit entry =>
      obtain ⟨-, rfl⟩ := runs _ rfl
      intro e there
      cases Option.some.inj (entry.symm.trans there)
      exact ⟨rfl, rfl⟩
  | rmExists entry stale =>
      obtain ⟨-, rfl⟩ := runs _ rfl
      exact absurd (knows _ entry).1 stale
  | statFail | addLost | addFails => trivial
  | parentLost | parentLoaded | opendir | opendirFail | readdir | readdirEnd | childExists | childLost
  | childReget | childRegetLost | loadExists | rmLost | rmLoaded | writeMiss | writeHit | writeExists
  | writeLost => exact knows.elim

theorem Recreated.beginCall_on (r : Recreated cfg p s) {call : Call} (h : OnPath p call) :
    ClientOn cfg p (s.cache p) (beginCall (s.table ()) call) := by
  obtain ⟨op, q⟩ := call
  obtain ⟨is | is, rfl⟩ := h <;> cases is
  · simp only [beginCall]
    split
    · trivial
    · rename_i unchecked
      exact fun root => unchecked (.inr ((r.table _).mpr root))
  · trivial

theorem Recreated.move {e : Event Unit ι} (r : Recreated cfg p s) (w : Within cfg (OnPath p) s)
    (below : Below cfg p) (guard : Uncrossed p s e) (move : Move cfg s e t) : Recreated cfg p t := by
  have at_client : ∀ {pc}, s.client () = pc → ClientOn cfg p (s.cache p) pc ∧
      ∀ call, pc.running = some call → OnPath p call :=
    fun at_pc => at_pc ▸ ⟨r.client, fun _ => w.running⟩
  have in_hand : ∀ {i c m}, (s.server i).serving = some (c, m) → i = cfg.home () ∧
      (m = ⟨.create, p⟩ ∨ m = ⟨.rm, p⟩) ∧ (queue s).head? = some m := by
    intro i c m serves
    obtain ⟨⟨op, q⟩, ⟨is, path⟩, rfl⟩ := w.served serves
    cases path
    refine ⟨(w.queued.serving serves).1.symm, is.imp (fun is => by cases is; rfl) (fun is => by cases is; rfl), ?_⟩
    rw [queue, List.head?_drop]
    exact (w.head serves).message
  have no_write : ∀ {i c q}, (s.server i).serving = some (c, ⟨.write, q⟩) → False := by
    intro i c q serves
    rcases (in_hand serves).2.1 with h | h <;> cases h
  have rm_path : ∀ {i c q}, (s.server i).serving = some (c, ⟨.rm, q⟩) →
      i = cfg.home () ∧ q = p ∧ (queue s).head? = some ⟨.rm, p⟩ := by
    intro i c q serves
    obtain ⟨home, is, head⟩ := in_hand serves
    rcases is with h | h <;> cases h
    exact ⟨home, rfl, head⟩
  have other : ∀ {q v}, q ≠ p → (store s p v).cache q = s.cache q := fun differs => update_of_ne differs ..
  cases move with
  | @start c call free =>
      exact r.goOn rfl rfl rfl rfl (queue_congr (issued_goOn (by rw [free]; rfl) (beginCall_unsent _ _)) rfl)
        (outcomes_quiet rfl (by rw [free]; rfl) fun x => beginCall_outcome) (r.beginCall_on guard)
  | goOn at_pc goes =>
      obtain ⟨knows, runs⟩ := at_client at_pc
      exact r.goOn rfl rfl rfl rfl
        (queue_congr (issued_goOn (at_pc ▸ goes.unsent.1) goes.unsent.2) rfl)
        (outcomes_quiet rfl (at_pc ▸ goes.outcome.1) goes.outcome.2) (r.local below knows runs goes)
  | parentAdd at_pc => exact (at_client at_pc).1.elim
  | loadAdd at_pc => exact (at_client at_pc).1.elim
  | childCas at_pc => exact (at_client at_pc).1.elim
  | writeCas at_pc => exact (at_client at_pc).1.elim
  | @add c env m q at_pc key absent =>
      obtain ⟨rfl, rfl⟩ := ((at_client at_pc).2 _ rfl).make
      have phase := r.phase
      rw [absent] at phase
      refine r.decide w.queued (fun q => other) rfl rfl rfl rfl rfl rfl (by rw [at_pc]; rfl) rfl ?_
      rw [store_cache, update_self]
      exact phase.add (live_newValue env _)
  | addAgain at_pc =>
      obtain ⟨is, -⟩ := ((at_client at_pc).2 _ rfl).make
      cases is
  | @addSet c env m q v at_pc =>
      obtain ⟨⟨⟨env', rfl⟩, dead⟩, runs⟩ := at_client at_pc
      obtain ⟨rfl, rfl⟩ := (runs _ rfl).make
      refine r.decide w.queued (fun q => other) rfl rfl rfl rfl rfl rfl (by rw [at_pc]; rfl) rfl ?_
      rw [store_cache, update_self]
      exact r.phase.set (live_newValue env' _) dead (guard _ _ _ at_pc)
  | @rmCas c env q v cas e at_pc entry same =>
      obtain ⟨knows, runs⟩ := at_client at_pc
      obtain ⟨-, rfl⟩ := runs _ rfl
      obtain ⟨-, rfl⟩ := knows e entry
      refine r.decide w.queued (fun q => other) rfl rfl rfl rfl rfl rfl (by rw [at_pc]; rfl) rfl ?_
      rw [store_cache, update_self]
      exact r.phase.flag (by rw [entry]; simp) (flagged_flagged e.value _)
  | @rmLate c env q v cas at_pc absent =>
      obtain ⟨-, rfl⟩ := (at_client at_pc).2 _ rfl
      have phase := r.phase
      rw [absent] at phase
      refine r.decide w.queued (fun q _ => rfl) rfl rfl rfl rfl rfl rfl (by rw [at_pc]; rfl) rfl ?_
      rw [absent]
      exact phase.late
  | @send c env call at_pc =>
      refine r.goOn rfl rfl rfl rfl (queue_congr (issued_send at_pc) rfl) ?_ trivial
      simp [outcomes, setPc, at_pc, ClientPc.outcome]
  | @ret c env call result at_pc =>
      refine r.goOn rfl rfl rfl rfl
        (queue_congr ((issued_congr (s := s) rfl rfl _ _).trans (issued_goOn (by rw [at_pc]; rfl) rfl)) rfl)
        ?_ trivial
      simp [outcomes, setPc, at_pc, ClientPc.outcome]
  | @take c m pc head =>
      have head' : (queue s).head? = some m := by
        obtain ⟨less, rfl⟩ := List.getElem?_eq_some_iff.mp head
        rw [queue, List.head?_drop]
        simp [issued, List.getElem?_append_left less, less]
      refine r.serverGoOn (by rw [pc]; intro h; cases h) ?_ fun absent => ?_
      · obtain ⟨opt, q⟩ := m
        cases opt <;> intro h <;> cases h
      · have phase := r.phase
        rw [absent] at phase
        cases phase.head_rm head'
        exact .inr rfl
  | @rmVoid i env c q pc absent =>
      obtain ⟨rfl, rfl, head⟩ := rm_path (congrArg ServerPc.serving pc)
      refine r.finish rfl rfl rfl rfl (fun _ _ => rfl) (fun _ _ => rfl) (.inl rfl) rfl rfl ?_
      have phase := r.phase
      rw [absent] at phase
      exact absent ▸ phase.void
  | @rmFound i env c q e pc entry =>
      obtain ⟨rfl, rfl, head⟩ := rm_path (congrArg ServerPc.serving pc)
      refine r.serverGoOn (by rw [pc]; intro h; cases h) (fun h => by cases h) fun absent => ?_
      rw [absent] at entry
      cases entry
  | @succeed i env c m dfs pc call =>
      obtain ⟨rfl, is, head⟩ := in_hand (serving_of_attempt pc)
      rcases is with rfl | rfl
      · have file : dfs = update s.dfs p (some (.file [])) := by
          cases dfsCall_effect call with
          | create | truncate => rfl
          | mkdir opt | remove opt => cases opt
        refine r.finish rfl rfl rfl rfl (fun _ _ => rfl) (fun q other => ?_) (.inl rfl) rfl rfl ?_
        · exact (congrFun file q).trans (update_of_ne other ..)
        · show Phase p (s.cache p) (dfs p) _ _ _
          rw [file, update_self]
          exact r.phase.created head
      · obtain ⟨there, gone⟩ : s.dfs p ≠ none ∧ dfs = update s.dfs p none := by
          cases dfsCall_effect call with
          | remove opt there => exact ⟨by rw [there]; simp, rfl⟩
          | create opt | truncate opt | mkdir opt => cases opt
        refine r.serverStep rfl rfl rfl (fun _ _ => rfl) (fun q other => ?_) (.inl rfl) ?_
        · exact (congrFun gone q).trans (update_of_ne other ..)
        · show Phase p (s.cache p) (dfs p) (queue s) (update s.server _ (.rmDel c p) _) _
          rw [gone, update_self, update_self]
          exact r.phase.taken head there
  | @fail i env c m pc call =>
      obtain ⟨rfl, -, head⟩ := in_hand (serving_of_attempt pc)
      refine r.serverGoOn (by rcases pc with pc | pc <;> (rw [pc]; intro h; cases h)) (fun h => by cases h)
        fun absent => ?_
      have phase := r.phase
      rw [absent] at phase
      rcases pc with pc | pc <;> rcases phase.idle with h | h <;> cases pc.symm.trans h
  | @rmDel i env c q pc =>
      obtain ⟨rfl, rfl, head⟩ := rm_path (congrArg ServerPc.serving pc)
      refine r.finish rfl rfl rfl rfl (fun _ other => update_of_ne other ..) (fun _ _ => rfl)
        (.inr (update_self ..)) rfl rfl ?_
      have phase := r.phase
      rw [pc] at phase
      show Phase q (update s.cache q none q) (s.dfs q) _ _ _
      rw [update_self]
      exact phase.deleted head
  | dropWrite pc | openWrite pc | writeVoid pc | writeRead pc | writeBack pc =>
      exact (no_write (congrArg ServerPc.serving pc)).elim

theorem recreated_of_reachable (below : Below cfg p) (h : (system cfg).Reachable (Uncrossed p) s) :
    Recreated cfg p s ∧ Within cfg (OnPath p) s := by
  have w : ∀ {s}, (system cfg).Reachable (Uncrossed p) s → Within cfg (OnPath p) s :=
    within_of_reachable fun _ _ => Uncrossed.calls
  refine ⟨h.invariant (fun _ initial => .initial initial below) ?_, w h⟩
  exact fun _ _ _ reach r guard step => r.move (w reach) below guard (move_of_step step)

/-- One client creates and removes one path in an empty workspace and never sets its entry while an
RM of it is pending. Whenever the calls have returned and the queue is drained, the path is on the
DFS exactly if the last call that returned 0 was a create, whose entry is then still there. -/
theorem recreate_follows_calls (below : Below cfg p) (h : (system cfg).Reachable (Uncrossed p) s)
    (idle : s.client () = .idle) (drained : Drained s) :
    (s.dfs p ≠ none ↔ lastSuccess (s.returned ()) = some (.make .create)) ∧
    (lastSuccess (s.returned ()) = some (.make .create) → ∃ e, s.cache p = some e ∧ Live e) := by
  obtain ⟨r, -⟩ := recreated_of_reachable below h
  have empty : queue s = [] := by
    rw [queue, ← drained (), List.drop_length]
  have results : outcomes s = s.returned () := by simp [outcomes, idle, ClientPc.outcome]
  have phase := r.phase
  rw [empty, results] at phase
  exact phase.drained

def exampleFile : Path := [['f'], ['w']]

def callRun (op : Op) (steps : Nat) : List (Event Unit Unit) :=
  .start () ⟨op, exampleFile⟩ :: List.replicate steps (.client () .zero)

def commitRun (steps : Nat) : List (Event Unit Unit) :=
  .take () :: List.replicate steps (.server () .zero)

def fileWorkspace : Config Unit Unit := .oneNode Unit [['w']]

def lostEntry : List (Event Unit Unit) :=
  List.flatten [callRun (.make .create) 3, callRun .rm 4, callRun (.make .create) 5,
    commitRun 1, commitRun 3, commitRun 1]

def leftFile : List (Event Unit Unit) :=
  List.flatten [callRun (.make .create) 3, commitRun 1, callRun .rm 4, callRun (.make .create) 5,
    callRun .rm 4, commitRun 3, commitRun 1, commitRun 1]

theorem recreate_fails :
    (∃ s, (system fileWorkspace).Reachable (Calls (OnPath exampleFile)) s ∧ s.client () = .idle ∧
      Drained s ∧ lastSuccess (s.returned ()) = some (.make .create) ∧ s.cache exampleFile = none) ∧
    ∃ s, (system fileWorkspace).Reachable (Calls (OnPath exampleFile)) s ∧ s.client () = .idle ∧
      Drained s ∧ lastSuccess (s.returned ()) = some .rm ∧ s.dfs exampleFile ≠ none := by
  constructor
  · obtain ⟨s, reach, h⟩ := System.exists_reachable (system fileWorkspace) (Calls (OnPath exampleFile))
      (s := initialState fileWorkspace .zero) (initial_initialState _ _ (List.cons_ne_nil _ _)) lostEntry
      (fun s => decide (s.client () = .idle ∧ Drained s ∧
        lastSuccess (s.returned ()) = some (.make .create) ∧ s.cache exampleFile = none)) rfl
    exact ⟨s, reach, of_decide_eq_true h⟩
  · obtain ⟨s, reach, h⟩ := System.exists_reachable (system fileWorkspace) (Calls (OnPath exampleFile))
      (s := initialState fileWorkspace .zero) (initial_initialState _ _ (List.cons_ne_nil _ _)) leftFile
      (fun s => decide (s.client () = .idle ∧ Drained s ∧
        lastSuccess (s.returned ()) = some .rm ∧ s.dfs exampleFile ≠ none)) rfl
    exact ⟨s, reach, of_decide_eq_true h⟩

def ClientPc.overwriting : ClientPc → Bool
  | .addSet _ _ _ => true
  | _ => false

def NeverSets (p : Path) (s : State ι Unit) (e : Event Unit ι) : Prop :=
  Calls (OnPath p) s e ∧ (s.client ()).overwriting = false

instance (p : Path) (s : State ι Unit) (e : Event Unit ι) : Decidable (NeverSets p s e) :=
  inferInstanceAs (Decidable (_ ∧ _))

theorem uncrossed_of_neverSets {e : Event Unit ι} (h : NeverSets p s e) : Uncrossed p s e := by
  obtain ⟨calls, never⟩ := h
  cases e with
  | start => exact calls
  | client c env =>
      intro m q v at_pc
      rw [at_pc] at never
      cases never
  | take | server => trivial

def recreateRun : List (Event Unit Unit) :=
  List.flatten [callRun (.make .create) 3, commitRun 1, callRun .rm 4, commitRun 3,
    callRun (.make .create) 3, commitRun 1]

theorem recreate_follows_calls_run : ∃ s, (system fileWorkspace).Reachable (Uncrossed exampleFile) s ∧
    Drained s ∧ s.dfs exampleFile ≠ none ∧ ∃ e, s.cache exampleFile = some e ∧ Live e := by
  obtain ⟨s, reach, h⟩ := System.exists_reachable (system fileWorkspace) (NeverSets exampleFile)
    (s := initialState fileWorkspace .zero) (initial_initialState _ _ (List.cons_ne_nil _ _)) recreateRun
    (fun s => decide (s.client () = .idle ∧ Drained s ∧
      lastSuccess (s.returned ()) = some (.make .create))) rfl
  obtain ⟨idle, drained, last⟩ := of_decide_eq_true h
  have uncrossed := reach.mono fun _ _ _ => uncrossed_of_neverSets
  obtain ⟨onDfs, live⟩ := recreate_follows_calls (p := exampleFile) (by decide) uncrossed idle drained
  exact ⟨s, uncrossed, drained, onDfs.mpr last, live last⟩

end Pacon.Commit
