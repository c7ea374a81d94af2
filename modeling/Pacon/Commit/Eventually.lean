import Pacon.Commit.Arrival

/-!
# Whatever is cached comes to the DFS

In fair runs in which the servers take the messages in the order of the entries, every entry that
`pacon_mkdir` or `pacon_create` has made comes to be on the DFS, however many calls go on meanwhile.
-/

set_option linter.unusedSectionVars false

namespace Pacon.Commit
open Function Lib

inductive Actor (κ ι : Type)
  | client (c : κ)
  | take (c : κ)
  | server (i : ι)

def Does {κ ι : Type} : Actor κ ι → Event κ ι → Prop
  | .client c, e => ∃ env, e = .client c env
  | .take c, e => e = .take c
  | .server i, e => ∃ env, e = .server i env

@[simp] theorem does_start {κ ι : Type} {a : Actor κ ι} {c : κ} {call : Call} : ¬Does a (.start c call) := by
  cases a <;> simp [Does]

@[simp] theorem does_client {κ ι : Type} {a : Actor κ ι} {c : κ} {env : Env} :
    Does a (.client c env) ↔ a = .client c := by
  cases a <;> simp [Does, eq_comm]

@[simp] theorem does_take {κ ι : Type} {a : Actor κ ι} {c : κ} : Does a (.take c) ↔ a = .take c := by
  cases a <;> simp [Does, eq_comm]

@[simp] theorem does_server {κ ι : Type} {a : Actor κ ι} {i : ι} {env : Env} :
    Does a (.server i env) ↔ a = .server i := by
  cases a <;> simp [Does, eq_comm]

variable {ι κ : Type} [DecidableEq ι] [DecidableEq κ] (cfg : Config ι κ)

structure Front (c : κ) (n : Nat) (first : Nat) (s : State ι κ) : Prop where
  message : ∃ m, (issued s c)[n]? = some m ∧ stamp s m.path = first
  least : ∀ d k m, Pending s d k m → first ≤ stamp s m.path ∧ (stamp s m.path = first → d = c ∧ k = n)

def stage (c : κ) (n : Nat) (s : State ι κ) : Nat :=
  if (s.out c).length ≤ n then 3
  else match s.server (cfg.home c) with
    | .recv => 2
    | .attempt _ _ => 1
    | _ => 0

def helper (c : κ) (n : Nat) (s : State ι κ) : Actor κ ι :=
  match stage cfg c n s with
  | 3 => .client c
  | 2 => .take c
  | _ => .server (cfg.home c)

inductive Standing (c : κ) (n : Nat) (s : State ι κ) : Nat → Actor κ ι → Prop
  | unsent {call} (client : s.client c = .send call) (length : (s.out c).length = n)
      (idle : s.server (cfg.home c) = .recv) : Standing c n s 3 (.client c)
  | sent {m} (head : (s.out c)[n]? = some m) (idle : s.server (cfg.home c) = .recv) : Standing c n s 2 (.take c)
  | attempt {m} (head : (s.out c)[n]? = some m) (pc : s.server (cfg.home c) = .attempt c m) :
      Standing c n s 1 (.server (cfg.home c))
  | retry {m} (head : (s.out c)[n]? = some m) (pc : s.server (cfg.home c) = .retry c m) :
      Standing c n s 0 (.server (cfg.home c))

variable {cfg} {s t : State ι κ} {c : κ} {n first : Nat}

theorem Front.move {e : Event κ ι} (front : Front c n first s) (g : Grown cfg s) (w : Within cfg Makes s)
    (move : MakeMove cfg s e t) : Front c n first t := by
  have old {d : κ} {m : Msg} (member : m ∈ issued s d) : stamp t m.path = stamp s m.path :=
    stamp_congr (move.entry (g.issued_there w member))
  obtain ⟨⟨m, message, at'⟩, least⟩ := front
  have member := List.mem_of_getElem? message
  have kept {d k m'} (pending : Pending s d k m') :
      first ≤ stamp t m'.path ∧ (stamp t m'.path = first → d = c ∧ k = n) := by
    rw [old (List.mem_of_getElem? pending.message)]
    exact least d k m' pending
  rcases move.issues with same | ⟨d, new, more, done, -, absent, latest⟩
  · refine ⟨⟨m, by rw [same]; exact message, (old member).trans at'⟩, fun d k m' pending => kept ?_⟩
    exact pending.mono same move.done_le
  · constructor
    · refine ⟨m, ?_, (old member).trans at'⟩
      rw [more]
      by_cases here : c = d
      · subst here
        rw [update_self, List.getElem?_append_left (List.getElem?_eq_some_iff.mp message).1]
        exact message
      · rwa [update_of_ne here]
    · intro d' k m' pending
      rcases (Pending.issue w.queued more done).mp pending with before | ⟨-, -, rfl⟩
      · exact kept before
      · have less := g.stamp_lt (g.issued_there w member)
        omega

theorem Front.pending (front : Front c n first s) (left : ¬n < s.done c) :
    ∃ m, Pending s c n m ∧ stamp s m.path = first := by
  obtain ⟨m, message, at'⟩ := front.message
  exact ⟨m, ⟨message, Nat.le_of_not_lt left⟩, at'⟩

theorem Front.done_eq (front : Front c n first s) (arr : Arriving cfg s) (left : ¬n < s.done c) : s.done c = n := by
  obtain ⟨m, pending, at'⟩ := front.pending left
  by_contra other
  have before : s.done c < n := lt_of_le_of_ne pending.waits other
  obtain ⟨bound, rfl⟩ := List.getElem?_eq_some_iff.mp pending.message
  have less := List.pairwise_iff_getElem.mp (arr.stamped.increasing c) _ _ (before.trans bound) bound before
  have least := (front.least c (s.done c) _ ⟨List.getElem?_eq_getElem (before.trans bound), le_rfl⟩).1
  omega

theorem Front.serving (front : Front c n first s) (arr : Arriving cfg s) (left : ¬n < s.done c) {c' : κ} {m' : Msg}
    (serves : (s.server (cfg.home c)).serving = some (c', m')) : c' = c ∧ (s.out c)[n]? = some m' := by
  obtain ⟨m, pending, at'⟩ := front.pending left
  have early := arr.foremost _ _ _ serves c n m rfl pending
  obtain ⟨least, only⟩ := front.least _ _ _ (arr.within.head serves)
  obtain ⟨rfl, same⟩ := only (by omega)
  exact ⟨rfl, same ▸ (arr.within.queued.serving serves).2⟩

theorem Front.standing (front : Front c n first s) (arr : Arriving cfg s) (left : ¬n < s.done c) :
    Standing cfg c n s (stage cfg c n s) (helper cfg c n s) := by
  obtain ⟨m, pending, at'⟩ := front.pending left
  have bound := arr.within.queued.bound c
  rw [front.done_eq arr left] at bound
  unfold helper stage
  split
  · rename_i short
    have length : (s.out c).length = n := le_antisymm short bound
    have idle : s.server (cfg.home c) = .recv := by
      cases pc : s.server (cfg.home c) with
      | recv => rfl
      | _ =>
          obtain ⟨-, head⟩ := front.serving arr left (congrArg ServerPc.serving pc)
          rw [List.getElem?_eq_none short] at head
          cases head
    have message := pending.message
    rw [issued, List.getElem?_append_right short, length, Nat.sub_self] at message
    cases client : s.client c with
    | send call => exact .unsent client length idle
    | _ =>
        rw [client] at message
        cases message
  · rename_i long
    have sent : (s.out c)[n]? = some (s.out c)[n] := List.getElem?_eq_getElem (Nat.lt_of_not_le long)
    cases pc : s.server (cfg.home c) with
    | recv => exact .sent sent pc
    | attempt c' m' =>
        obtain ⟨rfl, head⟩ := front.serving arr left (congrArg ServerPc.serving pc)
        exact .attempt head pc
    | retry c' m' =>
        obtain ⟨rfl, head⟩ := front.serving arr left (congrArg ServerPc.serving pc)
        exact .retry head pc
    | _ => rcases Makes.opt (arr.within.served (congrArg ServerPc.serving pc)) with opt | opt <;> cases opt

theorem Front.calls (front : Front c n first s) (arr : Arriving cfg s) (left : ¬n < s.done c) {m : Msg}
    (message : (issued s c)[n]? = some m) (vacant : Bool) : dfsCall s.dfs vacant m ≠ none := by
  obtain ⟨m', pending, at'⟩ := front.pending left
  cases Option.some.inj (message.symm.trans pending.message)
  obtain ⟨below, offDfs, e, entry, -⟩ := arr.agrees.pending pending
  apply dfsCall_free vacant (Makes.opt (arr.within.issued (List.mem_of_getElem? message))) (below_ne_nil below) offDfs
  by_contra noDir
  obtain ⟨d, k, parent, waits, path⟩ := parent_pending arr.agrees arr.grown pending noDir
  have earlier := arr.stamped.child (by simp [entry]) below (path ▸ (arr.agrees.pending waits).1)
  have least := (front.least d k parent waits).1
  rw [path] at least
  omega

theorem clientStep_out {d : κ} {env : Env} (h : clientStep cfg s d env = some t) : t.server = s.server ∧
    (t.out = s.out ∨ ∃ call, s.client d = .send call ∧ t.out = update s.out d (s.out d ++ [call.msg])) := by
  have move := clientStep_move h
  cases move with
  | send at_pc => exact ⟨rfl, .inr ⟨_, at_pc, rfl⟩⟩
  | _ => exact ⟨rfl, .inl rfl⟩

theorem clientStep_send {d : κ} {env : Env} {call : Call} (at_pc : s.client d = .send call)
    (h : clientStep cfg s d env = some t) : t.out = update s.out d (s.out d ++ [call.msg]) := by
  simp only [clientStep, at_pc, Option.some.injEq] at h
  rw [← h]
  rfl

theorem serverStep_frame {i : ι} {env : Env} (h : serverStep s i env = some t) :
    t.out = s.out ∧ ∀ j, j ≠ i → t.server j = s.server j := by
  have move : Move (⟨fun _ => i, []⟩ : Config ι κ) s (.server i env) t := serverStep_move h
  cases move with
  | @succeed i env c m dfs pc call =>
      unfold succeed
      split <;> exact ⟨rfl, fun j other => update_of_ne other ..⟩
  | @writeBack i env c p n data pc =>
      unfold writeBack
      split <;> exact ⟨rfl, fun j other => update_of_ne other ..⟩
  | _ => exact ⟨rfl, fun j other => update_of_ne other ..⟩

theorem stage_congr (out : (t.out c).length ≤ n ↔ (s.out c).length ≤ n)
    (server : t.server (cfg.home c) = s.server (cfg.home c)) : stage cfg c n t = stage cfg c n s := by
  simp only [stage, out, server]

abbrev Advances (cfg : Config ι κ) (c : κ) (n : Nat) (s : State ι κ) (e : Event κ ι) (t : State ι κ) : Prop :=
  System.EndlessRun.Advances Does (fun t => n < t.done c) (stage cfg c n) (helper cfg c n) s e t

theorem Advances.rest {e : Event κ ι} (out : (t.out c).length ≤ n ↔ (s.out c).length ≤ n)
    (server : t.server (cfg.home c) = s.server (cfg.home c)) (other : ¬Does (helper cfg c n s) e) :
    Advances cfg c n s e t := by
  have same := stage_congr out server
  exact .inr (.inr ⟨same, by rw [helper, helper, same], other⟩)

theorem Front.advances_client (front : Front c n first s) (arr : Arriving cfg s) (left : ¬n < s.done c) {d : κ}
    {env : Env} (h : clientStep cfg s d env = some t) : Advances cfg c n s (.client d env) t := by
  obtain ⟨server, out⟩ := clientStep_out h
  by_cases here : d = c
  · subst here
    have sent {m : Msg} (head : (s.out d)[n]? = some m) (other : ¬Does (helper cfg d n s) (.client d env)) :
        Advances cfg d n s (.client d env) t := by
      have long := (List.getElem?_eq_some_iff.mp head).1
      have grows : (s.out d).length ≤ (t.out d).length := by
        rcases out with same | ⟨call, -, more⟩
        · rw [same]
        · rw [more, update_self, List.length_append]
          exact Nat.le_add_right _ _
      exact .rest (by omega) (by rw [server]) other
    have standing := front.standing arr left
    generalize at' : stage cfg d n s = k, who : helper cfg d n s = a at standing
    cases standing with
    | unsent client length idle =>
        have more := clientStep_send client h
        have longer : ¬(t.out d).length ≤ n := by
          rw [more, update_self, List.length_append, List.length_singleton, length]
          omega
        refine .inr (.inl ?_)
        rw [at', stage, if_neg longer, server, idle]
        exact Nat.lt_succ_self 2
    | sent head => exact sent head (by simp [who])
    | attempt head => exact sent head (by simp [who])
    | retry head => exact sent head (by simp [who])
  · have same : t.out c = s.out c := by
      rcases out with same | ⟨call, -, more⟩
      · rw [same]
      · rw [more, update_of_ne (Ne.symm here)]
    refine .rest (by rw [same]) (by rw [server]) ?_
    have standing := front.standing arr left
    generalize stage cfg c n s = k, helper cfg c n s = a at standing ⊢
    cases standing with
    | unsent => simpa using Ne.symm here
    | sent | attempt | retry => simp

theorem Front.advances_take (front : Front c n first s) (arr : Arriving cfg s) (left : ¬n < s.done c) {d : κ}
    (guard : Earliest cfg s d) (h : takeStep cfg s d = some t) : Advances cfg c n s (.take d) t := by
  cases takeStep_move h with
  | @take _ m pc head =>
      obtain ⟨m', pending, at'⟩ := front.pending left
      by_cases near : cfg.home d = cfg.home c
      · have own : d = c := by
          have early := guard m head c near.symm m' pending.mem_drop
          have message : (issued s d)[s.done d]? = some m := by
            rw [issued, List.getElem?_append_left (List.getElem?_eq_some_iff.mp head).1, head]
          obtain ⟨least, only⟩ := front.least d _ m ⟨message, le_rfl⟩
          exact (only (by omega)).1
        subst own
        rw [front.done_eq arr left] at head
        have standing := front.standing arr left
        generalize at' : stage cfg d n s = k, helper cfg d n s = a at standing
        cases standing with
        | unsent client length =>
            rw [List.getElem?_eq_none length.le] at head
            cases head
        | sent =>
            have long := (List.getElem?_eq_some_iff.mp head).1
            have makes := Makes.opt (arr.within.issued (List.mem_of_getElem? pending.message))
            have same : m' = m := by
              have message := pending.message
              rw [issued, List.getElem?_append_left long, head] at message
              exact (Option.some.inj message).symm
            have attempt : dispatch d m = .attempt d m := by
              rcases makes with opt | opt <;> simp [dispatch, ← same, opt]
            refine .inr (.inl ?_)
            rw [at', stage, if_neg (Nat.not_le.mpr long)]
            simp [attempt]
        | attempt _ busy => cases pc.symm.trans busy
        | retry _ busy => cases pc.symm.trans busy
      · refine .rest Iff.rfl (update_of_ne (Ne.symm near) ..) ?_
        have standing := front.standing arr left
        generalize stage cfg c n s = k, helper cfg c n s = a at standing ⊢
        cases standing with
        | sent =>
            rw [does_take]
            intro same
            cases same
            exact near rfl
        | unsent | attempt | retry => simp

theorem Front.advances_server (front : Front c n first s) (arr : Arriving cfg s) (left : ¬n < s.done c) {i : ι}
    {env : Env} (h : serverStep s i env = some t) : Advances cfg c n s (.server i env) t := by
  obtain ⟨out, others⟩ := serverStep_frame h
  have standing := front.standing arr left
  by_cases near : cfg.home c = i
  · subst near
    have commits {m : Msg} (head : (s.out c)[n]? = some m)
        (pc : s.server (cfg.home c) = .attempt c m ∨ s.server (cfg.home c) = .retry c m) : n < t.done c := by
      have message : (issued s c)[n]? = some m := by
        rw [issued, List.getElem?_append_left (List.getElem?_eq_some_iff.mp head).1, head]
      obtain ⟨dfs, call⟩ := Option.ne_none_iff_exists'.mp (front.calls arr left message env.vacant)
      have does : serverStep s (cfg.home c) env = some (succeed s (cfg.home c) c m dfs) := by
        rcases pc with pc | pc <;> simp [serverStep, pc, call]
      cases does.symm.trans h
      have done := front.done_eq arr left
      rcases Makes.opt (arr.within.issued (List.mem_of_getElem? message)) with opt | opt <;>
        simp [succeed, opt, finish, done]
    generalize stage cfg c n s = k, helper cfg c n s = a at standing
    cases standing with
    | unsent _ _ idle => simp [serverStep, idle] at h
    | sent _ idle => simp [serverStep, idle] at h
    | attempt head pc => exact .inl (commits head (.inl pc))
    | retry head pc => exact .inl (commits head (.inr pc))
  · refine .rest (by rw [out]) (others _ near) ?_
    generalize stage cfg c n s = k, helper cfg c n s = a at standing ⊢
    cases standing with
    | attempt | retry => simpa using near
    | unsent | sent => simp

theorem Front.advances (front : Front c n first s) (arr : Arriving cfg s) (left : ¬n < s.done c) {e : Event κ ι}
    (guard : InArrival cfg s e) (h : step cfg s e = some t) : Advances cfg c n s e t := by
  cases e with
  | start d call =>
      simp only [step, Option.ite_none_right_eq_some, Option.some.injEq] at h
      obtain ⟨free, rfl⟩ := h
      exact .rest Iff.rfl rfl does_start
  | client d env => exact front.advances_client arr left h
  | take d => exact front.advances_take arr left guard h
  | server i env => exact front.advances_server arr left h

theorem Front.ready (front : Front c n first s) (arr : Arriving cfg s) (left : ¬n < s.done c) :
    (system cfg).Ready (InArrival cfg) Does (helper cfg c n s) s := by
  have standing := front.standing arr left
  have done := front.done_eq arr left
  generalize stage cfg c n s = k, helper cfg c n s = a at standing
  cases standing with
  | @unsent call client => exact ⟨.client c .zero, _, ⟨_, rfl⟩, trivial, by simp [system, step, clientStep, client]; rfl⟩
  | @sent m head idle =>
      refine ⟨.take c, _, rfl, ?_, by simp [system, step, takeStep, idle, done, head]; rfl⟩
      intro m' head' d near m'' later
      obtain ⟨m₀, pending, at'⟩ := front.pending left
      rw [done] at head'
      have message := pending.message
      rw [issued, List.getElem?_append_left (List.getElem?_eq_some_iff.mp head').1, head'] at message
      cases message
      obtain ⟨d', k, waits⟩ := awaited_iff_mem_drop.mpr ⟨d, later⟩
      exact at'.le.trans (front.least _ _ _ waits).1
  | attempt head pc => exact ⟨.server (cfg.home c) .zero, _, ⟨_, rfl⟩, trivial, by simp [system, step, serverStep, pc]; rfl⟩
  | retry head pc => exact ⟨.server (cfg.home c) .zero, _, ⟨_, rfl⟩, trivial, by simp [system, step, serverStep, pc]; rfl⟩

section Runs
open System

variable {run : (system cfg).EndlessRun (InArrival cfg)}

theorem makeMove_of_guarded (reach : (system cfg).Reachable (InArrival cfg) s) {e : Event κ ι}
    (step : (system cfg).step s e = some t) : MakeMove cfg s e t :=
  have arr := arriving_of_reachable reach
  makeMove_of_move arr.grown arr.within (move_of_step step)

theorem front_later {k l : Nat} (later : k ≤ l) (front : Front c n first (run.state k)) :
    Front c n first (run.state l) := by
  apply run.invariant_from _ later front
  intro s e t reach front guard step
  have arr := arriving_of_reachable reach
  exact front.move arr.grown arr.within (makeMove_of_guarded reach step)

theorem done_later {k l : Nat} (later : k ≤ l) (c : κ) : (run.state k).done c ≤ (run.state l).done c := by
  apply run.invariant_from (P := fun s => (run.state k).done c ≤ s.done c) _ later le_rfl
  intro s e t reach below guard step
  exact below.trans ((makeMove_of_guarded reach step).done_le c)

theorem entry_later {k l : Nat} (later : k ≤ l) {p : Path} {e : Entry} (entry : (run.state k).cache p = some e) :
    (run.state l).cache p = some e := by
  apply run.invariant_from (P := fun s => s.cache p = some e) _ later entry
  intro s e' t reach entry guard step
  rw [(makeMove_of_guarded reach step).entry (by simp [entry]), entry]

theorem issued_later {k l : Nat} (later : k ≤ l) {c : κ} {n : Nat} {m : Msg}
    (message : (issued (run.state k) c)[n]? = some m) : (issued (run.state l) c)[n]? = some m := by
  apply run.invariant_from (P := fun s => (issued s c)[n]? = some m) _ later message
  intro s e t reach message guard step
  rcases (makeMove_of_guarded reach step).issues with same | ⟨d, new, more, -⟩
  · rwa [same]
  · rw [more]
    by_cases here : c = d
    · subst here
      rw [update_self, List.getElem?_append_left (List.getElem?_eq_some_iff.mp message).1]
      exact message
    · rwa [update_of_ne here]

theorem front_done (fair : ∀ a, run.Fair Does a) {k : Nat} (front : Front c n first (run.state k)) :
    ∃ l ≥ k, n < (run.state l).done c := by
  apply run.leadsTo (Q := fun s => n < s.done c) (stage cfg c n) (helper cfg c n) fair _ _ front
  · intro s e t reach front left guard step
    have arr := arriving_of_reachable reach
    exact ⟨front.move arr.grown arr.within (makeMove_of_guarded reach step), front.advances arr left guard step⟩
  · intro s reach front left
    exact front.ready (arriving_of_reachable reach) left

theorem exists_front (arr : Arriving cfg s) {m : Msg} (pending : Pending s c n m) :
    ∃ d k m', Pending s d k m' ∧ Front d k (stamp s m'.path) s := by
  obtain ⟨⟨d, k, m'⟩, waits, least⟩ := WellFounded.has_min (measure fun x : κ × Nat × Msg => stamp s x.2.2.path).wf
    {x | Pending s x.1 x.2.1 x.2.2} ⟨(c, n, m), pending⟩
  refine ⟨d, k, m', waits, ⟨m', waits.message, rfl⟩, ?_⟩
  intro d' k' m'' waits'
  refine ⟨Nat.le_of_not_lt (least (d', k', m'') waits'), fun same => ?_⟩
  obtain ⟨-, -, e, entry, -⟩ := arr.agrees.pending waits
  obtain ⟨-, -, e', entry', -⟩ := arr.agrees.pending waits'
  rw [stamp_of_entry entry, stamp_of_entry entry'] at same
  exact arr.agrees.unique waits' waits (arr.stamped.distinct entry' entry same)

theorem eventually_done (fair : ∀ a, run.Fair Does a) (gap : Nat) {k : Nat} {m : Msg}
    (message : (issued (run.state k) c)[n]? = some m)
    (near : ∀ d n' m', Pending (run.state k) d n' m' →
      stamp (run.state k) m.path ≤ stamp (run.state k) m'.path + gap) : ∃ l ≥ k, n < (run.state l).done c := by
  induction gap generalizing k with
  | zero =>
      by_cases left : n < (run.state k).done c
      · exact ⟨k, le_rfl, left⟩
      · have arr := arriving_of_reachable (run.reachable k)
        obtain ⟨d, n', m', waits, front⟩ := exists_front arr ⟨message, Nat.le_of_not_lt left⟩
        have least := front.least c n m ⟨message, Nat.le_of_not_lt left⟩
        obtain ⟨rfl, rfl⟩ := least.2 (le_antisymm (near d n' m' waits) least.1)
        exact front_done fair front
  | succ gap ih =>
      by_cases left : n < (run.state k).done c
      · exact ⟨k, le_rfl, left⟩
      · have arr := arriving_of_reachable (run.reachable k)
        obtain ⟨d, n', m', waits, front⟩ := exists_front arr ⟨message, Nat.le_of_not_lt left⟩
        obtain ⟨l, later, done⟩ := front_done fair front
        have there := arr.grown.issued_there arr.within (List.mem_of_getElem? message)
        obtain ⟨e, entry⟩ := Option.ne_none_iff_exists'.mp there
        obtain ⟨l', later', goal⟩ := ih (issued_later later message) fun d' k' m'' waits' => by
          have bound := near d n' m' waits
          obtain ⟨least, only⟩ := (front_later later front).least d' k' m'' waits'
          have other : stamp (run.state l) m''.path ≠ stamp (run.state k) m'.path := by
            intro same
            obtain ⟨rfl, rfl⟩ := only same
            exact absurd waits'.waits (by omega)
          rw [stamp_of_entry (entry_later later entry), ← stamp_of_entry entry]
          omega
        exact ⟨l', later.trans later', goal⟩

theorem onDfs_of_no_message (arr : Arriving cfg s) {p : Path} {e : Entry} (below : Below cfg p)
    (entry : s.cache p = some e) (none : ∀ d k m, Pending s d k m → m.path ≠ p) :
    ∃ node, s.dfs p = some node ∧ node.kind = e.value.kind := by
  rcases arr.agrees.there below (by simp [entry]) with there | ⟨d, k, m, waits, path⟩
  · obtain ⟨node, there⟩ := Option.ne_none_iff_exists'.mp there
    obtain ⟨e', entry', kind⟩ := arr.agrees.onDfs below there
    cases Option.some.inj (entry.symm.trans entry')
    exact ⟨node, there, kind.symm⟩
  · exact absurd path (none d k m waits)

theorem cached_reaches_dfs (fair : ∀ a, run.Fair Does a) {k : Nat} {p : Path} {e : Entry} (below : Below cfg p)
    (entry : (run.state k).cache p = some e) :
    ∃ l ≥ k, ∀ l' ≥ l, ∃ node, (run.state l').dfs p = some node ∧ node.kind = e.value.kind := by
  -- a message for a path that is cached is not issued a second time
  have nothingNew (only : κ → Nat → Prop) {l : Nat} (later : k ≤ l)
      (before : ∀ d n m, Pending (run.state k) d n m → m.path = p → only d n) :
      ∀ d n m, Pending (run.state l) d n m → m.path = p → only d n := by
    refine (run.invariant_from (P := fun s => s.cache p = some e ∧
      ∀ d n m, Pending s d n m → m.path = p → only d n) ?_ later ⟨entry, before⟩).2
    intro s e' t reach holds guard step
    have move := makeMove_of_guarded reach step
    have arr := arriving_of_reachable reach
    refine ⟨by rw [move.entry (by simp [holds.1]), holds.1], fun d n m waits path => ?_⟩
    rcases move.issues with same | ⟨c, new, more, done, -, absent, -⟩
    · exact holds.2 d n m (waits.mono same move.done_le) path
    · rcases (Pending.issue arr.within.queued more done).mp waits with old | ⟨-, -, rfl⟩
      · exact holds.2 d n m old path
      · rw [path, holds.1] at absent
        cases absent
  by_cases waiting : ∃ d n m, Pending (run.state k) d n m ∧ m.path = p
  · obtain ⟨d, n, m, waits, path⟩ := waiting
    obtain ⟨l, later, done⟩ := eventually_done fair (stamp (run.state k) m.path) waits.message fun _ _ _ _ =>
      Nat.le_add_left _ _
    refine ⟨l, later, fun l' later' => ?_⟩
    have arr := arriving_of_reachable (run.reachable l')
    apply onDfs_of_no_message arr below (entry_later (later.trans later') entry)
    intro d' n' m' waits' path'
    obtain ⟨rfl, rfl⟩ := nothingNew (fun d' n' => d' = d ∧ n' = n) (later.trans later')
      (fun d' n' m' waits' path' =>
        (arriving_of_reachable (run.reachable k)).agrees.unique waits' waits (path'.trans path.symm))
      d' n' m' waits' path'
    exact absurd (done.trans_le (done_later later' d')) (Nat.not_lt.mpr waits'.waits)
  · refine ⟨k, le_rfl, fun l later => ?_⟩
    have arr := arriving_of_reachable (run.reachable l)
    apply onDfs_of_no_message arr below (entry_later later entry)
    intro d n m waits path
    exact nothingNew (fun _ _ => False) later
      (fun d n m waits path => waiting ⟨d, n, m, waits, path⟩) d n m waits path

end Runs

instance [Fintype κ] (s : State ι κ) (c : κ) : Decidable (Earliest cfg s c) :=
  inferInstanceAs (Decidable (∀ m ∈ (s.out c)[s.done c]?, ∀ d, cfg.home d = cfg.home c →
    ∀ m' ∈ (issued s d).drop (s.done d), stamp s m.path ≤ stamp s m'.path))

instance [Fintype κ] (s : State ι κ) : (e : Event κ ι) → Decidable (InArrival cfg s e)
  | .start _ call => inferInstanceAs (Decidable (Makes call))
  | .take c => inferInstanceAs (Decidable (Earliest cfg s c))
  | .client _ _ | .server _ _ => .isTrue trivial

theorem idle_settled (client : ∀ c, s.client c = .idle) (sent : ∀ c, (s.out c).length ≤ s.done c)
    (server : ∀ i, s.server i = .recv) (a : Actor κ ι) : ¬(system cfg).Ready (InArrival cfg) Does a s := by
  rintro ⟨e, t, does, -, step⟩
  cases a with
  | client c =>
      obtain ⟨env, rfl⟩ := does
      simp [system, Commit.step, clientStep, client c] at step
  | take c =>
      cases does
      simp [system, Commit.step, takeStep, server, List.getElem?_eq_none (sent c)] at step
  | server i =>
      obtain ⟨env, rfl⟩ := does
      simp [system, Commit.step, serverStep, server i] at step

theorem cached_reaches_dfs_run : ∃ run : (system (.twoNodes exampleRoot)).EndlessRun (InArrival (.twoNodes exampleRoot)),
    (∀ a, run.Fair Does a) ∧ ∃ l, ∀ l' ≥ l, ∃ node,
      (run.state l').dfs (['b'] :: ['a'] :: exampleRoot) = some node ∧ node.kind = .file := by
  obtain ⟨run, fair, holds⟩ := System.exists_endlessRun (system (.twoNodes exampleRoot))
    (InArrival (.twoNodes exampleRoot)) Does (s := initialState (.twoNodes exampleRoot) .zero) (initial_initialState _ _ nofun) makeRun
    (fun s => decide ((∀ c, s.client c = .idle) ∧ (∀ c, (s.out c).length ≤ s.done c) ∧ (∀ i, s.server i = .recv) ∧
      (s.cache (['b'] :: ['a'] :: exampleRoot)).map (·.value.kind) = some .file)) rfl fun s holds => by
      obtain ⟨client, sent, server, -⟩ := of_decide_eq_true holds
      exact idle_settled client sent server
  obtain ⟨e, entry, kind⟩ := Option.map_eq_some_iff.mp (of_decide_eq_true holds).2.2.2
  obtain ⟨l, -, after⟩ := cached_reaches_dfs fair (by decide) entry
  exact ⟨run, fair, l, fun l' later => kind ▸ after l' later⟩

end Pacon.Commit
