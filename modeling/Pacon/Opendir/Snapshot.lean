import Pacon.Opendir.Operations
import Pacon.Commit.Eventually
import Pacon.Commit.Finished

/-!
# What an opened directory shows

Once the READDIR of a round is executed, everything that was made before its maker called the barrier of
that round is on the DFS, whichever client made it on whichever node.
-/

set_option linter.unusedSectionVars false

namespace Pacon.Opendir
open Function Lib Barrier

variable {ι κ : Type} [DecidableEq ι] [DecidableEq κ] [Fintype κ] (cfg : Config ι κ)

def working (pc : Commit.ServerPc κ) (c : κ) : Nat := if pc.serving.map Prod.fst = some c then 1 else 0

structure Linked (s : State ι κ) : Prop where
  sent : ∀ c, opCount (s.barriers.mq c) = (s.files.out c).length
  passed : ∀ c, passedOps s.barriers c = s.files.done c + working (s.files.server (cfg.barriers.home c)) c
  free : ∀ i, s.barriers.commit i ≠ .recv → s.files.server i = .recv
  finished : ∀ c slot, slot < s.barriers.counted c → opCount (sentBefore slot (s.barriers.mq c)) ≤ s.files.done c
  executed : ∀ d slot, 0 < s.barriers.executed d slot → ∀ c, slot < s.barriers.counted c

variable {cfg} {s t : State ι κ}

inductive Seen : Event ι κ → Barrier.Event ι κ → Prop
  | send {c env} : Seen (.client c env) (.send c)
  | barrier {c} : Seen (.barrier c) (.barrier c)
  | request {c p} : Seen (.opendir c p) (.request c .readdir)
  | receive {c} : Seen (.receive c) (.receive c)
  | commit {i ok} : Seen (.commit i ok) (.commit i ok)
  | take {c garbage} : Seen (.take c garbage) (.take c garbage)
  | rpc {i ok} : Seen (.rpc i ok) (.rpc i ok)
  | cluster {i sender} : Seen (.cluster i sender) (.cluster i sender)

theorem step_barriers {e : Event ι κ} (h : step cfg s e = some t) : t.barriers = s.barriers ∨
    ∃ e', Seen e e' ∧ Barrier.step cfg.barriers s.barriers e' = some t.barriers := by
  cases e with
  | start c call =>
      simp only [step, Option.ite_none_right_eq_some, onFiles_eq] at h
      exact .inl h.2.2
  | client c env =>
      simp only [step] at h
      split at h
      · exact .inr ⟨_, .send, (onBoth_eq.mp h).1⟩
      · exact .inl (onFiles_eq.mp h).2
  | barrier c =>
      simp only [step, Option.ite_none_right_eq_some, onBarriers_eq] at h
      exact .inr ⟨_, .barrier, h.2.1⟩
  | opendir c p =>
      simp only [step, Option.ite_none_right_eq_some, onBarriers_eq] at h
      exact .inr ⟨_, .request, h.2.1⟩
  | receive c =>
      simp only [step, Option.ite_none_right_eq_some, onBarriers_eq] at h
      exact .inr ⟨_, .receive, h.2.1⟩
  | commit i ok =>
      simp only [step] at h
      split at h
      · exact .inr ⟨_, .commit, (onBoth_eq.mp h).1⟩
      · exact .inr ⟨_, .commit, (onBarriers_eq.mp h).1⟩
  | server i env => exact .inl (onFiles_eq.mp h).2
  | take c garbage => exact .inr ⟨_, .take, (onBarriers_eq.mp h).1⟩
  | rpc i ok => exact .inr ⟨_, .rpc, (onBarriers_eq.mp h).1⟩
  | cluster i sender => exact .inr ⟨_, .cluster, (onBarriers_eq.mp h).1⟩

theorem step_files {e : Event ι κ} (making : Making s e) (h : step cfg s e = some t) : t.files = s.files ∨
    ∃ e', Commit.Calls Commit.Makes s.files e' ∧ Commit.step cfg.files s.files e' = some t.files := by
  cases e with
  | start c call =>
      simp only [step, Option.ite_none_right_eq_some, onFiles_eq] at h
      exact .inr ⟨.start c call, making, h.2.1⟩
  | client c env =>
      simp only [step] at h
      split at h
      · exact .inr ⟨.client c env, trivial, (onBoth_eq.mp h).2⟩
      · exact .inr ⟨.client c env, trivial, (onFiles_eq.mp h).1⟩
  | barrier c =>
      simp only [step, Option.ite_none_right_eq_some, onBarriers_eq] at h
      exact .inl h.2.2
  | opendir c p =>
      simp only [step, Option.ite_none_right_eq_some, onBarriers_eq] at h
      exact .inl h.2.2
  | receive c =>
      simp only [step, Option.ite_none_right_eq_some, onBarriers_eq] at h
      exact .inl h.2.2
  | commit i ok =>
      simp only [step] at h
      split at h
      · exact .inr ⟨.take _, trivial, (onBoth_eq.mp h).2⟩
      · exact .inl (onBarriers_eq.mp h).2
  | server i env => exact .inr ⟨.server i env, trivial, (onFiles_eq.mp h).1⟩
  | take c garbage => exact .inl (onBarriers_eq.mp h).2
  | rpc i ok => exact .inl (onBarriers_eq.mp h).2
  | cluster i sender => exact .inl (onBarriers_eq.mp h).2

theorem projects_barriers : (system cfg).Projects Making (Barrier.system cfg.barriers) (fun _ _ => True) State.barriers where
  init start := start.1
  step _ h := (step_barriers h).imp_right fun ⟨e, _, step⟩ => ⟨e, trivial, step⟩

theorem projects_files :
    (system cfg).Projects Making (Commit.system cfg.files) (Commit.Calls Commit.Makes) State.files where
  init start := start.2
  step making h := step_files making h

theorem working_recv (c : κ) : working (.recv : Commit.ServerPc κ) c = 0 := if_neg (by simp [Commit.ServerPc.serving])

theorem Linked.initial (h : (system cfg).init s) : Linked cfg s where
  sent c := by
    rw [h.1, h.2.out c]
    rfl
  passed c := by
    rw [h.1, h.2.server, working_recv, h.2.done c]
    rfl
  free i busy := h.2.server i
  finished c slot counted := by
    rw [h.1] at counted
    exact absurd counted (Nat.not_lt_zero _)
  executed d slot done := by
    rw [h.1] at done
    exact absurd done (Nat.lt_irrefl _)

theorem Linked.barriers {e : Barrier.Event ι κ} (l : Linked cfg s) (sound : Sound cfg.barriers s.barriers)
    (sound' : Sound cfg.barriers t.barriers) (move : Move cfg.barriers s.barriers e t.barriers)
    (plain : Plain s.barriers e) (same : t.files = s.files)
    (receiving : ∀ c, e = .receive c → s.files.server (cfg.barriers.home c) = .recv) : Linked cfg t where
  sent c := by
    rw [move.opCount plain, same]
    exact l.sent c
  passed c := by
    rw [move.passedOps sound.queues plain, same]
    exact l.passed c
  free i busy := by
    rw [same]
    rcases move.receives busy with before | ⟨c, is, rfl⟩
    · exact l.free i before
    · exact receiving c is
  finished c slot counted := by
    rw [same]
    rcases move.counts sound.queues c with old | busy
    · rw [old] at counted
      obtain ⟨more, grown⟩ := move.mq_grows c
      rw [← grown, sentBefore_append (sound.queues.sent_of_counted counted)]
      exact l.finished c slot counted
    · -- the server counts the barrier message, and has nothing else in hand
      have passed := l.passed c
      rw [l.free _ busy, working_recv] at passed
      have before := sound'.queues.opCount_before counted
      rw [move.passedOps sound.queues plain, passed] at before
      exact before
  executed d slot done c := by
    have later := move.counted_mono c
    rcases move.executes done with before | ⟨i, r, pc⟩
    · exact (l.executed d slot before c).trans_le later
    · exact ((reached_of_opt sound.serving pc (cfg.barriers.home c)).2 c rfl).trans_le later

theorem Linked.files (l : Linked cfg s) (same : t.barriers = s.barriers) (out : t.files.out = s.files.out)
    (done : t.files.done = s.files.done) (server : t.files.server = s.files.server) : Linked cfg t where
  sent c := by rw [same, out]; exact l.sent c
  passed c := by rw [same, done, server]; exact l.passed c
  free i busy := by rw [server]; exact l.free i (same ▸ busy)
  finished c slot counted := by rw [same] at counted ⊢; rw [done]; exact l.finished c slot counted
  executed := by rw [same]; exact l.executed

theorem Linked.send {c : κ} {m : Commit.Msg} (l : Linked cfg s) (queues : Queues cfg.barriers s.barriers)
    (barriers : t.barriers = { s.barriers with mq := update s.barriers.mq c (s.barriers.mq c ++ [.op]) })
    (out : t.files.out = update s.files.out c (s.files.out c ++ [m])) (done : t.files.done = s.files.done)
    (server : t.files.server = s.files.server) : Linked cfg t where
  sent d := by
    rw [barriers, out]
    by_cases here : d = c
    · subst here
      have before := l.sent d
      simpa [opCount_append, opCount] using before
    · simp only [update_of_ne here]
      exact l.sent d
  passed d := by
    rw [done, server, ← l.passed d, barriers]
    by_cases here : d = c
    · subst here
      simp [passedOps, List.take_append_of_le_length (queues.inside d)]
    · simp [passedOps, update_of_ne here]
  free i busy := by
    rw [barriers] at busy
    rw [server]
    exact l.free i busy
  finished d slot counted := by
    rw [barriers] at counted ⊢
    rw [done]
    refine le_trans (le_of_eq ?_) (l.finished d slot counted)
    by_cases here : d = c
    · subst here
      simp [sentBefore_append (queues.sent_of_counted counted)]
    · simp [update_of_ne here]
  executed := by rw [barriers]; exact l.executed

theorem Linked.pass {i : ι} {c : κ} {m : Commit.Msg} (l : Linked cfg s) (queues : Queues cfg.barriers s.barriers)
    (pc : s.barriers.commit i = .hold c .op) (barriers : t.barriers = finish s.barriers i c)
    (files : t.files = { s.files with
      server := update s.files.server (cfg.barriers.home c) (Commit.dispatch c m) }) : Linked cfg t := by
  have hold := queues.working i
  rw [pc] at hold
  obtain ⟨rfl, head⟩ := hold
  have idle := l.free _ (by rw [pc]; simp)
  constructor
  · intro d
    rw [barriers, files]
    exact l.sent d
  · intro d
    have passed := l.passed d
    have more : passedOps (finish s.barriers (cfg.barriers.home c) c) d = _ :=
      passedOps_finish (s := s.barriers) rfl rfl head
    rw [barriers, more, passed, files]
    by_cases near : cfg.barriers.home d = cfg.barriers.home c
    · simp only [near, update_self, idle, working_recv]
      by_cases here : d = c
      · simp [working, Commit.dispatch_serving, here, opCount]
      · simp [working, Commit.dispatch_serving, here, Ne.symm here]
    · have here : d ≠ c := fun same => near (same ▸ rfl)
      simp [update_of_ne near, here]
  · intro j busy
    rw [barriers] at busy
    have other : j ≠ cfg.barriers.home c := by
      rintro rfl
      simp [finish] at busy
    rw [files]
    simp only [update_of_ne other]
    exact l.free j (by simpa [finish, update_of_ne other] using busy)
  · intro d slot counted
    rw [barriers] at counted ⊢
    rw [files]
    exact l.finished d slot counted
  · rw [barriers]
    exact l.executed

theorem Linked.server {i : ι} {env : Commit.Env} (l : Linked cfg s)
    (w : Commit.Within cfg.files Commit.Makes s.files) (same : t.barriers = s.barriers)
    (out : t.files.out = s.files.out) (move : Commit.MakeMove cfg.files s.files (.server i env) t.files) :
    Linked cfg t := by
  have done := move.done_le
  have finished (c : κ) (slot : Nat) (counted : slot < t.barriers.counted c) :
      opCount (sentBefore slot (t.barriers.mq c)) ≤ t.files.done c := by
    rw [same] at counted ⊢
    exact (l.finished c slot counted).trans (done c)
  refine ⟨by rw [same, out]; exact l.sent, ?_, ?_, finished, by rw [same]; exact l.executed⟩
  · intro c
    rw [same, l.passed c]
    rcases move.server_cases with ⟨done, serving⟩ | ⟨d, m, serves, done, server⟩
    · rw [done, working, working, serving]
    · obtain ⟨home, -⟩ := w.queued.serving serves
      rw [done, server]
      by_cases here : c = d
      · subst here
        have hand : working (s.files.server i) c = 1 := by simp [working, serves]
        change cfg.barriers.home c = i at home
        rw [home, hand, update_self, update_self, working_recv]
      · rw [update_of_ne here]
        by_cases near : cfg.barriers.home c = i
        · have idle : working (s.files.server i) c = 0 := by simp [working, serves, Ne.symm here]
          rw [near, idle, update_self, working_recv]
        · rw [update_of_ne near]
  · intro j busy
    have idle := l.free j (same ▸ busy)
    rcases move.server_cases with ⟨-, serving⟩ | ⟨d, m, serves, -, server⟩
    · have none := serving j
      rw [idle] at none
      cases pc : t.files.server j with
      | recv => rfl
      | _ =>
          rw [pc] at none
          cases none
    · rw [server]
      by_cases here : j = i
      · rw [here, update_self]
      · rw [update_of_ne here, idle]

theorem operation_of_inHand {pc : CommitPc κ} {c : κ} (h : operationInHand pc = some c) : pc = .hold c .op := by
  cases pc with
  | hold d m =>
      cases m with
      | op =>
          cases h
          rfl
      | _ => cases h
  | _ => cases h

theorem Linked.step {e : Event ι κ} (l : Linked cfg s) (sound : Sound cfg.barriers s.barriers)
    (sound' : Sound cfg.barriers t.barriers) (g : Commit.Grown cfg.files s.files)
    (w : Commit.Within cfg.files Commit.Makes s.files) (h : step cfg s e = some t) : Linked cfg t := by
  have alone {e : Barrier.Event ι κ} (does : onBarriers cfg s e = some t) (plain : Plain s.barriers e)
      (receiving : ∀ c, e = .receive c → s.files.server (cfg.barriers.home c) = .recv) : Linked cfg t :=
    l.barriers sound sound' (move_of_step (onBarriers_eq.mp does).1) plain (onBarriers_eq.mp does).2 receiving
  cases e with
  | start c call =>
      simp only [Opendir.step, Option.ite_none_right_eq_some, onFiles_eq] at h
      obtain ⟨-, does, same⟩ := h
      simp only [Commit.step, Option.ite_none_right_eq_some, Option.some.injEq] at does
      obtain ⟨-, files⟩ := does
      exact l.files same (by rw [← files]; rfl) (by rw [← files]; rfl) (by rw [← files]; rfl)
  | client c env =>
      simp only [Opendir.step] at h
      have done {u : Commit.State ι κ} (does : Commit.clientStep cfg.files s.files c env = some u) :
          u.done = s.files.done := by
        cases Commit.clientStep_move does <;> rfl
      split at h
      · rename_i sending
        obtain ⟨does, does'⟩ := onBoth_eq.mp h
        cases client : s.files.client c with
        | send call =>
            simp only [Barrier.step, Option.ite_none_right_eq_some, Option.some.injEq] at does
            exact l.send sound.queues does.2.symm (Commit.clientStep_send client does') (done does')
              (Commit.clientStep_out does').1
        | _ => simp [sends, client] at sending
      · rename_i quiet
        obtain ⟨does, same⟩ := onFiles_eq.mp h
        obtain ⟨server, out | ⟨call, client, -⟩⟩ := Commit.clientStep_out does
        · exact l.files same out (done does) server
        · simp [sends, client] at quiet
  | barrier c =>
      simp only [Opendir.step, Option.ite_none_right_eq_some] at h
      exact alone h.2 trivial (by simp)
  | opendir c p =>
      simp only [Opendir.step, Option.ite_none_right_eq_some] at h
      exact alone h.2 trivial (by simp)
  | receive c =>
      simp only [Opendir.step, Option.ite_none_right_eq_some] at h
      refine alone h.2 trivial ?_
      intro d same
      cases same
      exact h.1
  | commit i ok =>
      simp only [Opendir.step] at h
      split at h
      · rename_i c inHand
        have pc := operation_of_inHand inHand
        obtain ⟨does, does'⟩ := onBoth_eq.mp h
        simp only [Barrier.step, commitStep, pc, dispatch, Option.ite_none_left_eq_some, Option.some.injEq] at does
        generalize files : t.files = f at does'
        cases Commit.takeStep_move does' with
        | take => exact l.pass sound.queues pc does.2.symm files
      · rename_i inHand
        refine alone h ?_ (by simp)
        intro c pc
        rw [pc] at inHand
        cases inHand
  | server i env =>
      obtain ⟨does, same⟩ := onFiles_eq.mp h
      exact l.server w same (Commit.serverStep_frame does).1
        (Commit.makeMove_of_move g w (Commit.move_of_step does))
  | take c garbage => exact alone h trivial (by simp)
  | rpc i ok => exact alone h trivial (by simp)
  | cluster i sender => exact alone h trivial (by simp)

theorem linked_of_reachable (digits : ∀ c k, cfg.barriers.optNum c k ≤ 9)
    (h : (system cfg).Reachable Making s) : Linked cfg s := by
  apply h.invariant
  · intro s initial
    exact .initial initial
  · intro s e t reach l making step
    have files := projects_files.reachable reach
    exact l.step (sound_of_reachable digits (projects_barriers.reachable reach))
      (sound_of_reachable digits (projects_barriers.reachable (.next reach making step)))
      (Commit.grown_of_reachable (fun _ _ => Commit.Makes.calls) files)
      (Commit.within_of_reachable (fun _ _ => id) files) step

theorem pass_takes (digits : ∀ c k, cfg.barriers.optNum c k ≤ 9) (h : (system cfg).Reachable Making s) {i : ι} {c : κ}
    (pc : s.barriers.commit i = .hold c .op)
    (clear : s.barriers.barrier i (s.barriers.waitingBarrierId i) = false) (ok : Bool) :
    ∃ t, step cfg s (.commit i ok) = some t := by
  have linked := linked_of_reachable digits h
  have queues := (sound_of_reachable digits (projects_barriers.reachable h)).queues
  have hold := queues.working i
  rw [pc] at hold
  obtain ⟨rfl, head⟩ := hold
  have idle := linked.free _ (by rw [pc]; simp)
  have waits : s.files.done c < (s.files.out c).length := by
    have passed := linked.passed c
    rw [idle, working_recv] at passed
    have more := opCount_take_succ head
    have all := opCount_le (List.take_prefix (s.barriers.committed c + 1) (s.barriers.mq c))
    rw [linked.sent c] at all
    have one : opCount [Msg.op] = 1 := rfl
    unfold passedOps at passed
    omega
  refine ⟨⟨finish s.barriers (cfg.barriers.home c) c, { s.files with
    server := update s.files.server (cfg.barriers.home c) (Commit.dispatch c (s.files.out c)[s.files.done c]) }⟩, ?_⟩
  have inHand : operationInHand (s.barriers.commit (cfg.barriers.home c)) = some c := by rw [pc]; rfl
  simp only [Opendir.step, inHand, onBoth_eq]
  constructor
  · simp [Barrier.step, commitStep, pc, clear, dispatch]
  · change Commit.takeStep cfg.files s.files c = _
    simp [Commit.takeStep, Config.files, idle, waits]

theorem mq_grows_of_follows (h : (system cfg).Follows Making s t) (c : κ) :
    s.barriers.mq c <+: t.barriers.mq c := by
  have follows := projects_barriers.follows h
  apply follows.invariant (P := fun b => s.barriers.mq c <+: b.mq c) List.prefix_rfl
  intro b e b' before _ step
  exact before.trans ((move_of_step step).mq_grows c)

theorem out_grows_of_follows (h : (system cfg).Follows Making s t) (c : κ) :
    s.files.out c <+: t.files.out c := by
  have follows := projects_files.follows h
  apply follows.invariant (P := fun f => s.files.out c <+: f.out c) List.prefix_rfl
  intro f e f' before _ step
  refine before.trans ?_
  cases e with
  | start d call =>
      simp only [Commit.system, Commit.step, Option.ite_none_right_eq_some, Option.some.injEq] at step
      rw [← step.2]
      exact List.prefix_rfl
  | client d env =>
      rcases (Commit.clientStep_out step).2 with same | ⟨call, -, more⟩
      · rw [same]
      · rw [more]
        by_cases here : c = d
        · subst here
          rw [update_self]
          exact List.prefix_append ..
        · rw [update_of_ne here]
  | take d =>
      cases Commit.takeStep_move step with
      | take => exact List.prefix_rfl
  | server i env => rw [(Commit.serverStep_frame step).1]

/-- Whoever opens a directory behind a barrier finds all that any client was told it had made before it
called that barrier itself. -/
theorem opendir_shows_acknowledged (digits : ∀ c k, cfg.barriers.optNum c k ≤ 9)
    (reach : (system cfg).Reachable Making s) (later : (system cfg).Follows Making s t) {c d : κ}
    {call : Commit.Call} {slot : Nat} (acknowledged : (call, 0) ∈ s.files.returned c)
    (before : s.barriers.currentBarrierId c ≤ slot) (executed : 0 < t.barriers.executed d slot) :
    ∃ node, t.files.dfs call.path = some node ∧ call.op.optType.kind = some node.kind := by
  have reach' := reach.follows later
  have files := projects_files.reachable reach
  have sent : call.msg ∈ s.files.out c := by
    have told := (Commit.acknowledged_of_reachable files).returned c call 0 acknowledged
    exact told.resolve_left (by simp)
  obtain ⟨n, bound, message⟩ := List.getElem_of_mem sent
  have linked := linked_of_reachable digits reach'
  have earlier : n < t.files.done c := by
    have counted := linked.executed d slot executed c
    have few : (barrierPaths (s.barriers.mq c)).length ≤ slot := by
      have queues := (sound_of_reachable digits (projects_barriers.reachable reach)).queues
      rw [queues.paths c, List.length_map, List.length_range]
      exact (min_le_left ..).trans before
    calc n < (s.files.out c).length := bound
      _ = opCount (s.barriers.mq c) := ((linked_of_reachable digits reach).sent c).symm
      _ ≤ opCount (sentBefore slot (t.barriers.mq c)) :=
          opCount_le (before_sentBefore (mq_grows_of_follows later c) few)
      _ ≤ t.files.done c := linked.finished c slot counted
  apply Commit.finished_of_reachable (projects_files.reachable reach') c n call.msg _ earlier
  have there : (s.files.out c)[n]? = some call.msg := by rw [List.getElem?_eq_getElem bound, message]
  obtain ⟨more, grown⟩ := out_grows_of_follows later c
  rw [Commit.issued, ← grown, List.append_assoc, List.getElem?_append_left bound]
  exact there

instance (s : State ι κ) : (e : Event ι κ) → Decidable (Making s e)
  | .start _ call => inferInstanceAs (Decidable (Commit.Makes call))
  | .client _ _ | .barrier _ | .opendir _ _ | .receive _ | .commit _ _ | .server _ _ | .take _ _ | .rpc _ _
  | .cluster _ _ => .isTrue trivial

def oneOpens : Config Bool Bool := ⟨.twoNodes fun c _ => if c then 1 else 0, Commit.exampleRoot⟩

def exampleStart : State Bool Bool := ⟨Barrier.initialState, Commit.initialState oneOpens.files .zero⟩

def makeFile : Commit.Call := ⟨.make .create, ['a'] :: Commit.exampleRoot⟩

def makeFileRun : List (Event Bool Bool) := .start false makeFile :: List.replicate 3 (.client false .zero)

def openRun : List (Event Bool Bool) := List.flatten
  [[.barrier false, .barrier true, .opendir true Commit.exampleRoot],
    [.receive false, .commit false true, .server false .zero, .receive false], List.replicate 3 (.commit false true),
    [.receive true], List.replicate 5 (.commit true true), [.take true 0], List.replicate 4 (.rpc true true)]

theorem opendir_shows_acknowledged_run : ∃ s t, (system oneOpens).Reachable Making s ∧
    (system oneOpens).Follows Making s t ∧ s.files.dfs makeFile.path = none ∧
    ∃ node, t.files.dfs makeFile.path = some node ∧ some .file = some node.kind := by
  obtain ⟨s, reach, holds⟩ := System.exists_reachable (system oneOpens) Making (s := exampleStart)
    ⟨rfl, Commit.initial_initialState _ _ (by simp [oneOpens, Config.files, Commit.exampleRoot])⟩ makeFileRun
    (fun s : State Bool Bool => decide ((makeFile, (0 : Int)) ∈ s.files.returned false ∧
      s.barriers.currentBarrierId false ≤ 0 ∧ s.files.dfs makeFile.path = none) &&
      ((system oneOpens).run Making s openRun).any fun t : State Bool Bool =>
        decide (0 < t.barriers.executed true 0)) rfl
  rw [Bool.and_eq_true, decide_eq_true_eq] at holds
  obtain ⟨⟨acknowledged, before, absent⟩, opens⟩ := holds
  cases runs : (system oneOpens).run Making s openRun with
  | none =>
      rw [runs] at opens
      cases opens
  | some t =>
      rw [runs, Option.any_some, decide_eq_true_eq] at opens
      have later := System.follows_of_run runs
      have digits : ∀ c k, oneOpens.barriers.optNum c k ≤ 9 := by
        intro c k
        cases c <;> simp [oneOpens, Config.twoNodes]
      exact ⟨s, t, reach, later, absent, opendir_shows_acknowledged digits reach later acknowledged before opens⟩

end Pacon.Opendir
