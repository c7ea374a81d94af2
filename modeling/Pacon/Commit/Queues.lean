import Pacon.Commit.Moves
import Mathlib.Data.Fintype.Defs

/-!
# The commit queues and the calls that fill them

A message counts as issued from the access that decides on it, before it is sent. A message is
pending until its server has finished it.
-/

set_option linter.unusedSectionVars false

namespace Pacon.Commit
open Function Lib

def ClientPc.unsent : ClientPc → Option Msg
  | .send call => some call.msg
  | _ => none

/-- What a call returns, known from the access that decides on its message. -/
def ClientPc.outcome : ClientPc → Option (Call × Int)
  | .send call => some (call, call.result)
  | .returning call result => some (call, result)
  | _ => none

def ClientPc.running : ClientPc → Option Call
  | .idle | .beyond => none
  | .parentGet m p | .parentReget m p | .opendir m p _ _ | .readdir m p _ _ | .childCas m p _ _
  | .childReget m p | .parentAdd m p | .add m p | .addGet m p _ | .addSet m p _ => some ⟨.make m, p⟩
  | .loadStat l | .loadAdd l _ => some l.call
  | .rmGet p | .rmReget p | .rmCas p _ _ => some ⟨.rm, p⟩
  | .writeGet p buf offset | .writeCas p buf offset _ _ => some ⟨.write buf offset, p⟩
  | .send call | .returning call _ => some call

def ServerPc.serving {κ : Type} : ServerPc κ → Option (κ × Msg)
  | .recv => none
  | .rmGet c p | .rmDel c p => some (c, ⟨.rm, p⟩)
  | .attempt c m | .retry c m => some (c, m)
  | .writeOpen c p | .writeGet c p _ | .writeBack c p _ _ | .overrun c p => some (c, ⟨.write, p⟩)

variable {ι κ : Type} [DecidableEq ι] [DecidableEq κ] {cfg : Config ι κ}

def issued (s : State ι κ) (c : κ) : List Msg := s.out c ++ (s.client c).unsent.toList

structure Pending (s : State ι κ) (c : κ) (n : Nat) (m : Msg) : Prop where
  message : (issued s c)[n]? = some m
  waits : s.done c ≤ n

/-- Every commit queue is empty and no call has a message left to send. -/
def Drained (s : State ι κ) : Prop := ∀ c, (issued s c).length = s.done c

instance [Fintype κ] (s : State ι κ) : Decidable (Drained s) :=
  inferInstanceAs (Decidable (∀ c, (issued s c).length = s.done c))

theorem Drained.not_pending {s : State ι κ} (h : Drained s) {c : κ} {n : Nat} {m : Msg} :
    ¬Pending s c n m := by
  rintro ⟨message, waits⟩
  have := (List.getElem?_eq_some_iff.mp message).1
  rw [h c] at this
  omega

def Calls (A : Call → Prop) (_ : State ι κ) : Event κ ι → Prop
  | .start _ call => A call
  | _ => True

instance (A : Call → Prop) [DecidablePred A] (s : State ι κ) (e : Event κ ι) :
    Decidable (Calls A s e) :=
  match e with
  | .start _ call => inferInstanceAs (Decidable (A call))
  | .client _ _ | .take _ | .server _ _ => inferInstanceAs (Decidable True)

theorem afterParent_unsent (m : Make) (p : Path) : (afterParent m p).unsent = none := by
  apply afterParent_of (P := fun pc => pc.unsent = none) <;> intros <;> rfl

theorem beginCall_unsent (table : Path → Bool) (call : Call) : (beginCall table call).unsent = none := by
  apply beginCall_of (P := fun pc => pc.unsent = none) fun m p _ _ => afterParent_unsent m p
  all_goals intros; rfl

theorem load_unsent (l : Load) : (load cfg l).unsent = none := by
  unfold load
  split <;> rfl

theorem parentFound_unsent (m : Make) (p : Path) (e : Entry) : (parentFound m p e).unsent = none := by
  unfold parentFound
  split
  · rfl
  · split <;> rfl

theorem writeFound_unsent (env : Env) (p : Path) (buf : List UInt8) (offset : Nat) (e : Entry) :
    (writeFound env p buf offset e).unsent = none := by
  unfold writeFound
  split
  · rfl
  · split <;> rfl

theorem Load.next_unsent (l : Load) : l.next.unsent = none := by
  cases l <;> rfl

theorem Local.unsent {s : State ι κ} {env : Env} {pc next : ClientPc} (h : Local cfg s env pc next) :
    pc.unsent = none ∧ next.unsent = none := by
  cases h with
  | parentMiss | readdir | rmMiss => exact ⟨rfl, load_unsent _⟩
  | parentHit | parentLoaded => exact ⟨rfl, parentFound_unsent _ _ _⟩
  | loadExists => exact ⟨rfl, Load.next_unsent _⟩
  | writeHit => exact ⟨rfl, writeFound_unsent _ _ _ _ _⟩
  | _ => exact ⟨rfl, rfl⟩

theorem issued_goOn {s : State ι κ} {c : κ} {pc : ClientPc} (before : (s.client c).unsent = none)
    (after : pc.unsent = none) : issued (setPc s c pc) = issued s := by
  funext c'
  by_cases other : c' = c
  · subst other
    simp [issued, setPc, before, after]
  · simp [issued, setPc, update_of_ne other]

theorem issued_decide {s : State ι κ} {c : κ} {call : Call} (before : (s.client c).unsent = none) :
    issued (setPc s c (.send call)) = update (issued s) c (issued s c ++ [call.msg]) := by
  funext c'
  by_cases other : c' = c
  · subst other
    simp only [issued, setPc, update_self, before]
    simp [ClientPc.unsent]
  · simp [issued, setPc, update_of_ne other]

theorem issued_send {s : State ι κ} {c : κ} {call : Call} {result : Int}
    (at_pc : s.client c = .send call) :
    issued (setPc { s with out := update s.out c (s.out c ++ [call.msg]) } c (.returning call result)) =
      issued s := by
  funext c'
  by_cases other : c' = c
  · subst other
    simp [issued, setPc, at_pc, ClientPc.unsent]
  · simp [issued, setPc, update_of_ne other]

theorem afterParent_running (m : Make) (p : Path) : (afterParent m p).running = some ⟨.make m, p⟩ := by
  apply afterParent_of (P := fun pc => pc.running = some ⟨.make m, p⟩) <;> intros <;> rfl

theorem beginCall_running (table : Path → Bool) (call : Call) :
    (beginCall table call).running = some call := by
  apply beginCall_of (P := fun pc => pc.running = some call)
  · rintro m p rfl _
    exact afterParent_running m p
  · rintro m p rfl _ _
    rfl
  · rintro p rfl
    rfl
  · rintro p buf offset rfl
    rfl

theorem load_running (l : Load) : (load cfg l).running = some l.call := by
  unfold load
  split <;> rfl

theorem parentFound_running (m : Make) (p : Path) (e : Entry) :
    (parentFound m p e).running = some ⟨.make m, p⟩ := by
  unfold parentFound
  split
  · rfl
  · split <;> rfl

theorem Load.next_running (l : Load) : l.next.running = some l.call := by
  cases l <;> rfl

theorem afterSet_running (m : Make) (p : Path) : (afterSet m p).running = some ⟨.make m, p⟩ := by
  cases m <;> rfl

theorem writeFound_running {env : Env} {p : Path} {buf : List UInt8} {offset : Nat} {e : Entry}
    {call : Call} (h : (writeFound env p buf offset e).running = some call) :
    call = ⟨.write buf offset, p⟩ := by
  unfold writeFound at h
  split at h
  · exact (Option.some.inj h).symm
  · split at h
    · exact (Option.some.inj h).symm
    · cases h

theorem Local.running {s : State ι κ} {env : Env} {pc next : ClientPc} (h : Local cfg s env pc next)
    {call : Call} (after : next.running = some call) : pc.running = some call := by
  cases h with
  | writeHit _ => exact congrArg some (writeFound_running after).symm
  | parentMiss | readdir | rmMiss => exact (load_running _).symm.trans after
  | parentHit | parentLoaded => exact (parentFound_running _ _ _).symm.trans after
  | loadExists => exact (Load.next_running _).symm.trans after
  | parentLost | opendirFail | childRegetLost | rmLost | writeMiss => cases after
  | _ => exact after

theorem Move.running {s t : State ι κ} {e : Event κ ι} (move : Move cfg s e t) {c : κ} {call : Call}
    (after : (t.client c).running = some call) :
    (s.client c).running = some call ∨ e = .start c call := by
  have at_other : ∀ {u : State ι κ} {c' pc}, u.client = s.client →
      ((setPc u c' pc).client c).running = some call →
      (c' = c → pc.running = some call → (s.client c').running = some call ∨ e = .start c call) →
      (s.client c).running = some call ∨ e = .start c call := by
    intro u c' pc client h here
    by_cases other : c' = c
    · subst other
      exact here rfl (by simpa [setPc] using h)
    · have same : (setPc u c' pc).client c = s.client c := by
        rw [setPc_client, client, update_of_ne (Ne.symm other)]
      exact .inl (same ▸ h)
  cases move with
  | start free =>
      refine at_other rfl after fun same h => .inr ?_
      rw [beginCall_running] at h
      cases h
      rw [same]
  | goOn at_pc goes => exact at_other rfl after fun _ h => .inl (at_pc ▸ goes.running h)
  | parentAdd at_pc =>
      refine at_other rfl after fun _ h => .inl ?_
      rw [afterParent_running] at h
      exact at_pc ▸ h
  | loadAdd at_pc =>
      refine at_other rfl after fun _ h => .inl ?_
      rw [Load.next_running] at h
      exact at_pc ▸ h
  | addSet at_pc =>
      refine at_other rfl after fun _ h => .inl ?_
      rw [afterSet_running] at h
      exact at_pc ▸ h
  | childCas at_pc | add at_pc | addAgain at_pc | rmCas at_pc | rmLate at_pc | writeCas at_pc
  | send at_pc => exact at_other rfl after fun _ h => .inl (at_pc ▸ h)
  | ret at_pc => exact at_other rfl after fun _ h => by cases h
  | take | rmVoid | rmFound | fail | rmDel | dropWrite | openWrite | writeVoid | writeRead =>
      exact .inl after
  | @succeed i env c m dfs pc call =>
      rw [succeed_client] at after
      exact .inl after
  | @writeBack i env c p n data pc =>
      rw [finish_client, writeBack_client] at after
      exact .inl after

theorem afterParent_outcome {m : Make} {q : Path} {x : Call × Int}
    (h : (afterParent m q).outcome = some x) : x.2 = -1 := by
  revert h
  apply afterParent_of (P := fun pc => pc.outcome = some x → x.2 = -1)
  · intro _ is
    cases is
  · rintro ⟨rfl⟩
    rfl

theorem beginCall_outcome {table : Path → Bool} {call : Call} {x : Call × Int}
    (h : (beginCall table call).outcome = some x) : x.2 = -1 := by
  revert h
  apply beginCall_of (P := fun pc => pc.outcome = some x → x.2 = -1) fun m p _ _ => afterParent_outcome
  all_goals intros; rename_i is; cases is

theorem Local.outcome {s : State ι κ} {env : Env} {pc next : ClientPc} (h : Local cfg s env pc next) :
    pc.outcome = none ∧ ∀ x, next.outcome = some x → x.2 = -1 := by
  refine ⟨by cases h <;> rfl, fun x after => ?_⟩
  cases h with
  | parentMiss | readdir | rmMiss =>
      unfold load at after
      split at after
      · cases after
      · exact (Option.some.inj after) ▸ rfl
  | parentHit | parentLoaded =>
      unfold parentFound at after
      split at after
      · exact (Option.some.inj after) ▸ rfl
      · split at after <;> cases after
  | @loadExists l => cases l <;> cases after
  | writeHit =>
      unfold writeFound at after
      split at after
      · exact (Option.some.inj after) ▸ rfl
      · split at after <;> cases after
  | childLost | statFail | addLost | addFails | writeLost => exact (Option.some.inj after) ▸ rfl
  | _ => cases after

theorem serving_of_attempt {s : State ι κ} {i : ι} {c : κ} {m : Msg}
    (pc : s.server i = .attempt c m ∨ s.server i = .retry c m) : (s.server i).serving = some (c, m) := by
  rcases pc with pc | pc <;> (rw [pc]; rfl)

structure Queued (cfg : Config ι κ) (s : State ι κ) : Prop where
  bound : ∀ c, s.done c ≤ (s.out c).length
  serving : ∀ {i c m}, (s.server i).serving = some (c, m) →
    cfg.home c = i ∧ (s.out c)[s.done c]? = some m

theorem Queued.initial {s : State ι κ} (h : Initial cfg s) : Queued cfg s where
  bound c := by simp [h.done c]
  serving {i c m} serves := by simp [h.server i, ServerPc.serving] at serves

theorem Queued.client {s t : State ι κ} (q : Queued cfg s) (server : t.server = s.server)
    (done : t.done = s.done) (out : ∀ c, s.out c <+: t.out c) : Queued cfg t where
  bound c := done ▸ (q.bound c).trans (out c).length_le
  serving {i c m} serves := by
    rw [server] at serves
    obtain ⟨home, head⟩ := q.serving serves
    obtain ⟨rest, extends_⟩ := out c
    rw [done, ← extends_, List.getElem?_append_left (List.getElem?_eq_some_iff.mp head).1]
    exact ⟨home, head⟩

theorem Queued.goOn {s t : State ι κ} (q : Queued cfg s) {i : ι} {pc : ServerPc κ}
    (server : t.server = update s.server i pc) (done : t.done = s.done) (out : t.out = s.out)
    (same : pc.serving = (s.server i).serving) : Queued cfg t where
  bound c := by rw [done, out]; exact q.bound c
  serving {j c m} serves := by
    rw [done, out]
    by_cases here : j = i
    · subst here
      rw [server, update_self, same] at serves
      exact q.serving serves
    · rw [server, update_of_ne here] at serves
      exact q.serving serves

theorem dispatch_serving (c : κ) (m : Msg) : (dispatch c m).serving = some (c, m) := by
  obtain ⟨opt, p⟩ := m
  cases opt <;> rfl

theorem Queued.take {s t : State ι κ} (q : Queued cfg s) {c : κ} {m : Msg}
    (head : (s.out c)[s.done c]? = some m)
    (server : t.server = update s.server (cfg.home c) (dispatch c m)) (done : t.done = s.done)
    (out : t.out = s.out) : Queued cfg t where
  bound c := by rw [done, out]; exact q.bound c
  serving {j c' m'} serves := by
    rw [done, out]
    by_cases here : j = cfg.home c
    · subst here
      rw [server, update_self, dispatch_serving] at serves
      cases serves
      exact ⟨rfl, head⟩
    · rw [server, update_of_ne here] at serves
      exact q.serving serves

theorem Queued.finish {s t : State ι κ} (q : Queued cfg s) {i : ι} {c : κ} {m : Msg}
    (serves : (s.server i).serving = some (c, m)) (server : t.server = update s.server i .recv)
    (done : t.done = update s.done c (s.done c + 1)) (out : t.out = s.out) : Queued cfg t where
  bound c' := by
    rw [done, out]
    by_cases here : c' = c
    · subst here
      rw [update_self]
      exact (List.getElem?_eq_some_iff.mp (q.serving serves).2).1
    · rw [update_of_ne here]
      exact q.bound c'
  serving {j c' m'} serves' := by
    by_cases here : j = i
    · subst here
      rw [server, update_self] at serves'
      cases serves'
    · rw [server, update_of_ne here] at serves'
      obtain ⟨home, head⟩ := q.serving serves'
      have other : c' ≠ c := by
        rintro rfl
        exact here (home.symm.trans (q.serving serves).1)
      rw [done, out, update_of_ne other]
      exact ⟨home, head⟩

theorem Queued.move {s t : State ι κ} {e : Event κ ι} (q : Queued cfg s) (move : Move cfg s e t) :
    Queued cfg t := by
  cases move with
  | start | goOn | parentAdd | loadAdd | childCas | add | addAgain | addSet | rmCas | rmLate | writeCas
  | ret => exact q.client rfl rfl fun _ => List.prefix_rfl
  | @send c env call at_pc =>
      refine q.client rfl rfl fun c' => ?_
      by_cases here : c' = c
      · subst here
        simp [setPc]
      · simp [setPc, update_of_ne here]
  | take pc head => exact q.take head rfl rfl rfl
  | rmVoid pc | dropWrite pc | writeVoid pc | rmDel pc =>
      exact q.finish (congrArg ServerPc.serving pc) rfl rfl rfl
  | rmFound pc | openWrite pc => exact q.goOn rfl rfl rfl (congrArg ServerPc.serving pc).symm
  | @writeRead i env c p n e pc entry =>
      refine q.goOn rfl rfl rfl ?_
      rw [pc]
      unfold writeRead
      split <;> rfl
  | fail pc =>
      exact q.goOn rfl rfl rfl (serving_of_attempt pc).symm
  | @succeed i env c m dfs pc call =>
      have serves : (s.server i).serving = some (c, m) := by
        rcases pc with pc | pc <;> rw [pc] <;> rfl
      unfold succeed
      split
      · rename_i opt
        refine q.goOn rfl rfl rfl ?_
        rw [serves]
        obtain ⟨_, p⟩ := m
        cases opt
        rfl
      all_goals exact q.finish serves rfl rfl rfl
  | @writeBack i env c p n data pc =>
      have serves := congrArg ServerPc.serving pc
      unfold writeBack
      split <;> exact q.finish serves rfl rfl rfl

inductive Traffic (s t : State ι κ) : Event κ ι → Prop
  | none {e} (same : issued t = issued s) (done : t.done = s.done) : Traffic s t e
  | issue {c env call} (runs : (s.client c).running = some call)
      (more : issued t = update (issued s) c (issued s c ++ [call.msg])) (done : t.done = s.done) :
      Traffic s t (.client c env)
  | finish {i env c m} (serves : (s.server i).serving = some (c, m)) (same : issued t = issued s)
      (done : t.done = update s.done c (s.done c + 1)) : Traffic s t (.server i env)

theorem Move.traffic {s t : State ι κ} {e : Event κ ι} (move : Move cfg s e t) : Traffic s t e := by
  have goOn : ∀ {u : State ι κ} {c env pc next}, s.client c = pc → pc.unsent = none →
      next.unsent = none → u.client = s.client → u.out = s.out → u.done = s.done →
      Traffic s (setPc u c next) (.client c env) := by
    intro u c env pc next at_pc before after client out done
    have same : issued (setPc u c next) = issued (setPc s c next) := by
      funext c'
      simp only [issued, setPc, client, out]
    exact .none (same.trans (issued_goOn (at_pc ▸ before) after)) done
  have decide : ∀ {u : State ι κ} {c env pc call}, s.client c = pc → pc.unsent = none →
      pc.running = some call → u.client = s.client → u.out = s.out → u.done = s.done →
      Traffic s (setPc u c (.send call)) (.client c env) := by
    intro u c env pc call at_pc before runs client out done
    have same : issued (setPc u c (.send call)) = issued (setPc s c (.send call)) := by
      funext c'
      simp only [issued, setPc, client, out]
    exact .issue (at_pc ▸ runs) (same.trans (issued_decide (at_pc ▸ before))) done
  cases move with
  | @start c call free =>
      exact .none (issued_goOn (by rw [free]; rfl) (beginCall_unsent _ _)) rfl
  | goOn at_pc goes => exact goOn at_pc goes.unsent.1 goes.unsent.2 rfl rfl rfl
  | parentAdd at_pc => exact goOn at_pc rfl (afterParent_unsent _ _) rfl rfl rfl
  | loadAdd at_pc => exact goOn at_pc rfl (Load.next_unsent _) rfl rfl rfl
  | childCas at_pc => exact goOn at_pc rfl rfl rfl rfl rfl
  | add at_pc | addAgain at_pc | rmCas at_pc | rmLate at_pc | writeCas at_pc =>
      exact decide at_pc rfl rfl rfl rfl rfl
  | @addSet c env m p v at_pc =>
      cases m with
      | mkdir => exact goOn at_pc rfl rfl rfl rfl rfl
      | create | createWrite buf => exact decide at_pc rfl rfl rfl rfl rfl
  | send at_pc => exact .none (issued_send at_pc) rfl
  | ret at_pc => exact goOn at_pc rfl rfl rfl rfl rfl
  | take | rmFound | fail | openWrite | writeRead => exact .none rfl rfl
  | rmVoid pc | dropWrite pc | writeVoid pc | rmDel pc =>
      exact .finish (congrArg ServerPc.serving pc) rfl rfl
  | @succeed i env c m dfs pc call =>
      have serves := serving_of_attempt pc
      unfold Commit.succeed
      split
      · exact .none rfl rfl
      all_goals exact .finish serves rfl rfl
  | @writeBack i env c p n data pc =>
      have serves := congrArg ServerPc.serving pc
      unfold Commit.writeBack
      split <;> exact .finish serves rfl rfl

variable {s : State ι κ}

theorem Pending.congr {t : State ι κ} (same : issued t = issued s) (done : t.done = s.done) {c : κ}
    {n : Nat} {m : Msg} : Pending t c n m ↔ Pending s c n m := by
  constructor
  · rintro ⟨message, waits⟩
    exact ⟨same ▸ message, done ▸ waits⟩
  · rintro ⟨message, waits⟩
    exact ⟨same ▸ message, done ▸ waits⟩

theorem Queued.done_le (q : Queued cfg s) (c : κ) : s.done c ≤ (issued s c).length := by
  have := q.bound c
  simp only [issued, List.length_append]
  omega

theorem Pending.issue (q : Queued cfg s) {t : State ι κ} {c : κ} {new : Msg}
    (more : issued t = update (issued s) c (issued s c ++ [new])) (done : t.done = s.done) {c' : κ}
    {n : Nat} {m : Msg} : Pending t c' n m ↔
      Pending s c' n m ∨ c' = c ∧ n = (issued s c).length ∧ m = new := by
  have bound := q.done_le c
  by_cases here : c' = c
  · subst here
    rcases lt_trichotomy n (issued s c').length with less | rfl | greater
    · constructor
      · rintro ⟨message, waits⟩
        rw [more, update_self, List.getElem?_append_left less] at message
        exact .inl ⟨message, done ▸ waits⟩
      · rintro (⟨message, waits⟩ | ⟨-, rfl, -⟩)
        · exact ⟨by rwa [more, update_self, List.getElem?_append_left less], done ▸ waits⟩
        · omega
    · constructor
      · rintro ⟨message, -⟩
        rw [more, update_self, List.getElem?_concat_length] at message
        exact .inr ⟨rfl, rfl, (Option.some.inj message).symm⟩
      · rintro (⟨message, -⟩ | ⟨-, -, rfl⟩)
        · simp at message
        · exact ⟨by rw [more, update_self, List.getElem?_concat_length], by rwa [done]⟩
    · constructor
      · rintro ⟨message, -⟩
        have short := (List.getElem?_eq_some_iff.mp message).1
        rw [more, update_self, List.length_append, List.length_singleton] at short
        omega
      · rintro (⟨message, -⟩ | ⟨-, rfl, -⟩)
        · have short := (List.getElem?_eq_some_iff.mp message).1
          omega
        · omega
  · constructor
    · rintro ⟨message, waits⟩
      rw [more, update_of_ne here] at message
      exact .inl ⟨message, done ▸ waits⟩
    · rintro (⟨message, waits⟩ | ⟨same, -⟩)
      · exact ⟨by rwa [more, update_of_ne here], done ▸ waits⟩
      · exact absurd same here

theorem Pending.finish {t : State ι κ} {c : κ} (same : issued t = issued s)
    (done : t.done = update s.done c (s.done c + 1)) {c' : κ} {n : Nat} {m : Msg} :
    Pending t c' n m ↔ Pending s c' n m ∧ ¬(c' = c ∧ n = s.done c) := by
  by_cases here : c' = c
  · subst here
    constructor
    · rintro ⟨message, waits⟩
      rw [done, update_self] at waits
      exact ⟨⟨same ▸ message, by omega⟩, by omega⟩
    · rintro ⟨⟨message, waits⟩, other⟩
      have later : n ≠ s.done c' := fun h => other ⟨rfl, h⟩
      refine ⟨same ▸ message, ?_⟩
      rw [done, update_self]
      omega
  · constructor
    · rintro ⟨message, waits⟩
      rw [done, update_of_ne here] at waits
      exact ⟨⟨same ▸ message, waits⟩, fun h => here h.1⟩
    · rintro ⟨⟨message, waits⟩, -⟩
      exact ⟨same ▸ message, by rwa [done, update_of_ne here]⟩

def Awaited (s : State ι κ) (m : Msg) : Prop := ∃ c n, Pending s c n m

theorem awaited_iff_mem_drop {m : Msg} : Awaited s m ↔ ∃ c, m ∈ (issued s c).drop (s.done c) := by
  refine exists_congr fun c => ?_
  rw [List.mem_iff_getElem?]
  constructor
  · rintro ⟨n, message, waits⟩
    exact ⟨n - s.done c, by rwa [List.getElem?_drop, Nat.add_sub_cancel' waits]⟩
  · rintro ⟨n, message⟩
    exact ⟨s.done c + n, by rwa [← List.getElem?_drop], Nat.le_add_right _ _⟩

instance [Fintype κ] (m : Msg) : Decidable (Awaited s m) := decidable_of_iff _ awaited_iff_mem_drop.symm

theorem Drained.not_awaited (h : Drained s) {m : Msg} : ¬Awaited s m := fun ⟨_, _, pending⟩ =>
  h.not_pending pending

theorem Queued.head (q : Queued cfg s) {i : ι} {c : κ} {m : Msg} (serves : (s.server i).serving = some (c, m)) :
    Pending s c (s.done c) m where
  message := by
    obtain ⟨less, rfl⟩ := List.getElem?_eq_some_iff.mp (q.serving serves).2
    simp [Commit.issued, List.getElem?_append_left less, less]
  waits := le_rfl

theorem Queued.awaited (q : Queued cfg s) {i : ι} {c : κ} {m : Msg}
    (serves : (s.server i).serving = some (c, m)) : Awaited s m :=
  ⟨c, _, q.head serves⟩

theorem Drained.not_serving (h : Drained s) (q : Queued cfg s) (i : ι) : (s.server i).serving = none := by
  cases serves : (s.server i).serving with
  | none => rfl
  | some x => exact absurd (q.awaited serves) h.not_awaited

theorem Awaited.congr {t : State ι κ} {m : Msg} (same : issued t = issued s) (done : t.done = s.done) :
    Awaited t m ↔ Awaited s m := by
  simp only [Awaited, Pending.congr same done]

theorem Awaited.issue (q : Queued cfg s) {t : State ι κ} {c : κ} {new : Msg}
    (more : issued t = update (issued s) c (issued s c ++ [new])) (done : t.done = s.done) {m : Msg} :
    Awaited t m ↔ Awaited s m ∨ m = new := by
  simp only [Awaited, Pending.issue q more done]
  constructor
  · rintro ⟨c', n, old | ⟨-, -, rfl⟩⟩
    · exact .inl ⟨c', n, old⟩
    · exact .inr rfl
  · rintro (⟨c', n, old⟩ | rfl)
    · exact ⟨c', n, .inl old⟩
    · exact ⟨c, _, .inr ⟨rfl, rfl, rfl⟩⟩

theorem Awaited.of_finish {t : State ι κ} {c : κ} {m : Msg} (same : issued t = issued s)
    (done : t.done = update s.done c (s.done c + 1)) : Awaited t m → Awaited s m := by
  rintro ⟨c', n, pending⟩
  exact ⟨c', n, ((Pending.finish same done).mp pending).1⟩

theorem Awaited.finish (q : Queued cfg s) {t : State ι κ} {i : ι} {c : κ} {m m' : Msg}
    (serves : (s.server i).serving = some (c, m)) (same : issued t = issued s)
    (done : t.done = update s.done c (s.done c + 1)) (other : m' ≠ m) : Awaited t m' ↔ Awaited s m' := by
  simp only [Awaited, Pending.finish same done]
  constructor
  · rintro ⟨c', n, old, -⟩
    exact ⟨c', n, old⟩
  · rintro ⟨c', n, old⟩
    refine ⟨c', n, old, fun ⟨here, first⟩ => other ?_⟩
    subst here first
    exact Option.some.inj (old.message.symm.trans (q.head serves).message)

theorem succeed_frame (s : State ι κ) (i : ι) (c : κ) (m : Msg) (dfs : Path → Option Node) :
    (succeed s i c m dfs).client = s.client ∧ (succeed s i c m dfs).table = s.table ∧
      (succeed s i c m dfs).cache = s.cache ∧ (succeed s i c m dfs).dfs = dfs := by
  unfold succeed
  split <;> exact ⟨rfl, rfl, rfl, rfl⟩

theorem succeed_made {i : ι} {c : κ} {m : Msg} (dfs : Path → Option Node) (makes : m.opt ≠ .rm) :
    (succeed s i c m dfs).server = update s.server i .recv ∧ (succeed s i c m dfs).dfs = dfs ∧
      issued (succeed s i c m dfs) = issued s ∧
      (succeed s i c m dfs).done = update s.done c (s.done c + 1) := by
  unfold succeed
  split
  · exact absurd ‹m.opt = .rm› makes
  all_goals exact ⟨rfl, rfl, rfl, rfl⟩

structure Within (cfg : Config ι κ) (A : Call → Prop) (s : State ι κ) : Prop where
  queued : Queued cfg s
  running : ∀ {c call}, (s.client c).running = some call → A call
  issued : ∀ {c m}, m ∈ issued s c → ∃ call, A call ∧ m = call.msg

variable {A : Call → Prop}

theorem Within.initial (h : Initial cfg s) : Within cfg A s where
  queued := .initial h
  running {c call} runs := by
    rw [h.client c] at runs
    cases runs
  issued {c m} member := by simp [Commit.issued, h.out c, h.client c, ClientPc.unsent] at member

theorem Within.move {t : State ι κ} {e : Event κ ι} (w : Within cfg A s) (only : Calls A s e)
    (move : Move cfg s e t) : Within cfg A t where
  queued := w.queued.move move
  running {c call} runs := by
    rcases move.running runs with before | rfl
    · exact w.running before
    · exact only
  issued {c m} member := by
    cases move.traffic with
    | none same | finish _ same =>
        rw [same] at member
        exact w.issued member
    | @issue c' env call runs more =>
        rw [more] at member
        by_cases here : c = c'
        · subst here
          rw [update_self, List.mem_append, List.mem_singleton] at member
          rcases member with old | rfl
          · exact w.issued old
          · exact ⟨call, w.running runs, rfl⟩
        · rw [update_of_ne here] at member
          exact w.issued member

theorem within_of_reachable {ok : State ι κ → Event κ ι → Prop} (only : ∀ s e, ok s e → Calls A s e)
    (h : (system cfg).Reachable ok s) : Within cfg A s :=
  h.invariant (fun _ => .initial) fun s e _ _ w guard step => w.move (only s e guard) (move_of_step step)

theorem Within.head (w : Within cfg A s) {i : ι} {c : κ} {m : Msg}
    (serves : (s.server i).serving = some (c, m)) : Pending s c (s.done c) m :=
  w.queued.head serves

theorem Within.served (w : Within cfg A s) {i : ι} {c : κ} {m : Msg}
    (serves : (s.server i).serving = some (c, m)) : ∃ call, A call ∧ m = call.msg :=
  w.issued (List.mem_of_getElem? (w.head serves).message)

end Pacon.Commit
