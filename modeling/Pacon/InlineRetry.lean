import Pacon.Lib.Drain
import Pacon.Lib.Retry
import Pacon.InlineWrite

/-!
# Every inline write returns

The loop of `pacon_write_new` has no bound of its own: a client can be overtaken again and again. But each
time another client's write has been stored, and that one leaves its loop.
-/

set_option linter.unusedSectionVars false

namespace Pacon.InlineWrite
open Lib Function Commit

def Pc.stage : Pc → Stage
  | .idle | .beyond => .out
  | .get _ => .reading
  | .cas _ _ version => .trying version
  | .returning .. => .leaving

def Pc.call : Pc → Option Write
  | .get w => some w
  | .cas w _ _ => some w
  | .returning w _ => some w
  | .idle | .beyond => none

/-- The calls that a client starts in a run, in order. -/
def started {κ : Type} [DecidableEq κ] (c : κ) (es : List (Event κ)) : List Write :=
  es.filterMap fun
    | .start d w => if d = c then some w else none
    | .client _ _ => none

def brings {κ : Type} [Fintype κ] : Event κ → Nat
  | .start _ _ => callPrice (Fintype.card κ)
  | .client _ _ => 0

def calls {κ : Type} (es : List (Event κ)) : Nat :=
  es.countP fun
    | .start _ _ => true
    | .client _ _ => false

section
variable {κ : Type} [DecidableEq κ] {first : Value} {s t : State κ} {c : κ}

def stages (s : State κ) (c : κ) : Stage := (s.client c).stage

theorem stages_setPc (s : State κ) (c : κ) (pc : Pc) : stages (setPc s c pc) = update (stages s) c pc.stage := by
  funext d
  by_cases same : d = c
  · subst same
    simp only [stages, setPc, update_self]
  · simp only [stages, setPc, update_of_ne same]

theorem beginWrite_stage (w : Write) : (beginWrite w).stage = .reading ∨ (beginWrite w).stage = .leaving := by
  unfold beginWrite
  split
  · exact .inr rfl
  · exact .inl rfl

theorem writeFound_move (env : Env) (w : Write) (e : Entry) :
    RetryMove e.cas .reading e.cas (writeFound env w e).stage := by
  unfold writeFound
  split
  · exact .refuse (.inl rfl)
  · split
    · exact .read
    · exact .refuse (.inr rfl)

theorem clientStep_retry {env : Env} (h : clientStep s c env = some t) :
    ∃ next, stages t = update (stages s) c next ∧ RetryMove s.entry.cas (stages s c) t.entry.cas next := by
  unfold clientStep at h
  have stage (pc : Pc) (here : s.client c = pc) : stages s c = pc.stage := by rw [stages, here]
  split at h
  · cases h
  · cases h
  · rename_i w pc
    cases h
    rw [stage _ pc]
    exact ⟨_, stages_setPc .., writeFound_move env w s.entry⟩
  · rename_i w v version pc
    rw [stage _ pc]
    cases h
    split
    · rename_i current
      subst current
      exact ⟨_, stages_setPc .., .swap⟩
    · rename_i overtaken
      exact ⟨_, stages_setPc .., .retry (Ne.symm overtaken)⟩
  · rename_i w result pc
    rw [stage _ pc]
    cases h
    exact ⟨_, stages_setPc .., .leave⟩

def heard (s : State κ) (c : κ) : List Write :=
  (s.returned c).map Prod.fst ++ (s.client c).call.toList

theorem heard_setPc (s : State κ) {c d : κ} (pc : Pc) (same : d = c → pc.call = (s.client c).call) :
    heard (setPc s c pc) d = heard s d := by
  by_cases here : d = c
  · subst here
    simp only [heard, setPc, update_self, same rfl]
  · simp only [heard, setPc, update_of_ne here]

theorem writeFound_call {env : Env} {w : Write} {e : Entry} (within : writeFound env w e ≠ .beyond) :
    (writeFound env w e).call = some w := by
  unfold writeFound at within ⊢
  split
  · rfl
  · split
    · rfl
    · rename_i reaches large
      rw [if_neg reaches, if_neg large] at within
      exact absurd rfl within

theorem heard_client {env : Env} (h : clientStep s c env = some t) (within : t.client c ≠ .beyond) (d : κ) :
    heard t d = heard s d := by
  unfold clientStep at h
  split at h
  · cases h
  · cases h
  · rename_i w pc
    cases h
    have goesOn : writeFound env w s.entry ≠ .beyond := by
      intro out
      exact within (by rw [out]; exact update_self ..)
    exact heard_setPc s _ fun _ => by rw [writeFound_call goesOn, pc]; rfl
  · rename_i w v version pc
    cases h
    split
    · exact heard_setPc { s with entry := ⟨s.clock, v⟩, clock := s.clock + 1, swapped := s.swapped ++ [(c, w)] } _
        fun _ => by rw [pc]; rfl
    · exact heard_setPc s _ fun _ => by rw [pc]; rfl
  · rename_i w result pc
    cases h
    by_cases here : d = c
    · subst here
      simp [heard, setPc, pc, Pc.call]
    · simp only [heard, setPc, update_of_ne here]

theorem heard_step {e : Event κ} (h : step s e = some t) (within : ∀ c, t.client c ≠ .beyond) (d : κ) :
    heard t d = heard s d ++ started d [e] := by
  cases e with
  | start c w =>
      simp only [step] at h
      split at h
      · rename_i pc
        cases h
        have call : (beginWrite w).call = some w := by
          unfold beginWrite
          split <;> rfl
        by_cases here : c = d
        · subst here
          simp only [heard, setPc, update_self, call, pc, started]
          simp [Pc.call]
        · simp [heard, setPc, started, here, update_of_ne (Ne.symm here)]
      · cases h
  | client c env =>
      rw [heard_client h (within c)]
      exact (List.append_nil _).symm

theorem call_eq_none : (s.client c).call = none ↔ ∀ env, clientStep s c env = none := by
  unfold clientStep
  constructor
  · intro none env
    cases pc : s.client c with
    | idle | beyond => rfl
    | get | cas | returning =>
        rw [pc] at none
        cases none
  · intro rests
    have rest := rests .zero
    cases pc : s.client c with
    | idle | beyond => rfl
    | get | cas | returning =>
        rw [pc] at rest
        cases rest

theorem linear_step (start : Fits first) {e : Event κ} (linear : Linear first s) (guard : InlineOnly s e)
    (h : (system κ first).step s e = some t) : Linear first t :=
  linear.step start guard h

theorem heard_run (start : Fits first) (linear : Linear first s) {es : List (Event κ)}
    (runs : (system κ first).run InlineOnly s es = some t) (d : κ) : heard t d = heard s d ++ started d es := by
  induction es generalizing s with
  | nil =>
      cases runs
      exact (List.append_nil _).symm
  | cons e es ih =>
      rw [System.run] at runs
      split at runs
      · rename_i guard
        obtain ⟨u, step, rest⟩ := Option.bind_eq_some_iff.mp runs
        have next := linear_step start linear guard step
        have split : started d ([e] ++ es) = started d [e] ++ started d es :=
          List.filterMap_append
        rw [List.singleton_append] at split
        rw [ih next rest, heard_step step next.within d, split, List.append_assoc]
      · cases runs

variable [Fintype κ]

def work (s : State κ) : Nat := retryWork s.entry.cas (stages s)

theorem work_step {e : Event κ} (h : step s e = some t) : work t < work s + brings e := by
  cases e with
  | start c w =>
      simp only [step] at h
      split at h
      · rename_i pc
        cases h
        have outside : stages s c = .out := by rw [stages, pc]; rfl
        have less : retryWork s.entry.cas (update (stages s) c (beginWrite w).stage) <
            retryWork s.entry.cas (stages s) + callPrice (Fintype.card κ) :=
          retryWork_enter outside (beginWrite_stage w)
        rwa [← stages_setPc] at less
      · cases h
  | client c env =>
      obtain ⟨next, stage, move⟩ := clientStep_retry h
      rw [work, stage]
      exact move.less

theorem charges (start : Fits first) : (system κ first).Charges InlineOnly (Linear first) work brings where
  keeps := linear_step start
  less _ _ h := work_step h

theorem sum_brings (es : List (Event κ)) : (es.map brings).sum = calls es * callPrice (Fintype.card κ) := by
  induction es with
  | nil => simp [calls]
  | cons e es ih =>
      rw [List.map_cons, List.sum_cons, ih]
      cases e with
      | start c w =>
          simp only [calls, brings, List.countP_cons_of_pos]
          rw [Nat.succ_mul, Nat.add_comm]
      | client c env => simp [calls, brings]

theorem work_initial (h : Initial first s) : work s = 0 := by
  have out : stages s = fun _ => .out := by
    funext c
    rw [stages, h.client c]
    rfl
  rw [work, out, retryWork]
  exact Finset.sum_const_zero

/-- However the clients' steps interleave, a number of inline writes to one file takes no more steps than that
many times `2 n + 4`, the retries included; when no client can go on, every call has returned. -/
theorem inline_writes_return (start : Fits first) (initial : Initial first s) {es : List (Event κ)}
    (runs : (system κ first).run InlineOnly s es = some t) :
    es.length ≤ calls es * (2 * Fintype.card κ + 4) ∧
    ((∀ c env, clientStep t c env = none) → ∀ c, (t.returned c).map Prod.fst = started c es) := by
  have linear := linear_initial initial
  obtain ⟨last, bound⟩ := (charges start).length_run linear runs
  rw [work_initial initial, sum_brings, callPrice] at bound
  refine ⟨by omega, fun rests c => ?_⟩
  have done : (t.client c).call = none := call_eq_none.mpr (rests c)
  have before : heard s c = [] := by
    rw [heard, initial.returned c, initial.client c]
    rfl
  have hears := heard_run start linear runs c
  rwa [before, heard, done, Option.toList_none, List.append_nil, List.nil_append] at hears

def raceToEnd : List (Event Bool) := raceEvents ++ [.client false .zero, .client true .zero]

theorem inline_writes_return_race :
    ∃ t, (system Bool (newValue .zero .create)).run InlineOnly (initialState (newValue .zero .create)) raceToEnd = some t ∧
      raceToEnd.length ≤ 2 * (2 * 2 + 4) ∧ (t.returned true).map Prod.fst = [letterA] := by
  obtain ⟨first, -⟩ := fits_newValue .zero (List.not_mem_nil (a := 0)) (by decide)
  have initial : Initial (newValue .zero .create) (initialState (newValue .zero .create)) :=
    ⟨rfl, by decide, fun _ => rfl, fun _ => rfl, rfl⟩
  have ends : ((system Bool (newValue .zero .create)).run InlineOnly (initialState (newValue .zero .create)) raceToEnd).any
      (fun t => (t.client true).call.isNone && (t.client false).call.isNone) = true := rfl
  obtain ⟨t, runs, idle⟩ := (Option.any_eq_true ..).mp ends
  rw [Bool.and_eq_true, Option.isNone_iff_eq_none, Option.isNone_iff_eq_none] at idle
  obtain ⟨steps, returns⟩ := inline_writes_return first initial runs
  refine ⟨t, runs, steps, returns (fun c => ?_) true⟩
  cases c with
  | true => exact call_eq_none.mp idle.1
  | false => exact call_eq_none.mp idle.2

end
end Pacon.InlineWrite
