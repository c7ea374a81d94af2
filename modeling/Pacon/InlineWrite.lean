import Pacon.Lib.CasLoop
import Pacon.Commit.Model

/-!
# Concurrent inline writes to one file

`pacon_write_new` on a file whose entry stays in the cache and of which no client holds a DFS file:
the loop of `dmkv_get_cas` and `dmkv_cas`, with the memory the caller passes. `beyond` is where the
call goes on to write to the DFS.
-/

namespace Pacon.InlineWrite
open Lib Function Commit

/-- The arguments of a call: `buf` is what lies in memory from the buffer's first byte on. -/
structure Write where
  buf : List UInt8
  size : Nat
  offset : Nat
  readable : size ≤ buf.length
  terminated : 0 ∈ buf

/-- What `memcpy(new_data+offset, buf, size)` copies. -/
def Write.data (w : Write) : List UInt8 := w.buf.take w.size

inductive Pc
  | idle
  | get (w : Write)
  | cas (w : Write) (v : Value) (cas : Nat)
  | returning (w : Write) (result : Int)
  | beyond

structure State (κ : Type) where
  entry : Entry
  clock : Nat
  client : κ → Pc
  /-- History only: what the calls returned and the writes whose CAS succeeded. -/
  returned : κ → List (Write × Int)
  swapped : List (κ × Write)

inductive Event (κ : Type)
  | start (c : κ) (w : Write)
  | client (c : κ) (env : Env)

section
variable {κ : Type} [DecidableEq κ]

def setPc (s : State κ) (c : κ) (pc : Pc) : State κ := { s with client := update s.client c pc }

def beginWrite (w : Write) : Pc :=
  if w.size < (w.buf.takeWhile (· ≠ 0)).length then .returning w (-1) else .get w

def writeFound (env : Env) (w : Write) (e : Entry) : Pc :=
  if e.value.stat.size.toNat < w.offset then .returning w (-1)
  else if newSize e.value w.data w.offset < inlineMax - 1 then
    .cas w (writtenValue env e.value w.data w.offset) e.cas
  else .beyond

def clientStep (s : State κ) (c : κ) (env : Env) : Option (State κ) :=
  match s.client c with
  | .idle | .beyond => none
  | .get w => some (setPc s c (writeFound env w s.entry))
  | .cas w v cas => some <|
      if s.entry.cas = cas then
        setPc { s with entry := ⟨s.clock, v⟩
                       clock := s.clock + 1
                       swapped := s.swapped ++ [(c, w)] } c (.returning w w.size)
      else setPc s c (.get w)
  | .returning w result => some <| setPc
      { s with returned := update s.returned c (s.returned c ++ [(w, result)]) } c .idle

def step (s : State κ) : Event κ → Option (State κ)
  | .start c w =>
      match s.client c with
      | .idle => some (setPc s c (beginWrite w))
      | _ => none
  | .client c env => clientStep s c env

structure Initial (first : Value) (s : State κ) : Prop where
  value : s.entry.value = first
  clock : s.entry.cas < s.clock
  client : ∀ c, s.client c = .idle
  returned : ∀ c, s.returned c = []
  swapped : s.swapped = []

def system (κ : Type) [DecidableEq κ] (first : Value) : System (State κ) (Event κ) :=
  ⟨Initial first, step⟩

def Write.Inline (w : Write) : Prop := 0 ∉ w.data ∧ w.offset + w.size < inlineMax - 1

def InlineOnly (_ : State κ) : Event κ → Prop
  | .start _ w => w.Inline
  | .client _ _ => True

def Writes (w : Write) (old new : Value) : Prop :=
  w.Inline ∧ w.offset ≤ old.stat.size.toNat ∧ ∃ env, new = writtenValue env old w.data w.offset

structure Fits (v : Value) : Prop where
  sound : v.Sound
  short : v.data.length < inlineMax - 1

theorem Write.length_data (w : Write) : w.data.length = w.size := by
  rw [Write.data, List.length_take, Nat.min_eq_left w.readable]

theorem newSize_eq {v : Value} (sound : v.Sound) {buf : List UInt8} {offset : Nat} :
    newSize v buf offset = max (offset + buf.length) v.data.length := by
  rw [newSize, sound.size]

theorem writtenValue_data {v : Value} (sound : v.Sound) {buf : List UInt8} (nulFree : 0 ∉ buf)
    {offset : Nat} (inside : offset ≤ v.data.length) (env : Env) :
    (writtenValue env v buf offset).data = overwrite v.data buf offset := by
  have spliced := newData_strcpy sound.nulFree env.inlineData buf inside
  have size : newSize v buf offset = (overwrite v.data buf offset).length := by
    rw [newSize_eq sound, length_overwrite inside]
  unfold writtenValue
  dsimp only
  rw [sound.size, spliced, size]
  exact take_strcpy (nulFree_overwrite offset sound.nulFree nulFree) env.val

theorem writtenValue_sound {v : Value} (sound : v.Sound) {buf : List UInt8} (nulFree : 0 ∉ buf)
    {offset : Nat} (inside : offset ≤ v.data.length) (fits : newSize v buf offset < inlineMax - 1)
    (env : Env) : (writtenValue env v buf offset).Sound where
  nulFree := by
    rw [writtenValue_data sound nulFree inside]
    exact nulFree_overwrite offset sound.nulFree nulFree
  size := by
    rw [writtenValue_data sound nulFree inside, length_overwrite inside, ← newSize_eq sound]
    exact toNat_inlineSize fits

theorem Fits.newSize_lt {v : Value} (h : Fits v) {w : Write} (inline : w.Inline) :
    newSize v w.data w.offset < inlineMax - 1 := by
  have short := h.short
  have ends := inline.2
  rw [newSize_eq h.sound, w.length_data]
  omega

theorem Writes.fits {w : Write} {old new : Value} (h : Writes w old new) (fits : Fits old) :
    Fits new ∧ new.data = overwrite old.data w.data w.offset := by
  obtain ⟨inline, inside, env, rfl⟩ := h
  rw [fits.sound.size] at inside
  have data := writtenValue_data fits.sound inline.1 inside env
  have size := fits.newSize_lt inline
  refine ⟨⟨writtenValue_sound fits.sound inline.1 inside size env, ?_⟩, data⟩
  rwa [data, length_overwrite inside, ← newSize_eq fits.sound]

def Pc.attempt : Pc → Option (Attempt Write Value)
  | .cas w v version => some ⟨w, version, v⟩
  | _ => none

def Pc.write : Pc → Option Write
  | .get w => some w
  | .cas w _ _ => some w
  | .idle | .returning .. | .beyond => none

/-- What a call returns, known from the access that decides on it. -/
def Pc.outcome : Pc → Option (Write × Int)
  | .returning w result => some (w, result)
  | _ => none

def outcomes (s : State κ) (c : κ) : List (Write × Int) := s.returned c ++ (s.client c).outcome.toList

def item (s : State κ) : Item Value := ⟨s.entry.cas, s.entry.value⟩

def attempts (s : State κ) (c : κ) : Option (Attempt Write Value) := (s.client c).attempt

structure Linear (first : Value) (s : State κ) : Prop where
  loops : Consistent Writes first (item s) (attempts s) s.swapped
  clock : s.entry.cas < s.clock
  inline : ∀ c w, (s.client c).write = some w → w.Inline
  within : ∀ c, s.client c ≠ .beyond
  swapped : ∀ c, (s.swapped.filter (·.1 = c)).map Prod.snd =
    ((outcomes s c).filter (0 ≤ ·.2)).map Prod.fst
  results : ∀ c, ∀ x ∈ outcomes s c, x.2 = x.1.size ∨ x.2 = -1

theorem Linear.fits {first : Value} {s : State κ} (h : Linear first s) (start : Fits first) :
    Fits s.entry.value ∧ s.entry.value.data =
      (s.swapped.map Prod.snd).foldl (fun old w => overwrite old w.data w.offset) first.data :=
  h.loops.applied.foldl start fun _ _ _ fits does => does.fits fits

theorem linear_initial {first : Value} {s : State κ} (h : Initial first s) : Linear first s where
  loops := by
    have value : first = (item s).value := h.value.symm
    rw [h.swapped, value]
    exact .initial fun c => by rw [attempts, h.client c]; rfl
  clock := h.clock
  inline c w hand := by
    rw [h.client c] at hand
    cases hand
  within c := by simp [h.client c]
  swapped c := by simp [outcomes, h.swapped, h.returned, h.client, Pc.outcome]
  results c x member := by simp [outcomes, h.returned, h.client, Pc.outcome] at member

theorem attempts_setPc (s : State κ) (c : κ) (pc : Pc) :
    attempts (setPc s c pc) = update (attempts s) c pc.attempt := by
  funext d
  by_cases same : d = c
  · subst same
    simp [attempts, setPc]
  · simp [attempts, setPc, same]

theorem Linear.goOn {first : Value} {s : State κ} (h : Linear first s) {c : κ} {pc : Pc}
    (loops : Consistent Writes first (item s) (attempts (setPc s c pc)) s.swapped)
    (inline : ∀ w, pc.write = some w → w.Inline) (within : pc ≠ .beyond)
    (before : (s.client c).outcome = none) (after : ∀ x ∈ pc.outcome, x.2 = -1) :
    Linear first (setPc s c pc) := by
  have same : outcomes (setPc s c pc) c = outcomes s c ++ pc.outcome.toList := by
    simp [outcomes, setPc, before]
  have others : ∀ {d}, d ≠ c → (setPc s c pc).client d = s.client d :=
    fun differs => update_of_ne differs ..
  refine ⟨loops, h.clock, fun d w hand => ?_, fun d => ?_, fun d => ?_, fun d => ?_⟩
  all_goals by_cases here : d = c
  · subst here
    exact inline w (by simpa [setPc] using hand)
  · exact h.inline d w (by rwa [others here] at hand)
  · subst here
    simpa [setPc] using within
  · rw [others here]
    exact h.within d
  · subst here
    have none : (pc.outcome.toList.filter (0 ≤ ·.2)) = [] := by
      rw [List.filter_eq_nil_iff]
      intro x member
      have := after x (by simpa using member)
      simp [this]
    rw [same, List.filter_append, none, List.append_nil]
    exact h.swapped d
  · have : outcomes (setPc s c pc) d = outcomes s d := by
      rw [outcomes, others here]
      rfl
    rw [this]
    exact h.swapped d
  · subst here
    rw [same]
    intro x member
    rcases List.mem_append.mp member with old | new
    · exact h.results d x old
    · exact .inr (after x (by simpa using new))
  · have : outcomes (setPc s c pc) d = outcomes s d := by
      rw [outcomes, others here]
      rfl
    rw [this]
    exact h.results d

theorem Linear.ret {first : Value} {s : State κ} (h : Linear first s) {c : κ} {w : Write} {result : Int}
    (pc : s.client c = .returning w result) :
    Linear first (setPc { s with returned := update s.returned c (s.returned c ++ [(w, result)]) }
      c .idle) := by
  have same : ∀ d, outcomes (setPc { s with returned := update s.returned c (s.returned c ++ [(w, result)]) }
      c .idle) d = outcomes s d := by
    intro d
    by_cases here : d = c
    · subst here
      simp [outcomes, setPc, pc, Pc.outcome]
    · simp [outcomes, setPc, here]
  refine ⟨?_, h.clock, fun d v hand => ?_, fun d => ?_, fun d => ?_, fun d => ?_⟩
  · have drop : CasMove Writes (item s) (attempts s) s.swapped (item s)
        (update (attempts s) c none) s.swapped := .drop c
    rw [attempts_setPc]
    exact h.loops.move drop
  · by_cases here : d = c
    · subst here
      simp [setPc, Pc.write] at hand
    · exact h.inline d v (by simpa [setPc, here] using hand)
  · by_cases here : d = c
    · subst here
      simp [setPc]
    · simpa [setPc, here] using h.within d
  · rw [same]
    exact h.swapped d
  · rw [same]
    exact h.results d

theorem Linear.swap {first : Value} {s : State κ} (h : Linear first s) {c : κ} {w : Write} {v : Value}
    (pc : s.client c = .cas w v s.entry.cas) :
    Linear first (setPc { s with entry := ⟨s.clock, v⟩
                                 clock := s.clock + 1
                                 swapped := s.swapped ++ [(c, w)] } c (.returning w w.size)) := by
  have own : attempts s c = some ⟨w, s.entry.cas, v⟩ := by rw [attempts, pc]; rfl
  have store : CasMove Writes (item s) (attempts s) s.swapped ⟨s.clock, v⟩
      (update (attempts s) c none) (s.swapped ++ [(c, w)]) := .store own rfl h.clock
  refine ⟨?_, Nat.lt_succ_self _, fun d x hand => ?_, fun d => ?_, fun d => ?_, fun d => ?_⟩
  · rw [attempts_setPc]
    exact h.loops.move store
  all_goals by_cases here : d = c
  · subst here
    simp [setPc, Pc.write] at hand
  · exact h.inline d x (by simpa [setPc, here] using hand)
  · subst here
    simp [setPc]
  · simpa [setPc, here] using h.within d
  · subst here
    have before := h.swapped d
    simp only [outcomes, pc, Pc.outcome, Option.toList_none, List.append_nil] at before
    simp [outcomes, setPc, Pc.outcome, before]
  · have away : c ≠ d := Ne.symm here
    simpa [outcomes, setPc, here, away] using h.swapped d
  · subst here
    intro x member
    have before := h.results d x
    simp only [outcomes, setPc, update_self, Pc.outcome, Option.toList_some, List.mem_append,
      List.mem_singleton] at member
    rcases member with old | rfl
    · exact before (List.mem_append_left _ old)
    · exact .inl rfl
  · simpa [outcomes, setPc, here] using h.results d

theorem Linear.start {first : Value} {s : State κ} (h : Linear first s) {c : κ} {w : Write}
    (pc : s.client c = .idle) (inline : w.Inline) : Linear first (setPc s c (beginWrite w)) := by
  have drop : CasMove Writes (item s) (attempts s) s.swapped (item s)
      (update (attempts s) c none) s.swapped := .drop c
  have none : (beginWrite w).attempt = none := by
    unfold beginWrite
    split <;> rfl
  refine h.goOn ?_ ?_ ?_ (by rw [pc]; rfl) ?_
  · rw [attempts_setPc, none]
    exact h.loops.move drop
  all_goals unfold beginWrite; split
  · intro v hand
    cases hand
  · intro v hand
    cases hand
    exact inline
  · intro h
    cases h
  · intro h
    cases h
  · rintro x ⟨⟩
    rfl
  · rintro x ⟨⟩

theorem Linear.read {first : Value} {s : State κ} (h : Linear first s) (start : Fits first) {c : κ}
    {w : Write} (pc : s.client c = .get w) (env : Env) :
    Linear first (setPc s c (writeFound env w s.entry)) := by
  have inline : w.Inline := h.inline c w (by rw [pc]; rfl)
  have small := (h.fits start).1.newSize_lt inline
  unfold writeFound
  rw [if_pos small]
  split
  · refine h.goOn ?_ (by rintro v ⟨⟩) (fun h => by cases h) (by rw [pc]; rfl) (by rintro x ⟨⟩; rfl)
    rw [attempts_setPc]
    exact h.loops.move (.drop c)
  · rename_i reaches
    refine h.goOn ?_ (by rintro v ⟨⟩; exact inline) (fun h => by cases h) (by rw [pc]; rfl) (by rintro x ⟨⟩)
    rw [attempts_setPc]
    exact h.loops.move (.prepare c rfl ⟨inline, Nat.le_of_not_lt reaches, env, rfl⟩)

theorem Linear.step {first : Value} {s t : State κ} {e : Event κ} (h : Linear first s)
    (start : Fits first) (ok : InlineOnly s e) (step : InlineWrite.step s e = some t) :
    Linear first t := by
  cases e with
  | start c w =>
      simp only [InlineWrite.step] at step
      split at step
      · rename_i pc
        cases step
        exact h.start pc ok
      · cases step
  | client c env =>
      simp only [InlineWrite.step, clientStep] at step
      cases pc : s.client c with
      | idle | beyond =>
          rw [pc] at step
          cases step
      | get w =>
          rw [pc] at step
          cases step
          exact h.read start pc env
      | cas w v version =>
          rw [pc] at step
          simp only [Option.some.injEq] at step
          split at step
          · rename_i same
            cases step
            subst same
            exact h.swap pc
          · cases step
            refine h.goOn ?_ ?_ (fun h => by cases h) (by rw [pc]; rfl) (by rintro x ⟨⟩)
            · rw [attempts_setPc]
              exact h.loops.move (.drop c)
            · rintro x ⟨⟩
              exact h.inline c w (by rw [pc]; rfl)
      | returning w result =>
          rw [pc] at step
          cases step
          exact h.ret pc

/-- Whatever the clients' steps, the file holds what the writes whose CAS succeeded make of its
first content in that order; these are, client by client, the writes that return their size. -/
theorem inline_writes_linearizable {first : Value} (start : Fits first) {s : State κ}
    (h : (system κ first).Reachable InlineOnly s) :
    s.entry.value.data =
      (s.swapped.map Prod.snd).foldl (fun old w => overwrite old w.data w.offset) first.data ∧
    s.entry.value.stat.size.toNat = s.entry.value.data.length ∧
    (∀ c, (s.swapped.filter (·.1 = c)).map Prod.snd =
      ((outcomes s c).filter (0 ≤ ·.2)).map Prod.fst) ∧
    (∀ c, ∀ x ∈ outcomes s c, x.2 = x.1.size ∨ x.2 = -1) ∧ ∀ c, s.client c ≠ .beyond := by
  have linear : Linear first s := h.invariant (fun _ => linear_initial)
    fun _ _ _ _ linear ok step => linear.step start ok step
  obtain ⟨fits, data⟩ := linear.fits start
  exact ⟨data, fits.sound.size, linear.swapped, linear.results, linear.within⟩

theorem fits_newValue (env : Env) {buf : List UInt8} (nulFree : 0 ∉ buf)
    (short : buf.length < inlineMax - 1) :
    Fits (newValue env .create) ∧ Fits (newValue env (.createWrite buf)) := by
  have data : (newValue env (.createWrite buf)).data = buf := take_strcpy nulFree env.val
  refine ⟨⟨⟨List.not_mem_nil, rfl⟩, Nat.zero_lt_succ _⟩, ⟨⟨by rwa [data], ?_⟩, by rwa [data]⟩⟩
  rw [data]
  exact toNat_inlineSize short

def letterA : Write := ⟨[65, 0], 1, 0, by decide, by decide⟩

def lettersBC : Write := ⟨[66, 67, 0], 2, 0, by decide, by decide⟩

def raceEvents : List (Event Bool) :=
  [.start true letterA, .start false lettersBC, .client true .zero, .client false .zero,
    .client false .zero, .client true .zero, .client true .zero, .client true .zero]

def initialState (first : Value) : State Bool := ⟨⟨0, first⟩, 1, fun _ => .idle, fun _ => [], []⟩

instance (s : State κ) (e : Event κ) : Decidable (InlineOnly s e) :=
  match e with
  | .start _ w => inferInstanceAs (Decidable (0 ∉ w.data ∧ w.offset + w.size < inlineMax - 1))
  | .client _ _ => .isTrue trivial

theorem inline_writes_linearizable_race :
    ∃ s, (system Bool (newValue .zero .create)).Reachable InlineOnly s ∧
      s.swapped.map Prod.fst = [false, true] ∧ s.entry.value.data = [65, 67] := by
  obtain ⟨first, -⟩ := fits_newValue .zero (List.not_mem_nil (a := 0)) (by decide)
  have initial : (system Bool (newValue .zero .create)).init (initialState (newValue .zero .create)) :=
    ⟨rfl, by decide, fun _ => rfl, fun _ => rfl, rfl⟩
  obtain ⟨s, reach, h⟩ := System.exists_reachable (system Bool (newValue .zero .create)) InlineOnly
    initial raceEvents (fun s => decide (s.swapped.map Prod.fst = [false, true] ∧
      (s.swapped.map Prod.snd).foldl (fun old w => overwrite old w.data w.offset) [] = [65, 67])) rfl
  obtain ⟨order, data⟩ := of_decide_eq_true h
  exact ⟨s, reach, order, (inline_writes_linearizable first reach).1.trans data⟩

end
end Pacon.InlineWrite
