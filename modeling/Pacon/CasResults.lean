import Pacon.Evict.Model
import Pacon.FileAccess

/-!
# What the calls make of a CAS result

`memc_cas` answers 0, 1, -1 or -2, and the four calls that store by it handle different answers in
loops of their own. A run takes the answers one after the other.
-/

namespace Pacon.CasResults
open Lib Commit InlineWrite FileAccess

inductive Result
  | success | conflict | error | noMemory
  deriving DecidableEq

/-- An answer, and the value that a get returns right after it. -/
structure Answer where
  result : Result
  next : Option Value

structure Store where
  old : Value
  new : Value
  made : Value

structure Outcome where
  ret : Int
  stores : List Store
  sent : Bool
  kept : Bool

/-- A success is one applied CAS and the data kept, anything else an error without a message. -/
structure Outcome.Honoured (o : Outcome) (success : Int) : Prop where
  stored : o.ret = success → ∃ x, o.stores = [x] ∧ x.new = x.made
  kept : o.ret = success → o.kept = true
  failed : o.ret ≠ success → o.ret = -1 ∧ o.sent = false

/-- `pacon_rm` from its first value on; the result of the last CAS is not looked at. -/
def rmLoop : Value → List Answer → Option (List Store)
  | _, [] => none
  | v, a :: as =>
      match a.result with
      | .conflict => a.next.bind fun v => rmLoop v as
      | .success => some [⟨v, flagged v .rm, flagged v .rm⟩]
      | .error | .noMemory => some []

def paconRm (fits : Bool) (v : Value) (answers : List Answer) : Option Outcome :=
  (rmLoop v answers).map fun stores =>
    if fits then ⟨0, stores, true, true⟩ else ⟨-1, stores, false, true⟩

/-- The counter loop of `pacon_open`, which `pacon_write` repeats: `v` is the value read last and `st`
the private copy, which is counted before every CAS. `some none` is the error. -/
def countLoop : Value → PaconStat → List Answer → Option (Option Store)
  | _, _, [] => none
  | v, st, a :: as =>
      let st := { st with openCounter := st.openCounter + 1 }
      match a.result with
      | .conflict => a.next.bind fun v => countLoop v v.stat as
      | .error => some none
      | .success => some (some ⟨v, ⟨st, []⟩, Evict.counted v⟩)
      | .noMemory => countLoop v st as

def paconOpen (v : Value) (answers : List Answer) : Option Outcome :=
  (countLoop v v.stat answers).map fun
    | some x => ⟨0, [x], false, true⟩
    | none => ⟨-1, [], false, true⟩

/-- What one attempt of a write takes from outside: clock, memory that is not set, what `open` and
`pwrite` return. -/
structure WriteEnv where
  env : Env
  newData : List UInt8
  flags : BitVec 32
  newSize : BitVec 32
  opened : Bool
  copied : Int
  written : Int

def WriteEnv.whole (e : WriteEnv) (w : Write) : Bool := e.written = w.size

def spliceSize (v : Value) (w : Write) : Int :=
  let ends : Int := v.stat.size.toNat - w.offset + w.size
  (BitVec.ofInt 32 (if ends < 0 ∨ v.stat.size.toNat < ends then ends else v.stat.size.toNat)).toInt

def firstValue (e : WriteEnv) (v : Value) (w : Write) : Value :=
  let st := setStatFlag { v.stat with flags := e.flags } .inline true
  ⟨{ st with atime := e.env.stat.atime, mtime := e.env.stat.mtime, size := .ofNat 32 (w.size + w.offset) },
    (strcpy e.env.val w.buf).take w.size⟩

def splicedValue (e : WriteEnv) (v : Value) (w : Write) : Value :=
  let size := v.stat.size.toNat
  let newSize := spliceSize v w
  let inlineData := strcpy e.env.inlineData v.data
  let data := overwrite e.newData (inlineData.take w.offset) 0
  let data := overwrite data w.data w.offset
  let data :=
    if w.offset + w.size < size then
      overwrite data ((inlineData.drop (w.offset + w.size)).take (size - (w.offset + w.size))) (w.offset + w.size)
    else data
  let data := data.set (newSize + 1).toNat 0
  ⟨{ v.stat with atime := e.env.stat.atime, mtime := e.env.stat.mtime, size := .ofInt 32 newSize },
    (strcpy e.env.val data).take newSize.toNat⟩

inductive Route
  | refused
  | inline (new : Value)
  | counted

def writeRoute (e : WriteEnv) (w : Write) (v : Value) : Route :=
  match getStatFlag v.stat .inline, getStatFlag v.stat .fileCreated with
  | false, false => if w.size + w.offset < inlineMax - 1 then .inline (firstValue e v w) else .refused
  | true, false => if spliceSize v w < inlineMax - 1 then .inline (splicedValue e v w) else .refused
  | false, true => if e.opened then .counted else .refused
  | true, true => .refused

def refusal : Outcome := ⟨-1, [], false, false⟩

/-- `pacon_write` without a descriptor, from its first value on. The way to the DFS leads back to `begin`. -/
def writeLoop (env : Nat → WriteEnv) (w : Write) : Nat → Value → List Answer → Option Outcome
  | i, v, [] =>
      match writeRoute (env i) w v with
      | .refused => some refusal
      | .inline _ | .counted => none
  | i, v, a :: as =>
      match writeRoute (env i) w v with
      | .refused => some refusal
      | .inline new =>
          match a.result with
          | .conflict => a.next.bind fun v => writeLoop env w (i + 1) v as
          | .error => some refusal
          | .success => some ⟨w.size, [⟨v, new, new⟩], true, true⟩
          | .noMemory => some ⟨w.size, [], true, false⟩
      | .counted => (countLoop v v.stat (a :: as)).map fun
          | some x => ⟨(env i).written, [x], true, (env i).whole w⟩
          | none => refusal

/-- `data_size > size` -/
def longer (w : Write) : Bool := w.size < (w.buf.takeWhile (· ≠ 0)).length

/-- A `pwrite` whose result is the call's, without a record or a message. -/
def pwritten (e : WriteEnv) (w : Write) : Outcome := ⟨e.written, [], false, e.whole w⟩

/-- `fd` is `p_file->fd != -1`. -/
def paconWrite (env : Nat → WriteEnv) (fd : Bool) (w : Write) (v : Value) (answers : List Answer) : Option Outcome :=
  if longer w then some refusal
  else if fd then some (pwritten (env 0) w)
  else writeLoop env w 0 v answers

def updatedStat (e : WriteEnv) (v : Value) (newSize : BitVec 32) : PaconStat :=
  setStatFlag { v.stat with atime := e.env.stat.atime, mtime := e.env.stat.mtime, size := newSize } .inline false

/-- Where `pacon_write_new` goes with what it has got; `overrun` is a copy behind its buffers. -/
inductive NewRoute
  | refused
  | uncached
  | overrun
  | inline (v new : Value)
  | update (v : Value) (newSize : BitVec 32)

def writeNewRoute (e : WriteEnv) (fd : Bool) (w : Write) : Option Value → NewRoute
  | none => .uncached
  | some v =>
      if fd then .update v e.newSize
      else if v.stat.size.toNat < w.offset then .refused
      else if newSizeInt v w.data w.offset < inlineMax - 1 then
        if newSize v w.data w.offset < inlineMax - 1 then .inline v (writtenValue e.env v w.data w.offset)
        else .overrun
      else if getStatFlag v.stat .inline ∧ e.copied ≠ v.stat.size.toNat then .refused
      else if e.written ≠ w.size then .refused
      else .update v (.ofInt 32 (newSizeInt v w.data w.offset))

/-- `pacon_write_new` with what it has got. At `update` the value that was read is stored again, the
record in it unchanged, and the answer does not matter: a conflict is retried only if the record just
made is older than itself. Nor does the `pwrite` of a file that has a descriptor. -/
def writeNewLoop (env : Nat → WriteEnv) (fd : Bool) (w : Write) :
    Nat → Option Value → List Answer → Option Outcome
  | i, v, [] =>
      match writeNewRoute (env i) fd w v with
      | .refused => some refusal
      | .uncached => some (pwritten (env i) w)
      | .overrun | .inline _ _ | .update _ _ => none
  | i, v, a :: as =>
      match writeNewRoute (env i) fd w v with
      | .refused => some refusal
      | .uncached => some (pwritten (env i) w)
      | .overrun => none
      | .inline v new =>
          match a.result with
          | .conflict => writeNewLoop env fd w (i + 1) a.next as
          | .error => some refusal
          | .success => some ⟨w.size, [⟨v, new, new⟩], true, true⟩
          | .noMemory => some ⟨w.size, [], true, false⟩
      | .update v newSize =>
          match a.result with
          | .success => some ⟨w.size, [⟨v, recordAlone v, ⟨updatedStat (env i) v newSize, []⟩⟩], false,
              (env i).whole w⟩
          | .conflict | .error | .noMemory => some ⟨w.size, [], false, (env i).whole w⟩

def paconWriteNew (env : Nat → WriteEnv) (fd : Bool) (w : Write) (v : Option Value)
    (answers : List Answer) : Option Outcome :=
  if longer w then some refusal else writeNewLoop env fd w 0 v answers

inductive Call
  | rm (fits : Bool) (v : Value)
  | opens (v : Value)
  | write (env : Nat → WriteEnv) (fd : Bool) (w : Write) (v : Value)
  | writeNew (env : Nat → WriteEnv) (fd : Bool) (w : Write) (v : Option Value)

/-- `permitted` is what `check_permission` says, which all four ask first. -/
def Call.run (permitted : Bool) (call : Call) (answers : List Answer) : Option Outcome :=
  if permitted then
    match call with
    | .rm fits v => paconRm fits v answers
    | .opens v => paconOpen v answers
    | .write env fd w v => paconWrite env fd w v answers
    | .writeNew env fd w v => paconWriteNew env fd w v answers
  else some refusal

def Call.success : Call → Int
  | .rm _ _ | .opens _ => 0
  | .write _ _ w _ | .writeNew _ _ w _ => w.size

def Applied : List Answer → Prop
  | [] => False
  | a :: as =>
      match a.result with
      | .conflict => Applied as
      | .success => True
      | .error | .noMemory => False

def ErrorEnd (answers : List Answer) : Prop :=
  (answers.find? fun a => a.result = .success ∨ a.result = .error).any fun a => a.result = .error

def skipped : Nat → List Answer → Nat
  | k, [] => k
  | k, a :: as =>
      match a.result with
      | .conflict => skipped 0 as
      | .noMemory => skipped (k + 1) as
      | .success | .error => k

def CountedOnce (answers : List Answer) : Prop := 2 ^ 32 ∣ skipped 0 answers

/-- The attempt that ends `pacon_write` is not answered -2; on the way to the DFS all is counted
once and written. -/
def WriteSound (env : Nat → WriteEnv) (w : Write) : Nat → Value → List Answer → Prop
  | _, _, [] => True
  | i, v, a :: as =>
      match writeRoute (env i) w v with
      | .refused => True
      | .inline _ =>
          match a.result with
          | .conflict => ∀ v ∈ a.next, WriteSound env w (i + 1) v as
          | .success | .error => True
          | .noMemory => False
      | .counted => ErrorEnd (a :: as) ∨ (env i).written = w.size ∧ CountedOnce (a :: as)

/-- The attempt that ends `pacon_write_new` is not answered -2; the record that it would change is in
the cache, and if the data goes to the DFS, it is written, and the record has already what the write would
change and is stored. -/
def WriteNewSound (env : Nat → WriteEnv) (fd : Bool) (w : Write) : Nat → Option Value → List Answer → Prop
  | i, v, [] =>
      match writeNewRoute (env i) fd w v with
      | .uncached => (env i).written = -1
      | .refused | .overrun | .inline _ _ | .update _ _ => True
  | i, v, a :: as =>
      match writeNewRoute (env i) fd w v with
      | .uncached => (env i).written = -1
      | .refused | .overrun => True
      | .inline _ _ =>
          match a.result with
          | .conflict => WriteNewSound env fd w (i + 1) a.next as
          | .success | .error => True
          | .noMemory => False
      | .update v newSize =>
          a.result = .success ∧ v.stat = updatedStat (env i) v newSize ∧ (env i).written = w.size

def Call.Sound : Call → List Answer → Prop
  | .rm fits _, answers => fits = true → Applied answers
  | .opens _, answers => ErrorEnd answers ∨ CountedOnce answers
  | .write env fd w v, answers =>
      longer w = false → if fd then (env 0).written = -1 else WriteSound env w 0 v answers
  | .writeNew env fd w v, answers => longer w = false → WriteNewSound env fd w 0 v answers

theorem rmLoop_cases {v : Value} {answers : List Answer} {stores : List Store}
    (run : rmLoop v answers = some stores) :
    Applied answers ∧ (∃ x, stores = [x] ∧ x.new = x.made) ∨ ¬Applied answers ∧ stores = [] := by
  induction answers generalizing v with
  | nil => cases run
  | cons a as ih =>
      unfold rmLoop at run
      unfold Applied
      cases answer : a.result with
      | conflict =>
          rw [answer] at run
          obtain ⟨next, -, rest⟩ := Option.bind_eq_some_iff.mp run
          exact ih rest
      | success =>
          rw [answer] at run
          cases run
          exact .inl ⟨trivial, _, rfl, rfl⟩
      | error | noMemory =>
          rw [answer] at run
          cases run
          exact .inr ⟨id, rfl⟩

def counting (st : PaconStat) (k : Nat) : PaconStat := { st with openCounter := st.openCounter + .ofNat 32 k }

theorem counting_zero (st : PaconStat) : counting st 0 = st := by
  simp [counting]

theorem counting_succ (st : PaconStat) (k : Nat) :
    { counting st k with openCounter := (counting st k).openCounter + 1 } = counting st (k + 1) := by
  simp [counting, BitVec.ofNat_add, BitVec.add_assoc]

theorem counting_eq_one (st : PaconStat) {k : Nat} : counting st (k + 1) = counting st 1 ↔ 2 ^ 32 ∣ k := by
  have counters : counting st (k + 1) = counting st 1 ↔
      (st.openCounter.toNat + (k + 1)) % 2 ^ 32 = (st.openCounter.toNat + 1) % 2 ^ 32 := by
    simp [counting, ← BitVec.toNat_inj, BitVec.toNat_ofNat]
    omega
  rw [counters]
  omega

theorem countLoop_cases {v : Value} {st : PaconStat} {k : Nat} {answers : List Answer} {r : Option Store}
    (copy : st = counting v.stat k)
    (run : countLoop v st answers = some r) :
    ErrorEnd answers ∧ r = none ∨
      ¬ErrorEnd answers ∧ ∃ x, r = some x ∧ (x.new = x.made ↔ 2 ^ 32 ∣ skipped k answers) := by
  induction answers generalizing v st k with
  | nil => cases run
  | cons a as ih =>
      unfold countLoop at run
      dsimp only at run
      cases answer : a.result with
      | conflict =>
          rw [answer] at run
          obtain ⟨next, -, rest⟩ := Option.bind_eq_some_iff.mp run
          simpa [ErrorEnd, skipped, answer] using ih (counting_zero next.stat).symm rest
      | noMemory =>
          rw [answer] at run
          simpa [ErrorEnd, skipped, answer] using ih (by rw [copy, counting_succ]) run
      | error =>
          rw [answer] at run
          cases run
          exact .inl ⟨by simp [ErrorEnd, answer], rfl⟩
      | success =>
          rw [answer] at run
          cases run
          refine .inr ⟨by simp [ErrorEnd, answer], _, rfl, ?_⟩
          have kept : skipped k (a :: as) = k := by simp only [skipped, answer]
          have once : Evict.counted v = ⟨counting v.stat 1, []⟩ := rfl
          rw [kept, ← counting_eq_one v.stat, once, copy, counting_succ]
          simp only [Value.mk.injEq, and_true]

theorem not_honoured {ret success : Int} {stores : List Store} (sent kept : Bool) (same : ret = success)
    (none : stores = []) : ¬(⟨ret, stores, sent, kept⟩ : Outcome).Honoured success := by
  intro honoured
  obtain ⟨x, one, -⟩ := honoured.stored same
  rw [none] at one
  cases one

theorem honoured_error {success : Int} (other : success ≠ -1) (stores : List Store) (kept : Bool) :
    (⟨-1, stores, false, kept⟩ : Outcome).Honoured success :=
  ⟨fun same => absurd same.symm other, fun same => absurd same.symm other, fun _ => ⟨rfl, rfl⟩⟩

theorem honoured_store {success : Int} {x : Store} {sent kept : Bool} :
    (⟨success, [x], sent, kept⟩ : Outcome).Honoured success ↔ x.new = x.made ∧ kept = true := by
  constructor
  · intro honoured
    obtain ⟨y, one, made⟩ := honoured.stored rfl
    cases one
    exact ⟨made, honoured.kept rfl⟩
  · rintro ⟨made, kept⟩
    exact ⟨fun _ => ⟨x, rfl, made⟩, fun _ => kept, fun other => absurd rfl other⟩

theorem size_ne (w : Write) : (w.size : Int) ≠ -1 := by omega

theorem refusal_honoured (w : Write) : refusal.Honoured w.size := honoured_error (size_ne w) [] false

theorem whole_iff {e : WriteEnv} {w : Write} : e.whole w = true ↔ e.written = w.size := decide_eq_true_iff

theorem paconRm_iff {fits : Bool} {v : Value} {answers : List Answer} {o : Outcome}
    (run : paconRm fits v answers = some o) : o.Honoured 0 ↔ (fits = true → Applied answers) := by
  obtain ⟨stores, loop, rfl⟩ := Option.map_eq_some_iff.mp run
  cases fits with
  | false => exact ⟨fun _ never => absurd never (by decide), fun _ => honoured_error (by decide) stores true⟩
  | true =>
      rcases rmLoop_cases loop with ⟨applied, x, rfl, made⟩ | ⟨failed, rfl⟩
      · exact ⟨fun _ _ => applied, fun _ => honoured_store.mpr ⟨made, rfl⟩⟩
      · exact ⟨fun honoured => absurd honoured (not_honoured true true rfl rfl), fun all => absurd (all rfl) failed⟩

theorem paconOpen_iff {v : Value} {answers : List Answer} {o : Outcome} (run : paconOpen v answers = some o) :
    o.Honoured 0 ↔ ErrorEnd answers ∨ CountedOnce answers := by
  obtain ⟨r, loop, rfl⟩ := Option.map_eq_some_iff.mp run
  rcases countLoop_cases (counting_zero v.stat).symm loop with ⟨ends, rfl⟩ | ⟨goes, x, rfl, made⟩
  · exact ⟨fun _ => .inl ends, fun _ => honoured_error (by decide) [] true⟩
  · rw [honoured_store, made, and_iff_left rfl]
    exact ⟨.inr, fun either => either.resolve_left goes⟩

theorem writeLoop_iff {env : Nat → WriteEnv} {w : Write} {i : Nat} {v : Value} {answers : List Answer}
    {o : Outcome} (run : writeLoop env w i v answers = some o) :
    o.Honoured w.size ↔ WriteSound env w i v answers := by
  induction answers generalizing i v with
  | nil =>
      unfold writeLoop at run
      split at run
      · cases run
        exact ⟨fun _ => trivial, fun _ => refusal_honoured w⟩
      · cases run
      · cases run
  | cons a as ih =>
      unfold writeLoop at run
      unfold WriteSound
      cases route : writeRoute (env i) w v with
      | refused =>
          simp only [route] at run
          cases run
          exact ⟨fun _ => trivial, fun _ => refusal_honoured w⟩
      | inline new =>
          simp only [route] at run
          cases answer : a.result with
          | conflict =>
              simp only [answer] at run
              obtain ⟨next, there, rest⟩ := Option.bind_eq_some_iff.mp run
              simp only [there, Option.mem_some_iff, forall_eq']
              exact ih rest
          | error =>
              simp only [answer] at run
              cases run
              exact ⟨fun _ => trivial, fun _ => refusal_honoured w⟩
          | success =>
              simp only [answer] at run
              cases run
              exact ⟨fun _ => trivial, fun _ => honoured_store.mpr ⟨rfl, rfl⟩⟩
          | noMemory =>
              simp only [answer] at run
              cases run
              exact ⟨not_honoured true false rfl rfl, False.elim⟩
      | counted =>
          simp only [route] at run
          obtain ⟨r, loop, rfl⟩ := Option.map_eq_some_iff.mp run
          rcases countLoop_cases (counting_zero v.stat).symm loop with ⟨ends, rfl⟩ | ⟨goes, x, rfl, made⟩
          · exact ⟨fun _ => .inl ends, fun _ => refusal_honoured w⟩
          · dsimp only
            by_cases whole : (env i).written = w.size
            · rw [whole, honoured_store, made, and_iff_left (whole_iff.mpr whole)]
              exact ⟨fun once => .inr ⟨rfl, once⟩, fun either => (either.resolve_left goes).2⟩
            · constructor
              · exact fun honoured => absurd (honoured.failed whole).2 Bool.true_eq_false.mp
              · exact fun either => absurd (either.resolve_left goes).1 whole

theorem pwritten_iff {e : WriteEnv} {w : Write} : (pwritten e w).Honoured w.size ↔ e.written = -1 := by
  constructor
  · intro honoured
    by_cases whole : e.written = w.size
    · exact absurd honoured (not_honoured false _ whole rfl)
    · exact (honoured.failed whole).1
  · intro fails
    rw [pwritten, fails]
    exact honoured_error (size_ne w) [] _

theorem writeNewLoop_iff {env : Nat → WriteEnv} {fd : Bool} {w : Write} {i : Nat} {v : Option Value}
    {answers : List Answer} {o : Outcome} (run : writeNewLoop env fd w i v answers = some o) :
    o.Honoured w.size ↔ WriteNewSound env fd w i v answers := by
  induction answers generalizing i v with
  | nil =>
      unfold writeNewLoop at run
      unfold WriteNewSound
      cases route : writeNewRoute (env i) fd w v with
      | refused =>
          simp only [route] at run
          cases run
          exact ⟨fun _ => trivial, fun _ => refusal_honoured w⟩
      | uncached =>
          simp only [route] at run
          cases run
          exact pwritten_iff
      | overrun | inline | update =>
          simp only [route] at run
          cases run
  | cons a as ih =>
      unfold writeNewLoop at run
      unfold WriteNewSound
      cases route : writeNewRoute (env i) fd w v with
      | refused =>
          simp only [route] at run
          cases run
          exact ⟨fun _ => trivial, fun _ => refusal_honoured w⟩
      | uncached =>
          simp only [route] at run
          cases run
          exact pwritten_iff
      | overrun =>
          simp only [route] at run
          cases run
      | inline v new =>
          simp only [route] at run
          cases answer : a.result with
          | conflict =>
              simp only [answer] at run
              exact ih run
          | error =>
              simp only [answer] at run
              cases run
              exact ⟨fun _ => trivial, fun _ => refusal_honoured w⟩
          | success =>
              simp only [answer] at run
              cases run
              exact ⟨fun _ => trivial, fun _ => honoured_store.mpr ⟨rfl, rfl⟩⟩
          | noMemory =>
              simp only [answer] at run
              cases run
              exact ⟨not_honoured true false rfl rfl, False.elim⟩
      | update v newSize =>
          simp only [route] at run
          cases answer : a.result with
          | success =>
              simp only [answer] at run
              cases run
              rw [honoured_store, whole_iff]
              simp [recordAlone]
          | conflict | error | noMemory =>
              simp only [answer] at run
              cases run
              exact ⟨fun honoured => absurd honoured (not_honoured false _ rfl rfl),
                fun sound => absurd sound.1 (by decide)⟩

theorem paconWrite_iff {env : Nat → WriteEnv} {fd : Bool} {w : Write} {v : Value} {answers : List Answer}
    {o : Outcome} (run : paconWrite env fd w v answers = some o) :
    o.Honoured w.size ↔
      (longer w = false → if fd then (env 0).written = -1 else WriteSound env w 0 v answers) := by
  unfold paconWrite at run
  cases long : longer w with
  | true =>
      rw [long, if_pos rfl] at run
      cases run
      exact ⟨fun _ short => (by cases short), fun _ => refusal_honoured w⟩
  | false =>
      rw [long, if_neg Bool.false_ne_true] at run
      rw [forall_prop_of_true rfl]
      cases fd with
      | true =>
          cases run
          exact pwritten_iff
      | false => exact writeLoop_iff run

theorem paconWriteNew_iff {env : Nat → WriteEnv} {fd : Bool} {w : Write} {v : Option Value}
    {answers : List Answer} {o : Outcome} (run : paconWriteNew env fd w v answers = some o) :
    o.Honoured w.size ↔ (longer w = false → WriteNewSound env fd w 0 v answers) := by
  unfold paconWriteNew at run
  cases long : longer w with
  | true =>
      rw [long, if_pos rfl] at run
      cases run
      exact ⟨fun _ short => (by cases short), fun _ => refusal_honoured w⟩
  | false =>
      rw [long, if_neg Bool.false_ne_true] at run
      rw [forall_prop_of_true rfl]
      exact writeNewLoop_iff run

theorem success_ne (call : Call) : call.success ≠ -1 := by
  cases call <;> simp only [Call.success] <;> omega

def exampleValue : Value := ⟨⟨0, 0, 0, 0, 0, 0, 0, 0, 0, 0, 0⟩, []⟩

def exampleAnswers : List Answer := [⟨.conflict, some exampleValue⟩, ⟨.success, none⟩]

end Pacon.CasResults
