import Pacon.Cuckoo.Maps

/-!
# The functions of `hash_table.cc`

Every process has the three tables. `int` results are the value of a key, 0 or -1. An insertion into a crowded table
ends in an exception for which nobody has a handler.
-/

namespace Pacon.Cuckoo
open Function Lib

inductive TableName
  | dirCheckTable
  | fdTable
  | opencTable
  deriving DecidableEq

abbrev Tables := TableName → Table CString Int

def tables : Tables := fun _ => new defaultSize

inductive Answer
  | int (value : Int)
  | void
  | terminated
  deriving DecidableEq

section
variable (hash : CString → BitVec 64)

def put (table : TableName) (ts : Tables) (key : CString) (val : Int) : Option (Answer × Tables) :=
  (insert hash (ts table) key val).map fun (inserted, t) =>
    (if inserted = .loadFactorTooLow then .terminated else .int 0, update ts table t)

def get (table : TableName) (ts : Tables) (key : CString) : Answer × Tables :=
  let found := find hash (ts table) key
  (.int (found.1.getD (-1)), update ts table found.2)

def clean (table : TableName) (ts : Tables) : Answer × Tables := (.void, update ts table (cuckooClear (ts table)))

/-! ### The parent directory check -/

def pdirhtPut : Tables → CString → Int → Option (Answer × Tables) := put hash .dirCheckTable

def pdirhtUpdate (ts : Tables) (_key : CString) (_val : Int) : Answer × Tables := (.int 0, ts)

def pdirhtGet : Tables → CString → Answer × Tables := get hash .dirCheckTable

def pdirhtDel (ts : Tables) (_key : CString) : Answer × Tables := (.int 0, ts)

def pdirhtClean : Tables → Answer × Tables := clean .dirCheckTable

/-! ### The file descriptors -/

def fdhtPut : Tables → CString → Int → Option (Answer × Tables) := put hash .fdTable

def fdhtUpdate (ts : Tables) (_key : CString) (_val : Int) : Answer × Tables := (.int 0, ts)

def fdhtGet : Tables → CString → Answer × Tables := get hash .fdTable

def fdhtDel (ts : Tables) (_key : CString) : Answer × Tables := (.int 0, ts)

def fdhtClean : Tables → Answer × Tables := clean .fdTable

/-! ### The open counters -/

def opcPut : Tables → CString → Int → Option (Answer × Tables) := put hash .opencTable

def opcUpdate (ts : Tables) (_key : CString) (_val : Int) : Answer × Tables := (.int 0, ts)

def opcGet : Tables → CString → Answer × Tables := get hash .opencTable

def opcDel (ts : Tables) (_key : CString) : Answer × Tables := (.int 0, ts)

def opcClean : Tables → Answer × Tables := clean .opencTable

/-! ### Sequences of calls -/

inductive Call
  | put (table : TableName) (key : CString) (val : Int)
  | update (table : TableName) (key : CString) (val : Int)
  | get (table : TableName) (key : CString)
  | del (table : TableName) (key : CString)
  | clean (table : TableName)
  deriving DecidableEq

def call (ts : Tables) : Call → Option (Answer × Tables)
  | .put .dirCheckTable key val => pdirhtPut hash ts key val
  | .put .fdTable key val => fdhtPut hash ts key val
  | .put .opencTable key val => opcPut hash ts key val
  | .update .dirCheckTable key val => some (pdirhtUpdate ts key val)
  | .update .fdTable key val => some (fdhtUpdate ts key val)
  | .update .opencTable key val => some (opcUpdate ts key val)
  | .get .dirCheckTable key => some (pdirhtGet hash ts key)
  | .get .fdTable key => some (fdhtGet hash ts key)
  | .get .opencTable key => some (opcGet hash ts key)
  | .del .dirCheckTable key => some (pdirhtDel ts key)
  | .del .fdTable key => some (fdhtDel ts key)
  | .del .opencTable key => some (opcDel ts key)
  | .clean .dirCheckTable => some (pdirhtClean ts)
  | .clean .fdTable => some (fdhtClean ts)
  | .clean .opencTable => some (opcClean ts)

/-- What the calls answer, up to the end of the process; nothing if one of them does not return. -/
def run : Tables → List Call → Option (List Answer × Tables)
  | ts, [] => some ([], ts)
  | ts, c :: calls =>
      match call hash ts c with
      | none => none
      | some (.terminated, us) => some ([.terminated], us)
      | some (answer, us) => (run us calls).map fun (answers, us) => (answer :: answers, us)

end

/-! ### Maps instead of tables -/

abbrev Maps := TableName → CString → Option Int

def Maps.answer (m : Maps) : Call → Answer
  | .put _ _ _ | .update _ _ _ | .del _ _ => .int 0
  | .get table key => .int ((m table key).getD (-1))
  | .clean _ => .void

def Maps.after (m : Maps) : Call → Maps
  | .put table key val => Function.update m table (putNew (m table) key val)
  | .clean table => Function.update m table fun _ => none
  | .update _ _ _ | .get _ _ | .del _ _ => m

def Maps.answers (m : Maps) : List Call → List Answer
  | [] => []
  | c :: calls => m.answer c :: (m.after c).answers calls

def noMaps : Maps := fun _ _ => none

variable {hash : CString → BitVec 64} {ts us : Tables} {m : Maps}

def RepresentMaps (hash : CString → BitVec 64) (ts : Tables) (m : Maps) : Prop :=
  ∀ table, Represents hash (ts table) (m table)

theorem RepresentMaps.update (represent : RepresentMaps hash ts m) {table : TableName} {t : Table CString Int}
    {f : CString → Option Int} (represents : Represents hash t f) :
    RepresentMaps hash (Function.update ts table t) (Function.update m table f) := by
  intro other
  by_cases same : other = table
  · subst same
    rw [update_self, update_self]
    exact represents
  · rw [update_of_ne same, update_of_ne same]
    exact represent other

theorem tables_represent : RepresentMaps hash tables noMaps := fun _ => new_represents _

/-! ### One call -/

/-- How a call ends. -/
inductive Answers (hash : CString → BitVec 64) (m : Maps) : Call → Option (Answer × Tables) → Prop
  | answer {c us} (represent : RepresentMaps hash us (m.after c)) : Answers hash m c (some (m.answer c, us))
  | crowded {table key val us} (crowded : Crowded hash (us table) (m table) key) :
      Answers hash m (.put table key val) (some (.terminated, us))

theorem put_answers (represent : RepresentMaps hash ts m) (table : TableName) (key : CString) (val : Int) :
    Answers hash m (.put table key val) (put hash table ts key val) := by
  obtain ⟨result, t, runs, ends⟩ := insert_represents (represent table) key val
  rw [put, runs, Option.map_some]
  rcases ends with ⟨rfl, crowded⟩ | ⟨other, represents⟩
  · apply Answers.crowded
    rw [update_self]
    exact crowded
  · simp only [other, if_false]
    exact .answer (represent.update represents)

theorem get_answers (represent : RepresentMaps hash ts m) (table : TableName) (key : CString) :
    Answers hash m (.get table key) (some (get hash table ts key)) := by
  obtain ⟨found, represents⟩ := find_represents (represent table) key
  have after : RepresentMaps hash (get hash table ts key).2 (Function.update m table (m table)) :=
    represent.update represents
  rw [update_eq_self] at after
  rw [get, found]
  exact .answer after

theorem clean_answers (represent : RepresentMaps hash ts m) (table : TableName) :
    Answers hash m (.clean table) (some (clean table ts)) :=
  .answer (represent.update (clear_represents (represent table)))

theorem call_answers (represent : RepresentMaps hash ts m) (c : Call) : Answers hash m c (call hash ts c) := by
  cases c with
  | put table key val => cases table <;> exact put_answers represent _ key val
  | update table key val => cases table <;> exact .answer represent
  | get table key => cases table <;> exact get_answers represent _ key
  | del table key => cases table <;> exact .answer represent
  | clean table => cases table <;> exact clean_answers represent _

theorem Maps.answer_ne_terminated (c : Call) : m.answer c ≠ .terminated := by
  cases c <;> simp [Maps.answer]

theorem run_of_answer {c : Call} {calls : List Call} (returns : call hash ts c = some (m.answer c, us)) :
    run hash ts (c :: calls) = (run hash us calls).map fun x => (m.answer c :: x.1, x.2) := by
  have goesOn := m.answer_ne_terminated c
  rw [run, returns]
  split
  · rename_i none
    cases none
  · rename_i ends
    exact absurd (congrArg Prod.fst (Option.some.inj ends)) goesOn
  · rename_i some
    cases some
    rfl

/-! ### All calls -/

/-- An insertion finds no room for a new key; all calls before it have got the answers of maps. -/
def Terminates (hash : CString → BitVec 64) (m : Maps) (calls : List Call) (answers : List Answer) (us : Tables) :
    Prop :=
  ∃ before table key val rest, calls = before ++ .put table key val :: rest ∧
    answers = m.answers before ++ [.terminated] ∧ Crowded hash (us table) (before.foldl Maps.after m table) key

theorem run_represents (represent : RepresentMaps hash ts m) (calls : List Call) :
    ∃ answers us, run hash ts calls = some (answers, us) ∧
      (answers = m.answers calls ∨ Terminates hash m calls answers us) := by
  induction calls generalizing ts m with
  | nil => exact ⟨[], ts, rfl, .inl rfl⟩
  | cons c calls ih =>
      have answers := call_answers represent c
      generalize returns : call hash ts c = result at answers
      cases answers with
      | answer represent =>
          obtain ⟨answers, us, runs, ends⟩ := ih represent
          refine ⟨m.answer c :: answers, us, by rw [run_of_answer returns, runs]; rfl, ?_⟩
          rcases ends with rfl | ⟨before, table, key, val, rest, rfl, rfl, crowded⟩
          · exact .inl rfl
          · exact .inr ⟨c :: before, table, key, val, rest, rfl, rfl, crowded⟩
      | @crowded table key val us crowded =>
          exact ⟨[.terminated], us, by rw [run, returns], .inr ⟨[], table, key, val, calls, rfl, rfl, crowded⟩⟩

/-- Whatever the hash function is, every call returns, and a process gets from its three tables what it would get
from three maps in which the first value of a key stays until it is cleaned away. Only an insertion that finds no
room around a new key, in a table that is almost empty, ends the process. -/
theorem tables_are_maps (hash : CString → BitVec 64) (calls : List Call) :
    ∃ answers us, run hash tables calls = some (answers, us) ∧
      (answers = noMaps.answers calls ∨ Terminates hash noMaps calls answers us) :=
  run_represents tables_represent calls

end Pacon.Cuckoo
