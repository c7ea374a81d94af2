import Mathlib.Data.List.DropRight
import Mathlib.Data.Set.Basic
import Pacon.Lib.KeyValue
import Pacon.Subtree.Model

/-!
# The keys of the wrapper

Each of the functions around memcached shortens its key on its own: `memc_put` by all slashes at the end,
the other five by one.
-/

namespace Pacon.Keys
open Lib KeyValue

abbrev Memcached := Store CString CString

/-- The length that the loop of `memc_put` comes to, with `left` characters in front of those that it has looked
at; `none` where it reads in front of the key. -/
def trim (key : CString) : Nat → Option Nat
  | 0 => none
  | left + 1 => if key[left]? = some '/' then trim key left else some (left + 1)

def putKey (key : CString) : Option CString := (trim key key.length).map key.take

def cutKey (key : CString) : Option CString :=
  if key = [] then none
  else if key[key.length - 1]? = some '/' then some (key.take (key.length - 1))
  else some key

section
variable (s : Memcached) (fault : Option Fault)

/-! memcached refuses an empty key. -/

def memcachedSet (key val : CString) : Rc × Memcached :=
  if key = [] then (.badKeyProvided, s) else s.set fault key val

def memcachedAdd (key val : CString) : Rc × Memcached :=
  if key = [] then (.badKeyProvided, s) else s.add fault key val

def memcachedCas (key val : CString) (cas : Nat) : Rc × Memcached :=
  if key = [] then (.badKeyProvided, s) else s.cas fault key val cas

def memcachedGet (key : CString) : Rc × Option (Cell CString) :=
  if key = [] then (.badKeyProvided, none) else s.get fault key

def memcachedDelete (key : CString) : Rc × Memcached :=
  if key = [] then (.badKeyProvided, s) else s.delete fault key

end

def putCode (rc : Rc) : Int :=
  if rc ≠ .success then if rc = .memoryAllocationFailure then -2 else -1 else 0

def addCode (rc : Rc) : Int :=
  if rc ≠ .success then if rc = .memoryAllocationFailure then -2 else if rc = .timeout then -3 else -1 else 0

def casCode (rc : Rc) : Int :=
  if rc = .dataExists then 1 else if rc = .success then 0 else if rc = .memoryAllocationFailure then -2 else -1

def delCode (rc : Rc) : Int := if rc = .success then 0 else -1

def found (r : Rc × Option (Cell CString)) : Option (Cell CString) := if r.1 ≠ .success then none else r.2

section
variable (s : Memcached) (fault : Option Fault)

def memcPut (key val : CString) : Option (Int × Memcached) := do
  let r := memcachedSet s fault (← putKey key) val
  some (putCode r.1, r.2)

def memcAdd (key val : CString) : Option (Int × Memcached) := do
  let r := memcachedAdd s fault (← cutKey key) val
  some (addCode r.1, r.2)

def memcCas (key val : CString) (cas : Nat) : Option (Int × Memcached) := do
  let r := memcachedCas s fault (← cutKey key) val cas
  some (casCode r.1, r.2)

def memcGet (key : CString) : Option (Option CString) := do
  some ((found (memcachedGet s fault (← cutKey key))).map Cell.value)

def memcGetCas (key : CString) : Option (Option (CString × Nat)) := do
  some ((found (memcachedGet s fault (← cutKey key))).map fun cell => (cell.value, cell.cas))

def memcDel (key : CString) : Option (Int × Memcached) := do
  let r := memcachedDelete s fault (← cutKey key)
  some (delCode r.1, r.2)

end

inductive Call
  | set (key val : CString)
  | add (key val : CString)
  | cas (key val : CString) (cas : Nat)
  | get (key : CString)
  | getCas (key : CString)
  | del (key : CString)

def Call.key : Call → CString
  | .set key _ | .add key _ | .cas key _ _ | .get key | .getCas key | .del key => key

inductive Result
  | code (ret : Int)
  | value (val : Option CString)
  | valueCas (val : Option (CString × Nat))
  deriving DecidableEq

def dmkvCall (s : Memcached) (fault : Option Fault) : Call → Option (Result × Memcached)
  | .set key val => (memcPut s fault key val).map fun r => (.code r.1, r.2)
  | .add key val => (memcAdd s fault key val).map fun r => (.code r.1, r.2)
  | .cas key val cas => (memcCas s fault key val cas).map fun r => (.code r.1, r.2)
  | .get key => (memcGet s fault key).map fun r => (.value r, s)
  | .getCas key => (memcGetCas s fault key).map fun r => (.valueCas r, s)
  | .del key => (memcDel s fault key).map fun r => (.code r.1, r.2)

/-- The results of the calls, each of which may come upon a failure of the server. -/
def dmkvRun : Memcached → List (Option Fault × Call) → Option (List Result)
  | _, [] => some []
  | s, (fault, call) :: rest => do
      let r ← dmkvCall s fault call
      let results ← dmkvRun r.2 rest
      some (r.1 :: results)

def withoutSlashes (path : CString) : CString := path.rdropWhile (· = '/')

def mapCall (s : Memcached) (fault : Option Fault) (call : Call) : Result × Memcached :=
  let path := withoutSlashes call.key
  match call with
  | .set _ val => let r := s.set fault path val; (.code (putCode r.1), r.2)
  | .add _ val => let r := s.add fault path val; (.code (addCode r.1), r.2)
  | .cas _ val cas => let r := s.cas fault path val cas; (.code (casCode r.1), r.2)
  | .get _ => (.value ((found (s.get fault path)).map Cell.value), s)
  | .getCas _ => (.valueCas ((found (s.get fault path)).map fun cell => (cell.value, cell.cas)), s)
  | .del _ => let r := s.delete fault path; (.code (delCode r.1), r.2)

def mapRun : Memcached → List (Option Fault × Call) → List Result
  | _, [] => []
  | s, (fault, call) :: rest =>
      let r := mapCall s fault call
      r.1 :: mapRun r.2 rest

/-- All six functions address the item of the path. -/
structure OneKey (key : CString) : Prop where
  put : putKey key = some (withoutSlashes key)
  cut : cutKey key = some (withoutSlashes key)

/-- Another path than `/`, with one '/' at most at its end. -/
def Plain (key : CString) : Prop := key ≠ ['/'] ∧ ¬['/', '/'] <:+ key

variable {key path : CString} {n : Nat}

theorem split_slashes (key : CString) :
    ∃ path n, key = path ++ List.replicate n '/' ∧ path.getLast? ≠ some '/' := by
  induction key using List.reverseRecOn with
  | nil => exact ⟨[], 0, rfl, by simp⟩
  | append_singleton key c ih =>
      by_cases slash : c = '/'
      · obtain ⟨path, n, rfl, last⟩ := ih
        refine ⟨path, n + 1, ?_, last⟩
        rw [slash, List.append_assoc, List.replicate_succ']
      · refine ⟨key ++ [c], 0, by simp, ?_⟩
        rw [List.getLast?_concat]
        exact fun same => slash (Option.some.inj same)

theorem withoutSlashes_split (last : path.getLast? ≠ some '/') :
    withoutSlashes (path ++ List.replicate n '/') = path := by
  induction n with
  | zero =>
      rw [List.replicate_zero, List.append_nil, withoutSlashes, List.rdropWhile_eq_self_iff]
      intro nonempty slash
      apply last
      rw [List.getLast?_eq_getLast_of_ne_nil nonempty]
      exact congrArg some (by simpa using slash)
  | succ n ih =>
      rw [List.replicate_succ', ← List.append_assoc, withoutSlashes, List.rdropWhile_concat_pos _ _ _ (by simp)]
      exact ih

theorem trim_split (last : path.getLast? ≠ some '/') (n k : Nat) :
    trim (path ++ List.replicate (n + k) '/') (path.length + n) = if path = [] then none else some path.length := by
  induction n generalizing k with
  | zero =>
      cases size : path.length with
      | zero => rw [if_pos (List.eq_nil_of_length_eq_zero size), trim]
      | succ m =>
          have nonempty : path ≠ [] := List.ne_nil_of_length_pos (by omega)
          have there : (path ++ List.replicate (0 + k) '/')[m]? = path.getLast? := by
            rw [List.getElem?_append_left (by omega), List.getLast?_eq_getElem?, size]
            rfl
          rw [trim, there, if_neg last, if_neg nonempty]
  | succ n ih =>
      have slash : (path ++ List.replicate (n + 1 + k) '/')[path.length + n]? = some '/' := by
        rw [List.getElem?_append_right (Nat.le_add_right _ _), Nat.add_sub_cancel_left, List.getElem?_replicate,
          if_pos (by omega)]
      rw [← Nat.add_assoc, trim, if_pos slash, Nat.add_assoc n, ih]

theorem putKey_split (last : path.getLast? ≠ some '/') :
    putKey (path ++ List.replicate n '/') = if path = [] then none else some path := by
  have trimmed := trim_split last n 0
  rw [Nat.add_zero] at trimmed
  rw [putKey, List.length_append, List.length_replicate, trimmed]
  split
  · rfl
  · rw [Option.map_some, List.take_left]

theorem cutKey_slash (path : CString) : cutKey (path ++ ['/']) = some path := by
  have slash : (path ++ ['/'])[(path ++ ['/']).length - 1]? = some '/' := by simp
  rw [cutKey, if_neg (by simp), if_pos slash]
  simp

theorem cutKey_plain (nonempty : path ≠ []) (last : path.getLast? ≠ some '/') : cutKey path = some path := by
  rw [List.getLast?_eq_getElem?] at last
  rw [cutKey, if_neg nonempty, if_neg last]

theorem cutKey_eq_memcKey (nonempty : key ≠ []) : cutKey key = some (Subtree.memcKey key) := by
  rw [cutKey, if_neg nonempty, Subtree.memcKey, List.getLast?_eq_getElem?, List.dropLast_eq_take]
  split <;> rfl

theorem cutKey_split (last : path.getLast? ≠ some '/') (nonempty : path ≠ []) :
    cutKey (path ++ List.replicate n '/') = some (path ++ List.replicate (n - 1) '/') := by
  cases n with
  | zero => simpa using cutKey_plain nonempty last
  | succ n => rw [List.replicate_succ', ← List.append_assoc, cutKey_slash, Nat.add_sub_cancel]

theorem oneKey_split (last : path.getLast? ≠ some '/') :
    OneKey (path ++ List.replicate n '/') ↔ path ≠ [] ∧ n ≤ 1 := by
  constructor
  · rintro ⟨put, cut⟩
    rw [putKey_split last] at put
    have nonempty : path ≠ [] := by
      intro empty
      rw [if_pos empty] at put
      cases put
    rw [cutKey_split last nonempty, withoutSlashes_split last, Option.some.injEq] at cut
    have length := congrArg List.length cut
    rw [List.length_append, List.length_replicate] at length
    exact ⟨nonempty, by omega⟩
  · rintro ⟨nonempty, few⟩
    constructor
    · rw [putKey_split last, if_neg nonempty, withoutSlashes_split last]
    · have none : n - 1 = 0 := by omega
      rw [cutKey_split last nonempty, none, withoutSlashes_split last]
      exact congrArg some (List.append_nil path)

theorem plain_split (last : path.getLast? ≠ some '/') (absolute : path ++ List.replicate n '/' ≠ []) :
    Plain (path ++ List.replicate n '/') ↔ path ≠ [] ∧ n ≤ 1 := by
  unfold Plain
  constructor
  · rintro ⟨notRoot, single⟩
    have few : n ≤ 1 := by
      by_contra more
      obtain ⟨k, rfl⟩ : ∃ k, n = k + 2 := ⟨n - 2, by omega⟩
      exact single ⟨path ++ List.replicate k '/', by rw [List.append_assoc, List.replicate_add]; rfl⟩
    refine ⟨?_, few⟩
    rintro rfl
    have one : n = 1 := by
      cases n with
      | zero => exact absurd rfl absolute
      | succ n => omega
    exact notRoot (by rw [one]; rfl)
  · rintro ⟨nonempty, few⟩
    have cases' : n = 0 ∨ n = 1 := by omega
    rcases cases' with rfl | rfl
    · rw [List.replicate_zero, List.append_nil]
      constructor
      · rintro rfl
        exact last rfl
      · rintro ⟨front, rfl⟩
        exact last (by simp)
    · constructor
      · intro root
        exact nonempty (List.append_cancel_right (root.trans (List.nil_append ['/']).symm))
      · rintro ⟨front, twice⟩
        have both : front ++ ['/'] ++ ['/'] = path ++ ['/'] := by
          rw [List.append_assoc]
          exact twice
        exact last (by rw [← List.append_cancel_right both, List.getLast?_concat])

theorem plain_iff_oneKey (absolute : key.head? = some '/') : OneKey key ↔ Plain key := by
  obtain ⟨path, n, rfl, last⟩ := split_slashes key
  rw [oneKey_split last, plain_split last]
  rintro empty
  rw [empty] at absolute
  cases absolute

theorem withoutSlashes_ne_nil (one : OneKey key) : withoutSlashes key ≠ [] := by
  obtain ⟨path, n, rfl, last⟩ := split_slashes key
  rw [withoutSlashes_split last]
  exact ((oneKey_split last).mp one).1

theorem dmkvCall_eq {call : Call} (one : OneKey call.key) (s : Memcached) (fault : Option Fault) :
    dmkvCall s fault call = some (mapCall s fault call) := by
  have nonempty := withoutSlashes_ne_nil one
  obtain ⟨put, cut⟩ := one
  cases call with
  | set key val =>
      simp only [Call.key] at put nonempty
      simp [dmkvCall, memcPut, memcachedSet, mapCall, put, nonempty, Call.key]
  | add key val =>
      simp only [Call.key] at cut nonempty
      simp [dmkvCall, memcAdd, memcachedAdd, mapCall, cut, nonempty, Call.key]
  | cas key val cas =>
      simp only [Call.key] at cut nonempty
      simp [dmkvCall, memcCas, memcachedCas, mapCall, cut, nonempty, Call.key]
  | get key =>
      simp only [Call.key] at cut nonempty
      simp [dmkvCall, memcGet, memcachedGet, mapCall, cut, nonempty, Call.key]
  | getCas key =>
      simp only [Call.key] at cut nonempty
      simp [dmkvCall, memcGetCas, memcachedGet, mapCall, cut, nonempty, Call.key]
  | del key =>
      simp only [Call.key] at cut nonempty
      simp [dmkvCall, memcDel, memcachedDelete, mapCall, cut, nonempty, Call.key]

theorem dmkvRun_eq {ops : List (Option Fault × Call)} (one : ∀ x ∈ ops, OneKey x.2.key) (s : Memcached) :
    dmkvRun s ops = some (mapRun s ops) := by
  induction ops generalizing s with
  | nil => rfl
  | cons x ops ih =>
      obtain ⟨here, later⟩ := List.forall_mem_cons.mp one
      rw [dmkvRun, dmkvCall_eq here, Option.bind_eq_bind, Option.bind_some, ih later, Option.bind_eq_bind,
        Option.bind_some, mapRun]

def setGet (key val : CString) : List (Option Fault × Call) := [(none, .set key val), (none, .get key)]

theorem mapRun_setGet (key val : CString) :
    mapRun .empty (setGet key val) = [.code 0, .value (some val)] := by
  simp [setGet, mapRun, mapCall, Call.key, Store.set, Store.answer, Store.get, Store.write, putCode, found]

theorem dmkvRun_setGet {val : CString} (last : path.getLast? ≠ some '/') (nonempty : path ≠ []) :
    dmkvRun .empty (setGet (path ++ List.replicate (n + 2) '/') val) = some [.code 0, .value none] := by
  have put : putKey (path ++ List.replicate (n + 2) '/') = some path := by rw [putKey_split last, if_neg nonempty]
  have cut : cutKey (path ++ List.replicate (n + 2) '/') = some (path ++ List.replicate (n + 1) '/') :=
    cutKey_split last nonempty
  simp [setGet, dmkvRun, dmkvCall, memcPut, memcGet, put, cut, memcachedSet, memcachedGet, nonempty, Store.set,
    Store.answer, Store.get, Store.write, Store.empty, putCode, found]

theorem oneKey_of_setGet {val : CString}
    (run : dmkvRun .empty (setGet key val) = some (mapRun .empty (setGet key val))) : OneKey key := by
  obtain ⟨path, n, rfl, last⟩ := split_slashes key
  rw [mapRun_setGet] at run
  apply (oneKey_split last).mpr
  by_cases nonempty : path = []
  · rw [setGet, dmkvRun, dmkvCall, memcPut, putKey_split last, if_pos nonempty] at run
    cases run
  · refine ⟨nonempty, ?_⟩
    by_contra more
    obtain ⟨k, rfl⟩ : ∃ k, n = k + 2 := ⟨n - 2, by omega⟩
    rw [dmkvRun_setGet last nonempty] at run
    simp at run

/-- The functions address one key, and their calls one map, exactly if no path is given as `/` or with more
than one slash at its end. -/
theorem memc_one_map_iff (K : Set CString) (absolute : ∀ key ∈ K, key.head? = some '/') :
    ((∀ key ∈ K, OneKey key) ↔ ∀ key ∈ K, Plain key) ∧
    ((∀ ops : List (Option Fault × Call), (∀ x ∈ ops, x.2.key ∈ K) →
      dmkvRun .empty ops = some (mapRun .empty ops)) ↔ ∀ key ∈ K, Plain key) := by
  constructor
  · constructor
    · intro one key member
      exact (plain_iff_oneKey (absolute key member)).mp (one key member)
    · intro plain key member
      exact (plain_iff_oneKey (absolute key member)).mpr (plain key member)
  · constructor
    · intro runs key member
      have run := runs (setGet key ['v']) (by simp [setGet, Call.key, member])
      exact (plain_iff_oneKey (absolute key member)).mp (oneKey_of_setGet run)
    · intro plain ops inside
      apply dmkvRun_eq
      intro x listed
      have member := inside x listed
      exact (plain_iff_oneKey (absolute _ member)).mpr (plain _ member)

theorem memc_one_map_spelled : OneKey ['/', 'a', '/'] := by
  have absolute : ∀ key ∈ ({['/', 'a'], ['/', 'a', '/']} : Set CString), key.head? = some '/' := by
    rintro key (rfl | rfl) <;> rfl
  apply (memc_one_map_iff _ absolute).1.mpr
  · rintro key (rfl | rfl) <;> exact ⟨by decide, by decide⟩
  · exact .inr rfl

theorem memc_one_map_fails :
    dmkvRun .empty (setGet ['/', 'a', '/', '/'] ['v']) = some [.code 0, .value none] ∧
    mapRun .empty (setGet ['/', 'a', '/', '/'] ['v']) = [.code 0, .value (some ['v'])] ∧
    putKey ['/'] = none ∧ cutKey ['/'] = some [] := by
  refine ⟨?_, mapRun_setGet _ _, rfl, rfl⟩
  have last : ['/', 'a'].getLast? ≠ some '/' := by decide
  have spelled : ['/', 'a', '/', '/'] = ['/', 'a'] ++ List.replicate (0 + 2) '/' := rfl
  rw [spelled]
  exact dmkvRun_setGet last (List.cons_ne_nil _ _)

end Pacon.Keys
