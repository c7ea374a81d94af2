import Pacon.Lib.Buffer
import Pacon.Message.Format
import Pacon.Permission.Check

/-!
# The parent of a new entry

`check_permission` tests the parent of an entry that is to be made, and `check_parent_dir` looks up
whether it exists. Each of them finds the parent with a scan of its own.
-/

namespace Pacon.Permission
open Lib Message

/-- Where a scan down from index `i - 1` finds a '/'; `none` where it ends at -1. -/
def lastSlash (path : CString) : Nat → Option Nat
  | 0 => none
  | i + 1 => if path[i]? = some '/' then some i else lastSlash path i

/-- `check_path` of `check_permission` for an entry that does not exist yet. Without a '/' the length -1
makes `strncpy` leave the buffer. -/
def testedParent (checkPath : List Char) (path : CString) : Option CString :=
  match lastSlash path path.length with
  | none => none
  | some i => do
      let buf ← strncpy checkPath path i
      let buf ← put buf i nul
      cstring buf

def copyDown (path : CString) : Nat → List Char → Option (List Char)
  | 0, buf => some buf
  | i + 1, buf => do
      let c ← path[i]?
      let buf ← put buf i c
      copyDown path i buf

/-- `p_dir` of `check_parent_dir`; `none` where it returns before, and without a '/' where it writes in
front of the buffer. -/
def lookedUpParent (pDir : List Char) (path : CString) : Option CString :=
  if path = [] ∨ path = ['/'] then none
  else
    let pathLen := if path.getLast? = some '/' then path.length - 1 else path.length
    if pathLen ≥ pathMax then none
    else
      match lastSlash path pathLen with
      | none => none
      | some 0 => do
          let buf ← put pDir 0 '/'
          let buf ← put buf 1 nul
          cstring buf
      | some i => do
          let buf ← put pDir i nul
          let buf ← copyDown path i buf
          cstring buf

def withoutLast (path : CString) : CString := parent (if path.getLast? = some '/' then path.dropLast else path)

def SameParent (path : CString) : Prop :=
  ∀ checkPath pDir : List Char, checkPath.length = pathMax → pDir.length = pathMax →
    testedParent checkPath path = some (withoutLast path) ∧ lookedUpParent pDir path = some (withoutLast path)

/-- An absolute path with a component, and with one '/' at most behind it. -/
structure NewEntry (path : CString) : Prop where
  absolute : path.head? = some '/'
  component : 2 ≤ path.length
  fits : path.length < pathMax
  clear : nul ∉ path
  single : ¬['/', '/'] <:+ path

variable {path front name rest : CString} {buf : List Char}

theorem lastSlash_split (clear : '/' ∉ name) :
    lastSlash (front ++ '/' :: (name ++ rest)) (front.length + 1 + name.length) = some front.length := by
  induction name using List.reverseRecOn generalizing rest with
  | nil => simp [lastSlash]
  | append_singleton name c ih =>
      rw [List.mem_append, not_or, List.mem_singleton] at clear
      have here : (front ++ '/' :: (name ++ [c] ++ rest))[front.length + 1 + name.length]? = some c := by
        rw [List.getElem?_append_right (by omega)]
        have index : front.length + 1 + name.length - front.length = name.length + 1 := by omega
        rw [index, List.getElem?_cons_succ, List.append_assoc, List.getElem?_append_right le_rfl]
        simp
      rw [List.length_append, List.length_singleton, ← Nat.add_assoc, lastSlash, here, if_neg]
      · rw [List.append_assoc]
        exact ih clear.1
      · intro slash
        exact clear.2 (Option.some.inj slash).symm

theorem dirname_split (clear : '/' ∉ name) : dirname (front ++ '/' :: name) = front := by
  have backward : (front ++ '/' :: name).reverse = name.reverse ++ '/' :: front.reverse := by simp
  rw [dirname, backward, dropWhile_sep fun member => clear (List.mem_reverse.mp member)]
  simp

theorem parent_split (clear : '/' ∉ name) :
    parent (front ++ '/' :: name) = if front = [] then ['/'] else front := by
  rw [parent, dirname_split clear]

theorem copyDown_eq {i : Nat} (fits : i ≤ path.length) (room : i ≤ buf.length) :
    copyDown path i buf = some (path.take i ++ buf.drop i) := by
  induction i generalizing buf with
  | zero => rfl
  | succ i ih =>
      have here : path[i]? = some path[i] := List.getElem?_eq_getElem (by omega)
      simp only [copyDown, here, put_inside (by omega : i < buf.length), Option.bind_eq_bind, Option.bind_some]
      rw [ih (by omega) (by rw [List.length_set]; omega), drop_set_self room, List.take_add_one, here,
        List.append_assoc]
      rfl

theorem slash_behind (front name : CString) : front ++ '/' :: (name ++ ['/']) = front ++ '/' :: name ++ ['/'] := by
  rw [List.append_assoc]
  rfl

theorem lastSlash_last (noSlash : '/' ∉ name) :
    lastSlash (front ++ '/' :: name) (front ++ '/' :: name).length = some front.length := by
  have split : lastSlash (front ++ '/' :: (name ++ [])) (front.length + 1 + name.length) = some front.length :=
    lastSlash_split noSlash
  rwa [List.append_nil, Nat.add_assoc, Nat.add_comm 1, ← List.length_cons, ← List.length_append] at split

theorem lastSlash_none (noSlash : '/' ∉ path) (i : Nat) : lastSlash path i = none := by
  induction i with
  | zero => rfl
  | succ i ih =>
      rw [lastSlash, if_neg fun here => noSlash (List.mem_of_getElem? here)]
      exact ih

theorem testedParent_split (noSlash : '/' ∉ name) (clear : nul ∉ front) (room : front.length < buf.length) :
    testedParent buf (front ++ '/' :: name) = some front := by
  have copied : strncpy buf (front ++ '/' :: name) front.length = some (front ++ buf.drop front.length) := by
    rw [strncpy, if_pos room.le, List.take_left]
    simp
  have ended : put (front ++ buf.drop front.length) front.length nul =
      some (front ++ nul :: buf.drop (front.length + 1)) := by
    rw [put_inside (by simp; omega), List.set_append_right _ _ le_rfl, Nat.sub_self, List.drop_eq_getElem_cons room,
      List.set_cons_zero]
  simp only [testedParent, lastSlash_last noSlash, copied, ended, Option.bind_eq_bind, Option.bind_some]
  exact cstring_front clear ⟨buf.drop (front.length + 1), by simp⟩

theorem getLast?_name (noSlash : '/' ∉ name) (nonempty : name ≠ []) :
    (front ++ '/' :: name).getLast? ≠ some '/' := by
  rw [List.getLast?_append_of_ne_nil _ (List.cons_ne_nil _ _), List.getLast?_cons_of_ne_nil nonempty]
  intro slash
  exact noSlash (List.mem_of_getLast? slash)

theorem lookedUpParent_split (noSlash : '/' ∉ name) (nonempty : name ≠ []) (clear : nul ∉ front)
    (tail : rest = [] ∨ rest = ['/']) (fits : (front ++ '/' :: name).length < pathMax) (room : buf.length = pathMax) :
    lookedUpParent buf (front ++ '/' :: (name ++ rest)) = some (if front = [] then ['/'] else front) := by
  have other : ¬(front ++ '/' :: (name ++ rest) = [] ∨ front ++ '/' :: (name ++ rest) = ['/']) := by
    cases front <;> simp [nonempty]
  have stripped : (if (front ++ '/' :: (name ++ rest)).getLast? = some '/'
      then (front ++ '/' :: (name ++ rest)).length - 1 else (front ++ '/' :: (name ++ rest)).length) =
      front.length + 1 + name.length := by
    rcases tail with rfl | rfl
    · rw [List.append_nil, if_neg (getLast?_name noSlash nonempty), List.length_append, List.length_cons]
      omega
    · rw [slash_behind, if_pos List.getLast?_concat]
      simp only [List.length_append, List.length_cons, List.length_nil]
      omega
  rw [List.length_append, List.length_cons] at fits
  rw [lookedUpParent, if_neg other]
  simp only [stripped, lastSlash_split noSlash]
  rw [if_neg (by omega)]
  cases front with
  | nil =>
      have inside : 1 < buf.length := room ▸ (by decide)
      have slash := put_inside (Nat.zero_lt_of_lt inside) '/'
      have ended := put_inside (by rwa [List.length_set] : 1 < (buf.set 0 '/').length) nul
      have holds := put_next (put_next List.nil_prefix slash) ended
      simp only [List.length_nil, slash, ended, Option.bind_eq_bind, Option.bind_some]
      exact cstring_front (by decide) holds
  | cons c front =>
      have inside : (c :: front).length < buf.length := by omega
      have ended := put_inside inside nul
      have copied : copyDown (c :: front ++ '/' :: (name ++ rest)) (c :: front).length
          (buf.set (c :: front).length nul) = some (c :: front ++ nul :: buf.drop ((c :: front).length + 1)) := by
        rw [copyDown_eq (by simp) (by rw [List.length_set]; exact inside.le), List.take_left, drop_set_self inside]
      rw [List.length_cons] at ended copied
      simp only [List.length_cons, ended, copied, Option.bind_eq_bind, Option.bind_some]
      rw [if_neg (List.cons_ne_nil _ _)]
      exact cstring_front clear ⟨_, by rw [List.append_assoc]; rfl⟩

theorem testedParent_overrun (noSlash : '/' ∉ name) (long : buf.length ≤ front.length) :
    testedParent buf (front ++ '/' :: name) = none := by
  simp only [testedParent, lastSlash_last noSlash, Option.bind_eq_bind]
  cases copied : strncpy buf (front ++ '/' :: name) front.length with
  | none => rfl
  | some buf' =>
      have same : buf'.length = buf.length := by
        obtain ⟨fits, is⟩ := Option.ite_none_right_eq_some.mp copied
        cases is
        simp
        omega
      rw [Option.bind_some, put, if_neg (by omega), Option.bind_none]

theorem testedParent_eq_checkPath {opt : Opt} (makes : opt.makes = true) (clear : nul ∉ path)
    (room : buf.length = pathMax) : testedParent buf path = checkPath path opt := by
  have parent : testedPath path opt = dirname path := if_pos makes
  have copied : Copied path opt ↔ '/' ∈ path ∧ (dirname path).length < pathMax := by
    rw [Copied, parent, forall_prop_of_true makes]
  simp only [checkPath, parent, copied]
  by_cases absolute : '/' ∈ path
  · obtain ⟨front, name, rfl, noSlash⟩ := last_split absolute
    rw [dirname_split noSlash]
    by_cases short : front.length < pathMax
    · rw [if_pos ⟨absolute, short⟩]
      exact testedParent_split noSlash (fun member => clear (List.mem_append_left _ member)) (room ▸ short)
    · rw [if_neg fun both => short both.2]
      exact testedParent_overrun noSlash (room ▸ Nat.le_of_not_gt short)
  · rw [if_neg fun both => absolute both.1, testedParent, lastSlash_none absolute]

theorem lookedUpParent_text {q : Commit.Path} (named : Named (name :: q)) (clear : nul ∉ text (name :: q))
    (fits : (text (name :: q)).length < pathMax) (room : buf.length = pathMax) :
    lookedUpParent buf (text (name :: q)) = some (text q) := by
  obtain ⟨nonempty, -, -, noSlash⟩ := named name List.mem_cons_self
  rw [text_of_ne (List.cons_ne_nil _ _), below] at clear fits ⊢
  have clearFront : nul ∉ below q := fun member => clear (List.mem_append_left _ member)
  have split := lookedUpParent_split noSlash nonempty clearFront (.inl rfl) fits room
  rw [List.append_nil] at split
  rw [split, text]
  cases q with
  | nil => rfl
  | cons next q =>
      rw [if_neg (List.cons_ne_nil _ _), if_neg]
      intro empty
      have head := head_below (List.cons_ne_nil next q)
      rw [empty] at head
      cases head

theorem withoutLast_split (noSlash : '/' ∉ name) (nonempty : name ≠ []) (tail : rest = [] ∨ rest = ['/']) :
    withoutLast (front ++ '/' :: (name ++ rest)) = if front = [] then ['/'] else front := by
  unfold withoutLast
  rcases tail with rfl | rfl
  · rw [List.append_nil, if_neg (getLast?_name noSlash nonempty), parent_split noSlash]
  · rw [slash_behind, if_pos List.getLast?_concat, List.dropLast_concat, parent_split noSlash]

theorem NewEntry.split (entry : NewEntry path) : ∃ front name rest, path = front ++ '/' :: (name ++ rest) ∧
    '/' ∉ name ∧ name ≠ [] ∧ (rest = [] ∨ rest = ['/']) := by
  obtain ⟨front, name, rfl, noSlash⟩ := last_split (List.mem_of_head? entry.absolute)
  by_cases nonempty : name = []
  · subst nonempty
    have component := entry.component
    rw [List.length_append, List.length_singleton] at component
    have absolute : front.head? = some '/' := by
      have begins := entry.absolute
      rwa [List.head?_append_of_ne_nil _ (List.ne_nil_of_length_pos (by omega))] at begins
    obtain ⟨front, name, rfl, noSlash⟩ := last_split (List.mem_of_head? absolute)
    refine ⟨front, name, ['/'], by simp, noSlash, ?_, .inr rfl⟩
    rintro rfl
    exact entry.single ⟨front, by simp⟩
  · exact ⟨front, name, [], by simp, noSlash, nonempty, .inl rfl⟩

theorem sameParent_split (noSlash : '/' ∉ name) (nonempty : name ≠ []) (tail : rest = [] ∨ rest = ['/'])
    (clear : nul ∉ front ++ '/' :: (name ++ rest)) (fits : (front ++ '/' :: (name ++ rest)).length < pathMax) :
    SameParent (front ++ '/' :: (name ++ rest)) ↔ rest = [] ∧ front ≠ [] := by
  have clearFront : nul ∉ front := fun member => clear (List.mem_append_left _ member)
  have shorter : (front ++ '/' :: name).length < pathMax := by
    simp only [List.length_append, List.length_cons] at fits ⊢
    omega
  unfold SameParent
  rw [withoutLast_split noSlash nonempty tail]
  constructor
  · intro same
    have tested := (same (List.replicate pathMax nul) (List.replicate pathMax nul)
      List.length_replicate List.length_replicate).1
    rcases tail with rfl | rfl
    · refine ⟨rfl, ?_⟩
      rintro rfl
      rw [List.append_nil, testedParent_split noSlash clearFront (by rw [List.length_replicate]; decide)] at tested
      cases tested
    · -- The name is still there.
      rw [slash_behind] at clear tested
      have clearName : nul ∉ front ++ '/' :: name := fun member => clear (List.mem_append_left _ member)
      rw [testedParent_split List.not_mem_nil clearName (by rwa [List.length_replicate])] at tested
      have whole := Option.some.inj tested
      split at whole
      · rename_i top
        subst top
        exact absurd (List.cons.inj whole).2 nonempty
      · have length := congrArg List.length whole
        rw [List.length_append, List.length_cons] at length
        omega
  · rintro ⟨rfl, other⟩ checkPath pDir checkRoom dirRoom
    have short : front.length < checkPath.length := by
      rw [checkRoom]
      rw [List.length_append] at shorter
      omega
    rw [if_neg other]
    constructor
    · rw [List.append_nil]
      exact testedParent_split noSlash clearFront short
    · rw [lookedUpParent_split noSlash nonempty clearFront tail shorter dirRoom, if_neg other]

/-- The two scans come to the parent of the entry exactly if no '/' ends the path and the entry is not
directly below `/`. -/
theorem same_parent_iff (entry : NewEntry path) : SameParent path ↔ path.getLast? ≠ some '/' ∧ '/' ∈ path.tail := by
  obtain ⟨front, name, rest, rfl, noSlash, nonempty, tail⟩ := entry.split
  rw [sameParent_split noSlash nonempty tail entry.clear entry.fits]
  constructor
  · rintro ⟨rfl, other⟩
    rw [List.append_nil]
    obtain ⟨c, front, rfl⟩ := List.exists_cons_of_ne_nil other
    exact ⟨getLast?_name noSlash nonempty, List.mem_append_right _ List.mem_cons_self⟩
  · rintro ⟨noEnd, second⟩
    rcases tail with rfl | rfl
    · refine ⟨rfl, ?_⟩
      rintro rfl
      rw [List.append_nil] at second
      exact noSlash second
    · rw [slash_behind] at noEnd
      exact absurd List.getLast?_concat noEnd

theorem same_parent_inner : SameParent ['/', 'w', '/', 'd'] :=
  (same_parent_iff ⟨rfl, by decide, by decide, by decide, by decide⟩).mpr ⟨by decide, by decide⟩

theorem same_parent_fails :
    (NewEntry ['/', 'w', '/', 'd', '/'] ∧ NewEntry ['/', 'w']) ∧ ∀ checkPath pDir : List Char,
      checkPath.length = pathMax → pDir.length = pathMax →
      testedParent checkPath ['/', 'w', '/', 'd', '/'] = some ['/', 'w', '/', 'd'] ∧
      lookedUpParent pDir ['/', 'w', '/', 'd', '/'] = some ['/', 'w'] ∧
      testedParent checkPath ['/', 'w'] = some [] ∧ lookedUpParent pDir ['/', 'w'] = some ['/'] := by
  refine ⟨⟨⟨rfl, by decide, by decide, by decide, by decide⟩, ⟨rfl, by decide, by decide, by decide, by decide⟩⟩,
    fun checkPath pDir checkRoom dirRoom => ?_⟩
  have inside (k : Nat) (small : k < pathMax) : k < checkPath.length := checkRoom ▸ small
  have slashTested : testedParent checkPath (['/', 'w', '/', 'd'] ++ '/' :: []) = some ['/', 'w', '/', 'd'] :=
    testedParent_split List.not_mem_nil (by decide) (inside 4 (by decide))
  have slashLookedUp : lookedUpParent pDir (['/', 'w'] ++ '/' :: (['d'] ++ ['/'])) = some ['/', 'w'] :=
    lookedUpParent_split (by decide) (by decide) (by decide) (.inr rfl) (by decide) dirRoom
  have topTested : testedParent checkPath ([] ++ '/' :: ['w']) = some [] :=
    testedParent_split (by decide) List.not_mem_nil (inside 0 (by decide))
  have topLookedUp : lookedUpParent pDir ([] ++ '/' :: (['w'] ++ [])) = some ['/'] :=
    lookedUpParent_split (by decide) (by decide) List.not_mem_nil (.inl rfl) (by decide) dirRoom
  exact ⟨slashTested, slashLookedUp, topTested, topLookedUp⟩

end Pacon.Permission
