import Pacon.Commit.Model

/-!
# Paths as strings

The text of a path, as the callers pass it and the messages carry it, and `child_cmp_new`, which
compares two such texts character by character.
-/

namespace Pacon
open Lib Commit

/-- The text of a path below the root directory, and nothing for the root directory itself. -/
def below : Path → CString
  | [] => []
  | name :: q => below q ++ '/' :: name

def text (p : Path) : CString := if p = [] then ['/'] else below p

/-- 2 for the same path, 1 for a path below the other, otherwise 0. -/
def childCmpNew (path pPath : CString) : Nat :=
  if path.length < pPath.length then 0
  else if ¬pPath <+: path then 0
  else if path[pPath.length]? ≠ some '/' ∧ pPath.length ≠ path.length then 0
  else if pPath.length ≠ path.length then 1
  else 2

def descend (name : CString) (p : Path) : Path :=
  if name = [] ∨ name = ['.'] then p else if name = ['.', '.'] then p.tail else name :: p

def resolveStep (x : Path × CString) (c : Char) : Path × CString :=
  if c = '/' then (descend x.2 x.1, []) else (x.1, x.2 ++ [c])

/-- The path that a string names in the working directory `cwd`. -/
def resolve (cwd : Path) (str : CString) : Path :=
  let x := str.foldl resolveStep (if str.head? = some '/' then [] else cwd, [])
  descend x.2 x.1

def IsName (name : CString) : Prop := name ≠ [] ∧ name ≠ ['.'] ∧ name ≠ ['.', '.'] ∧ '/' ∉ name

instance (name : CString) : Decidable (IsName name) := inferInstanceAs (Decidable (_ ∧ _))

def Named (p : Path) : Prop := ∀ name ∈ p, IsName name

instance (p : Path) : Decidable (Named p) := inferInstanceAs (Decidable (∀ name ∈ p, _))

theorem childCmpNew_eq_two {path pPath : CString} : childCmpNew path pPath = 2 ↔ pPath = path := by
  unfold childCmpNew
  constructor
  · intro two
    split at two
    · cases two
    split at two
    · cases two
    rename_i front
    split at two
    · cases two
    split at two
    · cases two
    rename_i same
    exact (Decidable.not_not.mp front).eq_of_length (Decidable.not_not.mp same)
  · rintro rfl
    simp

theorem childCmpNew_ne_zero {path pPath : CString} :
    childCmpNew path pPath ≠ 0 ↔ pPath = path ∨ pPath ++ ['/'] <+: path := by
  constructor
  · intro positive
    unfold childCmpNew at positive
    split at positive
    · exact absurd rfl positive
    split at positive
    · exact absurd rfl positive
    rename_i front
    obtain ⟨rest, rfl⟩ := Decidable.not_not.mp front
    split at positive
    · exact absurd rfl positive
    rename_i slash
    cases rest with
    | nil => exact .inl (List.append_nil _).symm
    | cons c rest =>
        simp only [List.getElem?_append_right le_rfl, Nat.sub_self, List.length_append,
          List.length_cons] at slash
        have is : c = '/' := by
          by_contra other
          exact slash ⟨by simpa using other, by omega⟩
        exact .inr ⟨rest, by rw [is, List.append_assoc]; rfl⟩
  · rintro (rfl | ⟨rest, rfl⟩)
    · rw [childCmpNew_eq_two.mpr rfl]
      exact Nat.succ_ne_zero 1
    · simp [childCmpNew]

theorem childCmpNew_eq_one {path pPath : CString} : childCmpNew path pPath = 1 ↔ pPath ++ ['/'] <+: path := by
  constructor
  · intro one
    have positive : childCmpNew path pPath ≠ 0 := by rw [one]; exact one_ne_zero
    refine (childCmpNew_ne_zero.mp positive).resolve_left fun same => ?_
    rw [childCmpNew_eq_two.mpr same] at one
    cases one
  · rintro ⟨rest, rfl⟩
    simp [childCmpNew]

theorem foldl_resolveStep {name : CString} (noSlash : '/' ∉ name) (p : Path) (front : CString) :
    name.foldl resolveStep (p, front) = (p, front ++ name) := by
  induction name generalizing front with
  | nil => simp
  | cons c name ih =>
      rw [List.mem_cons, not_or] at noSlash
      have step : resolveStep (p, front) c = (p, front ++ [c]) := if_neg (Ne.symm noSlash.1)
      rw [List.foldl_cons, step, ih noSlash.2]
      simp

theorem descend_below {p : Path} (named : Named p) :
    descend ((below p).foldl resolveStep ([], [])).2 ((below p).foldl resolveStep ([], [])).1 = p := by
  induction p with
  | nil => rfl
  | cons name q ih =>
      have before := ih fun other member => named other (List.mem_cons_of_mem _ member)
      obtain ⟨nonempty, noDot, noDots, noSlash⟩ := named name List.mem_cons_self
      have slash : resolveStep ((below q).foldl resolveStep ([], [])) '/' = (q, []) := by
        rw [resolveStep, if_pos rfl, before]
      rw [below, List.foldl_append, List.foldl_cons, slash, foldl_resolveStep noSlash, List.nil_append]
      simp [descend, nonempty, noDot, noDots]

theorem head_below {p : Path} (other : p ≠ []) : (below p).head? = some '/' := by
  induction p with
  | nil => exact absurd rfl other
  | cons name q ih =>
      cases q with
      | nil => rfl
      | cons next q => rw [below, List.head?_append, ih (List.cons_ne_nil _ _)]; rfl

theorem head_text (p : Path) : (text p).head? = some '/' := by
  unfold text
  split
  · rfl
  · rename_i other
    exact head_below other

theorem text_ne_nil (p : Path) : text p ≠ [] := by
  intro empty
  have head := head_text p
  rw [empty] at head
  cases head

theorem resolve_text {p : Path} (named : Named p) (cwd : Path) : resolve cwd (text p) = p := by
  by_cases root : p = []
  · subst root
    rfl
  · rw [text, if_neg root, resolve, head_below root]
    exact descend_below named

theorem text_injective {p q : Path} (namedP : Named p) (namedQ : Named q) (same : text p = text q) : p = q := by
  rw [← resolve_text namedP [], same, resolve_text namedQ]

theorem resolve_child {path name : CString} (nonempty : path ≠ []) (named : IsName name) (cwd : Path) :
    resolve cwd (path ++ '/' :: name) = name :: resolve cwd path := by
  have head : (path ++ '/' :: name).head? = path.head? := by
    cases path with
    | nil => exact absurd rfl nonempty
    | cons c path => rfl
  obtain ⟨other, noDot, noDots, noSlash⟩ := named
  unfold resolve
  rw [head, List.foldl_append, List.foldl_cons, resolveStep, if_pos rfl, foldl_resolveStep noSlash, List.nil_append]
  simp [descend, other, noDot, noDots]

theorem resolve_slash {path : CString} (nonempty : path ≠ []) (cwd : Path) :
    resolve cwd (path ++ ['/']) = resolve cwd path := by
  have head : (path ++ ['/']).head? = path.head? := by
    cases path with
    | nil => exact absurd rfl nonempty
    | cons c path => rfl
  unfold resolve
  rw [head, List.foldl_append, List.foldl_cons, List.foldl_nil, resolveStep, if_pos rfl]
  simp [descend]

theorem resolve_below {path : CString} (nonempty : path ≠ []) {r : Path} (named : Named r) (cwd : Path) :
    resolve cwd (path ++ below r) = r ++ resolve cwd path := by
  induction r with
  | nil => simp [below]
  | cons name r ih =>
      have longer : path ++ below r ≠ [] := by simp [nonempty]
      rw [below, ← List.append_assoc, resolve_child longer (named name List.mem_cons_self),
        ih fun other member => named other (List.mem_cons_of_mem _ member), List.cons_append]

theorem below_append (r q : Path) : below (r ++ q) = below q ++ below r := by
  induction r with
  | nil => exact (List.append_nil _).symm
  | cons name r ih => rw [List.cons_append, below, ih, below, List.append_assoc]

theorem text_of_ne {p : Path} (other : p ≠ []) : text p = below p := if_neg other

theorem text_append {q : Path} (named : q ≠ []) (r : Path) : text (r ++ q) = text q ++ below r := by
  rw [text_of_ne named, text_of_ne (by simp [named]), below_append]

theorem text_cons {q : Path} (named : q ≠ []) (name : CString) : text (name :: q) = text q ++ '/' :: name :=
  text_append named [name]

theorem below_injective {p q : Path} (named : Named p) (named' : Named q) (same : below p = below q) : p = q := by
  rw [← descend_below named, same, descend_below named']

theorem suffix_of_below {root p : Path} {rest : CString} (namedRoot : Named root) (named : Named p)
    (split : below p = below root ++ '/' :: rest) : root <:+ p := by
  induction p generalizing rest with
  | nil => simp [below] at split
  | cons name q ih =>
      have namedTail : Named q := fun other member => named other (List.mem_cons_of_mem _ member)
      rcases List.append_eq_append_iff.mp split with ⟨front, upTo, behind⟩ | ⟨front, upTo, behind⟩
      · cases front with
        | nil =>
            rw [List.append_nil] at upTo
            exact below_injective namedRoot namedTail upTo ▸ List.suffix_cons name _
        | cons c front =>
            have inName := (List.cons.inj behind).2
            have slash : '/' ∈ name := inName ▸ List.mem_append_right _ List.mem_cons_self
            exact absurd slash (named name List.mem_cons_self).2.2.2
      · cases front with
        | nil =>
            rw [List.append_nil] at upTo
            exact below_injective namedTail namedRoot upTo ▸ List.suffix_cons name _
        | cons c front =>
            have slash : c = '/' := (List.cons.inj behind).1.symm
            rw [slash] at upTo
            exact (ih namedTail upTo).trans (List.suffix_cons name q)

theorem suffix_of_childCmpNew {root p : Path} (namedRoot : Named root) (named : Named p)
    (positive : childCmpNew (text p) (text root) ≠ 0) : root <:+ p := by
  by_cases top : root = []
  · rw [top]
    exact List.nil_suffix
  rcases childCmpNew_ne_zero.mp positive with same | ⟨rest, split⟩
  · rw [← resolve_text named [], ← same, resolve_text namedRoot]
  · have other : p ≠ [] := by
      rintro rfl
      have length := congrArg List.length split
      obtain ⟨front, slash⟩ := List.head?_eq_some_iff.mp (head_below top)
      simp [text, top, slash] at length
    rw [text, text, if_neg top, if_neg other, List.append_assoc] at split
    exact suffix_of_below namedRoot named split.symm

theorem text_slash_begins {q p : Path} (named : q ≠ []) (inside : q <:+ p) (other : q ≠ p) :
    text q ++ ['/'] <+: text p := by
  obtain ⟨r, rfl⟩ := inside
  have more : r ≠ [] := by
    rintro rfl
    exact other rfl
  obtain ⟨rest, slash⟩ := List.head?_eq_some_iff.mp (head_below more)
  refine ⟨rest, ?_⟩
  rw [text_append named, slash, List.append_assoc]
  rfl

end Pacon
