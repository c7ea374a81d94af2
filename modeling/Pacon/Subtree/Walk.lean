import Pacon.Subtree.Model

namespace Pacon.Subtree
open Lib Function Commit

def Lists (dfs : Path → Option Node) (q : Path) : Listing CString → Prop
  | .nil => True
  | .file name rest =>
      IsName name ∧ (∃ content, dfs (name :: q) = some (.file content)) ∧ name ∉ rest.names ∧ Lists dfs q rest
  | .dir name sub rest =>
      IsName name ∧ dfs (name :: q) = some .dir ∧ Lists dfs (name :: q) sub ∧ name ∉ rest.names ∧ Lists dfs q rest

structure ListsBelow (dfs : Path → Option Node) (q : Path) (es : Listing CString) : Prop where
  entries : Lists dfs q es
  complete : ∀ p, q <:+ p → p ≠ q → dfs p ≠ none → es.Has q p

def Fits (path : CString) (es : Listing CString) : Prop :=
  ∀ r, es.Has [] r → (path ++ below r).length < Message.pathMax

def walkKeys (path : CString) (es : Listing CString) : Set CString := {k | ∃ r, es.Has [] r ∧ k = path ++ below r}

variable {d : Disk} {s t : State} {dfs dfs' : Path → Option Node} {path name k : CString} {q p r : Path}
variable {es sub rest : Listing CString}

theorem memcKey_child (named : IsName name) : memcKey (path ++ '/' :: name) = path ++ '/' :: name := by
  obtain ⟨nonempty, -, -, noSlash⟩ := named
  refine if_neg fun last => noSlash ?_
  rw [List.getLast?_append, List.getLast?_cons, List.getLast?_eq_some_getLast nonempty] at last
  simp only [Option.getD_some, Option.some_or, Option.some.injEq] at last
  exact last ▸ List.getLast_mem nonempty

theorem memcKey_below (named : Named r) (other : r ≠ []) : memcKey (path ++ below r) = path ++ below r := by
  cases r with
  | nil => exact absurd rfl other
  | cons name r =>
      rw [below, ← List.append_assoc]
      exact memcKey_child (named name List.mem_cons_self)

theorem resolve_memcKey (other : memcKey path ≠ []) (cwd : Path) : resolve cwd (memcKey path) = resolve cwd path := by
  unfold memcKey at *
  split
  · rename_i last
    rw [if_pos last] at other
    obtain ⟨front, rfl⟩ := List.getLast?_eq_some_iff.mp last
    rw [List.dropLast_concat] at other ⊢
    exact (resolve_slash other cwd).symm
  · rfl

theorem Lists.named (h : Lists dfs q es) {front : Path} (before : Named front) (has : es.Has front r) : Named r := by
  have first {name : CString} (named : IsName name) : Named (name :: front) := by
    intro other member
    rcases List.mem_cons.mp member with rfl | member
    · exact named
    · exact before other member
  induction es generalizing q front with
  | nil => exact has.elim
  | file name rest ih =>
      obtain ⟨named, -, -, later⟩ := h
      rcases has with rfl | has
      · exact first named
      · exact ih later before has first
  | dir name sub rest ihSub ihRest =>
      obtain ⟨named, -, inner, -, later⟩ := h
      rcases has with rfl | has | has
      · exact first named
      · refine ihSub inner (first named) has fun {other} is member within => ?_
        rcases List.mem_cons.mp within with rfl | within
        · exact is
        · exact first named member within
      · exact ihRest later before has first

theorem Lists.there (h : Lists dfs q es) (has : es.Has q p) : dfs p ≠ none := by
  induction es generalizing q with
  | nil => exact has.elim
  | file name rest ih =>
      obtain ⟨-, ⟨content, file⟩, -, later⟩ := h
      rcases has with rfl | has
      · simp [file]
      · exact ih later has
  | dir name sub rest ihSub ihRest =>
      obtain ⟨-, dir, inner, -, later⟩ := h
      rcases has with rfl | has | has
      · simp [dir]
      · exact ihSub inner has
      · exact ihRest later has

theorem Lists.congr (h : Lists dfs q es) (same : ∀ p, es.Has q p → dfs' p = dfs p) : Lists dfs' q es := by
  induction es generalizing q with
  | nil => trivial
  | file name rest ih =>
      obtain ⟨named, file, fresh, later⟩ := h
      refine ⟨named, ?_, fresh, ih later fun p has => same p (.inr has)⟩
      rwa [same _ (.inl rfl)]
  | dir name sub rest ihSub ihRest =>
      obtain ⟨named, dir, inner, fresh, later⟩ := h
      refine ⟨named, ?_, ihSub inner fun p has => same p (.inr (.inl has)), fresh,
        ihRest later fun p has => same p (.inr (.inr has))⟩
      rwa [same _ (.inl rfl)]

theorem walkKeys_nil : walkKeys path .nil = ∅ := by
  ext k
  simp [walkKeys, Listing.Has]

theorem walkKeys_file : walkKeys path (.file name rest) = {path ++ '/' :: name} ∪ walkKeys path rest := by
  ext k
  simp only [walkKeys, Listing.Has, Set.mem_ofPred_eq, or_and_right, exists_or, exists_eq_left, Set.mem_union,
    Set.mem_singleton_iff]
  rfl

theorem walkKeys_dir : walkKeys path (.dir name sub rest) =
    {path ++ '/' :: name} ∪ (walkKeys (path ++ '/' :: name) sub ∪ walkKeys path rest) := by
  have inner : ∀ k, (∃ r, sub.Has [name] r ∧ k = path ++ below r) ↔
      ∃ r, sub.Has [] r ∧ k = path ++ '/' :: name ++ below r := by
    intro k
    simp only [@Listing.has_iff_relative _ [name] _ sub, ← exists_and_right]
    constructor
    · rintro ⟨_, r, ⟨has, rfl⟩, rfl⟩
      refine ⟨r, has, ?_⟩
      rw [below_append, ← List.append_assoc]
      rfl
    · rintro ⟨r, has, rfl⟩
      refine ⟨_, r, ⟨has, rfl⟩, ?_⟩
      rw [below_append, ← List.append_assoc]
      rfl
  ext k
  simp only [walkKeys, Listing.Has, Set.mem_ofPred_eq, or_and_right, exists_or, exists_eq_left, inner, Set.mem_union,
    Set.mem_singleton_iff]
  rfl

theorem dirNew_of_fits (fits : Fits path es) (has : es.Has [] [name]) :
    dirNew path name = some (path ++ '/' :: name) :=
  if_pos (fits [name] has)

theorem Fits.inner (fits : Fits path (.dir name sub rest)) : Fits (path ++ '/' :: name) sub := by
  intro r has
  have short := fits (r ++ [name]) (.inr (.inl (Listing.has_iff_relative.mpr ⟨r, has, rfl⟩)))
  rwa [below_append, ← List.append_assoc] at short

theorem mem_walkKeys_iff (nonempty : path ≠ []) (lists : Lists dfs (resolve d.cwd path) es) :
    k ∈ walkKeys path es ↔ es.Has (resolve d.cwd path) (resolve d.cwd k) ∧ ∃ r, Named r ∧ k = path ++ below r := by
  constructor
  · rintro ⟨r, has, rfl⟩
    have named : Named r := lists.named (fun _ member => absurd member List.not_mem_nil) has
    rw [resolve_below nonempty named]
    exact ⟨Listing.has_iff_relative.mpr ⟨r, has, rfl⟩, r, named, rfl⟩
  · rintro ⟨has, r, named, rfl⟩
    rw [resolve_below nonempty named] at has
    obtain ⟨r', has, same⟩ := Listing.has_iff_relative.mp has
    rw [List.append_cancel_right same]
    exact ⟨r', has, rfl⟩

theorem ListsBelow.has_iff (h : ListsBelow dfs q es) : es.Has q p ↔ q <:+ p ∧ p ≠ q ∧ dfs p ≠ none :=
  ⟨fun has => ⟨(Listing.below_of_has has).1, (Listing.below_of_has has).2, h.entries.there has⟩,
    fun ⟨below, other, there⟩ => h.complete p below other there⟩

end Pacon.Subtree
