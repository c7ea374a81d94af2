import Pacon.Lib.Buffer
import Pacon.Server.Requests

/-!
# The two names of a RENAME request

`pacon_rename` joins its paths by a `-`, and `rename_update_dc` copies them out of the request again into
two buffers, character by character. The split is at every `-` that it comes upon.
-/

namespace Pacon.Server
open Lib Message

structure Split where
  oldpath : List Char
  newpath : List Char
  loc : Nat

/-- The loop for the character `path[i]`; `none` where it writes outside of a buffer. -/
def splitStep (i : Nat) (c : Char) (s : Split) : Option Split :=
  if s.loc = 0 ∧ c ≠ '-' then (put s.oldpath i c).map fun buf => { s with oldpath := buf }
  else if c = '-' then (put s.oldpath i nul).map fun buf => { s with oldpath := buf, loc := i }
  else if 0 < s.loc then (put s.newpath (i - s.loc - 1) c).map fun buf => { s with newpath := buf }
  else some s

def splitLoop : Nat → CString → Split → Option Split
  | i, [], s =>
      if i < pathMax then (put s.newpath (i - s.loc - 1) nul).map fun buf => { s with newpath := buf } else some s
  | i, c :: cs, s => if i < pathMax then (splitStep i c s).bind (splitLoop (i + 1) cs) else some s

/-- The names that `rename_update_dc` goes on with; `oldpath` and `newpath` are what lies in its buffers
before. -/
def splitNames (path : CString) (oldpath newpath : List Char) : Option (CString × CString) :=
  if path.length ≤ 1 then none
  else do
    let s ← splitLoop 0 path ⟨oldpath, newpath, 0⟩
    let old ← cstring s.oldpath
    let new ← cstring s.newpath
    some (old, new)

/-- Whatever the buffers hold before, the names come out as they went in. -/
def NamesRoundTrip (old new : CString) : Prop :=
  ∀ oldpath newpath : List Char, oldpath.length = halfMax → newpath.length = halfMax →
    splitNames (jointPath old new) oldpath newpath = some (old, new)

structure Separable (old new : CString) : Prop where
  oldClear : '-' ∉ old
  newClear : '-' ∉ new
  oldShort : old.length < halfMax
  newShort : new.length < halfMax

structure Copied (done : CString) (s : Split) : Prop where
  oldLength : s.oldpath.length = halfMax
  newLength : s.newpath.length = halfMax
  front : '-' ∉ done → s.loc = 0 ∧ done <+: s.oldpath
  behind : '-' ∈ done → 0 < s.loc ∧ done.length = s.loc + 1 + (newName done).length ∧
    oldName done ++ [nul] <+: s.oldpath ∧ newName done <+: s.newpath

theorem newName_dash (done : CString) : newName (done ++ ['-']) = [] := by
  simp [newName]

theorem newName_append (done : CString) {c : Char} (other : c ≠ '-') : newName (done ++ [c]) = newName done ++ [c] := by
  simp [newName, other]

theorem oldName_append {done : CString} (dash : '-' ∈ done) (rest : CString) : oldName (done ++ rest) = oldName done := by
  obtain ⟨a, b, rfl⟩ := List.append_of_mem dash
  have cut (tail : CString) : oldName (a ++ '-' :: tail) = oldName (a ++ ['-']) := by
    simp [oldName, List.takeWhile_append]
  rw [List.append_assoc, List.cons_append, cut, ← cut b]

theorem copied_start {oldpath newpath : List Char} (oldLength : oldpath.length = halfMax)
    (newLength : newpath.length = halfMax) : Copied [] ⟨oldpath, newpath, 0⟩ where
  oldLength := oldLength
  newLength := newLength
  front _ := ⟨rfl, List.nil_prefix⟩
  behind dash := absurd dash List.not_mem_nil

section
variable {done cs : CString} {c : Char} {s t : Split}

theorem Copied.plain (copied : Copied done s) (clear : '-' ∉ done) (other : c ≠ '-')
    (h : splitStep done.length c s = some t) : Copied (done ++ [c]) t := by
  obtain ⟨loc, front⟩ := copied.front clear
  rw [splitStep, if_pos ⟨loc, other⟩] at h
  obtain ⟨buf, written, rfl⟩ := Option.map_eq_some_iff.mp h
  have still : '-' ∉ done ++ [c] := by
    simp [clear, other.symm]
  exact ⟨(length_put written).trans copied.oldLength, copied.newLength, fun _ => ⟨loc, put_next front written⟩,
    fun dash => absurd dash still⟩

theorem Copied.dash (copied : Copied done s) (started : done ≠ []) (h : splitStep done.length '-' s = some t) :
    Copied (done ++ ['-']) t := by
  have loops : ¬(s.loc = 0 ∧ '-' ≠ '-') := fun both => both.2 rfl
  rw [splitStep, if_neg loops, if_pos rfl] at h
  obtain ⟨buf, written, rfl⟩ := Option.map_eq_some_iff.mp h
  have there : '-' ∈ done ++ ['-'] := by simp
  refine ⟨(length_put written).trans copied.oldLength, copied.newLength, fun clear => absurd there clear,
    fun _ => ⟨List.length_pos_iff.mpr started, ?_, ?_, ?_⟩⟩
  · rw [newName_dash, List.length_append]
    rfl
  · by_cases before : '-' ∈ done
    · -- The first name is terminated in front of the place that is written now.
      rw [oldName_append before]
      refine put_behind (copied.behind before).2.2.1 ?_ written
      have short : (oldName done).length < done.length := length_takeWhile_lt.mpr before
      rw [List.length_append]
      exact short
    · have name : oldName (done ++ ['-']) = done := takeWhile_sep before []
      rw [name]
      exact put_next (copied.front before).2 written
  · rw [newName_dash]
    exact List.nil_prefix

theorem Copied.second (copied : Copied done s) (dash : '-' ∈ done) (other : c ≠ '-')
    (h : splitStep done.length c s = some t) : Copied (done ++ [c]) t := by
  obtain ⟨pos, length, old, new⟩ := copied.behind dash
  have place : done.length - s.loc - 1 = (newName done).length := by omega
  have loops : ¬(s.loc = 0 ∧ c ≠ '-') := fun both => absurd both.1 (Nat.ne_of_gt pos)
  rw [splitStep, if_neg loops, if_neg other, if_pos pos, place] at h
  obtain ⟨buf, written, rfl⟩ := Option.map_eq_some_iff.mp h
  refine ⟨copied.oldLength, (length_put written).trans copied.newLength,
    fun clear => absurd (List.mem_append_left _ dash) clear, fun _ => ⟨pos, ?_, ?_, ?_⟩⟩
  · rw [newName_append done other, List.length_append, List.length_append, length]
    rfl
  · rw [oldName_append dash]
    exact old
  · rw [newName_append done other]
    exact put_next new written

theorem Copied.step (copied : Copied done s) (started : done = [] → c ≠ '-')
    (h : splitStep done.length c s = some t) : Copied (done ++ [c]) t := by
  by_cases sep : c = '-'
  · subst sep
    exact copied.dash (fun empty => started empty rfl) h
  · by_cases dash : '-' ∈ done
    · exact copied.second dash sep h
    · exact copied.plain dash sep h

theorem Copied.loop (copied : Copied done s) (cs : CString) (started : (done ++ cs).head? ≠ some '-')
    (short : (done ++ cs).length < pathMax) (h : splitLoop done.length cs s = some t) :
    ∃ u, Copied (done ++ cs) u ∧ put u.newpath ((done ++ cs).length - u.loc - 1) nul = some t.newpath ∧
      t.oldpath = u.oldpath := by
  induction cs generalizing done s with
  | nil =>
      rw [List.append_nil] at short ⊢
      rw [splitLoop, if_pos short] at h
      obtain ⟨buf, written, rfl⟩ := Option.map_eq_some_iff.mp h
      exact ⟨s, copied, written, rfl⟩
  | cons c cs ih =>
      have whole : done ++ c :: cs = done ++ [c] ++ cs := by simp
      have inside : done.length < pathMax := by
        rw [List.length_append, List.length_cons] at short
        omega
      rw [splitLoop, if_pos inside] at h
      obtain ⟨u, stepped, rest⟩ := Option.bind_eq_some_iff.mp h
      have next : Copied (done ++ [c]) u := by
        refine copied.step (fun empty sep => started ?_) stepped
        rw [empty, sep]
        rfl
      have length : (done ++ [c]).length = done.length + 1 := by simp
      rw [whole] at started short ⊢
      exact ih next started short (by rwa [length])

theorem Copied.names (copied : Copied done s) (dash : '-' ∈ done) (clear : nul ∉ done) {buf : List Char}
    (written : put s.newpath (done.length - s.loc - 1) nul = some buf) :
    cstring s.oldpath = some (oldName done) ∧ cstring buf = some (newName done) := by
  obtain ⟨-, length, old, new⟩ := copied.behind dash
  have place : done.length - s.loc - 1 = (newName done).length := by omega
  rw [place] at written
  refine ⟨cstring_front (fun member => clear ?_) old, cstring_front (fun member => clear ?_) (put_next new written)⟩
  · exact (List.takeWhile_prefix _).subset member
  · exact List.mem_reverse.mp ((List.takeWhile_prefix _).subset (List.mem_reverse.mp member))

theorem length_splitStep {i : Nat} (h : splitStep i c s = some t) :
    t.oldpath.length = s.oldpath.length ∧ t.newpath.length = s.newpath.length := by
  unfold splitStep at h
  split at h
  · obtain ⟨buf, written, rfl⟩ := Option.map_eq_some_iff.mp h
    exact ⟨length_put written, rfl⟩
  · split at h
    · obtain ⟨buf, written, rfl⟩ := Option.map_eq_some_iff.mp h
      exact ⟨length_put written, rfl⟩
    · split at h
      · obtain ⟨buf, written, rfl⟩ := Option.map_eq_some_iff.mp h
        exact ⟨rfl, length_put written⟩
      · cases h
        exact ⟨rfl, rfl⟩

theorem length_splitLoop {i : Nat} (h : splitLoop i cs s = some t) :
    t.oldpath.length = s.oldpath.length ∧ t.newpath.length = s.newpath.length := by
  induction cs generalizing i s with
  | nil =>
      unfold splitLoop at h
      split at h
      · obtain ⟨buf, written, rfl⟩ := Option.map_eq_some_iff.mp h
        exact ⟨rfl, length_put written⟩
      · cases h
        exact ⟨rfl, rfl⟩
  | cons c cs ih =>
      unfold splitLoop at h
      split at h
      · obtain ⟨u, stepped, rest⟩ := Option.bind_eq_some_iff.mp h
        have one := length_splitStep stepped
        have others := ih rest
        exact ⟨others.1.trans one.1, others.2.trans one.2⟩
      · cases h
        exact ⟨rfl, rfl⟩

/-- The place that is written behind `done` lies in its buffer. -/
def Room (done : CString) (c : Char) : Prop :=
  if '-' ∈ done ∧ c ≠ '-' then (newName done).length < halfMax else done.length < halfMax

theorem Copied.steps (copied : Copied done s) (room : Room done c) : ∃ t, splitStep done.length c s = some t := by
  unfold Room at room
  unfold splitStep
  by_cases dash : '-' ∈ done
  · obtain ⟨pos, length, -⟩ := copied.behind dash
    have place : done.length - s.loc - 1 = (newName done).length := by omega
    have loops : ¬(s.loc = 0 ∧ c ≠ '-') := fun both => absurd both.1 (Nat.ne_of_gt pos)
    rw [if_neg loops]
    by_cases sep : c = '-'
    · rw [if_neg (fun both => both.2 sep)] at room
      rw [if_pos sep, put_inside (by rw [copied.oldLength]; exact room)]
      exact ⟨_, rfl⟩
    · rw [if_pos ⟨dash, sep⟩] at room
      rw [if_neg sep, if_pos pos, place, put_inside (by rw [copied.newLength]; exact room)]
      exact ⟨_, rfl⟩
  · rw [if_neg (fun both => dash both.1)] at room
    have inside : done.length < s.oldpath.length := by
      rw [copied.oldLength]
      exact room
    split
    · rw [put_inside inside]
      exact ⟨_, rfl⟩
    · split
      · rw [put_inside inside]
        exact ⟨_, rfl⟩
      · rename_i first other
        exact absurd ⟨(copied.front dash).1, other⟩ first

theorem Copied.loops (copied : Copied done s) (cs : CString) (started : (done ++ cs).head? ≠ some '-')
    (dash : '-' ∈ done ++ cs) (last : (newName (done ++ cs)).length < halfMax)
    (room : ∀ front c rest, cs = front ++ c :: rest → Room (done ++ front) c) :
    ∃ t, splitLoop done.length cs s = some t := by
  induction cs generalizing done s with
  | nil =>
      rw [List.append_nil] at dash last
      unfold splitLoop
      split
      · obtain ⟨-, length, -⟩ := copied.behind dash
        have place : done.length - s.loc - 1 = (newName done).length := by omega
        rw [place, put_inside (by rw [copied.newLength]; exact last)]
        exact ⟨_, rfl⟩
      · exact ⟨s, rfl⟩
  | cons c cs ih =>
      have whole : done ++ c :: cs = done ++ [c] ++ cs := by simp
      have length : (done ++ [c]).length = done.length + 1 := by simp
      have first : Room done c := by simpa using room [] c cs rfl
      obtain ⟨u, stepped⟩ := copied.steps first
      have next : Copied (done ++ [c]) u := by
        refine copied.step (fun empty sep => started ?_) stepped
        rw [empty, sep]
        rfl
      rw [whole] at started dash last
      unfold splitLoop
      split
      · rw [stepped, Option.bind_some, ← length]
        refine ih next started dash last fun front d rest split => ?_
        rw [List.append_assoc]
        exact room (c :: front) d rest (by rw [split]; rfl)
      · exact ⟨s, rfl⟩

end

section
variable {old new : CString}

theorem oldName_joint (clear : '-' ∉ old) (new : CString) : oldName (jointPath old new) = old := by
  exact takeWhile_sep clear new

theorem newName_joint (old : CString) (clear : '-' ∉ new) : newName (jointPath old new) = new := by
  have back : '-' ∉ new.reverse := fun member => clear (List.mem_reverse.mp member)
  have reversed : (jointPath old new).reverse = new.reverse ++ '-' :: old.reverse := by
    simp [jointPath]
  rw [newName, reversed, takeWhile_sep back, List.reverse_reverse]

theorem newName_behind {b : CString} (a : CString) (dash : '-' ∈ b) :
    newName (a ++ b) = newName b ∧ (newName b).length < b.length := by
  have back : '-' ∈ b.reverse := List.mem_reverse.mpr dash
  obtain ⟨rest, split⟩ := takeWhile_split back
  constructor
  · rw [newName, newName, List.reverse_append, split, List.append_assoc, List.cons_append]
    rw [takeWhile_sep (notMem_takeWhile '-' b.reverse), takeWhile_sep (notMem_takeWhile '-' b.reverse)]
  · have shorter := length_takeWhile_lt.mpr back
    rwa [List.length_reverse, ← List.length_reverse] at shorter

theorem newName_clear {a b : CString} (clear : '-' ∉ b) : newName (a ++ b) = newName a ++ b := by
  induction b using List.reverseRecOn with
  | nil => simp
  | append_singleton b c ih =>
      rw [List.mem_append, not_or, List.mem_singleton] at clear
      rw [← List.append_assoc, newName_append _ (Ne.symm clear.2), ih clear.1, List.append_assoc]

theorem NamesFit.room {path front rest : CString} {c : Char} (fits : NamesFit path)
    (split : path = front ++ c :: rest) : Room front c := by
  obtain ⟨dash, -, upTo, last⟩ := fits
  by_cases later : '-' ∈ c :: rest
  · have behind := newName_behind front later
    rw [split, behind.1, List.length_append] at upTo
    have short : (newName front).length ≤ front.length := by
      have shorter := (List.takeWhile_prefix (· ≠ '-') (l := front.reverse)).length_le
      rwa [List.length_reverse, ← List.length_reverse] at shorter
    unfold Room
    split_ifs <;> omega
  · have before : '-' ∈ front := (List.mem_append.mp (split ▸ dash)).resolve_right later
    have other : c ≠ '-' := fun same => later (same ▸ List.mem_cons_self)
    rw [split, newName_clear later, List.length_append, List.length_cons] at last
    unfold Room
    rw [if_pos ⟨before, other⟩]
    omega

theorem names_eq {path : CString} {oldpath newpath : List Char} {a b : CString} (oldLength : oldpath.length = halfMax)
    (newLength : newpath.length = halfMax) (started : path.head? ≠ some '-') (dash : '-' ∈ path) (clear : nul ∉ path)
    (short : path.length < pathMax) {t : Split} (loop : splitLoop 0 path ⟨oldpath, newpath, 0⟩ = some t)
    (first : cstring t.oldpath = some a) (second : cstring t.newpath = some b) : a = oldName path ∧ b = newName path := by
  obtain ⟨u, copied, written, same⟩ := (copied_start oldLength newLength).loop path started short loop
  obtain ⟨old, new⟩ := copied.names dash clear written
  rw [same, old] at first
  rw [new] at second
  exact ⟨(Option.some.inj first).symm, (Option.some.inj second).symm⟩

theorem head_joint (absolute : Absolute old) (new : CString) : (jointPath old new).head? ≠ some '-' := by
  obtain ⟨tail, rfl⟩ := List.head?_eq_some_iff.mp absolute
  simp [jointPath]

theorem NamesRoundTrip.separable (absolute : Absolute old) (clear : nul ∉ jointPath old new)
    (trip : NamesRoundTrip old new) : Separable old new := by
  have filled : (List.replicate halfMax 'x').length = halfMax := List.length_replicate ..
  have run := trip _ _ filled filled
  unfold splitNames at run
  split at run
  · cases run
  obtain ⟨t, loop, names⟩ := Option.bind_eq_some_iff.mp run
  obtain ⟨a, first, names⟩ := Option.bind_eq_some_iff.mp names
  obtain ⟨b, second, names⟩ := Option.bind_eq_some_iff.mp names
  obtain ⟨rfl, rfl⟩ := Prod.mk.inj (Option.some.inj names)
  have lengths := length_splitLoop loop
  simp only [List.length_replicate] at lengths
  have oldShort := length_of_cstring first
  have newShort := length_of_cstring second
  rw [lengths.1] at oldShort
  rw [lengths.2] at newShort
  have short : (jointPath a b).length < pathMax := by
    have half : halfMax = 64 := rfl
    have whole : pathMax = 128 := rfl
    rw [jointPath, List.length_append, List.length_cons]
    omega
  obtain ⟨old, new⟩ := names_eq filled filled (head_joint absolute b) (by simp [jointPath]) clear short loop first second
  refine ⟨fun member => notMem_takeWhile '-' (jointPath a b) ?_,
    fun member => notMem_takeWhile '-' (jointPath a b).reverse ?_, oldShort, newShort⟩
  · rwa [old] at member
  · rw [new] at member
    exact List.mem_reverse.mp member

theorem splitNames_eq {path : CString} {oldpath newpath : List Char} (long : ¬path.length ≤ 1) (fits : NamesFit path)
    (clear : nul ∉ path) (oldLength : oldpath.length = halfMax) (newLength : newpath.length = halfMax) :
    splitNames path oldpath newpath = some (oldName path, newName path) := by
  obtain ⟨dash, named, upTo, last⟩ := fits
  have start := copied_start oldLength newLength
  have started : path.head? ≠ some '-' := by
    intro head
    obtain ⟨rest, rfl⟩ := List.head?_eq_some_iff.mp head
    exact named rfl
  have short : path.length < pathMax := by
    have half : halfMax = 64 := rfl
    have whole : pathMax = 128 := rfl
    omega
  obtain ⟨t, loop⟩ := start.loops path started dash last fun front c rest split => by
    rw [List.nil_append]
    exact NamesFit.room ⟨dash, named, upTo, last⟩ split
  obtain ⟨u, copied, written, same⟩ := start.loop path started short loop
  obtain ⟨first, second⟩ := copied.names dash clear written
  rw [← same, List.nil_append] at first
  rw [List.nil_append] at second
  unfold splitNames
  rw [if_neg long]
  have loop' : splitLoop 0 path ⟨oldpath, newpath, 0⟩ = some t := loop
  simp only [loop', first, second, Option.bind_eq_bind, Option.bind_some]

theorem Separable.fits (separable : Separable old new) (absolute : Absolute old) : NamesFit (jointPath old new) := by
  have oldShort := separable.oldShort
  obtain ⟨tail, rfl⟩ := List.head?_eq_some_iff.mp absolute
  refine ⟨by simp [jointPath], ?_, ?_, ?_⟩
  · rw [oldName_joint separable.oldClear]
    exact List.cons_ne_nil _ _
  · rw [newName_joint _ separable.newClear, jointPath, List.length_append]
    rw [List.length_cons] at oldShort ⊢
    rw [List.length_cons]
    omega
  · rw [newName_joint _ separable.newClear]
    exact separable.newShort

theorem Separable.roundTrip (separable : Separable old new) (absolute : Absolute old) (clear : nul ∉ jointPath old new) :
    NamesRoundTrip old new := by
  intro oldpath newpath oldLength newLength
  have long : ¬(jointPath old new).length ≤ 1 := by
    obtain ⟨tail, rfl⟩ := List.head?_eq_some_iff.mp absolute
    simp [jointPath]
  rw [splitNames_eq long (separable.fits absolute) clear oldLength newLength, oldName_joint separable.oldClear,
    newName_joint old separable.newClear]

/-- The names of a request come out of it again exactly if neither has a `-` and both leave room for a
terminator. -/
theorem names_round_trip_iff (absolute : Absolute old) (clear : nul ∉ jointPath old new) :
    NamesRoundTrip old new ↔ Separable old new :=
  ⟨fun trip => trip.separable absolute clear, fun separable => separable.roundTrip absolute clear⟩

end

theorem names_round_trip_plain : NamesRoundTrip ['/', 'w', '/', 'a'] ['/', 'w', '/', 'b'] := by
  have absolute : Absolute ['/', 'w', '/', 'a'] := rfl
  exact (names_round_trip_iff absolute (by decide)).mpr ⟨by decide, by decide, by decide, by decide⟩

theorem names_lost : ¬NamesRoundTrip ['/', 'a', '-', 'b'] ['/', 'c'] ∧
    ¬NamesRoundTrip ['/', 'a'] ('/' :: List.replicate 63 'b') := by
  have absolute (tail : CString) : Absolute ('/' :: tail) := rfl
  constructor
  · intro trip
    exact (trip.separable (absolute _) (by decide)).oldClear (by decide)
  · intro trip
    exact absurd (trip.separable (absolute _) (by decide)).newShort (by decide)

end Pacon.Server
