import Pacon.Lib.CString

/-!
# Reading a file with `fgets`

Each call returns a line, or as much of it as fits into the buffer, and the next one goes on behind that.
-/

namespace Pacon.Lib

def fgets : Nat → CString → CString × CString
  | 0, s => ([], s)
  | _ + 1, [] => ([], [])
  | n + 1, c :: s => if c = '\n' then ([c], s) else (c :: (fgets n s).1, (fgets n s).2)

theorem length_fgets_le (n : Nat) (s : CString) : (fgets n s).2.length ≤ s.length := by
  induction n generalizing s with
  | zero => exact le_rfl
  | succ n ih =>
      cases s with
      | nil => exact le_rfl
      | cons c s =>
          rw [fgets]
          split
          · exact Nat.le_succ _
          · exact (ih s).trans (Nat.le_succ _)

theorem length_fgets_lt {n : Nat} {s : CString} (other : s ≠ []) : (fgets (n + 1) s).2.length < s.length := by
  cases s with
  | nil => exact absurd rfl other
  | cons c s =>
      rw [fgets]
      split
      · exact Nat.lt_succ_self _
      · exact Nat.lt_succ_of_le (length_fgets_le n s)

def pieces (n : Nat) (s : CString) : List CString :=
  if other : s ≠ [] then (fgets (n + 1) s).1 :: pieces n (fgets (n + 1) s).2 else []
termination_by s.length
decreasing_by exact length_fgets_lt other

@[simp] theorem pieces_nil (n : Nat) : pieces n [] = [] := by
  rw [pieces, dif_neg (not_not.mpr rfl)]

theorem pieces_of_ne {n : Nat} {s : CString} (other : s ≠ []) :
    pieces n s = (fgets (n + 1) s).1 :: pieces n (fgets (n + 1) s).2 := by
  rw [pieces, dif_pos other]

theorem ne_nil_of_mem_pieces {n : Nat} {s piece : CString} (member : piece ∈ pieces n s) : piece ≠ [] := by
  induction s using pieces.induct (n := n) with
  | case1 s other ih =>
      rw [pieces_of_ne other, List.mem_cons] at member
      rcases member with rfl | later
      · cases s with
        | nil => exact absurd rfl other
        | cons c s =>
            rw [fgets]
            split <;> exact List.cons_ne_nil _ _
      · exact ih later
  | case2 s empty =>
      rw [not_not.mp empty, pieces_nil] at member
      exact absurd member List.not_mem_nil

structure LineOf (row rest : CString) : Prop where
  whole : '\n' ∉ row.dropLast
  ends : row ≠ [] → row.getLast? = some '\n' ∨ rest = []

variable {row rest : CString} {n : Nat}

theorem LineOf.tail {c : Char} (h : LineOf (c :: row) rest) : LineOf row rest where
  whole := by
    cases row with
    | nil => exact List.not_mem_nil
    | cons d row => exact fun member => h.whole (List.mem_cons_of_mem _ member)
  ends other := by
    have last := h.ends (List.cons_ne_nil _ _)
    rwa [List.getLast?_cons_of_ne_nil other] at last

theorem LineOf.drop (h : LineOf row rest) (k : Nat) : LineOf (row.drop k) rest := by
  induction k generalizing row with
  | zero => exact h
  | succ k ih =>
      cases row with
      | nil => exact h
      | cons c row => exact ih h.tail

theorem LineOf.alone (h : LineOf row rest) : LineOf row [] := ⟨h.whole, fun _ => .inr rfl⟩

theorem fgets_nil (n : Nat) : fgets n [] = ([], []) := by
  cases n <;> rfl

theorem fgets_line (h : LineOf row rest) (other : row ≠ []) :
    fgets n (row ++ rest) = (row.take n, row.drop n ++ rest) := by
  induction n generalizing row with
  | zero => rfl
  | succ n ih =>
      cases row with
      | nil => exact absurd rfl other
      | cons c row =>
          rw [List.cons_append, fgets]
          by_cases last : row = []
          · subst last
            split
            · simp
            · rename_i inner
              rcases h.ends other with ends | rfl
              · exact absurd (Option.some.inj ends) inner
              · simp [fgets_nil]
          · have inner : c ≠ '\n' := by
              rintro rfl
              apply h.whole
              rw [List.dropLast_cons_of_ne_nil last]
              exact List.mem_cons_self
            rw [if_neg inner, ih h.tail last]
            rfl

theorem length_drop_lt (n : Nat) (other : row ≠ []) : (row.drop (n + 1)).length < row.length := by
  have nonempty := List.length_pos_iff.mpr other
  rw [List.length_drop]
  omega

theorem pieces_line (h : LineOf row []) (other : row ≠ []) :
    pieces n row = row.take (n + 1) :: pieces n (row.drop (n + 1)) := by
  have read := fgets_line h other (n := n + 1)
  rw [List.append_nil, List.append_nil] at read
  rw [pieces_of_ne other, read]

theorem pieces_append (h : LineOf row rest) : pieces n (row ++ rest) = pieces n row ++ pieces n rest := by
  induction size : row.length using Nat.strongRecOn generalizing row with
  | ind k ih =>
      by_cases other : row = []
      · subst other
        simp
      · have shorter := size ▸ length_drop_lt n other
        rw [pieces_of_ne (by simp [other]), fgets_line h other, ih _ shorter (h.drop _) rfl, pieces_line h.alone other]
        rfl

theorem pieces_begin (h : LineOf row []) {p : Char → Prop} :
    (∀ piece ∈ pieces n row, ∀ c, piece.head? = some c → p c) ↔ ∀ k c, row[(n + 1) * k]? = some c → p c := by
  induction size : row.length using Nat.strongRecOn generalizing row with
  | ind k ih =>
      by_cases other : row = []
      · subst other
        simp
      · have shorter := size ▸ length_drop_lt n other
        have first : (row.take (n + 1)).head? = row[0]? := by
          rw [List.head?_take, if_neg (Nat.succ_ne_zero n), List.head?_eq_getElem?]
        have later (k : Nat) : (row.drop (n + 1))[(n + 1) * k]? = row[(n + 1) * (k + 1)]? := by
          rw [List.getElem?_drop, Nat.mul_succ, Nat.add_comm]
        rw [pieces_line h other, List.forall_mem_cons, ih _ shorter (h.drop _) rfl, first]
        simp only [later]
        constructor
        · rintro ⟨zero, succ⟩ k c there
          cases k with
          | zero => exact zero c there
          | succ k => exact succ k c there
        · intro all
          exact ⟨fun c there => all 0 c there, fun k c there => all (k + 1) c there⟩

end Pacon.Lib
