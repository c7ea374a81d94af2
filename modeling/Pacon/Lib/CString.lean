import Mathlib.Algebra.Ring.Nat
import Mathlib.Data.List.TakeWhile

/-!
# C strings

A string is the list of the characters before its terminator. `decimal` is what `%d` prints for a
nonnegative number and `atoi` the C library function without its overflow.
-/

namespace Pacon.Lib

abbrev CString := List Char

def decimal (n : Nat) : CString := Nat.toDigits 10 n

/-- What `%d` prints. -/
def printInt : Int → CString
  | .ofNat n => decimal n
  | .negSucc n => '-' :: decimal (n + 1)

def isSpace (c : Char) : Bool := c = ' ' || (9 ≤ c.toNat && c.toNat ≤ 13)

def digitsValue (s : CString) : Nat := Nat.ofDigitChars 10 (s.takeWhile Char.isDigit) 0

def atoi (s : CString) : Int :=
  match s.dropWhile isSpace with
  | '-' :: rest => -digitsValue rest
  | '+' :: rest => digitsValue rest
  | rest => digitsValue rest

theorem isDigit_of_mem_decimal {n : Nat} {c : Char} (h : c ∈ decimal n) : c.isDigit = true :=
  Nat.isDigit_of_mem_toDigits (by decide) (by decide) h

theorem decimal_ne_nil (n : Nat) : decimal n ≠ [] := Nat.toDigits_ne_nil

theorem length_decimal_le {n k : Nat} (pos : 0 < k) : (decimal n).length ≤ k ↔ n < 10 ^ k :=
  Nat.length_toDigits_le_iff (by decide) pos

theorem decimal_of_lt_ten {n : Nat} (h : n < 10) : decimal n = [n.digitChar] :=
  Nat.toDigits_of_lt_base h

theorem digitsValue_decimal_append (n : Nat) (rest : CString)
    (stops : ∀ c ∈ rest.head?, c.isDigit = false) : digitsValue (decimal n ++ rest) = n := by
  unfold digitsValue
  rw [List.takeWhile_append_of_pos (fun c => isDigit_of_mem_decimal)]
  have none : rest.takeWhile Char.isDigit = [] := by
    cases rest with
    | nil => rfl
    | cons c rest => simp [stops c (by simp)]
  rw [none, List.append_nil]
  exact Nat.ofDigitChars_ten_toDigits

theorem digit_not_special {c : Char} (h : c.isDigit = true) :
    isSpace c = false ∧ c ≠ '-' ∧ c ≠ '+' ∧ c ≠ '|' ∧ c ≠ ':' ∧ c ≠ '/' := by
  simp only [Char.isDigit, Bool.and_eq_true, decide_eq_true_eq] at h
  refine ⟨?_, ?_, ?_, ?_, ?_, ?_⟩
  · have low : 48 ≤ c.toNat := h.1
    have : c ≠ ' ' := by rintro rfl; revert low; decide
    simp [isSpace, this]
    omega
  all_goals rintro rfl; revert h; decide

theorem atoi_decimal_append (n : Nat) (rest : CString)
    (stops : ∀ c ∈ rest.head?, c.isDigit = false) : atoi (decimal n ++ rest) = n := by
  have value := digitsValue_decimal_append n rest stops
  have digits := fun c => isDigit_of_mem_decimal (n := n) (c := c)
  have nonempty := decimal_ne_nil n
  unfold atoi
  generalize decimal n = s at *
  cases s with
  | nil => exact absurd rfl nonempty
  | cons c s =>
      obtain ⟨space, minus, plus, -⟩ := digit_not_special (digits c (by simp))
      simp only [List.cons_append, List.dropWhile_cons, space, Bool.false_eq_true, ↓reduceIte]
      split
      · rename_i heq; exact absurd (List.cons.inj heq).1 minus
      · rename_i heq; exact absurd (List.cons.inj heq).1 plus
      · rw [← value]; rfl

theorem atoi_decimal (n : Nat) : atoi (decimal n) = n := by
  simpa using atoi_decimal_append n [] (by simp)

theorem atoi_printInt (i : Int) : atoi (printInt i) = i := by
  cases i with
  | ofNat n => exact atoi_decimal n
  | negSucc n =>
      have value := digitsValue_decimal_append (n + 1) [] (by simp)
      rw [List.append_nil] at value
      change -(digitsValue (decimal (n + 1)) : Int) = Int.negSucc n
      rw [value]
      rfl

theorem decimal_injective : Function.Injective decimal := by
  intro n m same
  have value := congrArg atoi same
  rwa [atoi_decimal, atoi_decimal, Int.ofNat_inj] at value

theorem noSlash_decimal (n : Nat) : '/' ∉ decimal n := fun member =>
  (digit_not_special (isDigit_of_mem_decimal member)).2.2.2.2.2 rfl

theorem noSlash_printInt (i : Int) : '/' ∉ printInt i := by
  cases i with
  | ofNat n => exact noSlash_decimal n
  | negSucc n =>
      intro member
      rcases List.mem_cons.mp member with is | member
      · exact absurd is (by decide)
      · exact noSlash_decimal (n + 1) member

end Pacon.Lib
