import Pacon.Lib.CString
import Mathlib.Tactic.IntervalCases

namespace Pacon.Barrier
open Lib

/-- `BARRIER_ID_MAX` of `pacon.h`. -/
def barrierIdMax : Nat := 1024

/-- `sprintf(barrier_id, "%d%c%d", opt_num, '|', current_barrier_id)` -/
def barrierPayload (optNum id : Nat) : CString := decimal optNum ++ '|' :: decimal id

def declaresOpts (path : CString) : Bool := path.head? ≠ some '0'

def barrierOptNum (path : CString) : Int := atoi (path.takeWhile (· ≠ '|'))

/-- `atoi(path+2)-1`, as an index of the barrier arrays; `none` when it lies outside them. -/
def barrierIndex (path : CString) : Option Nat :=
  let index := atoi (path.drop 2) - 1
  if 0 ≤ index ∧ index < barrierIdMax then some index.toNat else none

theorem barrierOptNum_payload (optNum id : Nat) :
    barrierOptNum (barrierPayload optNum id) = optNum := by
  unfold barrierOptNum barrierPayload
  rw [List.takeWhile_append_of_pos, List.takeWhile_cons_of_neg (by simp), List.append_nil,
    atoi_decimal]
  intro c member
  obtain ⟨-, -, -, bar, -⟩ := digit_not_special (isDigit_of_mem_decimal member)
  simpa using bar

theorem declaresOpts_payload {optNum : Nat} (digit : optNum ≤ 9) (id : Nat) :
    declaresOpts (barrierPayload optNum id) = decide (optNum ≠ 0) := by
  unfold declaresOpts barrierPayload
  rw [decimal_of_lt_ten (by omega)]
  interval_cases optNum <;> rfl

theorem barrierIndex_payload {optNum slot : Nat} (digit : optNum ≤ 9) (inside : slot < barrierIdMax) :
    barrierIndex (barrierPayload optNum (slot + 1)) = some slot := by
  unfold barrierIndex barrierPayload
  rw [decimal_of_lt_ten (by omega)]
  have cut : ([optNum.digitChar] ++ '|' :: decimal (slot + 1)).drop 2 = decimal (slot + 1) := rfl
  rw [cut, atoi_decimal]
  have value : ((slot + 1 : Nat) : Int) - 1 = slot := by omega
  simp only [value]
  rw [if_pos (by omega)]
  rfl

end Pacon.Barrier
