import Mathlib.Data.BitVec
import Mathlib.Tactic.Ring
import Pacon.Barrier.Payload

/-!
# Which round a BARRIER message is for

The server takes the id of the barrier from the third character of the payload on, wherever the bar
stands, and uses it for the counter of the round and for its own count of the clients.
-/

namespace Pacon.Barrier
open Lib Function

structure Counts where
  /-- The numbers in memcached under `barrier_opt_count.` and an index. -/
  optCount : Int → Option (BitVec 32)
  /-- `barrier_info.barrier`, of which there are `BARRIER_ID_MAX` elements. -/
  barrier : Nat → Nat

def countClient (s : Counts) (path : CString) : Option Counts :=
  (barrierIndex path).map fun i => { s with barrier := update s.barrier i (s.barrier i + 1) }

/-- `none` where the case tries for ever to get a counter that is not there, and where it counts outside
of the array. -/
def commitBarrier (s : Counts) (path : CString) : Option Counts :=
  if declaresOpts path then
    let key := atoi (path.drop 2) - 1
    match s.optCount key with
    | none => none
    | some count =>
        countClient { s with optCount := update s.optCount key (some (count + .ofInt 32 (barrierOptNum path))) } path
  else countClient s path

/-- The operations go to the counter of the round and the client is counted in it. -/
def RoundTrip (optNum id : Nat) : Prop :=
  ∀ (s : Counts) (count : BitVec 32), s.optCount (id - 1) = some count →
    commitBarrier s (barrierPayload optNum id) = some
      { optCount := update s.optCount (id - 1) (some (count + .ofNat 32 optNum))
        barrier := update s.barrier (id - 1) (s.barrier (id - 1) + 1) }

/-- The digits of the count from the third one on are those of the id. -/
def Spells (optNum id : Nat) : Prop := optNum % 10 ^ ((decimal optNum).length - 2) = id

theorem atoi_digits {s : CString} (digits : ∀ c ∈ s, c.isDigit = true) (rest : CString) :
    atoi (s ++ '|' :: rest) = Nat.ofDigitChars 10 s 0 := by
  have value : digitsValue (s ++ '|' :: rest) = Nat.ofDigitChars 10 s 0 := by
    unfold digitsValue
    rw [List.takeWhile_append_of_pos digits, List.takeWhile_cons_of_neg (by decide), List.append_nil]
  cases s with
  | nil => rfl
  | cons c s =>
      obtain ⟨space, minus, plus, -⟩ := digit_not_special (digits c List.mem_cons_self)
      unfold atoi
      simp only [List.cons_append, List.dropWhile_cons, space, Bool.false_eq_true, ↓reduceIte]
      split
      · rename_i same
        exact absurd (List.cons.inj same).1 minus
      · rename_i same
        exact absurd (List.cons.inj same).1 plus
      · rw [← value]
        rfl

theorem ofDigitChars_lt {s : CString} (digits : ∀ c ∈ s, c.isDigit = true) :
    Nat.ofDigitChars 10 s 0 < 10 ^ s.length := by
  induction s with
  | nil => decide
  | cons c s ih =>
      have rest := ih fun d member => digits d (List.mem_cons_of_mem c member)
      have digit : c.toNat - '0'.toNat ≤ 9 := by
        have is := digits c List.mem_cons_self
        simp only [Char.isDigit, Bool.and_eq_true, decide_eq_true_eq] at is
        have high : c.toNat ≤ 57 := is.2
        have zero : '0'.toNat = 48 := rfl
        omega
      rw [Nat.ofDigitChars_cons, Nat.ofDigitChars_eq_ofDigitChars_zero, List.length_cons, Nat.pow_succ,
        Nat.mul_zero, Nat.zero_add]
      have front := Nat.mul_le_mul_left (10 ^ s.length) digit
      omega

theorem ofDigitChars_drop (n k : Nat) :
    Nat.ofDigitChars 10 ((decimal n).drop k) 0 = n % 10 ^ ((decimal n).length - k) := by
  have digits : ∀ c ∈ (decimal n).drop k, c.isDigit = true :=
    fun c member => isDigit_of_mem_decimal (List.mem_of_mem_drop member)
  have low := ofDigitChars_lt digits
  have whole : Nat.ofDigitChars 10 (decimal n) 0 = n := Nat.ofDigitChars_ten_toDigits
  rw [← List.take_append_drop k (decimal n), Nat.ofDigitChars_append,
    Nat.ofDigitChars_eq_ofDigitChars_zero] at whole
  rw [List.length_drop] at low whole
  have rest := congrArg (· % 10 ^ ((decimal n).length - k)) whole
  simp only [Nat.mul_add_mod, Nat.mod_eq_of_lt low] at rest
  exact rest

theorem head_decimal {n : Nat} (pos : 0 < n) : (decimal n).head? ≠ some '0' := by
  induction n using Nat.strongRecOn with
  | ind n ih =>
      by_cases digit : n < 10
      · rw [decimal_of_lt_ten digit]
        interval_cases n <;> decide
      · have front := ih (n / 10) (by omega) (by omega)
        have split : decimal n = decimal (n / 10) ++ [(n % 10).digitChar] :=
          Nat.toDigits_of_base_le (by decide) (by omega)
        rw [split, List.head?_append_of_ne_nil _ (decimal_ne_nil _)]
        exact front

theorem declaresOpts_iff (optNum id : Nat) : declaresOpts (barrierPayload optNum id) = true ↔ optNum ≠ 0 := by
  constructor
  · rintro declares rfl
    have zero : declaresOpts (barrierPayload 0 id) = false := rfl
    rw [zero] at declares
    cases declares
  · intro other
    have head := head_decimal (Nat.pos_of_ne_zero other)
    unfold declaresOpts barrierPayload
    rw [List.head?_append_of_ne_nil _ (decimal_ne_nil _)]
    exact decide_eq_true head

theorem id_short {optNum : Nat} (digit : optNum < 10) (id : Nat) : atoi ((barrierPayload optNum id).drop 2) = id := by
  unfold barrierPayload
  rw [decimal_of_lt_ten digit]
  exact atoi_decimal id

theorem id_long {optNum : Nat} (long : 10 ≤ optNum) (id : Nat) :
    atoi ((barrierPayload optNum id).drop 2) = (optNum % 10 ^ ((decimal optNum).length - 2) : Nat) := by
  have length : 2 ≤ (decimal optNum).length := by
    by_contra short
    have one := (length_decimal_le (n := optNum) (k := 1) Nat.one_pos).mp (by omega)
    omega
  have digits : ∀ c ∈ (decimal optNum).drop 2, c.isDigit = true :=
    fun c member => isDigit_of_mem_decimal (List.mem_of_mem_drop member)
  rw [barrierPayload, List.drop_append_of_le_length length, atoi_digits digits, ofDigitChars_drop]

theorem roundTrip_of_id {optNum id : Nat} (low : 1 ≤ id) (high : id < barrierIdMax)
    (right : atoi ((barrierPayload optNum id).drop 2) = id) : RoundTrip optNum id := by
  intro s count there
  have index : barrierIndex (barrierPayload optNum id) = some (id - 1) := by
    unfold barrierIndex
    dsimp only
    rw [right, if_pos (by omega)]
    congr 1
    omega
  unfold commitBarrier
  dsimp only
  rw [right, there, barrierOptNum_payload]
  by_cases none : optNum = 0
  · have same : update s.optCount (id - 1) (some (count + .ofNat 32 0)) = s.optCount := by
      rw [BitVec.add_zero, ← there, update_eq_self]
    rw [if_neg (by rw [declaresOpts_iff]; exact not_not.mpr none), none, same]
    subst none
    unfold countClient
    rw [index]
    rfl
  · rw [if_pos ((declaresOpts_iff _ _).mpr none)]
    unfold countClient
    rw [index]
    rfl

theorem id_of_roundTrip {optNum id : Nat} (int : optNum < 2 ^ 31) (trip : RoundTrip optNum id)
    (long : 10 ≤ optNum) : atoi ((barrierPayload optNum id).drop 2) = id := by
  by_contra wrong
  have run := trip ⟨fun _ => some 0#32, fun _ => 0⟩ 0#32 rfl
  unfold commitBarrier at run
  dsimp only at run
  rw [if_pos ((declaresOpts_iff _ _).mpr (by omega)), barrierOptNum_payload] at run
  generalize atoi ((barrierPayload optNum id).drop 2) = field at wrong run
  obtain ⟨i, -, run⟩ := Option.map_eq_some_iff.mp run
  have counters := congrArg (fun s => s.optCount (field - 1)) run
  have other : field - 1 ≠ (id : Int) - 1 := by omega
  simp only [update_self, update_of_ne other, Option.some.injEq] at counters
  have value := congrArg BitVec.toNat counters
  simp only [BitVec.zero_add, BitVec.ofInt_natCast, BitVec.toNat_ofNat] at value
  omega

/-- A barrier is counted in its own round exactly if the count has one digit or happens to spell the id. -/
theorem payload_round_trip_iff {optNum id : Nat} (int : optNum < 2 ^ 31) (low : 1 ≤ id) (high : id < barrierIdMax) :
    RoundTrip optNum id ↔ optNum < 10 ∨ Spells optNum id := by
  by_cases digit : optNum < 10
  · exact iff_of_true (roundTrip_of_id low high (id_short digit id)) (Or.inl digit)
  · have long : 10 ≤ optNum := Nat.le_of_not_lt digit
    rw [or_iff_right digit, Spells]
    constructor
    · intro trip
      have right := id_of_roundTrip int trip long
      rw [id_long long] at right
      exact Int.ofNat_inj.mp right
    · intro spells
      exact roundTrip_of_id low high (by rw [id_long long, spells])

theorem payload_round_trip_nine : RoundTrip 9 1 :=
  (payload_round_trip_iff (by decide) (by decide) (by decide)).mpr (.inl (by decide))

theorem payload_misread : ¬RoundTrip 10 1 := by
  intro trip
  have right := id_of_roundTrip (by decide) trip (by decide)
  revert right
  decide

end Pacon.Barrier
