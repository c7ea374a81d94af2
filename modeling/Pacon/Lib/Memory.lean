import Mathlib.Data.BitVec
import Pacon.Lib.Separator

namespace Pacon.Lib

abbrev Byte := BitVec 8

def wordBytes (w : BitVec 32) : List Byte :=
  [w.extractLsb' 0 8, w.extractLsb' 8 8, w.extractLsb' 16 8, w.extractLsb' 24 8]

def words (ws : List (BitVec 32)) : List Byte := ws.flatMap wordBytes

def wordAt (bytes : List Byte) (i : Nat) : BitVec 32 :=
  let byte k := bytes.getD (4 * i + k) 0
  byte 3 ++ byte 2 ++ byte 1 ++ byte 0

def memcpy (dest : List Byte) (offset : Nat) (src : List Byte) : List Byte :=
  dest.take offset ++ src ++ dest.drop (offset + src.length)

def stringAt (bytes : List Byte) : List Byte := bytes.takeWhile (· ≠ 0)

theorem append_bytes (w : BitVec 32) :
    w.extractLsb' 24 8 ++ w.extractLsb' 16 8 ++ w.extractLsb' 8 8 ++ w.extractLsb' 0 8 = w := by
  apply BitVec.eq_of_getLsbD_eq
  intro i less
  simp only [BitVec.getLsbD_append, BitVec.getLsbD_extractLsb']
  grind

theorem length_words (ws : List (BitVec 32)) : (words ws).length = 4 * ws.length := by
  induction ws with
  | nil => rfl
  | cons w ws ih =>
      show (wordBytes w ++ words ws).length = _
      rw [List.length_append, ih, List.length_cons]
      simp [wordBytes]
      omega

theorem wordAt_words (ws : List (BitVec 32)) (rest : List Byte) {i : Nat} (inside : i < ws.length) :
    wordAt (words ws ++ rest) i = ws[i] := by
  induction ws generalizing i with
  | nil => cases inside
  | cons w ws ih =>
      have bytes : words (w :: ws) ++ rest = wordBytes w ++ (words ws ++ rest) := List.append_assoc ..
      cases i with
      | zero =>
          rw [bytes]
          exact append_bytes w
      | succ i =>
          have step : wordAt (wordBytes w ++ (words ws ++ rest)) (i + 1) = wordAt (words ws ++ rest) i := by
            have index k : 4 * (i + 1) + k = 4 * i + k + 4 := by omega
            simp only [wordAt, index, List.getD_eq_getElem?_getD]
            rfl
          rw [bytes, step]
          exact ih (Nat.lt_of_succ_lt_succ inside)

theorem stringAt_append {s : List Byte} (nulFree : 0 ∉ s) (rest : List Byte) :
    stringAt (s ++ 0 :: rest) = s := takeWhile_sep nulFree rest

theorem length_memcpy {dest : List Byte} (src : List Byte) {offset : Nat} (inside : offset ≤ dest.length) :
    offset + src.length ≤ (memcpy dest offset src).length := by
  simp only [memcpy, List.length_append, List.length_take, Nat.min_eq_left inside]
  omega

theorem memcpy_range {dest : List Byte} (src : List Byte) {offset : Nat} (inside : offset ≤ dest.length) :
    ((memcpy dest offset src).drop offset).take src.length = src := by
  have front : (dest.take offset).length = offset := by rw [List.length_take, Nat.min_eq_left inside]
  rw [memcpy, List.append_assoc, List.drop_append_of_le_length front.ge, List.drop_of_length_le front.le,
    List.nil_append, List.take_left]

theorem memcpy_before {dest src : List Byte} {offset start size : Nat} (inside : offset ≤ dest.length)
    (before : start + size ≤ offset) :
    ((memcpy dest offset src).drop start).take size = (dest.drop start).take size := by
  have front : (dest.take offset).length = offset := by rw [List.length_take, Nat.min_eq_left inside]
  rw [memcpy, List.append_assoc, List.drop_append_of_le_length (by omega), List.take_append_of_le_length, List.drop_take,
    List.take_take, Nat.min_eq_left (by omega)]
  rw [List.length_drop]
  omega

theorem memcpy_front {dest src : List Byte} : (memcpy dest 0 src).take src.length = src := by
  rw [memcpy, List.take_zero, List.nil_append, List.take_left]

end Pacon.Lib
