import Pacon.BinaryData

/-!
# The two reads of an inline file

`pacon_read` and `pacon_read_new` through a handle without a descriptor, on a local region and after
their permission check: both copy the value's data into a buffer of their own and serve the read from
it, but they place the terminator in the caller's buffer differently.
-/

namespace Pacon.InlineRead
open Lib Commit BinaryData

inductive Outcome
  | error
  | onDfs
  | overrun
  | served (ret : Int) (buf : List Byte)
  deriving DecidableEq

/-- `memcpy(buf, inline_data+offset, size); buf[last] = '\0'; return size;` where `buf` is the whole of
the caller's buffer. -/
def copyOut (inlineData buf : List Byte) (size offset last : BitVec 64) : Outcome :=
  if offset.toNat + size.toNat ≤ inlineData.length ∧ size.toNat ≤ buf.length ∧ last.toNat < buf.length then
    .served (size.setWidth 32).toInt
      ((memcpy buf 0 ((inlineData.drop offset.toNat).take size.toNat)).set last.toNat 0)
  else .overrun

/-- `inlineData` is what the local buffer holds before. -/
def paconRead (value inlineData buf : List Byte) (size offset : BitVec 64) : Outcome :=
  let (newSt, inlineData) := deseriInlineData inlineData value
  if getStatFlag newSt .inline = false ∧ getStatFlag newSt .fileCreated = true ∧ 0 < newSt.size then .onDfs
  else if newSt.size.setWidth 64 < offset + size then .error
  else copyOut inlineData buf size offset (offset + size)

def paconReadNew (value inlineData buf : List Byte) (size offset : BitVec 64) : Outcome :=
  let (newSt, inlineData) := deseriInlineData inlineData value
  if getStatFlag newSt .inline = true then
    if newSt.size.setWidth 64 < offset + size then .error
    else copyOut inlineData buf size offset size
  else .onDfs

structure InlineFile where
  st : PaconStat
  content : List Byte
  inline : getStatFlag st .inline = true
  size : st.size.toNat = content.length
  nulFree : 0 ∉ content
  short : content.length < inlineMax

def InlineFile.value (file : InlineFile) : List Byte := file.st.bytes ++ file.content

def readInto (content buf : List Byte) (size offset : Nat) : List Byte :=
  (content.drop offset).take size ++ 0 :: buf.drop (size + 1)

def Serves (file : InlineFile) (buf : List Byte) (size offset : BitVec 64) (outcome : Outcome) : Prop :=
  outcome = .served size.toNat (readInto file.content buf size.toNat offset.toNat)

theorem InlineFile.deseri (file : InlineFile) (inlineData : List Byte) :
    deseriInlineData inlineData file.value =
      (file.st, file.content ++ 0 :: inlineData.drop (file.content.length + 1)) := by
  have record : (file.st.bytes ++ file.content).take pstatSize = file.st.bytes := by
    rw [← file.st.length_bytes, List.take_left]
  have data : (file.st.bytes ++ file.content).drop pstatSize = file.content := by
    rw [← file.st.length_bytes, List.drop_left]
  have string : stringAt file.content = file.content := takeWhile_clear file.nulFree
  rw [deseriInlineData, InlineFile.value, record, data, string, recordOfBytes_bytes]
  simp [memcpy]

/-- A read inside the content does not wrap and passes the bound. -/
structure Inside (file : InlineFile) (size offset : BitVec 64) : Prop where
  sum : (offset + size).toNat = offset.toNat + size.toNat
  passes : ¬ file.st.size.setWidth 64 < offset + size
  ret : (size.setWidth 32).toInt = size.toNat

theorem InlineFile.inside (file : InlineFile) {size offset : BitVec 64}
    (bound : offset.toNat + size.toNat ≤ file.content.length) : Inside file size offset := by
  have short := file.short
  unfold inlineMax at short
  have sum : (offset + size).toNat = offset.toNat + size.toNat := by
    rw [BitVec.toNat_add, Nat.mod_eq_of_lt (by omega)]
  refine ⟨sum, ?_, ?_⟩
  · rw [BitVec.lt_def, sum, BitVec.toNat_setWidth, file.size, Nat.mod_eq_of_lt (by omega)]
    omega
  · have low : size.toNat % 2 ^ 32 = size.toNat := Nat.mod_eq_of_lt (by omega)
    rw [BitVec.toInt_eq_toNat_of_lt, BitVec.toNat_setWidth, low]
    rw [BitVec.toNat_setWidth, low]
    omega

theorem drop_content (content rest : List Byte) {size offset : Nat} (bound : offset + size ≤ content.length) :
    ((content ++ rest).drop offset).take size = (content.drop offset).take size := by
  rw [List.drop_append_of_le_length (by omega), List.take_append_of_le_length]
  rw [List.length_drop]
  omega

theorem copyOut_eq (file : InlineFile) {inlineData buf : List Byte} {size offset last : BitVec 64}
    (bound : offset.toNat + size.toNat ≤ file.content.length) (room : size.toNat < buf.length)
    (behind : size.toNat ≤ last.toNat) :
    copyOut (file.content ++ 0 :: inlineData.drop (file.content.length + 1)) buf size offset last =
      if last.toNat < buf.length then
        .served size.toNat ((file.content.drop offset.toNat).take size.toNat ++
          (buf.drop size.toNat).set (last.toNat - size.toNat) 0)
      else .overrun := by
  have length : ((file.content.drop offset.toNat).take size.toNat).length = size.toNat := by
    rw [List.length_take, List.length_drop]
    omega
  have readable : offset.toNat + size.toNat ≤
      (file.content ++ 0 :: inlineData.drop (file.content.length + 1)).length := by
    rw [List.length_append]
    omega
  by_cases fits : last.toNat < buf.length
  · rw [copyOut, if_pos ⟨readable, room.le, fits⟩, if_pos fits, (file.inside bound).ret,
      drop_content _ _ bound, memcpy, List.take_zero, List.nil_append, Nat.zero_add, length,
      List.set_append_right _ _ (by omega), length]
  · rw [copyOut, if_neg (fun all => fits all.2.2), if_neg fits]

theorem paconRead_eq (file : InlineFile) (inlineData buf : List Byte) {size offset : BitVec 64}
    (bound : offset.toNat + size.toNat ≤ file.content.length) (room : size.toNat < buf.length) :
    paconRead file.value inlineData buf size offset =
      if offset.toNat + size.toNat < buf.length then
        .served size.toNat ((file.content.drop offset.toNat).take size.toNat ++
          (buf.drop size.toNat).set offset.toNat 0)
      else .overrun := by
  have inside := file.inside bound
  have place := inside.sum
  simp only [paconRead, file.deseri, file.inline, Bool.true_eq_false, false_and, if_false, if_neg inside.passes]
  rw [copyOut_eq file bound room (by omega), place, Nat.add_sub_cancel]

theorem paconReadNew_eq (file : InlineFile) (inlineData buf : List Byte) {size offset : BitVec 64}
    (bound : offset.toNat + size.toNat ≤ file.content.length) (room : size.toNat < buf.length) :
    paconReadNew file.value inlineData buf size offset =
      .served size.toNat (readInto file.content buf size.toNat offset.toNat) := by
  simp only [paconReadNew, file.deseri, file.inline, if_true, if_neg (file.inside bound).passes]
  rw [copyOut_eq file bound room (le_refl _), if_pos room, Nat.sub_self, readInto,
    List.drop_eq_getElem_cons room, List.set_cons_zero]

theorem set_eq_self_iff (bytes : List Byte) {i : Nat} (inside : i < bytes.length) :
    bytes.set i 0 = bytes ↔ bytes[i]? = some 0 := by
  constructor
  · intro same
    rw [← same]
    exact List.getElem?_set_self inside
  · intro zero
    apply List.ext_getElem?
    intro j
    by_cases at_i : i = j
    · subst at_i
      rw [List.getElem?_set_self inside, zero]
    · rw [List.getElem?_set_ne at_i]

theorem later_terminator_iff (buf : List Byte) {size offset : Nat} (room : size < buf.length)
    (inside : offset + size < buf.length) :
    (buf.drop size).set offset 0 = 0 :: buf.drop (size + 1) ↔
      offset = 0 ∨ (buf[size]? = some 0 ∧ buf[offset + size]? = some 0) := by
  cases offset with
  | zero =>
      rw [List.drop_eq_getElem_cons room, List.set_cons_zero]
      exact iff_of_true rfl (Or.inl rfl)
  | succ more =>
      have short : more < (buf.drop (size + 1)).length := by
        rw [List.length_drop]
        omega
      have place : size + 1 + more = more + 1 + size := by omega
      rw [List.drop_eq_getElem_cons room, List.set_cons_succ, List.cons.injEq, set_eq_self_iff _ short,
        List.getElem?_drop, place, List.getElem?_eq_getElem room, Option.some.injEq]
      simp

/-- Both reads serve the bytes asked for exactly if they start at the front of the file, or the buffer
holds a NUL already in both places where they put theirs. -/
theorem reads_agree_iff (file : InlineFile) (inlineData buf : List Byte) {size offset : BitVec 64}
    (bound : offset.toNat + size.toNat ≤ file.content.length) (room : size.toNat < buf.length) :
    (Serves file buf size offset (paconRead file.value inlineData buf size offset) ∧
        Serves file buf size offset (paconReadNew file.value inlineData buf size offset)) ↔
      offset = 0 ∨ (buf[size.toNat]? = some 0 ∧ buf[offset.toNat + size.toNat]? = some 0) := by
  have zero : offset = 0 ↔ offset.toNat = 0 := by
    rw [BitVec.toNat_eq]
    rfl
  have served := paconReadNew_eq file inlineData buf bound room
  rw [← Serves] at served
  rw [and_iff_left served, Serves, paconRead_eq file inlineData buf bound room, zero]
  by_cases inside : offset.toNat + size.toNat < buf.length
  · rw [if_pos inside, Outcome.served.injEq, readInto, List.append_right_inj,
      later_terminator_iff buf room inside]
    exact and_iff_right rfl
  · rw [if_neg inside, List.getElem?_eq_none (i := offset.toNat + size.toNat) (by omega)]
    have later : offset.toNat ≠ 0 := by omega
    simp [later]

def fourBytes : InlineFile where
  st := { setStatFlag zeroStat .inline true with size := 4 }
  content := [97, 98, 99, 100]
  inline := by decide
  size := rfl
  nulFree := by decide
  short := by decide

theorem reads_agree_iff_front :
    (Serves fourBytes [1, 1, 1] 2 0 (paconRead fourBytes.value [] [1, 1, 1] 2 0) ∧
        Serves fourBytes [1, 1, 1] 2 0 (paconReadNew fourBytes.value [] [1, 1, 1] 2 0)) ↔
      (0 : BitVec 64) = 0 ∨ (([1, 1, 1] : List Byte)[2]? = some 0 ∧ ([1, 1, 1] : List Byte)[0 + 2]? = some 0) :=
  reads_agree_iff fourBytes [] [1, 1, 1] (by decide) (by decide)

theorem reads_differ :
    ¬ Serves fourBytes [1, 1, 1, 1] 2 1 (paconRead fourBytes.value [] [1, 1, 1, 1] 2 1) ∧
      Serves fourBytes [1, 1, 1, 1] 2 1 (paconReadNew fourBytes.value [] [1, 1, 1, 1] 2 1) := by
  refine ⟨?_, paconReadNew_eq fourBytes [] [1, 1, 1, 1] (by decide) (by decide)⟩
  rw [Serves, paconRead_eq fourBytes [] [1, 1, 1, 1] (by decide) (by decide)]
  decide

end Pacon.InlineRead
