import Pacon.Layout

/-!
# Inline data with zero bytes

`pacon_create_write` stores as many bytes as its `size` says but copies the data up to its first NUL,
and `pacon_read_new` copies the value's data up to its first NUL into a buffer of its own, out of
which it serves the read.
-/

namespace Pacon.BinaryData
open Lib Commit

def createdStat (st : PaconStat) (size : Nat) : PaconStat :=
  setStatFlag (setStatFlag (newStat st size) .type true) .inline true

/-- What `pacon_create_write` adds to the cache. `mem` is what lies in memory from the caller's buffer
on and `val` what the local buffer holds before; `none` where the size is refused or the copy runs
out of the memory it may read or write. -/
def createdValue (st : PaconStat) (mem : List Byte) (size : Nat) (val : List Byte) : Option (List Byte) :=
  if size < inlineMax - 1 then
    if 0 ∈ mem ∧ (stringAt mem).length < inlineMax then
      some ((seriInlineData (createdStat st size) (stringAt mem) val).take (pstatSize + size))
    else none
  else none

def recordOfBytes (bytes : List Byte) : PaconStat where
  flags := wordAt bytes 0
  mode := wordAt bytes 1
  ctime := wordAt bytes 2
  atime := wordAt bytes 3
  mtime := wordAt bytes 4
  size := wordAt bytes 5
  uid := wordAt bytes 6
  gid := wordAt bytes 7
  nlink := wordAt bytes 8
  openCounter := wordAt bytes 9
  fd := wordAt bytes 10

def deseriInlineData (inlineData value : List Byte) : PaconStat × List Byte :=
  (recordOfBytes (value.take pstatSize), memcpy inlineData 0 (stringAt (value.drop pstatSize) ++ [0]))

/-- `pacon_read_new` without a descriptor for a file of no joined region: the caller's buffer afterwards,
`none` for an error and for the file's data on the DFS. -/
def paconReadNew (value inlineData buf : List Byte) (size offset : Nat) : Option (List Byte) :=
  let (st, data) := deseriInlineData inlineData value
  if getStatFlag st .inline then
    if st.size.toNat < offset + size then none
    else some (memcpy (memcpy buf 0 ((data.drop offset).take size)) size [0])
  else none

/-- Whatever the buffers hold before, every read inside the data returns it. -/
def ReadsBack (mem : List Byte) (size : Nat) : Prop :=
  ∀ (st : PaconStat) (val inlineData buf : List Byte) (offset n : Nat),
    val.length = pstatSize + inlineMax → inlineData.length = inlineMax → offset + n ≤ size →
    ∃ value out, createdValue st mem size val = some value ∧
      paconReadNew value inlineData buf n offset = some out ∧
      out.take n = ((mem.take size).drop offset).take n

/-- The string in the buffer ends within `INLINE_MAX`, and not before the data's last byte. -/
structure OneString (mem : List Byte) (size : Nat) : Prop where
  ends : 0 ∈ mem
  short : (stringAt mem).length < inlineMax
  whole : 0 ∉ (mem.take size).dropLast

theorem recordOfBytes_bytes (st : PaconStat) : recordOfBytes st.bytes = st := by
  have field := fun i less => wordAt_words [st.flags, st.mode, st.ctime, st.atime, st.mtime, st.size,
    st.uid, st.gid, st.nlink, st.openCounter, st.fd] [] (i := i) less
  simp only [List.append_nil] at field
  unfold recordOfBytes PaconStat.bytes
  rw [field 0, field 1, field 2, field 3, field 4, field 5, field 6, field 7, field 8, field 9, field 10]
  all_goals simp

theorem getStatFlag_createdStat (st : PaconStat) (size : Nat) :
    getStatFlag (createdStat st size) .inline = true := by
  simp [createdStat]

theorem size_createdStat (st : PaconStat) {size : Nat} (accepted : size < inlineMax - 1) :
    (createdStat st size).size.toNat = size := toNat_inlineSize accepted

theorem string_split {mem : List Byte} (ends : 0 ∈ mem) : ∃ rest, mem = stringAt mem ++ 0 :: rest :=
  takeWhile_split ends

theorem nulFree_stringAt (mem : List Byte) : 0 ∉ stringAt mem := notMem_takeWhile 0 mem

theorem createdValue_eq (st : PaconStat) (val : List Byte) {mem : List Byte} {size : Nat} (accepted : size < inlineMax - 1)
    (ends : 0 ∈ mem) (short : (stringAt mem).length < inlineMax) :
    ∃ rest, createdValue st mem size val =
      some ((createdStat st size).bytes ++ (stringAt mem ++ 0 :: rest).take size) := by
  obtain ⟨rest, value⟩ := seriInlineData_eq (createdStat st size) (stringAt mem) val
  refine ⟨rest, ?_⟩
  rw [createdValue, if_pos accepted, if_pos ⟨ends, short⟩, value, ← (createdStat st size).length_bytes,
    List.take_length_add_append]

theorem paconReadNew_eq (st : PaconStat) {data inlineData buf : List Byte} {size offset n : Nat}
    (accepted : size < inlineMax - 1) (inside : offset + n ≤ size) :
    paconReadNew ((createdStat st size).bytes ++ data) inlineData buf n offset =
      some (memcpy (memcpy buf 0 (((memcpy inlineData 0 (stringAt data ++ [0])).drop offset).take n)) n [0]) := by
  have length := (createdStat st size).length_bytes
  simp only [paconReadNew, deseriInlineData, ← length, List.take_left, List.drop_left, recordOfBytes_bytes,
    getStatFlag_createdStat, size_createdStat st accepted, if_true, if_neg (Nat.not_lt.mpr inside)]

theorem take_out {buf data : List Byte} {n : Nat} (enough : n ≤ data.length) :
    (memcpy (memcpy buf 0 (data.take n)) n [0]).take n = data.take n := by
  have length : (data.take n).length = n := by
    rw [List.length_take, Nat.min_eq_left enough]
  simp only [memcpy, List.take_zero, List.nil_append, Nat.zero_add, length]
  rw [List.take_append_of_le_length, List.take_append_of_le_length, List.take_take, Nat.min_self]
  all_goals simp [length]

theorem take_string (rest inlineData : List Byte) {mem : List Byte} {size : Nat} (ends : 0 ∈ mem)
    (reaches : size ≤ (stringAt mem).length + 1) :
    (memcpy inlineData 0 (stringAt ((stringAt mem ++ 0 :: rest).take size) ++ [0])).take size = mem.take size := by
  obtain ⟨behind, split⟩ := string_split ends
  have nulFree := nulFree_stringAt mem
  generalize stringAt mem = s at *
  subst split
  rcases Nat.lt_or_eq_of_le reaches with less | all
  · have inside : size ≤ s.length := by omega
    have clear : 0 ∉ s.take size := fun member => nulFree (List.mem_of_mem_take member)
    have string : stringAt (s.take size) = s.take size := takeWhile_clear clear
    rw [List.take_append_of_le_length inside, List.take_append_of_le_length inside, string, memcpy,
      List.take_zero, List.nil_append, List.append_assoc, List.take_append_of_le_length (by simp [inside]),
      List.take_take, Nat.min_self]
  · have front (tail : List Byte) : (s ++ 0 :: tail).take size = s ++ [0] := by
      rw [all, List.take_length_add_append]
      rfl
    have string : stringAt (s ++ [0]) = s := stringAt_append nulFree []
    rw [front, front, string, memcpy, List.take_zero, List.nil_append, all,
      List.take_append_of_le_length (by simp), List.take_of_length_le (by simp)]

theorem copy_beyond {mem rest inlineData : List Byte} {size : Nat} (beyond : (stringAt mem).length + 1 ≤ size) :
    memcpy inlineData 0 (stringAt ((stringAt mem ++ 0 :: rest).take size) ++ [0]) =
      stringAt mem ++ 0 :: inlineData.drop ((stringAt mem).length + 1) := by
  have nulFree := nulFree_stringAt mem
  generalize stringAt mem = s at *
  obtain ⟨more, rfl⟩ := Nat.exists_eq_add_of_le beyond
  have stored : (s ++ 0 :: rest).take (s.length + 1 + more) = s ++ 0 :: rest.take more := by
    rw [Nat.add_assoc, List.take_length_add_append, Nat.add_comm 1, List.take_succ_cons]
  rw [stored, stringAt_append nulFree, memcpy, List.take_zero, List.nil_append, Nat.zero_add,
    List.length_append, List.length_singleton, List.append_assoc]
  rfl

theorem whole_iff {mem : List Byte} {size : Nat} (ends : 0 ∈ mem) (readable : size ≤ mem.length) :
    0 ∉ (mem.take size).dropLast ↔ size ≤ (stringAt mem).length + 1 := by
  obtain ⟨rest, split⟩ := string_split ends
  have nulFree := nulFree_stringAt mem
  generalize stringAt mem = s at *
  subst split
  rw [List.dropLast_eq_take, List.take_take, List.length_take, Nat.min_eq_left readable]
  constructor
  · intro clear
    by_contra beyond
    refine clear ?_
    have low : s.length < min (size - 1) size := by omega
    rw [List.mem_take_iff_getElem]
    exact ⟨s.length, by simp; omega, by simp⟩
  · intro reaches member
    rw [List.take_append_of_le_length (by omega)] at member
    exact nulFree (List.mem_of_mem_take member)

theorem ReadsBack.oneString {mem : List Byte} {size : Nat} (safe : ReadsBack mem size)
    (readable : size ≤ mem.length) (accepted : size < inlineMax - 1) : OneString mem size := by
  obtain ⟨ends, short⟩ : 0 ∈ mem ∧ (stringAt mem).length < inlineMax := by
    obtain ⟨value, out, stored, -⟩ := safe zeroStat (List.replicate (pstatSize + inlineMax) 0)
      (List.replicate inlineMax 0) [] 0 0 (List.length_replicate ..) (List.length_replicate ..) (Nat.zero_le _)
    by_contra none
    rw [createdValue, if_pos accepted, if_neg none] at stored
    cases stored
  refine ⟨ends, short, (whole_iff ends readable).mpr ?_⟩
  by_contra beyond
  have inside : (stringAt mem).length + 1 < size := by omega
  have there : (stringAt mem).length + 1 < mem.length := by omega
  -- The byte behind the first NUL is read from the buffer, which may hold any other one.
  let other : Byte := mem[(stringAt mem).length + 1] + 1
  let tail := List.replicate (inlineMax - ((stringAt mem).length + 1) - 1) other
  obtain ⟨value, out, stored, read, same⟩ := safe zeroStat (List.replicate (pstatSize + inlineMax) 0)
    (List.replicate inlineMax other) [] ((stringAt mem).length + 1) 1
    (List.length_replicate ..) (List.length_replicate ..) inside
  obtain ⟨rest, value_eq⟩ := createdValue_eq zeroStat (List.replicate (pstatSize + inlineMax) 0)
    accepted ends short
  rw [value_eq] at stored
  cases stored
  rw [paconReadNew_eq zeroStat accepted inside] at read
  cases read
  have behind : (List.replicate inlineMax other).drop ((stringAt mem).length + 1) = other :: tail := by
    rw [List.drop_replicate, ← List.replicate_succ]
    congr 1
    unfold inlineMax at *
    omega
  have served : (stringAt mem ++ 0 :: other :: tail).drop ((stringAt mem).length + 1) = other :: tail := by
    rw [List.drop_length_add_append]
    rfl
  rw [copy_beyond inside.le, behind, served] at same
  have first := congrArg (·[0]?) same
  have stays : other = mem[(stringAt mem).length + 1] := by
    simpa [memcpy, inside, List.getElem?_take, there] using first
  simp [other] at stays

theorem OneString.readsBack {mem : List Byte} {size : Nat} (one : OneString mem size)
    (readable : size ≤ mem.length) (accepted : size < inlineMax - 1) : ReadsBack mem size := by
  intro st val inlineData buf offset n _ large inside
  have reaches := (whole_iff one.ends readable).mp one.whole
  obtain ⟨rest, value⟩ := createdValue_eq st val accepted one.ends one.short
  refine ⟨_, _, value, paconReadNew_eq st accepted inside, ?_⟩
  have data := take_string rest inlineData one.ends reaches
  generalize memcpy inlineData 0 (stringAt ((stringAt mem ++ 0 :: rest).take size) ++ [0]) = copy at *
  have long : size ≤ copy.length := by
    have := congrArg List.length data
    rw [List.length_take, List.length_take, Nat.min_eq_left readable] at this
    omega
  rw [take_out (by rw [List.length_drop]; omega), ← data, List.drop_take, List.take_take, Nat.min_eq_left (by omega)]

/-- Data comes back as it was handed in exactly if it is one string, up to a NUL as its last byte. -/
theorem reads_back_iff {mem : List Byte} {size : Nat} (readable : size ≤ mem.length)
    (accepted : size < inlineMax - 1) : ReadsBack mem size ↔ OneString mem size :=
  ⟨fun safe => safe.oneString readable accepted, fun one => one.readsBack readable accepted⟩

theorem reads_back_iff_text : ReadsBack [65, 66, 0] 2 :=
  (reads_back_iff (by decide) (by decide)).mpr ⟨by decide, by decide, by decide⟩

def binaryMemory : List Byte := [65, 0, 66]

theorem binary_lost : ¬ReadsBack binaryMemory 3 := fun safe =>
  absurd (safe.oneString (by decide) (by decide)).whole (by decide)

end Pacon.BinaryData
