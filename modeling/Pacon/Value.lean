import Mathlib.Data.BitVec
import Pacon.Lib.Separator

namespace Pacon

/-- `struct pacon_stat`. -/
structure PaconStat where
  flags : BitVec 32
  mode : BitVec 32
  ctime : BitVec 32
  atime : BitVec 32
  mtime : BitVec 32
  size : BitVec 32
  uid : BitVec 32
  gid : BitVec 32
  nlink : BitVec 32
  openCounter : BitVec 32
  fd : BitVec 32
  deriving DecidableEq

inductive StatFlag
  | type | inline | commit | fileCreated | existedinDfs | childCheck | rm
  deriving DecidableEq

def StatFlag.bit : StatFlag → Nat
  | .type => 0
  | .inline => 1
  | .commit => 2
  | .fileCreated => 3
  | .existedinDfs => 4
  | .childCheck => 5
  | .rm => 6

def setStatFlag (st : PaconStat) (flag : StatFlag) (val : Bool) : PaconStat :=
  { st with flags := if val then st.flags ||| 1#32 <<< flag.bit else st.flags &&& ~~~(1#32 <<< flag.bit) }

def getStatFlag (st : PaconStat) (flag : StatFlag) : Bool :=
  st.flags >>> flag.bit &&& 1#32 == 1#32

theorem getStatFlag_eq (st : PaconStat) (flag : StatFlag) :
    getStatFlag st flag = st.flags.getLsbD flag.bit := by
  unfold getStatFlag
  rw [BitVec.and_one_eq_setWidth_ofBool_getLsbD, BitVec.getLsbD_ushiftRight, Nat.add_zero]
  cases st.flags.getLsbD flag.bit <;> rfl

theorem StatFlag.bit_lt (flag : StatFlag) : flag.bit < 32 := by
  cases flag <;> decide

theorem StatFlag.bit_injective : Function.Injective StatFlag.bit := by
  intro flag other h
  cases flag <;> cases other <;> first | rfl | cases h

@[simp] theorem getStatFlag_setStatFlag (st : PaconStat) (flag other : StatFlag) (val : Bool) :
    getStatFlag (setStatFlag st flag val) other =
      if other = flag then val else getStatFlag st other := by
  have at_bit : (1#32 <<< flag.bit).getLsbD other.bit = decide (other = flag) := by
    have low := other.bit_lt
    by_cases same : other = flag
    · simp [same, flag.bit_lt]
    · have : other.bit ≠ flag.bit := fun h => same (StatFlag.bit_injective h)
      simp [same, low]
      omega
  rw [getStatFlag_eq, getStatFlag_eq, setStatFlag]
  cases val with
  | true =>
      simp only [if_true, BitVec.getLsbD_or, at_bit]
      by_cases same : other = flag <;> simp [same]
  | false =>
      simp only [Bool.false_eq_true, if_false, BitVec.getLsbD_and, BitVec.getLsbD_not, at_bit]
      by_cases same : other = flag <;> simp [same, other.bit_lt]

/-- What memcached holds under a path: the record and the bytes behind it. -/
structure Value where
  stat : PaconStat
  data : List UInt8
  deriving DecidableEq

inductive Kind
  | dir | file
  deriving DecidableEq

def Value.kind (v : Value) : Kind := if getStatFlag v.stat .type then .file else .dir

/-- A value whose bytes are the file's data: no NUL among them, and the size counts them. -/
structure Value.Sound (v : Value) : Prop where
  nulFree : 0 ∉ v.data
  size : v.stat.size.toNat = v.data.length

/-- `INLINE_MAX` of `pacon.h`. -/
def inlineMax : Nat := 4052

theorem toNat_inlineSize {n : Nat} (short : n < inlineMax - 1) : (BitVec.ofNat 32 n).toNat = n := by
  rw [BitVec.toNat_ofNat, Nat.mod_eq_of_lt]
  exact short.trans (by decide)

/-- `strcpy` of the bytes at `src` into `buffer`, which the copy must not overrun. -/
def strcpy (buffer src : List UInt8) : List UInt8 :=
  let text := src.takeWhile (· ≠ 0)
  text ++ 0 :: buffer.drop (text.length + 1)

theorem strcpy_of_nulFree {src : List UInt8} (nulFree : 0 ∉ src) (buffer : List UInt8) :
    strcpy buffer src = src ++ 0 :: buffer.drop (src.length + 1) := by
  simp only [strcpy, Lib.takeWhile_clear nulFree]

theorem take_strcpy {src : List UInt8} (nulFree : 0 ∉ src) (buffer : List UInt8) :
    (strcpy buffer src).take src.length = src := by
  rw [strcpy_of_nulFree nulFree, List.take_left]

/-- A write of `buf` at `offset` into a byte sequence that reaches up to there. -/
def overwrite (old buf : List UInt8) (offset : Nat) : List UInt8 :=
  old.take offset ++ buf ++ old.drop (offset + buf.length)

theorem overwrite_nil (old : List UInt8) (offset : Nat) : overwrite old [] offset = old := by
  rw [overwrite, List.append_nil, List.length_nil, Nat.add_zero, List.take_append_drop]

theorem length_overwrite {old buf : List UInt8} {offset : Nat} (inside : offset ≤ old.length) :
    (overwrite old buf offset).length = max (offset + buf.length) old.length := by
  simp only [overwrite, List.length_append, List.length_take, List.length_drop]
  omega

theorem nulFree_overwrite {old buf : List UInt8} (offset : Nat) (h : 0 ∉ old) (hbuf : 0 ∉ buf) :
    0 ∉ overwrite old buf offset := by
  simp only [overwrite, List.mem_append, not_or]
  exact ⟨⟨fun member => h (List.mem_of_mem_take member), hbuf⟩,
    fun member => h (List.mem_of_mem_drop member)⟩

def newData (inlineData buf : List UInt8) (offset size : Nat) : List UInt8 :=
  inlineData.take offset ++ buf ++
    if offset + buf.length < size then
      (inlineData.drop (offset + buf.length)).take (size - (offset + buf.length))
    else []

theorem newData_strcpy {old : List UInt8} (nulFree : 0 ∉ old) (buffer buf : List UInt8) {offset : Nat}
    (inside : offset ≤ old.length) :
    newData (strcpy buffer old) buf offset old.length = overwrite old buf offset := by
  rw [strcpy_of_nulFree nulFree]
  unfold newData overwrite
  congr 1
  · rw [List.take_append_of_le_length inside]
  · split
    · rename_i less
      rw [List.drop_append_of_le_length (by omega), List.take_append_of_le_length (by simp),
        List.take_of_length_le (by simp)]
    · rw [List.drop_eq_nil_of_le (by omega)]

end Pacon
