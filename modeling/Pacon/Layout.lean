import Pacon.Lib.Memory
import Pacon.Commit.Model

namespace Pacon
open Lib Commit

def pstatSize : Nat := 44

def PaconStat.bytes (st : PaconStat) : List Byte :=
  words [st.flags, st.mode, st.ctime, st.atime, st.mtime, st.size, st.uid, st.gid, st.nlink,
    st.openCounter, st.fd]

def seriInlineData (st : PaconStat) (inlineData val : List Byte) : List Byte :=
  memcpy (memcpy val 0 st.bytes) pstatSize (inlineData ++ [0])

/-- `struct pacon_stat_server` has no `fd`. -/
structure PaconStatServer where
  flags : BitVec 32
  mode : BitVec 32
  ctime : BitVec 32
  atime : BitVec 32
  mtime : BitVec 32
  size : BitVec 32
  uid : BitVec 32
  gid : BitVec 32
  nlink : BitVec 32
  openCounter : BitVec 32
  deriving DecidableEq

/-- `sizeof(struct pacon_stat_server)` -/
def paconStatServerSize : Nat := 10 * 4

def PaconStatServer.ofBytes (bytes : List Byte) : PaconStatServer where
  flags := wordAt bytes 0
  mode := wordAt bytes 1
  ctime := wordAt bytes 2
  atime := wordAt bytes 3
  mtime := wordAt bytes 4
  size := wordAt bytes 5
  uid := wordAt bytes 6
  gid := wordAt bytes 7
  nlink := wordAt bytes 8
  openCounter := wordAt bytes 9

structure Copied where
  record : List Byte
  data : List Byte

def serverDeseriInlineData (val : List Byte) : Copied where
  record := val.take pstatSize
  data := stringAt (val.drop pstatSize) ++ [0]

def PaconStat.shared (st : PaconStat) : PaconStatServer where
  flags := st.flags
  mode := st.mode
  ctime := st.ctime
  atime := st.atime
  mtime := st.mtime
  size := st.size
  uid := st.uid
  gid := st.gid
  nlink := st.nlink
  openCounter := st.openCounter

def Recovered (st : PaconStat) (inlineData : List Byte) (copied : Copied) : Prop :=
  PaconStatServer.ofBytes copied.record = st.shared ∧ copied.data = inlineData ++ [0]

def Copied.RecordFits (copied : Copied) : Prop := copied.record.length ≤ paconStatServerSize

def Copied.DataFits (copied : Copied) : Prop := copied.data.length ≤ serverInlineMax

theorem PaconStat.length_bytes (st : PaconStat) : st.bytes.length = pstatSize := length_words _

theorem seriInlineData_eq (st : PaconStat) (inlineData val : List Byte) :
    ∃ rest, seriInlineData st inlineData val = st.bytes ++ (inlineData ++ 0 :: rest) := by
  refine ⟨((st.bytes ++ val.drop st.bytes.length).drop (pstatSize + (inlineData ++ [0]).length)), ?_⟩
  unfold seriInlineData memcpy
  rw [List.take_zero, List.nil_append, Nat.zero_add, ← st.length_bytes, List.take_left]
  simp

theorem serverDeseri_record (st : PaconStat) (inlineData val : List Byte) :
    (serverDeseriInlineData (seriInlineData st inlineData val)).record = st.bytes := by
  obtain ⟨rest, value⟩ := seriInlineData_eq st inlineData val
  rw [serverDeseriInlineData, value, ← st.length_bytes, List.take_left]

theorem serverDeseri_data (st : PaconStat) {inlineData : List Byte} (nulFree : 0 ∉ inlineData)
    (val : List Byte) :
    (serverDeseriInlineData (seriInlineData st inlineData val)).data = inlineData ++ [0] := by
  obtain ⟨rest, value⟩ := seriInlineData_eq st inlineData val
  rw [serverDeseriInlineData, value, ← st.length_bytes, List.drop_left]
  exact congrArg (· ++ [0]) (stringAt_append nulFree rest)

theorem shared_of_bytes (st : PaconStat) : PaconStatServer.ofBytes st.bytes = st.shared := by
  have field := fun i less => wordAt_words [st.flags, st.mode, st.ctime, st.atime, st.mtime, st.size,
    st.uid, st.gid, st.nlink, st.openCounter, st.fd] [] (i := i) less
  simp only [List.append_nil] at field
  unfold PaconStatServer.ofBytes PaconStat.bytes PaconStat.shared
  rw [field 0, field 1, field 2, field 3, field 4, field 5, field 6, field 7, field 8, field 9]
  all_goals simp

theorem record_overrun (st : PaconStat) (inlineData val : List Byte) :
    ¬ (serverDeseriInlineData (seriInlineData st inlineData val)).RecordFits := by
  rw [Copied.RecordFits, serverDeseri_record, st.length_bytes]
  decide

/-- The server finds the fields and the data it shares with the client in every value, but the copy
of the record always ends behind the server's own, and the data fits only below the server's
smaller limit. -/
theorem server_deseri_overruns (st : PaconStat) {inlineData : List Byte} (nulFree : 0 ∉ inlineData)
    (val : List Byte) :
    let copied := serverDeseriInlineData (seriInlineData st inlineData val)
    Recovered st inlineData copied ∧ (copied.DataFits ↔ inlineData.length < serverInlineMax) ∧
      ¬ (Recovered st inlineData copied ∧ copied.RecordFits ∧ copied.DataFits) := by
  have recovered : Recovered st inlineData (serverDeseriInlineData (seriInlineData st inlineData val)) := by
    rw [Recovered, serverDeseri_record]
    exact ⟨shared_of_bytes st, serverDeseri_data st nulFree val⟩
  refine ⟨recovered, ?_, fun all => record_overrun st inlineData val all.2.1⟩
  rw [Copied.DataFits, serverDeseri_data st nulFree, List.length_append, List.length_singleton,
    Nat.lt_iff_add_one_le]

def zeroStat : PaconStat := ⟨0, 0, 0, 0, 0, 0, 0, 0, 0, 0, 0⟩

theorem server_deseri_overruns_byte :
    let copied := serverDeseriInlineData (seriInlineData zeroStat [65] [])
    Recovered zeroStat [65] copied ∧ (copied.DataFits ↔ [(65 : Byte)].length < serverInlineMax) ∧
      ¬ (Recovered zeroStat [65] copied ∧ copied.RecordFits ∧ copied.DataFits) :=
  server_deseri_overruns zeroStat (by decide) []

theorem value_overruns :
    serverInlineMax < inlineMax - 1 ∧
    ¬ (serverDeseriInlineData (seriInlineData zeroStat (List.replicate serverInlineMax 65) [])).DataFits ∧
    ¬ (serverDeseriInlineData (seriInlineData zeroStat [] [])).RecordFits := by
  refine ⟨by decide, ?_, record_overrun zeroStat [] []⟩
  rw [Copied.DataFits, serverDeseri_data _ (by simp)]
  simp

end Pacon
