import Pacon.Fsync.FromLog
import Pacon.InlineRead
import Pacon.Message.Parse

/-!
# The fsync log

`pacon_fsync` appends to the client's log and names the place in its message, from which `fsync_from_log`
copies to the file on the DFS. The calls are those on inline files, after their permission check and
through a handle without a descriptor.
-/

namespace Pacon.FsyncLog
open Lib Function Message InlineRead BinaryData

def inlineDataMax : Nat := 468

def fsyncLogPath : CString :=
  ['/', 'm', 'n', 't', '/', 'b', 'e', 'e', 'g', 'f', 's', '/', 'p', 'a', 'c', 'o', 'n', '_', 'f', 's', 'y', 'n', 'c', '_',
    'l', 'o', 'g', '/']

structure LogFile where
  localIp : CString
  pid : Nat
  plain : ∀ c ∈ localIp, c.isDigit = true ∨ c = '.'

def LogFile.path (l : LogFile) : CString := fsyncLogPath ++ l.localIp ++ '.' :: decimal l.pid

/-- The address that `posix_memalign` stores for memory aligned to `SECTOR_SIZE`, its least significant
byte first. -/
structure Pointer where
  bytes : List Byte
  eight : bytes.length = 8
  aligned : bytes.head? = some 0

/-- A call. `mem` is what lies in memory from the local `inline_data` on, and the others are what
`posix_memalign` stores, `none` if it fails, and what `write` returns. -/
structure Fsync where
  path : CString
  file : InlineFile
  mem : List Byte
  pointer : Option Pointer
  wrote : Int
  timestamp : BitVec 32
  nulFree : nul ∉ path

/-- The bytes from `inline_data` on when they are handed to `write`: the pointer is stored there. -/
def Fsync.source (e : Fsync) : List Byte :=
  let inlineData := (deseriInlineData e.mem e.file.value).2
  match e.pointer with
  | some pointer => memcpy inlineData 0 pointer.bytes
  | none => inlineData

def Fsync.length (e : Fsync) : Nat := e.path.length + e.file.content.length

/-- A call that has returned 0, and the offset in its message. -/
structure Call where
  fsync : Fsync
  offset : Nat

def Call.size (c : Call) : Nat := c.fsync.wrote.toNat

def Call.data (c : Call) : List Byte := c.fsync.file.content

def Call.bytes (c : Call) : List Byte := c.fsync.source.take c.size

def Call.tmpPath (l : LogFile) (c : Call) : CString := payload c.fsync.path l.path c.offset c.size

def Call.sent (l : LogFile) (c : Call) : Option CString :=
  (addToMq (c.tmpPath l) .fsync c.fsync.timestamp).sent

structure State where
  log : List Byte
  position : Nat
  logSize : Nat
  calls : List Call

/-- `pacon_fsync`. A `write` does not write more than it is given, and neither `log_size` nor `tmp_path`
overflows. -/
def step (l : LogFile) (s : State) (e : Fsync) : Option State :=
  if e.wrote ≤ 0 then some s
  else
    let c : Call := ⟨e, s.logSize⟩
    if c.size ≤ e.length ∧ c.bytes.length = c.size ∧ s.logSize + c.size < 2 ^ 31 ∧
        (c.tmpPath l).length < pathMax then
      let t := { s with
        log := memcpy s.log s.position c.bytes
        position := s.position + c.size
        logSize := s.logSize + c.size }
      match c.sent l with
      | none => some t
      | some _ => some { t with calls := s.calls ++ [c] }
    else none

structure Initial (s : State) : Prop where
  position : s.position = 0
  logSize : s.logSize = 0
  calls : s.calls = []

def system (l : LogFile) : System State Fsync := ⟨Initial, step l⟩

structure Buffers where
  fPath : List Char
  logPath : List Char
  data : List Byte
  fLength : fPath.length = pathMax
  logLength : logPath.length = pathMax
  dataLength : data.length = inlineDataMax

structure Written where
  file : CString
  log : CString
  bytes : List Byte
  deriving DecidableEq

/-- `fsync_from_log`; `none` for an error and for bytes outside of its buffer. -/
def fsyncFromLog (disk : CString → Option (List Byte)) (b : Buffers) (path : CString) : Option Written := do
  let a ← address path b.fPath b.logPath
  let content ← disk a.log
  if 0 ≤ a.offset ∧ 0 ≤ a.size ∧ a.size.toNat ≤ inlineDataMax then
    let data := memcpy b.data 0 ((content.drop a.offset.toNat).take a.size.toNat)
    some ⟨a.file, a.log, data.take a.size.toNat⟩
  else none

/-- The path that `commit_to_fs` hands on. -/
def Call.request (l : LogFile) (c : Call) : Option CString :=
  ((c.sent l).bind received).map fun mesg => (commitToFs mesg).1

/-- The range of the log holds the file's data, and the server copies them from there to the file. -/
structure Durable (l : LogFile) (others : CString → Option (List Byte)) (b : Buffers) (s : State) (c : Call) : Prop where
  logged : (s.log.drop c.offset).take c.size = c.data
  fits : c.size ≤ inlineDataMax
  written : (c.request l).bind (fsyncFromLog (update others l.path (some s.log)) b) =
    some ⟨c.fsync.path, l.path, c.data⟩

/-- No pointer is stored in the data and `write` stops behind them; the message is read as it was built, in
a buffer that terminates the path of the log. -/
structure Kept (l : LogFile) (b : Buffers) (c : Call) : Prop where
  pointer : c.fsync.pointer = none
  partly : c.size = c.data.length
  small : c.data.length ≤ inlineDataMax
  noBar : '|' ∉ c.fsync.path
  noColon : ':' ∉ c.fsync.path
  short : ∀ mesg ∈ c.sent l, mesg.length < pathMax
  terminated : b.logPath[l.path.length]? = some nul

section
variable {l : LogFile} {s t : State} {e : Fsync} {c : Call}

structure Ranged (l : LogFile) (s : State) (c : Call) : Prop where
  some_bytes : 0 < c.size
  length : c.bytes.length = c.size
  sent : c.sent l ≠ none
  inside : c.offset + c.size ≤ s.logSize
  range : (s.log.drop c.offset).take c.size = c.bytes

structure Logged (l : LogFile) (s : State) : Prop where
  position : s.position = s.logSize
  inside : s.logSize ≤ s.log.length
  calls : ∀ c ∈ s.calls, Ranged l s c

theorem logged_initial (initial : Initial s) : Logged l s where
  position := by rw [initial.position, initial.logSize]
  inside := by rw [initial.logSize]; exact Nat.zero_le _
  calls c member := by rw [initial.calls] at member; cases member

def wrote (s : State) (c : Call) : State :=
  { s with
    log := memcpy s.log s.position c.bytes
    position := s.position + c.size
    logSize := s.logSize + c.size }

theorem Logged.wrote (logged : Logged l s) (length : c.bytes.length = c.size) : Logged l (wrote s c) where
  position := congrArg (· + c.size) logged.position
  inside := by
    have longer := length_memcpy c.bytes logged.inside
    rw [length] at longer
    show s.logSize + c.size ≤ (memcpy s.log s.position c.bytes).length
    rwa [logged.position]
  calls d member := by
    have before := logged.calls d member
    refine ⟨before.some_bytes, before.length, before.sent, Nat.le_add_right_of_le before.inside, ?_⟩
    show ((memcpy s.log s.position c.bytes).drop d.offset).take d.size = d.bytes
    rw [logged.position, memcpy_before logged.inside before.inside, before.range]

theorem step_cases (h : step l s e = some t) : t = s ∨
    (0 < e.wrote ∧ (Call.mk e s.logSize).bytes.length = (Call.mk e s.logSize).size ∧
      (t = wrote s ⟨e, s.logSize⟩ ∨ (Call.mk e s.logSize).sent l ≠ none ∧
        t = { wrote s ⟨e, s.logSize⟩ with calls := s.calls ++ [⟨e, s.logSize⟩] })) := by
  unfold step at h
  split at h
  · cases h
    exact .inl rfl
  · rename_i positive
    dsimp only at h
    split at h
    · rename_i whole
      refine .inr ⟨Int.not_le.mp positive, whole.2.1, ?_⟩
      split at h
      · cases h
        exact .inl rfl
      · rename_i mesg sent
        cases h
        refine .inr ⟨?_, rfl⟩
        rw [sent]
        exact Option.some_ne_none mesg
    · cases h

theorem logged_step (logged : Logged l s) (h : step l s e = some t) : Logged l t := by
  rcases step_cases h with rfl | ⟨positive, length, rfl | ⟨sent, rfl⟩⟩
  · exact logged
  · exact logged.wrote length
  · have after := logged.wrote length
    refine ⟨after.position, after.inside, fun d member => ?_⟩
    rcases List.mem_append.mp member with old | new
    · have before := after.calls d old
      exact ⟨before.some_bytes, before.length, before.sent, before.inside, before.range⟩
    · rw [List.mem_singleton] at new
      subst new
      refine ⟨Int.pos_iff_toNat_pos.mp positive, length, sent, le_refl _, ?_⟩
      have range := memcpy_range (Call.mk e s.logSize).bytes logged.inside
      rw [length] at range
      show ((memcpy s.log s.position _).drop s.logSize).take _ = _
      rw [logged.position]
      exact range

theorem logged_of_reachable {ok : State → Fsync → Prop} (h : (system l).Reachable ok s) : Logged l s :=
  h.invariant (P := Logged l) (fun _ initial => logged_initial initial) fun _ _ _ _ logged _ step =>
    logged_step logged step

theorem mem_path {c : Char} (member : c ∈ l.path) : c ∈ fsyncLogPath ∨ c = '.' ∨ c.isDigit = true := by
  unfold LogFile.path at member
  rw [List.mem_append, List.mem_append, List.mem_cons] at member
  rcases member with (directory | ip) | dot | pid
  · exact .inl directory
  · rcases l.plain c ip with digit | dot
    · exact .inr (.inr digit)
    · exact .inr (.inl dot)
  · exact .inr (.inl dot)
  · exact .inr (.inr (isDigit_of_mem_decimal pid))

theorem not_mem_path {c : Char} (directory : c ∉ fsyncLogPath) (dot : c ≠ '.') (digit : c.isDigit = false) :
    c ∉ l.path := by
  intro member
  rcases mem_path member with other | is | is
  · exact directory other
  · exact dot is
  · rw [digit] at is
    cases is

theorem noBar_path (l : LogFile) : '|' ∉ l.path := not_mem_path (by decide) (by decide) (by decide)

theorem nulFree_path (l : LogFile) : nul ∉ l.path := not_mem_path (by decide) (by decide) (by decide)

theorem noColon_path (l : LogFile) : ':' ∉ l.path := not_mem_path (by decide) (by decide) (by decide)

theorem not_mem_payload {d : Char} {path log : CString} {offset size : Nat} (one : d ∉ path) (two : d ∉ log)
    (bar : d ≠ '|') (digit : d.isDigit = false) : d ∉ payload path log offset size := by
  have number (n : Nat) : d ∉ decimal n := by
    intro member
    rw [isDigit_of_mem_decimal member] at digit
    cases digit
  simp [payload, one, two, bar, number]

theorem takeWhile_code (w rest : CString) : (w ++ ':' :: rest).takeWhile (· ≠ ':') = w.takeWhile (· ≠ ':') := by
  rw [List.takeWhile_append]
  split
  · rename_i all
    have whole : w.takeWhile (· ≠ ':') = w := (List.takeWhile_prefix _).eq_of_length all
    rw [whole, List.takeWhile_cons_of_neg (by simp), List.append_nil]
  · rfl

theorem mesg_eq {mesg : CString} (sent : c.sent l = some mesg) :
    mesg = payload c.fsync.path l.path c.offset c.size ++ ':' :: ('7' :: timestampText c.fsync.timestamp) := by
  rw [sent_addToMq sent, List.append_assoc]
  rfl

theorem request_eq_some {path : CString} (h : c.request l = some path) : (∃ mesg ∈ c.sent l, mesg.length < pathMax) ∧
    path.length < pathMax ∧ path = (payload c.fsync.path l.path c.offset c.size).takeWhile (· ≠ ':') := by
  obtain ⟨mesg, delivered, is⟩ := Option.map_eq_some_iff.mp h
  obtain ⟨whole, sent, fits⟩ := Option.bind_eq_some_iff.mp delivered
  unfold received at fits
  split at fits
  · rename_i short
    cases fits
    have cut : path = mesg.takeWhile (· ≠ ':') := is.symm
    refine ⟨⟨mesg, sent, short⟩, ?_, ?_⟩
    · rw [cut]
      exact (List.takeWhile_prefix _).length_le.trans_lt short
    · rw [cut, mesg_eq sent, takeWhile_code]
  · cases fits

theorem request_plain (noColon : ':' ∉ c.fsync.path) {mesg : CString} (sent : c.sent l = some mesg)
    (short : mesg.length < pathMax) : c.request l = some (payload c.fsync.path l.path c.offset c.size) ∧
      (payload c.fsync.path l.path c.offset c.size).length < pathMax := by
  have clear : ':' ∉ payload c.fsync.path l.path c.offset c.size :=
    not_mem_payload noColon (noColon_path l) (by decide) (by decide)
  have built := mesg_eq sent
  have cut : (commitToFs mesg).1 = payload c.fsync.path l.path c.offset c.size := by
    show mesg.takeWhile (· ≠ ':') = _
    rw [built]
    exact takeWhile_sep clear _
  constructor
  · unfold Call.request
    rw [sent, Option.bind_some, received, if_pos short, Option.map_some, cut]
  · rw [built, List.length_append] at short
    omega

theorem plain_of_written {disk : CString → Option (List Byte)} {b : Buffers} {path log : CString} {data : List Byte}
    (h : c.request l = some path) (some_data : data ≠ [])
    (written : fsyncFromLog disk b path = some ⟨c.fsync.path, log, data⟩) :
    '|' ∉ c.fsync.path ∧ ':' ∉ c.fsync.path := by
  obtain ⟨-, short, cut⟩ := request_eq_some h
  obtain ⟨a, addressed, written⟩ := Option.bind_eq_some_iff.mp written
  obtain ⟨content, -, written⟩ := Option.bind_eq_some_iff.mp written
  split at written
  swap
  · cases written
  obtain ⟨file, -, bytes⟩ := Written.mk.inj (Option.some.inj written)
  have bar : '|' ∈ path := by
    by_contra none
    rw [address_size short none b.fLength addressed] at bytes
    exact some_data bytes.symm
  have noColon : ':' ∉ path := by
    intro member
    rw [cut] at member
    exact notMem_takeWhile ':' _ member
  have clear : nul ∉ path := by
    intro member
    rw [cut] at member
    exact not_mem_payload c.fsync.nulFree (nulFree_path l) (by decide) (by decide)
      ((List.takeWhile_prefix _).subset member)
  have front := address_file short clear bar b.fLength addressed
  rw [file] at front
  rw [front]
  constructor
  · exact notMem_takeWhile '|' path
  · intro member
    exact noColon ((List.takeWhile_prefix _).subset member)

theorem source_eq (e : Fsync) : e.source =
    match e.pointer with
    | some pointer => memcpy (e.file.content ++ 0 :: e.mem.drop (e.file.content.length + 1)) 0 pointer.bytes
    | none => e.file.content ++ 0 :: e.mem.drop (e.file.content.length + 1) := by
  unfold Fsync.source
  rw [e.file.deseri]

theorem pointer_eq_none (some_bytes : 0 < c.size) (same : c.bytes = c.data) : c.fsync.pointer = none := by
  cases stored : c.fsync.pointer with
  | none => rfl
  | some pointer =>
      exfalso
      have first : c.bytes.head? = some 0 := by
        unfold Call.bytes
        rw [source_eq, stored]
        simp only [memcpy, List.take_zero, List.nil_append]
        rw [List.head?_take, if_neg (Nat.ne_of_gt some_bytes), List.head?_append, pointer.aligned]
        rfl
      rw [same] at first
      exact c.fsync.file.nulFree (List.mem_of_head? first)

theorem bytes_of_kept {b : Buffers} (kept : Kept l b c) : c.bytes = c.data := by
  unfold Call.bytes
  rw [source_eq, kept.pointer, kept.partly]
  exact List.take_left

theorem Ranged.length_data (ranged : Ranged l s c) (same : c.bytes = c.data) : c.size = c.data.length := by
  rw [← same, ranged.length]

theorem Durable.kept {others : CString → Option (List Byte)} {b : Buffers} (ranged : Ranged l s c)
    (durable : Durable l others b s c) : Kept l b c := by
  have same : c.bytes = c.data := by
    rw [← ranged.range]
    exact durable.logged
  have partly := ranged.length_data same
  have some_data : c.data ≠ [] := by
    intro empty
    have positive := ranged.some_bytes
    rw [partly, empty] at positive
    exact Nat.lt_irrefl 0 positive
  obtain ⟨path, request, written⟩ := Option.bind_eq_some_iff.mp durable.written
  obtain ⟨noBar, noColon⟩ := plain_of_written request some_data written
  obtain ⟨⟨mesg, sent, short⟩, -⟩ := request_eq_some request
  obtain ⟨built, fits⟩ := request_plain noColon sent short
  cases request.symm.trans built
  obtain ⟨a, addressed, written⟩ := Option.bind_eq_some_iff.mp written
  obtain ⟨content, -, written⟩ := Option.bind_eq_some_iff.mp written
  have clear : nul ∉ c.fsync.path ++ l.path := by
    rw [List.mem_append, not_or]
    exact ⟨c.fsync.nulFree, nulFree_path l⟩
  obtain ⟨string, read, right⟩ := address_payload c.offset c.size noBar (noBar_path l) clear fits
    b.fLength b.logLength
  refine ⟨pointer_eq_none ranged.some_bytes same, partly, ?_, noBar, noColon, ?_, right.mp ?_⟩
  · rw [← partly]
    exact durable.fits
  · intro other member
    cases sent.symm.trans member
    exact short
  · rw [read] at addressed
    obtain ⟨log, is, rfl⟩ := Option.map_eq_some_iff.mp addressed
    split at written
    · rw [is]
      exact congrArg some (Written.mk.inj (Option.some.inj written)).2.1
    · cases written

theorem Kept.durable {others : CString → Option (List Byte)} {b : Buffers} (ranged : Ranged l s c) (kept : Kept l b c) :
    Durable l others b s c := by
  have same := bytes_of_kept kept
  have logged : (s.log.drop c.offset).take c.size = c.data := ranged.range.trans same
  have fits : c.size ≤ inlineDataMax := kept.partly ▸ kept.small
  refine ⟨logged, fits, ?_⟩
  obtain ⟨mesg, sent⟩ := Option.ne_none_iff_exists'.mp ranged.sent
  obtain ⟨built, short⟩ := request_plain kept.noColon sent (kept.short mesg sent)
  have clear : nul ∉ c.fsync.path ++ l.path := by
    rw [List.mem_append, not_or]
    exact ⟨c.fsync.nulFree, nulFree_path l⟩
  obtain ⟨string, read, right⟩ := address_payload c.offset c.size kept.noBar (noBar_path l) clear
    short b.fLength b.logLength
  rw [right.mpr kept.terminated, Option.map_some] at read
  have taken : (memcpy b.data 0 c.data).take c.size = c.data := by
    rw [kept.partly]
    exact memcpy_front
  rw [built, Option.bind_some]
  unfold fsyncFromLog
  simp only [read, Option.bind_eq_bind, Option.bind_some, update_self, Int.toNat_natCast, logged, taken]
  exact if_pos ⟨Int.natCast_nonneg _, Int.natCast_nonneg _, fits⟩

/-- In every run the log and the server keep what a call that has returned 0 should make durable exactly if
that call and its message meet the condition. -/
theorem fsync_durable_iff {ok : State → Fsync → Prop} (reach : (system l).Reachable ok s) (member : c ∈ s.calls)
    (others : CString → Option (List Byte)) (b : Buffers) : Durable l others b s c ↔ Kept l b c := by
  have ranged := (logged_of_reachable reach).calls c member
  exact ⟨Durable.kept ranged, Kept.durable ranged⟩

end

def exampleLog : LogFile where
  localIp := ['1', '0', '.', '0', '.', '0', '.', '1']
  pid := 7
  plain := by simp [Char.isDigit]

def exampleFsync (pointer : Option Pointer) (wrote : Int) : Fsync where
  path := ['/', 'f']
  file := fourBytes
  mem := List.replicate 16 0
  pointer := pointer
  wrote := wrote
  timestamp := 7
  nulFree := by decide

def emptyLog : State := ⟨[], 0, 0, []⟩

theorem exampleFsync_reachable (pointer : Option Pointer) (wrote : Int) {t : State}
    (h : step exampleLog emptyLog (exampleFsync pointer wrote) = some t) :
    (system exampleLog).Reachable (fun _ _ => True) t :=
  .next (.initial ⟨rfl, rfl, rfl⟩) trivial h

def examplePointer : Pointer := ⟨[0, 2, 0, 0, 0, 0, 0, 0], rfl, rfl⟩

def zeroed : Buffers where
  fPath := List.replicate pathMax nul
  logPath := List.replicate pathMax nul
  data := List.replicate inlineDataMax 0
  fLength := List.length_replicate ..
  logLength := List.length_replicate ..
  dataLength := List.length_replicate ..

theorem fsync_durable_iff_partly : ∃ s : State, (system exampleLog).Reachable (fun _ _ => True) s ∧ ∃ c ∈ s.calls,
    c.data = fourBytes.content ∧ Durable exampleLog (fun _ => none) zeroed s c := by
  have reach := exampleFsync_reachable none 4 rfl
  refine ⟨_, reach, ⟨exampleFsync none 4, 0⟩, List.mem_singleton_self _, rfl, ?_⟩
  refine (fsync_durable_iff reach (List.mem_singleton_self _) _ _).mpr ⟨rfl, rfl, by decide, by decide, by decide, ?_, ?_⟩
  · decide
  · decide

theorem fsync_not_durable : ∃ s : State, (system exampleLog).Reachable (fun _ _ => True) s ∧ ∃ c ∈ s.calls,
    c.fsync.wrote = c.fsync.length ∧ ∀ others b, ¬Durable exampleLog others b s c := by
  have reach := exampleFsync_reachable (some examplePointer) 6 rfl
  refine ⟨_, reach, ⟨exampleFsync (some examplePointer) 6, 0⟩, List.mem_singleton_self _, rfl, fun others b durable => ?_⟩
  have kept := durable.kept ((logged_of_reachable reach).calls _ (List.mem_singleton_self _))
  exact absurd kept.pointer (Option.some_ne_none _)

end Pacon.FsyncLog
