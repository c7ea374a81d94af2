import Mathlib.Data.BitVec
import Pacon.Lib.Buffer
import Pacon.Message.Format

/-!
# What an FSYNC message names

`pacon_fsync` sends the paths of the file and of its log with an offset and a size, and `fsync_from_log`
takes the four fields apart in one loop, with the paths copied to buffers of its own.
-/

namespace Pacon.FsyncLog
open Lib Message

/-- `sprintf(tmp_path, "%s%s%s%s%d%s%d", path, "|", pacon->fsync_logfile_path, "|", offset, "|", ret)` -/
def payload (path log : CString) (offset size : Nat) : CString :=
  path ++ '|' :: (log ++ '|' :: (decimal offset ++ '|' :: decimal size))

structure Scan where
  fPath : List Char
  logPath : List Char
  loc : Nat
  flag : Nat
  offset : Int
  size : Int

def separate (i : Nat) (s : Scan) : Option Scan :=
  let t := { s with loc := i, flag := s.flag + 1 }
  if s.flag = 0 then (put s.fPath i nul).map fun buf => { t with fPath := buf }
  else if s.flag = 1 then (put s.logPath i nul).map fun buf => { t with logPath := buf }
  else some t

/-- The loop for `path[i] = c`, with `path[i-1]` and what follows; `none` for its error and for a write
outside of a buffer. -/
def scanStep (i : Nat) (before : Option Char) (c : Char) (cs : CString) (s : Scan) : Option Scan :=
  if c = '|' then separate i s
  else if s.flag = 0 then (put s.fPath i c).map fun buf => { s with fPath := buf }
  else if s.flag = 1 then (put s.logPath (i - s.loc - 1) c).map fun buf => { s with logPath := buf }
  else if s.flag = 2 then some (if before = some '|' then { s with offset := atoi (c :: cs) } else s)
  else if s.flag = 3 then some (if before = some '|' then { s with size := atoi (c :: cs) } else s)
  else none

def scanLoop : Nat → Option Char → CString → Scan → Option Scan
  | _, _, [], s => some s
  | i, before, c :: cs, s => (scanStep i before c cs s).bind (scanLoop (i + 1) (some c) cs)

structure Address where
  file : CString
  log : CString
  offset : Int
  size : Int
  deriving DecidableEq

/-- `fsync_from_log` up to its `pread`. `fPath` and `logPath` are what lies in its buffers before. -/
def address (path : CString) (fPath logPath : List Char) : Option Address := do
  let s ← scanLoop 0 none path ⟨fPath, logPath, 0, 0, 0, 0⟩
  let file ← cstring s.fPath
  let log ← cstring s.logPath
  some ⟨file, log, s.offset, s.size⟩

section
variable {w rest done : CString} {before : Option Char} {s : Scan}

theorem scan_file (done rest : CString) (before : Option Char) (clear : '|' ∉ w) (flag : s.flag = 0)
    (front : done <+: s.fPath) (room : done.length + w.length ≤ s.fPath.length) : ∃ buf before',
      scanLoop done.length before (w ++ rest) s =
        scanLoop (done.length + w.length) before' rest { s with fPath := buf } ∧
      done ++ w <+: buf ∧ buf.length = s.fPath.length := by
  induction w generalizing done before s with
  | nil =>
      rw [List.append_nil]
      exact ⟨s.fPath, before, rfl, front, rfl⟩
  | cons c w ih =>
      rw [List.mem_cons, not_or] at clear
      rw [List.length_cons] at room
      have inside : done.length < s.fPath.length := by omega
      have written := put_inside inside c
      have step : scanStep done.length before c (w ++ rest) s = some { s with fPath := s.fPath.set done.length c } := by
        rw [scanStep, if_neg (Ne.symm clear.1), if_pos flag, written]
        rfl
      have length : (done ++ [c]).length = done.length + 1 := by simp
      have same : (s.fPath.set done.length c).length = s.fPath.length := List.length_set
      obtain ⟨buf, before', run, copied, kept⟩ := ih (done ++ [c]) (some c)
        (s := { s with fPath := s.fPath.set done.length c }) clear.2 flag (put_next front written)
        (by rw [length, same]; omega)
      refine ⟨buf, before', ?_, ?_, kept.trans same⟩
      · rw [List.cons_append, scanLoop, step, Option.bind_some, ← length, run, length, List.length_cons,
          Nat.add_right_comm, Nat.add_assoc]
      · rwa [List.append_assoc] at copied

theorem scan_log (done rest : CString) (before : Option Char) (clear : '|' ∉ w) (flag : s.flag = 1)
    (front : done <+: s.logPath) (room : done.length + w.length ≤ s.logPath.length) : ∃ buf before',
      scanLoop (s.loc + 1 + done.length) before (w ++ rest) s =
        scanLoop (s.loc + 1 + done.length + w.length) before' rest { s with logPath := buf } ∧
      done ++ w <+: buf ∧ buf.length = s.logPath.length ∧
      ∀ k, done.length + w.length ≤ k → buf[k]? = s.logPath[k]? := by
  induction w generalizing done before s with
  | nil =>
      rw [List.append_nil]
      exact ⟨s.logPath, before, rfl, front, rfl, fun _ _ => rfl⟩
  | cons c w ih =>
      rw [List.mem_cons, not_or] at clear
      rw [List.length_cons] at room
      have inside : done.length < s.logPath.length := by omega
      have written := put_inside inside c
      have place : s.loc + 1 + done.length - s.loc - 1 = done.length := by omega
      have step : scanStep (s.loc + 1 + done.length) before c (w ++ rest) s =
          some { s with logPath := s.logPath.set done.length c } := by
        rw [scanStep, if_neg (Ne.symm clear.1), if_neg (by omega), if_pos flag, place, written]
        rfl
      have length : (done ++ [c]).length = done.length + 1 := by simp
      have same : (s.logPath.set done.length c).length = s.logPath.length := List.length_set
      obtain ⟨buf, before', run, copied, kept, behind⟩ := ih (done ++ [c]) (some c)
        (s := { s with logPath := s.logPath.set done.length c }) clear.2 flag (put_next front written)
        (by rw [length, same]; omega)
      refine ⟨buf, before', ?_, ?_, kept.trans same, fun k beyond => ?_⟩
      · rw [length] at run
        have more : s.loc + 1 + done.length + (c :: w).length = s.loc + 1 + (done.length + 1) + w.length := by
          rw [List.length_cons]
          omega
        rw [List.cons_append, scanLoop, step, Option.bind_some, more]
        exact run
      · rwa [List.append_assoc] at copied
      · rw [List.length_cons] at beyond
        rw [behind k (by rw [length]; omega), List.getElem?_set_ne (by omega)]

theorem scan_digits (rest : CString) (before : Option Char) (i : Nat) (clear : '|' ∉ w)
    (flag : s.flag = 2 ∨ s.flag = 3) (inner : before ≠ some '|') :
    ∃ before', scanLoop i before (w ++ rest) s = scanLoop (i + w.length) before' rest s := by
  induction w generalizing i before with
  | nil => exact ⟨before, rfl⟩
  | cons c w ih =>
      rw [List.mem_cons, not_or] at clear
      have step : scanStep i before c (w ++ rest) s = some s := by
        rw [scanStep, if_neg (Ne.symm clear.1), if_neg (by omega), if_neg (by omega), if_neg inner]
        rcases flag with two | three
        · rw [if_pos two]
        · rw [if_neg (by omega), if_pos three, if_neg inner]
      have other : some c ≠ some '|' := fun same => clear.1 (Option.some.inj same).symm
      obtain ⟨before', run⟩ := ih (some c) (i + 1) clear.2 other
      refine ⟨before', ?_⟩
      rw [List.cons_append, scanLoop, step, Option.bind_some, run, List.length_cons, Nat.add_right_comm, Nat.add_assoc]

theorem scan_bar (i : Nat) : scanLoop i before ('|' :: rest) s =
    (separate i s).bind (scanLoop (i + 1) (some '|') rest) := by
  rw [scanLoop, scanStep, if_pos rfl]

theorem noBar_decimal (n : Nat) : '|' ∉ decimal n := fun member =>
  (digit_not_special (isDigit_of_mem_decimal member)).2.2.2.1 rfl

theorem scan_number (rest : CString) (i n : Nat) (stops : ∀ c ∈ rest.head?, c.isDigit = false) :
    (s.flag = 2 → ∃ before', scanLoop i (some '|') (decimal n ++ rest) s =
      scanLoop (i + (decimal n).length) before' rest { s with offset := n }) ∧
    (s.flag = 3 → ∃ before', scanLoop i (some '|') (decimal n ++ rest) s =
      scanLoop (i + (decimal n).length) before' rest { s with size := n }) := by
  have value := atoi_decimal_append n rest stops
  have clear := noBar_decimal n
  cases digits : decimal n with
  | nil => exact absurd digits (decimal_ne_nil n)
  | cons c w =>
      rw [digits] at value clear
      rw [List.mem_cons, not_or] at clear
      have other : some c ≠ some '|' := fun same => clear.1 (Option.some.inj same).symm
      constructor
      · intro two
        have step : scanStep i (some '|') c (w ++ rest) s = some { s with offset := n } := by
          rw [scanStep, if_neg (Ne.symm clear.1), if_neg (by omega), if_neg (by omega), if_pos two, if_pos rfl]
          rw [List.cons_append] at value
          rw [value]
        obtain ⟨before', run⟩ := scan_digits rest (some c) (i + 1) (s := { s with offset := n }) clear.2
          (.inl two) other
        refine ⟨before', ?_⟩
        rw [List.cons_append, scanLoop, step, Option.bind_some, run, List.length_cons, Nat.add_right_comm, Nat.add_assoc]
      · intro three
        have step : scanStep i (some '|') c (w ++ rest) s = some { s with size := n } := by
          rw [scanStep, if_neg (Ne.symm clear.1), if_neg (by omega), if_neg (by omega), if_neg (by omega), if_pos three,
            if_pos rfl]
          rw [List.cons_append] at value
          rw [value]
        obtain ⟨before', run⟩ := scan_digits rest (some c) (i + 1) (s := { s with size := n }) clear.2
          (.inr three) other
        refine ⟨before', ?_⟩
        rw [List.cons_append, scanLoop, step, Option.bind_some, run, List.length_cons, Nat.add_right_comm, Nat.add_assoc]

end

section
variable {file log : CString} {offset size : Nat} {fPath logPath : List Char}

theorem scan_payload (noBarFile : '|' ∉ file) (noBarLog : '|' ∉ log)
    (fits : (payload file log offset size).length < pathMax) (fLength : fPath.length = pathMax)
    (logLength : logPath.length = pathMax) : ∃ t,
      scanLoop 0 none (payload file log offset size) ⟨fPath, logPath, 0, 0, 0, 0⟩ = some t ∧
      file ++ [nul] <+: t.fPath ∧ t.offset = offset ∧ t.size = size ∧
      ∃ buf, log <+: buf ∧ buf.length = pathMax ∧ buf[log.length]? = logPath[log.length]? ∧
        t.logPath = buf.set (file.length + 1 + log.length) nul := by
  rw [payload] at fits ⊢
  simp only [List.length_append, List.length_cons] at fits
  obtain ⟨fBuf, before₁, run₁, copied₁, kept₁⟩ := scan_file []
    ('|' :: (log ++ '|' :: (decimal offset ++ '|' :: decimal size))) none
    (s := ⟨fPath, logPath, 0, 0, 0, 0⟩) noBarFile rfl List.nil_prefix
    (by show 0 + file.length ≤ fPath.length; omega)
  rw [List.nil_append] at copied₁
  have room₁ : file.length < fBuf.length := by rw [kept₁, fLength]; omega
  have written₁ := put_inside room₁ nul
  obtain ⟨buf, before₂, run₂, copied₂, kept₂, behind⟩ := scan_log []
    ('|' :: (decimal offset ++ '|' :: decimal size)) (some '|')
    (s := ⟨fBuf.set file.length nul, logPath, file.length, 1, 0, 0⟩) noBarLog rfl List.nil_prefix
    (by show 0 + log.length ≤ logPath.length; omega)
  rw [List.nil_append] at copied₂
  have length₂ : buf.length = pathMax := kept₂.trans logLength
  have room₂ : file.length + 1 + log.length < buf.length := by omega
  have written₂ := put_inside room₂ nul
  let s₂ : Scan := ⟨fBuf.set file.length nul, buf.set (file.length + 1 + log.length) nul, file.length + 1 + log.length,
    2, 0, 0⟩
  let i₂ := file.length + 1 + log.length + 1
  obtain ⟨before₃, run₃⟩ := (scan_number ('|' :: decimal size) i₂ offset (s := s₂) (by simp)).1 rfl
  let s₃ : Scan := { s₂ with loc := i₂ + (decimal offset).length, flag := 3, offset := offset }
  obtain ⟨before₄, run₄⟩ := (scan_number [] (i₂ + (decimal offset).length + 1) size (s := s₃) (by simp)).2 rfl
  have bar₁ : separate file.length ⟨fBuf, logPath, 0, 0, 0, 0⟩ =
      some ⟨fBuf.set file.length nul, logPath, file.length, 1, 0, 0⟩ := by
    rw [separate, if_pos rfl, written₁]
    rfl
  have bar₂ : separate (file.length + 1 + log.length) ⟨fBuf.set file.length nul, buf, file.length, 1, 0, 0⟩ =
      some s₂ := by
    rw [separate, if_neg Nat.one_ne_zero, if_pos rfl, written₂]
    rfl
  refine ⟨{ s₃ with size := size }, ?_, put_next copied₁ written₁, rfl, rfl, buf, copied₂, length₂, ?_, rfl⟩
  · calc scanLoop 0 none (file ++ '|' :: (log ++ '|' :: (decimal offset ++ '|' :: decimal size)))
          ⟨fPath, logPath, 0, 0, 0, 0⟩
        = scanLoop file.length before₁ ('|' :: (log ++ '|' :: (decimal offset ++ '|' :: decimal size)))
            ⟨fBuf, logPath, 0, 0, 0, 0⟩ := by
          simpa only [List.length_nil, Nat.zero_add] using run₁
      _ = scanLoop (file.length + 1) (some '|') (log ++ '|' :: (decimal offset ++ '|' :: decimal size))
            ⟨fBuf.set file.length nul, logPath, file.length, 1, 0, 0⟩ := by
          rw [scan_bar, bar₁, Option.bind_some]
      _ = scanLoop (file.length + 1 + log.length) before₂ ('|' :: (decimal offset ++ '|' :: decimal size))
            ⟨fBuf.set file.length nul, buf, file.length, 1, 0, 0⟩ := run₂
      _ = scanLoop i₂ (some '|') (decimal offset ++ '|' :: decimal size) s₂ := by
          rw [scan_bar, bar₂, Option.bind_some]
      _ = scanLoop (i₂ + (decimal offset).length) before₃ ('|' :: decimal size) { s₂ with offset := offset } := run₃
      _ = scanLoop (i₂ + (decimal offset).length + 1) (some '|') (decimal size ++ []) s₃ := by
          rw [scan_bar, List.append_nil]
          rfl
      _ = some { s₃ with size := size } := run₄
  · exact behind log.length (by rw [List.length_nil, Nat.zero_add])

theorem log_string_iff {buf : List Char} (clear : nul ∉ log) (front : log <+: buf) (i : Nat)
    (inside : log.length + 1 + i < buf.length) :
    cstring (buf.set (log.length + 1 + i) nul) = some log ↔ buf[log.length]? = some nul := by
  have written : put buf (log.length + 1 + i) nul = some (buf.set (log.length + 1 + i) nul) := put_inside inside nul
  obtain ⟨rest, rfl⟩ := front
  have place : (log ++ rest)[log.length]? = rest[0]? := by
    rw [List.getElem?_append_right (le_refl _), Nat.sub_self]
  rw [place]
  constructor
  · intro string
    obtain ⟨behind, split⟩ := (front_of_cstring string).1
    have at_end : ((log ++ rest).set (log.length + 1 + i) nul)[log.length]? = some nul := by
      rw [← split]
      simp
    rwa [List.getElem?_set_ne (by omega), place] at at_end
  · intro terminated
    cases rest with
    | nil => cases terminated
    | cons c rest =>
        cases terminated
        refine cstring_front clear (put_behind ⟨rest, ?_⟩ ?_ written)
        · simp
        · rw [List.length_append, List.length_singleton]
          omega

theorem address_payload (offset size : Nat) (noBarFile : '|' ∉ file) (noBarLog : '|' ∉ log) (clear : nul ∉ file ++ log)
    (fits : (payload file log offset size).length < pathMax) (fLength : fPath.length = pathMax)
    (logLength : logPath.length = pathMax) : ∃ string,
      address (payload file log offset size) fPath logPath = string.map (fun log => ⟨file, log, offset, size⟩) ∧
      (string = some log ↔ logPath[log.length]? = some nul) := by
  obtain ⟨t, run, copied, offset_eq, size_eq, buf, front, length, same, logged⟩ :=
    scan_payload noBarFile noBarLog fits fLength logLength
  rw [List.mem_append, not_or] at clear
  have inside : log.length + 1 + file.length < buf.length := by
    rw [payload] at fits
    simp only [List.length_append, List.length_cons] at fits
    omega
  have place : file.length + 1 + log.length = log.length + 1 + file.length := by omega
  have string := log_string_iff clear.2 front file.length inside
  rw [← place, ← logged, same] at string
  refine ⟨cstring t.logPath, ?_, string⟩
  unfold address
  simp only [run, cstring_front clear.1 copied, Option.bind_eq_bind, Option.bind_some, offset_eq, size_eq]
  cases cstring t.logPath <;> rfl

/-- The loop finds the file, the offset and the size, and the log exactly if its buffer held a NUL behind the
place of the path before. -/
theorem address_iff (noBarFile : '|' ∉ file) (noBarLog : '|' ∉ log) (clear : nul ∉ file ++ log)
    (fits : (payload file log offset size).length < pathMax) (fLength : fPath.length = pathMax)
    (logLength : logPath.length = pathMax) :
    address (payload file log offset size) fPath logPath = some ⟨file, log, offset, size⟩ ↔
      logPath[log.length]? = some nul := by
  obtain ⟨string, read, right⟩ := address_payload offset size noBarFile noBarLog clear fits fLength logLength
  rw [read, ← right]
  cases string with
  | none => simp
  | some other => simp

end

section
variable {path : CString} {fPath logPath : List Char} {a : Address}

theorem scanStep_later {i : Nat} {before : Option Char} {c : Char} {cs : CString} {s t : Scan} (later : s.flag ≠ 0)
    (h : scanStep i before c cs s = some t) : t.fPath = s.fPath ∧ t.flag ≠ 0 := by
  unfold scanStep at h
  by_cases bar : c = '|'
  · rw [if_pos bar, separate, if_neg later] at h
    by_cases one : s.flag = 1
    · rw [if_pos one] at h
      obtain ⟨buf, -, rfl⟩ := Option.map_eq_some_iff.mp h
      exact ⟨rfl, Nat.succ_ne_zero _⟩
    · rw [if_neg one] at h
      cases h
      exact ⟨rfl, Nat.succ_ne_zero _⟩
  · rw [if_neg bar, if_neg later] at h
    by_cases one : s.flag = 1
    · rw [if_pos one] at h
      obtain ⟨buf, -, rfl⟩ := Option.map_eq_some_iff.mp h
      exact ⟨rfl, later⟩
    · rw [if_neg one] at h
      split_ifs at h
      all_goals
        cases h
        exact ⟨rfl, later⟩

theorem scanLoop_later {i : Nat} {before : Option Char} {cs : CString} {s t : Scan} (later : s.flag ≠ 0)
    (h : scanLoop i before cs s = some t) : t.fPath = s.fPath := by
  induction cs generalizing i before s with
  | nil =>
      cases h
      rfl
  | cons c cs ih =>
      obtain ⟨u, stepped, rest⟩ := Option.bind_eq_some_iff.mp h
      obtain ⟨same, still⟩ := scanStep_later later stepped
      exact (ih still rest).trans same

theorem address_file (short : path.length < pathMax) (clear : nul ∉ path) (bar : '|' ∈ path)
    (fLength : fPath.length = pathMax) (h : address path fPath logPath = some a) :
    a.file = path.takeWhile (· ≠ '|') := by
  obtain ⟨front, rest, rfl, first⟩ := List.eq_append_cons_of_mem bar
  have cut : (front ++ '|' :: rest).takeWhile (· ≠ '|') = front := takeWhile_sep first rest
  rw [List.length_append, List.length_cons] at short
  rw [List.mem_append, not_or] at clear
  obtain ⟨buf, before, run, copied, kept⟩ := scan_file [] ('|' :: rest) none
    (s := ⟨fPath, logPath, 0, 0, 0, 0⟩) first rfl List.nil_prefix
    (by show 0 + front.length ≤ fPath.length; omega)
  have room : front.length < buf.length := by rw [kept, fLength]; omega
  have written := put_inside room nul
  have separated : separate front.length ⟨buf, logPath, 0, 0, 0, 0⟩ =
      some ⟨buf.set front.length nul, logPath, front.length, 1, 0, 0⟩ := by
    rw [separate, if_pos rfl, written]
    rfl
  simp only [List.length_nil, Nat.zero_add] at run
  unfold address at h
  obtain ⟨t, scanned, h⟩ := Option.bind_eq_some_iff.mp h
  obtain ⟨file, read, h⟩ := Option.bind_eq_some_iff.mp h
  obtain ⟨log, -, h⟩ := Option.bind_eq_some_iff.mp h
  cases h
  rw [run, scan_bar, separated, Option.bind_some] at scanned
  rw [scanLoop_later Nat.one_ne_zero scanned, cstring_front clear.1 (put_next copied written)] at read
  rw [cut]
  exact (Option.some.inj read).symm

theorem address_size (short : path.length < pathMax) (bar : '|' ∉ path) (fLength : fPath.length = pathMax)
    (h : address path fPath logPath = some a) : a.size = 0 := by
  obtain ⟨buf, before, run, -, -⟩ := scan_file [] [] none
    (s := ⟨fPath, logPath, 0, 0, 0, 0⟩) bar rfl List.nil_prefix
    (by show 0 + path.length ≤ fPath.length; omega)
  rw [List.append_nil] at run
  unfold address at h
  obtain ⟨t, scanned, h⟩ := Option.bind_eq_some_iff.mp h
  obtain ⟨file, -, h⟩ := Option.bind_eq_some_iff.mp h
  obtain ⟨log, -, h⟩ := Option.bind_eq_some_iff.mp h
  cases h
  have same := run.symm.trans scanned
  cases same
  rfl

end

theorem address_iff_reused :
    address (payload ['/', 'f'] ['/', 'l'] 512 4) (List.replicate pathMax 'x')
      (['/', 'k', nul] ++ List.replicate (pathMax - 3) 'x') = some ⟨['/', 'f'], ['/', 'l'], 512, 4⟩ :=
  (address_iff (by decide) (by decide) (by decide) (by decide) (List.length_replicate ..)
    (by simp [pathMax])).mpr rfl

set_option maxRecDepth 8192 in
theorem log_path_unterminated :
    address (payload ['/', 'f'] ['/', 'l'] 512 4) (List.replicate pathMax 'x') (List.replicate pathMax 'x') =
        some ⟨['/', 'f'], ['/', 'l', 'x', 'x', 'x'], 512, 4⟩ ∧
      address (payload ['/', 'f'] ['/', 'l'] 512 4) (List.replicate pathMax 'x') (List.replicate pathMax 'x') ≠
        some ⟨['/', 'f'], ['/', 'l'], 512, 4⟩ := by
  constructor <;> decide

end Pacon.FsyncLog
