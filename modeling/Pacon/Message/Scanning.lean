import Pacon.Lib.Buffer
import Pacon.Message.Parse

/-!
# The loops over a received message

Each of the server's parsers looks for its separators in a loop of its own, most of which copy what
they pass to a buffer, and then looks at what stands behind. What is read behind the terminator of the
message is not of the message.
-/

namespace Pacon.Message
open Lib

/-- The parsers, by the ports that they listen to. -/
inductive Parser
  | commitToFs | commitToFsBarrier | listenLocalRpcAsync | handleClusterMesg
  deriving DecidableEq

structure Locals where
  path : List Char
  bId : List Char
  pathLength : path.length = pathMax
  bIdLength : bId.length = pathMax

structure Scanned where
  path : List Char
  opt : Char
  barrierId : Option Int
  timestamp : Option Int
  argument : Option CString

def stringFrom (mesg : CString) (k : Nat) : Option CString :=
  if k ≤ mesg.length then some (mesg.drop k) else none

def scanPath : Nat → Nat → CString → List Char → Option (Nat × List Char)
  | i, j, [], path => (put path j nul).map fun buf => (i, buf)
  | i, j, c :: cs, path =>
      if c ≠ ':' then (put path j c).bind (scanPath (i + 1) (j + 1) cs)
      else (put path j nul).map fun buf => (i, buf)

/-- `for (i = 0; mesg[i] != '/'; ++i) b_id[i] = mesg[i];` goes on behind the terminator. -/
def scanId : Nat → CString → List Char → Option (Nat × CString × List Char)
  | _, [], _ => none
  | i, c :: cs, bId => if c ≠ '/' then (put bId i c).bind (scanId (i + 1) cs) else some (i, c :: cs, bId)

def skipPath : Nat → CString → Option Nat
  | _, [] => none
  | i, c :: cs => if c ≠ ':' then skipPath (i + 1) cs else some i

def endId (i : Nat) (bId : List Char) : Option (List Char) := if i ≠ 0 then put bId i nul else some bId

def scanCommitToFs (b : Locals) (mesg : CString) : Option Scanned := do
  let (i, path) ← scanPath 0 0 mesg b.path
  let opt ← charAt mesg (i + 1)
  some ⟨path, opt, none, none, none⟩

def scanCommitToFsBarrier (b : Locals) (mesg : CString) : Option Scanned := do
  let (i, rest, bId) ← scanId 0 mesg b.bId
  let bId ← endId i bId
  let (i', path) ← scanPath i 0 rest b.path
  let timestamp ← stringFrom mesg (i' + 2)
  let opt ← charAt mesg (i' + 1)
  some ⟨path, opt, if i ≠ 0 then (cstring bId).map fun s => atoi s - 1 else none, some (atoi timestamp), none⟩

def scanListenLocalRpcAsync (b : Locals) (mesg : CString) : Option Scanned := do
  let i ← skipPath 0 mesg
  let opt ← charAt mesg (i + 1)
  some ⟨b.path, opt, none, none, none⟩

def takesArgument (opt : Char) : Bool := opt = '1' || opt = '2' || opt = '6' || opt = '8'

def scanHandleClusterMesg (b : Locals) (mesg : CString) : Option Scanned := do
  let (i, path) ← scanPath 0 0 mesg b.path
  let opt ← charAt mesg (i + 1)
  let argument ← if takesArgument opt then (stringFrom mesg 2).map some else some none
  some ⟨path, opt, none, none, argument⟩

/-- `none` where a parser reads behind the terminator or writes outside of a buffer; the message that it
scans ends with the first NUL that is delivered. -/
def scanDelivered (p : Parser) (b : Locals) (delivered : List Char) : Option Scanned :=
  let mesg := delivered.takeWhile (· ≠ nul)
  match p with
  | .commitToFs => scanCommitToFs b mesg
  | .commitToFsBarrier => scanCommitToFsBarrier b mesg
  | .listenLocalRpcAsync => scanListenLocalRpcAsync b mesg
  | .handleClusterMesg => scanHandleClusterMesg b mesg

/-- There is a `:`, for `commit_to_fs_barrier` behind the first `/` and with another character behind it. -/
def WellFormed (p : Parser) (delivered : List Char) : Prop :=
  let mesg := delivered.takeWhile (· ≠ nul)
  match p with
  | .commitToFsBarrier => 2 ≤ ((mesg.dropWhile (· ≠ '/')).dropWhile (· ≠ ':')).length
  | _ => ':' ∈ mesg

instance (p : Parser) (delivered : List Char) : Decidable (WellFormed p delivered) :=
  match p with
  | .commitToFs | .listenLocalRpcAsync | .handleClusterMesg => inferInstanceAs (Decidable (':' ∈ _))
  | .commitToFsBarrier => inferInstanceAs (Decidable (2 ≤ _))

section
variable {mesg rest front : CString} {path bId : List Char} {i : Nat} {b : Locals}

theorem scanPath_eq (front : CString) (i : Nat) (copied : front <+: path)
    (room : front.length + rest.length < path.length) : ∃ buf,
    scanPath i front.length rest path = some (i + (rest.takeWhile (· ≠ ':')).length, buf) ∧
      front ++ rest.takeWhile (· ≠ ':') ++ [nul] <+: buf := by
  induction rest generalizing i front path with
  | nil =>
      have inside : front.length < path.length := room
      refine ⟨path.set front.length nul, ?_, ?_⟩
      · rw [scanPath, put_inside inside]
        rfl
      · rw [List.takeWhile_nil, List.append_nil]
        exact put_next copied (put_inside inside nul)
  | cons c cs ih =>
      rw [List.length_cons] at room
      have inside : front.length < path.length := by omega
      by_cases sep : c = ':'
      · subst sep
        refine ⟨path.set front.length nul, ?_, ?_⟩
        · rw [scanPath, if_neg (by simp), put_inside inside]
          rfl
        · rw [List.takeWhile_cons_of_neg (by simp), List.append_nil]
          exact put_next copied (put_inside inside nul)
      · have length : (front ++ [c]).length = front.length + 1 := by simp
        obtain ⟨buf, run, done⟩ := ih (front ++ [c]) (i + 1)
          (put_next copied (put_inside inside c)) (by rw [length, List.length_set]; omega)
        rw [length] at run
        have cut : (c :: cs).takeWhile (· ≠ ':') = c :: cs.takeWhile (· ≠ ':') :=
          List.takeWhile_cons_of_pos (by simpa using sep)
        refine ⟨buf, ?_, ?_⟩
        · rw [scanPath, if_pos sep, put_inside inside, Option.bind_some, run, cut, List.length_cons,
            Nat.add_right_comm, Nat.add_assoc]
        · rw [cut]
          simpa using done

theorem scanId_eq (front : CString) (slash : '/' ∈ rest) (copied : front <+: bId)
    (room : front.length + rest.length < bId.length) :
    ∃ buf, scanId front.length rest bId =
        some (front.length + (rest.takeWhile (· ≠ '/')).length, rest.dropWhile (· ≠ '/'), buf) ∧
      front ++ rest.takeWhile (· ≠ '/') <+: buf ∧ buf.length = bId.length := by
  induction rest generalizing front bId with
  | nil => cases slash
  | cons c cs ih =>
      rw [List.length_cons] at room
      have inside : front.length < bId.length := by omega
      by_cases sep : c = '/'
      · subst sep
        refine ⟨bId, ?_, ?_, rfl⟩
        · rw [scanId, if_neg (by simp), List.takeWhile_cons_of_neg (by simp), List.dropWhile_cons_of_neg (by simp)]
          rfl
        · rwa [List.takeWhile_cons_of_neg (by simp), List.append_nil]
      · have length : (front ++ [c]).length = front.length + 1 := by simp
        have later : '/' ∈ cs := (List.mem_cons.mp slash).resolve_left fun is => sep is.symm
        obtain ⟨buf, run, done, same⟩ := ih (front ++ [c]) later
          (put_next copied (put_inside inside c)) (by rw [length, List.length_set]; omega)
        rw [length] at run
        have cut : (c :: cs).takeWhile (· ≠ '/') = c :: cs.takeWhile (· ≠ '/') :=
          List.takeWhile_cons_of_pos (by simpa using sep)
        have behind : (c :: cs).dropWhile (· ≠ '/') = cs.dropWhile (· ≠ '/') :=
          List.dropWhile_cons_of_pos (by simpa using sep)
        refine ⟨buf, ?_, ?_, by rw [same, List.length_set]⟩
        · rw [scanId, if_pos sep, put_inside inside, Option.bind_some, run, cut, behind, List.length_cons,
            Nat.add_right_comm, Nat.add_assoc]
        · rw [cut]
          simpa using done

theorem scanId_none (noSlash : '/' ∉ rest) (i : Nat) (bId : List Char) : scanId i rest bId = none := by
  induction rest generalizing i bId with
  | nil => rfl
  | cons c cs ih =>
      rw [List.mem_cons, not_or] at noSlash
      rw [scanId, if_pos (Ne.symm noSlash.1)]
      cases put bId i c with
      | none => rfl
      | some buf => exact ih noSlash.2 (i + 1) buf

theorem skipPath_eq (rest : CString) (i : Nat) : skipPath i rest =
    if ':' ∈ rest then some (i + (rest.takeWhile (· ≠ ':')).length) else none := by
  induction rest generalizing i with
  | nil => rfl
  | cons c cs ih =>
      by_cases sep : c = ':'
      · subst sep
        rw [skipPath, if_neg (by simp), if_pos List.mem_cons_self, List.takeWhile_cons_of_neg (by simp)]
        rfl
      · have member : ':' ∈ c :: cs ↔ ':' ∈ cs := by simp [Ne.symm sep]
        rw [skipPath, if_pos sep, ih, List.takeWhile_cons_of_pos (by simpa using sep), List.length_cons]
        simp only [member]
        congr 2
        omega

theorem charAt_isSome (mesg : CString) (k : Nat) : (charAt mesg k).isSome = true ↔ k ≤ mesg.length := by
  rw [charAt, isSome_getElem?, List.length_append, List.length_singleton]
  exact Nat.lt_succ_iff

theorem scanPath_start (short : mesg.length < pathMax) (b : Locals) (i : Nat) (suffix : rest <:+ mesg) : ∃ buf,
    scanPath i 0 rest b.path = some (i + (rest.takeWhile (· ≠ ':')).length, buf) ∧
      rest.takeWhile (· ≠ ':') ++ [nul] <+: buf := by
  have room : 0 + rest.length < b.path.length := by
    rw [b.pathLength, Nat.zero_add]
    exact suffix.length_le.trans_lt short
  exact scanPath_eq [] i List.nil_prefix room

theorem scanCommitToFs_eq (short : mesg.length < pathMax) (b : Locals) : ∃ buf,
    scanCommitToFs b mesg = (charAt mesg ((mesg.takeWhile (· ≠ ':')).length + 1)).map
        (fun opt => ⟨buf, opt, none, none, none⟩) ∧
      mesg.takeWhile (· ≠ ':') ++ [nul] <+: buf := by
  obtain ⟨buf, run, done⟩ := scanPath_start short b 0 List.suffix_rfl
  refine ⟨buf, ?_, done⟩
  unfold scanCommitToFs
  rw [run, Nat.zero_add]
  generalize (mesg.takeWhile (· ≠ ':')).length = i
  cases found : charAt mesg (i + 1) <;> simp [found]

theorem scanCommitToFs_isSome (short : mesg.length < pathMax) (b : Locals) :
    (scanCommitToFs b mesg).isSome = true ↔ ':' ∈ mesg := by
  obtain ⟨buf, run, -⟩ := scanCommitToFs_eq short b
  rw [run, Option.isSome_map, charAt_isSome]
  exact length_takeWhile_lt

theorem two_le_length {opt : Char} (found : charAt mesg (i + 1) = some opt) (code : opt ≠ nul) : 2 ≤ mesg.length := by
  have inside : i + 1 ≤ mesg.length := by
    rw [← charAt_isSome, found]
    rfl
  have before : i + 1 ≠ mesg.length := by
    intro last
    rw [charAt, last] at found
    simp at found
    exact code found.symm
  omega

theorem scanHandleClusterMesg_isSome (short : mesg.length < pathMax) (b : Locals) :
    (scanHandleClusterMesg b mesg).isSome = true ↔ ':' ∈ mesg := by
  obtain ⟨buf, run, -⟩ := scanPath_start short b 0 List.suffix_rfl
  rw [← length_takeWhile_lt, ← Nat.succ_le_iff, ← charAt_isSome]
  unfold scanHandleClusterMesg
  rw [run, Nat.zero_add]
  generalize (mesg.takeWhile (· ≠ ':')).length = i
  cases found : charAt mesg (i + 1) with
  | none => simp [found]
  | some opt =>
      by_cases takes : takesArgument opt = true
      · have code : opt ≠ nul := by
          rintro rfl
          cases takes
        have argument : stringFrom mesg 2 = some (mesg.drop 2) := if_pos (two_le_length found code)
        simp [found, takes, argument]
      · simp [found, takes]

theorem scanListenLocalRpcAsync_isSome (b : Locals) :
    (scanListenLocalRpcAsync b mesg).isSome = true ↔ ':' ∈ mesg := by
  unfold scanListenLocalRpcAsync
  rw [skipPath_eq, Nat.zero_add]
  by_cases colon : ':' ∈ mesg
  · have inside := (charAt_isSome mesg _).mpr (Nat.succ_le_of_lt (length_takeWhile_lt.mpr colon))
    rw [if_pos colon]
    generalize (mesg.takeWhile (· ≠ ':')).length = i at inside
    obtain ⟨opt, found⟩ := Option.isSome_iff_exists.mp inside
    simp [found, colon]
  · simp [colon]

theorem endId_inside (inside : i < bId.length) : ∃ buf, endId i bId = some buf := by
  unfold endId
  split
  · exact ⟨_, put_inside inside nul⟩
  · exact ⟨_, rfl⟩

theorem scanCommitToFsBarrier_isSome (short : mesg.length < pathMax) (b : Locals) :
    (scanCommitToFsBarrier b mesg).isSome = true ↔
      2 ≤ ((mesg.dropWhile (· ≠ '/')).dropWhile (· ≠ ':')).length := by
  by_cases slash : '/' ∈ mesg
  · obtain ⟨idBuf, runId, -, idLength⟩ := scanId_eq [] slash List.nil_prefix
      (by rw [b.bIdLength, List.length_nil, Nat.zero_add]; exact short)
    rw [List.length_nil, Nat.zero_add] at runId
    obtain ⟨buf, run, -⟩ := scanPath_start short b (mesg.takeWhile (· ≠ '/')).length (List.dropWhile_suffix (· ≠ '/'))
    have front := congrArg List.length (List.takeWhile_append_dropWhile (p := fun c => decide (c ≠ '/')) (l := mesg))
    have behind := congrArg List.length
      (List.takeWhile_append_dropWhile (p := fun c => decide (c ≠ ':')) (l := mesg.dropWhile (· ≠ '/')))
    rw [List.length_append] at front behind
    have idRoom : (mesg.takeWhile (· ≠ '/')).length < idBuf.length := by
      rw [idLength, b.bIdLength]
      omega
    obtain ⟨terminated, ended⟩ := endId_inside idRoom
    unfold scanCommitToFsBarrier
    rw [runId]
    simp only [Option.bind_eq_bind, Option.bind_some]
    rw [ended, Option.bind_some, run, Option.bind_some]
    generalize (mesg.takeWhile (· ≠ '/')).length = i at front ⊢
    generalize ((mesg.dropWhile (· ≠ '/')).takeWhile (· ≠ ':')).length = j at behind ⊢
    by_cases inside : i + j + 2 ≤ mesg.length
    · have code := (charAt_isSome mesg (i + j + 1)).mpr (by omega)
      obtain ⟨opt, found⟩ := Option.isSome_iff_exists.mp code
      have timestamp : stringFrom mesg (i + j + 2) = some (mesg.drop (i + j + 2)) := if_pos inside
      rw [timestamp, Option.bind_some, found, Option.bind_some]
      exact iff_of_true rfl (by omega)
    · have timestamp : stringFrom mesg (i + j + 2) = none := if_neg inside
      rw [timestamp, Option.bind_none]
      exact iff_of_false Bool.false_ne_true (by omega)
  · have none : mesg.dropWhile (· ≠ '/') = [] := by
      rw [List.dropWhile_eq_nil_iff]
      intro c member
      simpa using ne_of_mem_of_not_mem member slash
    unfold scanCommitToFsBarrier
    rw [scanId_none slash, none]
    simp

theorem cstring_scanCommitToFs {scanned : Scanned} (short : mesg.length < pathMax) (clean : nul ∉ mesg)
    (run : scanCommitToFs b mesg = some scanned) :
    cstring scanned.path = some (commitToFs mesg).1 ∧ some scanned.opt = (commitToFs mesg).2 := by
  obtain ⟨buf, eq, done⟩ := scanCommitToFs_eq short b
  rw [eq, Option.map_eq_some_iff] at run
  obtain ⟨opt, found, rfl⟩ := run
  have cleanPath : nul ∉ mesg.takeWhile (· ≠ ':') := fun member =>
    clean ((List.takeWhile_prefix _).subset member)
  exact ⟨cstring_front cleanPath done, found.symm⟩

/-- What is delivered is scanned inside of the message and of the buffers exactly if it has its separators. -/
theorem scanned_inside_iff (p : Parser) (b : Locals) (delivered : List Char) (short : delivered.length < pathMax) :
    (scanDelivered p b delivered).isSome = true ↔ WellFormed p delivered := by
  have inside : (delivered.takeWhile (· ≠ nul)).length < pathMax :=
    (List.takeWhile_prefix _).length_le.trans_lt short
  cases p with
  | commitToFs => exact scanCommitToFs_isSome inside b
  | commitToFsBarrier => exact scanCommitToFsBarrier_isSome inside b
  | listenLocalRpcAsync => exact scanListenLocalRpcAsync_isSome b
  | handleClusterMesg => exact scanHandleClusterMesg_isSome inside b

def freshLocals : Locals where
  path := List.replicate pathMax nul
  bId := List.replicate pathMax nul
  pathLength := List.length_replicate
  bIdLength := List.length_replicate

theorem scanned_inside_iff_rmdir :
    (scanDelivered .commitToFsBarrier freshLocals ['1', '/', 'a', ':', '4', '9']).isSome = true := by
  apply (scanned_inside_iff .commitToFsBarrier freshLocals ['1', '/', 'a', ':', '4', '9'] (by decide)).mpr
  decide

theorem scanned_outside :
    (∀ p, scanDelivered p freshLocals ['/', 'a'] = none) ∧
      scanDelivered .commitToFsBarrier freshLocals ['1', '/', 'a', ':'] = none := by
  have short : ∀ mesg : CString, mesg.length ≤ 4 → mesg.length < pathMax := fun mesg le => le.trans_lt (by decide)
  have scanned : ∀ {s : Option Scanned} {P : Prop}, (s.isSome = true ↔ P) → ¬ P → s = none :=
    fun found fails => Option.not_isSome_iff_eq_none.mp (mt found.mp fails)
  refine ⟨fun p => ?_, ?_⟩
  · cases p with
    | commitToFs => exact scanned (scanCommitToFs_isSome (short ['/', 'a'] (by decide)) freshLocals) (by decide)
    | commitToFsBarrier =>
        exact scanned (scanCommitToFsBarrier_isSome (short ['/', 'a'] (by decide)) freshLocals) (by decide)
    | listenLocalRpcAsync => exact scanned (scanListenLocalRpcAsync_isSome freshLocals) (by decide)
    | handleClusterMesg =>
        exact scanned (scanHandleClusterMesg_isSome (short ['/', 'a'] (by decide)) freshLocals) (by decide)
  · exact scanned (scanCommitToFsBarrier_isSome (short ['1', '/', 'a', ':'] (by decide)) freshLocals) (by decide)

end

end Pacon.Message
