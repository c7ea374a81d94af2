import Pacon.Lib.Separator
import Pacon.Message.Format

/-!
# Reading the messages back

`commit_to_fs` ends the path at the first ':'; `commit_to_fs_barrier` first cuts off what stands in
front of the first '/', the barrier id where the call has printed one.
-/

namespace Pacon.Message
open Lib Barrier

/-- `zmq_recv` into `mesg[PATH_MAX]` and the terminator at `mesg[ms_size]`. -/
def received (mesg : CString) : Option CString :=
  if mesg.length < pathMax then some mesg else none

/-- `mesg[k]`; behind the terminator stands what earlier messages have left. -/
def charAt (mesg : CString) (k : Nat) : Option Char := (mesg ++ ['\x00'])[k]?

/-- The path of `commit_to_fs` and the character its switch looks at. -/
def commitToFs (mesg : CString) : CString × Option Char :=
  let path := mesg.takeWhile (· ≠ ':')
  (path, charAt mesg (path.length + 1))

structure BarrierRequest where
  barrierId : Option Int
  path : CString
  opt : Option Char
  deriving DecidableEq

/-- `commit_to_fs_barrier` up to its switch. Without a '/' its first loop leaves the message; with
nothing in front of it `barrier_id` is never assigned. -/
def commitToFsBarrier (mesg : CString) : Option BarrierRequest :=
  if '/' ∈ mesg then
    let bId := mesg.takeWhile (· ≠ '/')
    let rest := mesg.drop bId.length
    let path := rest.takeWhile (· ≠ ':')
    some {
      barrierId := if bId.length ≠ 0 then some (atoi bId - 1) else none
      path
      opt := charAt mesg (bId.length + path.length + 1) }
  else none

theorem charAt_code (front : CString) (opt : OptType) (rest : CString) :
    charAt (front ++ opt.text ++ rest) (front.length + 1) = some opt.code := by
  simp [charAt, OptType.text]

theorem sent_addToMq {path : CString} {opt : OptType} {timestamp : BitVec 32} {mesg : CString}
    (sent : (addToMq path opt timestamp).sent = some mesg) :
    mesg = path ++ opt.text ++ timestampText timestamp := by
  unfold addToMq at sent
  split at sent
  · cases sent
  · exact (Option.some.inj sent).symm

theorem sent_addToLocalRpc {path : CString} {opt : OptType} {timestamp : BitVec 32} {mesg : CString}
    (sent : (addToLocalRpc path opt timestamp).sent = some mesg) :
    mesg = path ++ opt.text ++ timestampText timestamp := by
  unfold addToLocalRpc at sent
  split at sent
  · cases sent
  · exact (Option.some.inj sent).symm

/-- A message that fits is read back as it was built exactly if the path has no ':'. -/
theorem commit_round_trip {path : CString} {opt : OptType} {timestamp : BitVec 32} {mesg : CString}
    (sent : (addToMq path opt timestamp).sent = some mesg) (fits : mesg.length < pathMax) :
    (received mesg).map commitToFs = some (path, some opt.code) ↔ ':' ∉ path := by
  have built := sent_addToMq sent
  rw [received, if_pos fits, Option.map_some, Option.some_inj, commitToFs]
  constructor
  · intro same colon
    have cut : mesg.takeWhile (· ≠ ':') = path := congrArg Prod.fst same
    rw [← cut] at colon
    exact notMem_takeWhile ':' mesg colon
  · intro clear
    have cut : mesg.takeWhile (· ≠ ':') = path := by
      rw [built, OptType.text, List.append_assoc]
      exact takeWhile_sep clear _
    rw [cut, built, charAt_code]

theorem commit_round_trip_mkdir :
    ∃ mesg, (addToMq ['/', 'a'] .mkdir 1700000000).sent = some mesg ∧ mesg.length < pathMax ∧
      (received mesg).map commitToFs = some (['/', 'a'], some OptType.mkdir.code) := by
  have sent : (addToMq ['/', 'a'] .mkdir 1700000000).sent = some _ := rfl
  exact ⟨_, sent, by decide, (commit_round_trip sent (by decide)).mpr (by decide)⟩

theorem commit_misread :
    ∃ mesg, (addToMq ['/', 'a', ':', '2', 'b'] .mkdir 1700000000).sent = some mesg ∧
      (received mesg).map commitToFs = some (['/', 'a'], some OptType.create.code) := by
  refine ⟨_, rfl, ?_⟩
  decide

def Request.rpc : Request → Option (CString × OptType)
  | .rmdir path => some (path, .rmdir)
  | .opendir path => some (path, .readdir)
  | .rename path newpath => some (jointPath path newpath, .rename)
  | .flushDir path => some (path, .flushdir)
  | .checkpoint mountPath => some (mountPath, .checkpoint)
  | .mq .. | .barrier _ => none

def Request.Prefixed : Request → Prop
  | .rmdir _ | .opendir _ | .rename .. => True
  | _ => False

def Absolute (path : CString) : Prop := path.head? = some '/'

theorem rpc_message {request : Request} {path : CString} {opt : OptType} {id timestamp : BitVec 32}
    {mesg : CString} (rpc : request.rpc = some (path, opt))
    (sent : (request.format id timestamp).sent = some mesg) :
    request.Prefixed ∧ mesg = printInt id.toInt ++ path ++ opt.text ++ timestampText timestamp ∨
    ¬ request.Prefixed ∧ mesg = path ++ opt.text ++ timestampText timestamp := by
  cases request with
  | mq | barrier => cases rpc
  | rmdir | opendir =>
      cases rpc
      exact .inl ⟨trivial, sent_addToLocalRpc sent⟩
  | rename p q =>
      cases rpc
      refine .inl ⟨trivial, ?_⟩
      rw [Request.format, paconRename] at sent
      split at sent
      · cases sent
      · exact sent_addToLocalRpc sent
  | flushDir | checkpoint =>
      cases rpc
      exact .inr ⟨False.elim, sent_addToLocalRpc sent⟩

theorem commitToFsBarrier_eq {id path rest : CString} {opt : OptType} (noSlash : '/' ∉ id)
    (absolute : Absolute path) (clear : ':' ∉ path) :
    commitToFsBarrier (id ++ path ++ opt.text ++ rest) = some {
      barrierId := if id.length ≠ 0 then some (atoi id - 1) else none
      path
      opt := some opt.code } := by
  obtain ⟨tail, rfl⟩ : ∃ tail, path = '/' :: tail := List.head?_eq_some_iff.mp absolute
  have front : (id ++ '/' :: tail ++ opt.text ++ rest).takeWhile (· ≠ '/') = id := by
    rw [List.append_assoc, List.append_assoc, List.cons_append]
    exact takeWhile_sep noSlash _
  have behind : (id ++ '/' :: tail ++ opt.text ++ rest).drop id.length =
      '/' :: tail ++ ':' :: (opt.code :: rest) := by
    rw [List.append_assoc, List.append_assoc, List.drop_left]
    rfl
  have code := charAt_code (id ++ '/' :: tail) opt rest
  rw [List.length_append] at code
  unfold commitToFsBarrier
  rw [if_pos (by simp)]
  dsimp only
  rw [front, behind, takeWhile_sep clear, code]

theorem prefixedRpc_read {id timestamp : BitVec 32} {path mesg : CString} {opt : OptType}
    (absolute : Absolute path) (clear : ':' ∉ path) (sent : (prefixedRpc id path opt timestamp).sent = some mesg) :
    ∃ b, commitToFsBarrier mesg = some ⟨b, path, some opt.code⟩ := by
  rw [sent_addToLocalRpc sent]
  exact ⟨_, commitToFsBarrier_eq (noSlash_printInt id.toInt) absolute clear⟩

/-- A request is read back with the caller's barrier id exactly if the call prints it and there has
been a barrier, but not one too many. -/
theorem barrier_round_trip {request : Request} {path : CString} {opt : OptType}
    {calls : List (BitVec 32 × BitVec 32)} {timestamp : BitVec 32} {mesg : CString}
    (rpc : request.rpc = some (path, opt)) (absolute : Absolute path) (clear : ':' ∉ path)
    (sent : (request.format (barrierIdAfter calls) timestamp).sent = some mesg)
    (fits : mesg.length < pathMax) :
    (∃ index : Nat, index < barrierIdMax ∧ (index : Int) = (barrierIdAfter calls).toInt - 1 ∧
      (received mesg).bind commitToFsBarrier = some ⟨some index, path, some opt.code⟩) ↔
    request.Prefixed ∧ 1 ≤ (barrierIdAfter calls).toInt ∧
      (barrierIdAfter calls).toInt ≤ barrierIdMax := by
  rw [received, if_pos fits, Option.bind_some]
  generalize barrierIdAfter calls = id at sent ⊢
  rcases rpc_message rpc sent with ⟨with_id, rfl⟩ | ⟨without, rfl⟩
  · constructor
    · rintro ⟨index, inside, value, -⟩
      exact ⟨with_id, by omega, by omega⟩
    · rintro ⟨-, low, high⟩
      obtain ⟨index, value⟩ : ∃ index : Nat, id.toInt = (index + 1 : Nat) :=
        ⟨(id.toInt - 1).toNat, by omega⟩
      have text : printInt id.toInt = decimal (index + 1) := by rw [value]; rfl
      have noSlash : '/' ∉ decimal (index + 1) := noSlash_decimal (index + 1)
      refine ⟨index, by omega, by omega, ?_⟩
      rw [text, commitToFsBarrier_eq noSlash absolute clear, atoi_decimal,
        if_pos (by simpa using decimal_ne_nil (index + 1))]
      congr 3
      omega
  · constructor
    · rintro ⟨index, -, -, parsed⟩
      have read : commitToFsBarrier ([] ++ path ++ opt.text ++ timestampText timestamp) =
          some ⟨none, path, some opt.code⟩ := commitToFsBarrier_eq (by simp) absolute clear
      rw [List.nil_append] at read
      rw [read] at parsed
      cases parsed
    · rintro ⟨with_id, -⟩
      exact absurd with_id without

theorem barrier_round_trip_rmdir :
    ∃ mesg, ((Request.rmdir ['/', 'w']).format (barrierIdAfter [(0, 0)]) 1700000000).sent = some mesg ∧
      ∃ index : Nat, index < barrierIdMax ∧ (index : Int) = (barrierIdAfter [(0, 0)]).toInt - 1 ∧
        (received mesg).bind commitToFsBarrier =
          some ⟨some index, ['/', 'w'], some OptType.rmdir.code⟩ := by
  have sent : ((Request.rmdir ['/', 'w']).format (barrierIdAfter [(0, 0)]) 1700000000).sent = some _ :=
    rfl
  have rpc : (Request.rmdir ['/', 'w']).rpc = some (['/', 'w'], .rmdir) := rfl
  have absolute : Absolute ['/', 'w'] := rfl
  exact ⟨_, sent, (barrier_round_trip rpc absolute (by decide) sent (by decide)).mpr
    ⟨trivial, by decide, by decide⟩⟩

theorem request_misread :
    (∃ mesg, ((Request.rmdir ['/', 'w']).format (barrierIdAfter []) 1700000000).sent = some mesg ∧
      (received mesg).bind commitToFsBarrier =
        some ⟨some (-1), ['/', 'w'], some OptType.rmdir.code⟩) ∧
    ∃ mesg, ((Request.flushDir ['/', 'w']).format (barrierIdAfter [(0, 0)]) 1700000000).sent = some mesg ∧
      (received mesg).bind commitToFsBarrier =
        some ⟨none, ['/', 'w'], some OptType.flushdir.code⟩ := by
  exact ⟨⟨_, rfl, by decide⟩, ⟨_, rfl, by decide⟩⟩

end Pacon.Message
