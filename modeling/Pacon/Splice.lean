import Pacon.CasResults

/-!
# Overwriting inline data

`pacon_write` puts the new bytes into the old ones by three copies and two string copies, in buffers that hold
whatever memory held before, and sets the size to what it takes for the new end. When what it stores is the
old content with the new bytes in it.
-/

namespace Pacon.Splice
open Lib Commit InlineWrite CasResults

def strlen (src : List UInt8) : Nat := (src.takeWhile (· ≠ 0)).length

variable {buffer src old data : List UInt8} {i j m n offset room : Nat}

theorem strlen_le (src : List UInt8) : strlen src ≤ src.length := (List.takeWhile_prefix _).length_le

theorem nulFree_take_iff (long : m ≤ src.length) : 0 ∉ src.take m ↔ m ≤ strlen src := by
  induction src generalizing m with
  | nil => simp_all [strlen]
  | cons byte src ih =>
      cases m with
      | zero => simp
      | succ m =>
          have rest := ih (m := m) (by simpa using long)
          by_cases nul : byte = 0
          · simp [nul, strlen]
          · have longer : strlen (byte :: src) = strlen src + 1 := by simp [strlen, nul]
            simp [longer, rest, Ne.symm nul]

theorem getElem?_strlen (short : strlen src < src.length) : src[strlen src]? = some 0 := by
  have nul : 0 ∈ src.take (strlen src + 1) := by
    by_contra nulFree
    exact absurd ((nulFree_take_iff short).mp nulFree) (by omega)
  have before : 0 ∉ src.take (strlen src) := (nulFree_take_iff short.le).mpr le_rfl
  rw [List.take_add_one, List.mem_append] at nul
  exact (Option.mem_toList.mp (nul.resolve_left before))

theorem nulFree_dropLast_iff : 0 ∉ src.dropLast ↔ src.length ≤ strlen src + 1 := by
  rw [List.dropLast_eq_take, nulFree_take_iff (Nat.sub_le _ _)]
  omega

theorem strcpy_getElem? (buffer src : List UInt8) (i : Nat) : (strcpy buffer src)[i]? =
    if i < strlen src then src[i]? else if i = strlen src then some 0 else buffer[i]? := by
  obtain ⟨rest, split⟩ := List.takeWhile_prefix (l := src) (· ≠ (0 : UInt8))
  unfold strcpy
  dsimp only
  split_ifs with inside here
  · rw [List.getElem?_append_left inside]
    conv_rhs => rw [← split, List.getElem?_append_left inside]
  · rw [List.getElem?_append_right (Nat.le_of_eq here.symm), here]
    simp [strlen]
  · rw [List.getElem?_append_right (Nat.le_of_not_lt inside)]
    obtain ⟨k, rfl⟩ := Nat.exists_eq_add_of_lt (Nat.lt_of_le_of_ne (Nat.le_of_not_lt inside) (Ne.symm here))
    have rest : strlen src + k + 1 - (src.takeWhile (· ≠ 0)).length = k + 1 := by
      unfold strlen
      omega
    rw [rest, List.getElem?_cons_succ, List.getElem?_drop]
    congr 1
    unfold strlen
    omega

theorem strcpy_settled (inside : i < room) {x : Option UInt8}
    (settled : ∀ buffer : List UInt8, buffer.length = room → (strcpy buffer src)[i]? = x) : i ≤ strlen src := by
  by_contra behind
  have kept (byte : UInt8) : some byte = x := by
    rw [← settled (List.replicate room byte) List.length_replicate, strcpy_getElem?, if_neg (by omega), if_neg (by omega),
      List.getElem?_replicate_of_lt inside]
  cases (kept 0).trans (kept 1).symm

theorem take_strcpy_of_le (reached : m ≤ strlen src + 1) (long : m ≤ src.length) :
    (strcpy buffer src).take m = src.take m := by
  refine List.ext_getElem? fun i => ?_
  by_cases inside : i < m
  · rw [List.getElem?_take_of_lt inside, List.getElem?_take_of_lt inside, strcpy_getElem?]
    split_ifs with before here
    · rfl
    · rw [here, getElem?_strlen (by omega)]
    · omega
  · rw [List.getElem?_take_eq_none (Nat.le_of_not_lt inside), List.getElem?_take_eq_none (Nat.le_of_not_lt inside)]

theorem take_strcpy_iff (long : m ≤ src.length) (fits : m ≤ room) {out : List UInt8} :
    (∀ buffer : List UInt8, buffer.length = room → (strcpy buffer src).take m = out) ↔
      src.take m = out ∧ 0 ∉ out.dropLast := by
  have nulFree : 0 ∉ (src.take m).dropLast ↔ m ≤ strlen src + 1 := by
    rw [List.dropLast_eq_take, List.take_take, nulFree_take_iff (by omega), List.length_take]
    omega
  constructor
  · intro all
    have reached : m ≤ strlen src + 1 := by
      by_contra short
      have inside : m - 1 < room := by omega
      have last := strcpy_settled inside fun buffer is => by
        rw [← List.getElem?_take_of_lt (show m - 1 < m by omega), all buffer is]
      omega
    have same := all (List.replicate room 0) List.length_replicate
    rw [take_strcpy_of_le reached long] at same
    exact ⟨same, same ▸ nulFree.mpr reached⟩
  · rintro ⟨rfl, clear⟩ buffer -
    exact take_strcpy_of_le (nulFree.mp clear) long

structure InlineContent (v : Value) (w : Write) : Prop where
  inline : getStatFlag v.stat .inline = true
  fileCreated : getStatFlag v.stat .fileCreated = false
  size : v.stat.size.toNat = v.data.length
  fits : v.data.length < inlineMax - 1
  inside : w.offset ≤ v.data.length

structure NoData (v : Value) (w : Write) : Prop where
  inline : getStatFlag v.stat .inline = false
  fileCreated : getStatFlag v.stat .fileCreated = false
  empty : v.data = []
  first : w.offset = 0

structure Overwritten (v : Value) (w : Write) (new : Value) : Prop where
  content : new.data = overwrite v.data w.data w.offset
  size : new.stat.size.toNat = max v.data.length (w.offset + w.data.length)
  flags : ∀ i, i ≠ StatFlag.inline.bit → new.stat.flags.getLsbD i = v.stat.flags.getLsbD i

structure Buffers (flags : BitVec 32) (e : WriteEnv) : Prop where
  inlineData : e.env.inlineData.length = inlineMax
  newData : e.newData.length = inlineMax
  val : e.env.val.length = inlineMax
  flags : e.flags = flags

structure SpliceSuits (v : Value) (w : Write) : Prop where
  size : w.size ≤ w.offset ∧ w.offset + w.size ≤ v.data.length ∨ v.data.length = 2 * w.offset ∧ w.offset < w.size
  nulFree : 0 ∉ (overwrite v.data w.data w.offset).dropLast
  rest : w.offset + w.size < v.data.length → 0 ∉ v.data.dropLast

variable {v : Value} {w : Write} {e : WriteEnv} {flags : BitVec 32}

theorem length_data (w : Write) : w.data.length = w.size := by
  simp [Write.data, w.readable]

theorem spliceSize_eq (content : InlineContent v w) (short : w.offset + w.size < inlineMax - 1) :
    spliceSize v w = max v.data.length (v.data.length - w.offset + w.size) := by
  have fits := content.fits
  have inside := content.inside
  have small : inlineMax = 4052 := rfl
  unfold spliceSize
  dsimp only
  rw [content.size]
  have whole : (if (v.data.length : Int) - w.offset + w.size < 0 ∨
      (v.data.length : Int) < v.data.length - w.offset + w.size
      then (v.data.length : Int) - w.offset + w.size else v.data.length) =
        max v.data.length (v.data.length - w.offset + w.size) := by
    split <;> omega
  rw [whole, BitVec.toInt_ofInt, Int.bmod_def]
  split <;> omega

theorem length_strcpy (room : strlen src < buffer.length) : (strcpy buffer src).length = buffer.length := by
  unfold strcpy
  unfold strlen at room
  simp only [List.length_append, List.length_cons, List.length_drop]
  omega

theorem overwrite_front (front rest buf : List UInt8) :
    overwrite (front ++ rest) buf front.length = front ++ buf ++ rest.drop buf.length := by
  rw [overwrite, List.take_left, List.drop_length_add_append]

theorem length_newData (inside : offset ≤ src.length) (reaches : m ≤ src.length) :
    (newData src data offset m).length = max (offset + data.length) m := by
  unfold newData
  split
  · simp only [List.length_append, List.length_take, List.length_drop]
    omega
  · simp only [List.length_append, List.length_take, List.length_nil]
    omega

theorem copies_eq {inlineData : List UInt8} (buffer : List UInt8) (inside : offset ≤ inlineData.length)
    (data : List UInt8) (m : Nat) (reaches : m ≤ inlineData.length) :
    (if offset + data.length < m then
      overwrite (overwrite (overwrite buffer (inlineData.take offset) 0) data offset)
        ((inlineData.drop (offset + data.length)).take (m - (offset + data.length))) (offset + data.length)
      else overwrite (overwrite buffer (inlineData.take offset) 0) data offset) =
    newData inlineData data offset m ++ buffer.drop (max (offset + data.length) m) := by
  have front : (inlineData.take offset).length = offset := List.length_take_of_le inside
  have first : overwrite buffer (inlineData.take offset) 0 = inlineData.take offset ++ buffer.drop offset := by
    rw [overwrite, List.take_zero, List.nil_append, Nat.zero_add, front]
  have second := overwrite_front (inlineData.take offset) (buffer.drop offset) data
  rw [front, List.drop_drop, ← first] at second
  unfold newData
  split
  · rename_i less
    have both : (inlineData.take offset ++ data).length = offset + data.length := by rw [List.length_append, front]
    have tail : ((inlineData.drop (offset + data.length)).take (m - (offset + data.length))).length =
        m - (offset + data.length) := by
      simp only [List.length_take, List.length_drop]
      omega
    have third := overwrite_front (inlineData.take offset ++ data) (buffer.drop (offset + data.length))
      ((inlineData.drop (offset + data.length)).take (m - (offset + data.length)))
    rw [both, tail, List.drop_drop, ← second] at third
    rw [third, Nat.max_eq_right less.le, Nat.add_sub_cancel' less.le]
  · rename_i behind
    rw [second, List.append_nil, Nat.max_eq_left (Nat.le_of_not_lt behind)]

def pasted (e : WriteEnv) (v : Value) (w : Write) : List UInt8 :=
  newData (strcpy e.env.inlineData v.data) w.data w.offset v.data.length

theorem length_inlineData (content : InlineContent v w) (buffers : Buffers flags e) :
    (strcpy e.env.inlineData v.data).length = inlineMax := by
  have fits := content.fits
  have short := strlen_le v.data
  rw [length_strcpy (by rw [buffers.inlineData]; omega), buffers.inlineData]

theorem length_pasted (content : InlineContent v w) (buffers : Buffers flags e) :
    (pasted e v w).length = max (w.offset + w.data.length) v.data.length := by
  have fits := content.fits
  have inside := content.inside
  have length := length_inlineData content buffers
  exact length_newData (by omega) (by omega)

theorem splicedValue_data (content : InlineContent v w) (buffers : Buffers flags e)
    (size : spliceSize v w = (m : Int)) (whole : max (w.offset + w.data.length) v.data.length = m) :
    (splicedValue e v w).data = (strcpy e.env.val ((pasted e v w ++ e.newData.drop m).set (m + 1) 0)).take m := by
  have fits := content.fits
  have inside := content.inside
  have length := length_inlineData content buffers
  have next : ((m : Int) + 1).toNat = m + 1 := by omega
  have copies := copies_eq e.newData (by omega : w.offset ≤ (strcpy e.env.inlineData v.data).length) w.data
    v.data.length (by omega)
  unfold splicedValue
  dsimp only
  rw [size, content.size, ← length_data w, copies, whole, next, Int.toNat_natCast]
  rfl

theorem take_pasted (content : InlineContent v w) (buffers : Buffers flags e)
    (whole : max (w.offset + w.data.length) v.data.length = m) :
    ((pasted e v w ++ e.newData.drop m).set (m + 1) 0).take m = pasted e v w := by
  rw [List.take_set_of_le (Nat.le_succ m), List.take_append_of_le_length, List.take_of_length_le]
  · rw [length_pasted content buffers, whole]
  · rw [length_pasted content buffers, whole]

theorem le_length_pasted (content : InlineContent v w) (buffers : Buffers flags e)
    (whole : max (w.offset + w.data.length) v.data.length = m) :
    m ≤ ((pasted e v w ++ e.newData.drop m).set (m + 1) 0).length := by
  rw [List.length_set, List.length_append, length_pasted content buffers, whole]
  exact Nat.le_add_right m _

theorem newData_getElem? (src data : List UInt8) (behind : offset + data.length ≤ i) (before : i < m)
    (inside : offset ≤ src.length) : (newData src data offset m)[i]? = src[i]? := by
  have front : (src.take offset ++ data).length = offset + data.length := by
    rw [List.length_append, List.length_take_of_le inside]
  unfold newData
  rw [if_pos (Nat.lt_of_le_of_lt behind before), List.getElem?_append_right (by omega), front,
    List.getElem?_take_of_lt (by omega), List.getElem?_drop, Nat.add_sub_cancel' behind]

theorem newData_strcpy_eq (inside : offset ≤ old.length) (front : offset ≤ strlen old + 1)
    (rest : offset + data.length < old.length → old.length ≤ strlen old + 1) :
    newData (strcpy buffer old) data offset old.length = overwrite old data offset := by
  unfold newData overwrite
  rw [take_strcpy_of_le front inside]
  split
  · rename_i less
    rw [← List.drop_take, take_strcpy_of_le (rest less) le_rfl, List.take_length]
  · rename_i behind
    rw [List.drop_eq_nil_of_le (Nat.le_of_not_lt behind)]

theorem front_of_nulFree (inside : offset ≤ old.length) (clear : 0 ∉ (overwrite old data offset).dropLast) :
    offset ≤ strlen old + 1 := by
  have long : (overwrite old data offset).length = max (offset + data.length) old.length := length_overwrite inside
  have same : (overwrite old data offset).dropLast.take (offset - 1) = old.take (offset - 1) := by
    rw [List.dropLast_eq_take, List.take_take, Nat.min_eq_left (by omega), overwrite, List.append_assoc,
      List.take_append_of_le_length (by rw [List.length_take_of_le inside]; omega), List.take_take,
      Nat.min_eq_left (Nat.sub_le _ _)]
  have before := (nulFree_take_iff (by omega)).mp fun nul => clear (List.mem_of_mem_take (same.symm ▸ nul))
  omega

def memory (flags : BitVec 32) (inlineData val : List UInt8) : WriteEnv :=
  ⟨{ Env.zero with inlineData := inlineData, val := val }, List.replicate inlineMax 0, flags, 0, true, 0, 0⟩

theorem memory_buffers (flags : BitVec 32) {inlineData val : List UInt8} (first : inlineData.length = inlineMax)
    (second : val.length = inlineMax) : Buffers flags (memory flags inlineData val) :=
  ⟨first, List.length_replicate, second, rfl⟩

theorem splicedValue_size (content : InlineContent v w) (short : w.offset + w.size < inlineMax - 1) (e : WriteEnv) :
    (splicedValue e v w).stat.size.toNat = max v.data.length (v.data.length - w.offset + w.size) := by
  have fits := content.fits
  have inside := content.inside
  have small : inlineMax = 4052 := rfl
  have taken : (splicedValue e v w).stat.size = .ofInt 32 (spliceSize v w) := rfl
  rw [taken, spliceSize_eq content short, BitVec.ofInt_natCast, BitVec.toNat_ofNat, Nat.mod_eq_of_lt (by omega)]

theorem pasted_of_right (content : InlineContent v w) (short : w.offset + w.size < inlineMax - 1)
    (ends : spliceSize v w = (m : Int)) (whole : max (w.offset + w.data.length) v.data.length = m)
    (right : ∀ e, Buffers flags e → Overwritten v w (splicedValue e v w)) {inlineData : List UInt8}
    (first : inlineData.length = inlineMax) :
    newData (strcpy inlineData v.data) w.data w.offset v.data.length = overwrite v.data w.data w.offset ∧
      0 ∉ (overwrite v.data w.data w.offset).dropLast := by
  have fits := content.fits
  have length := length_data w
  have buffers := memory_buffers flags first (List.length_replicate (n := inlineMax) (a := (0 : UInt8)))
  have room : m ≤ inlineMax := by omega
  have all := (take_strcpy_iff (le_length_pasted content buffers whole) room).mp fun val second => by
    have stored := (right _ (memory_buffers flags first second)).content
    rwa [splicedValue_data content (memory_buffers flags first second) ends whole] at stored
  rwa [take_pasted content buffers whole] at all

theorem rest_of_pasted (inside : offset ≤ old.length) (fits : old.length < room)
    (behind : offset + data.length < old.length)
    (pasted : ∀ buffer : List UInt8, buffer.length = room →
      newData (strcpy buffer old) data offset old.length = overwrite old data offset) : 0 ∉ old.dropLast := by
  have last : old.length - 1 < room := by omega
  have reached : old.length - 1 ≤ strlen old := strcpy_settled last fun buffer is => by
    have short := strlen_le old
    have long : (strcpy buffer old).length = room := by rw [length_strcpy (by omega), is]
    rw [← newData_getElem? (strcpy buffer old) data (by omega : offset + data.length ≤ old.length - 1)
      (by omega : old.length - 1 < old.length) (by omega), pasted buffer is]
  exact nulFree_dropLast_iff.mpr (by omega)

theorem spliced_right_iff (content : InlineContent v w) (short : w.offset + w.size < inlineMax - 1) :
    (∀ e, Buffers flags e → Overwritten v w (splicedValue e v w)) ↔ SpliceSuits v w := by
  have inside := content.inside
  have fits := content.fits
  have small : inlineMax = 4052 := rfl
  have length := length_data w
  obtain ⟨m, whole⟩ : ∃ m, max (w.offset + w.data.length) v.data.length = m := ⟨_, rfl⟩
  constructor
  · intro right
    have zeros : (List.replicate inlineMax (0 : UInt8)).length = inlineMax := List.length_replicate
    have size : max v.data.length (v.data.length - w.offset + w.size) = m := by
      have stored := (right _ (memory_buffers flags zeros zeros)).size
      rw [splicedValue_size content short] at stored
      omega
    have ends : spliceSize v w = (m : Int) := by rw [spliceSize_eq content short, size]
    refine ⟨by omega, (pasted_of_right content short ends whole right zeros).2, fun less => ?_⟩
    exact rest_of_pasted inside (by omega : v.data.length < inlineMax) (by omega) fun buffer is =>
      (pasted_of_right content short ends whole right is).1
  · intro suits e buffers
    have either := suits.size
    have size : max v.data.length (v.data.length - w.offset + w.size) = m := by omega
    have ends : spliceSize v w = (m : Int) := by rw [spliceSize_eq content short, size]
    have room : m ≤ inlineMax := by omega
    refine ⟨?_, ?_, fun _ _ => rfl⟩
    · have pasted : pasted e v w = overwrite v.data w.data w.offset :=
        newData_strcpy_eq inside (front_of_nulFree inside suits.nulFree) fun less =>
          nulFree_dropLast_iff.mp (suits.rest (by omega))
      rw [splicedValue_data content buffers ends whole]
      exact (take_strcpy_iff (le_length_pasted content buffers whole) room).mpr
        ⟨(take_pasted content buffers whole).trans pasted, suits.nulFree⟩ e.env.val buffers.val
    · rw [splicedValue_size content short]
      omega

theorem first_right_iff (empty : NoData v w) (short : w.offset + w.size < inlineMax - 1) :
    (∀ e, Buffers flags e → Overwritten v w (firstValue e v w)) ↔
      0 ∉ w.data.dropLast ∧ ∀ i, i ≠ StatFlag.inline.bit → flags.getLsbD i = v.stat.flags.getLsbD i := by
  have small : inlineMax = 4052 := rfl
  have content : overwrite v.data w.data w.offset = w.data := by simp [overwrite, empty.empty, empty.first]
  have stored (e : WriteEnv) : (firstValue e v w).data = (strcpy e.env.val w.buf).take w.size := rfl
  have kept (e : WriteEnv) (i : Nat) (other : i ≠ StatFlag.inline.bit) :
      (firstValue e v w).stat.flags.getLsbD i = e.flags.getLsbD i := by
    have bit : (firstValue e v w).stat.flags = e.flags ||| 1#32 <<< StatFlag.inline.bit := rfl
    have one : StatFlag.inline.bit = 1 := rfl
    rw [bit, one, BitVec.getLsbD_or, Bool.or_eq_left_iff_imp]
    intro set
    rw [one] at other
    simp only [BitVec.getLsbD_shiftLeft, BitVec.getLsbD_one, Bool.and_eq_true, decide_eq_true_eq,
      Bool.not_eq_true', decide_eq_false_iff_not] at set
    omega
  have copied : (∀ val : List UInt8, val.length = inlineMax → (strcpy val w.buf).take w.size = w.data) ↔
      w.buf.take w.size = w.data ∧ 0 ∉ w.data.dropLast :=
    take_strcpy_iff w.readable (by omega)
  constructor
  · intro right
    have zeros : (List.replicate inlineMax (0 : UInt8)).length = inlineMax := List.length_replicate
    refine ⟨(copied.mp fun val second => ?_).2, fun i other => ?_⟩
    · have same := (right _ (memory_buffers flags zeros second)).content
      rwa [content, stored] at same
    · exact (kept _ i other).symm.trans ((right _ (memory_buffers flags zeros zeros)).flags i other)
  · rintro ⟨clear, same⟩ e buffers
    refine ⟨?_, ?_, fun i other => ?_⟩
    · rw [content, stored]
      exact copied.mpr ⟨rfl, clear⟩ e.env.val buffers.val
    · have taken : (firstValue e v w).stat.size = .ofNat 32 (w.size + w.offset) := rfl
      rw [taken, BitVec.toNat_ofNat, Nat.mod_eq_of_lt (by omega), empty.empty, length_data, List.length_nil]
      omega
    · rw [kept e i other, buffers.flags, same i other]

def Covered (v : Value) (w : Write) : Prop := InlineContent v w ∨ NoData v w

def written (e : WriteEnv) (v : Value) (w : Write) : Value :=
  if getStatFlag v.stat .inline then splicedValue e v w else firstValue e v w

def ValueSuits (flags : BitVec 32) (v : Value) (w : Write) : Prop :=
  if getStatFlag v.stat .inline then SpliceSuits v w
  else 0 ∉ w.data.dropLast ∧ ∀ i, i ≠ StatFlag.inline.bit → flags.getLsbD i = v.stat.flags.getLsbD i

def Accepted (v : Value) (w : Write) : Prop :=
  getStatFlag v.stat .inline = true → max v.data.length (v.data.length - w.offset + w.size) < inlineMax - 1

/-- The CAS that ends the call is not answered -2, and the value that was read before it suits the write. -/
def Suited (flags : BitVec 32) (w : Write) : Value → List Answer → Prop
  | _, [] => True
  | v, a :: as =>
      Accepted v w →
        match a.result with
        | .conflict => ∀ next ∈ a.next, Suited flags w next as
        | .success => ValueSuits flags v w
        | .error => True
        | .noMemory => False

def Right (flags : BitVec 32) (w : Write) (run : (Nat → WriteEnv) → Option Outcome) : Prop :=
  ∀ env, (∀ k, Buffers flags (env k)) → ∀ o, run env = some o → o.ret = w.size →
    ∃ x, o.stores = [x] ∧ Overwritten x.old w x.new

theorem written_right_iff (covered : Covered v w) (short : w.offset + w.size < inlineMax - 1) :
    (∀ e, Buffers flags e → Overwritten v w (written e v w)) ↔ ValueSuits flags v w := by
  unfold written ValueSuits
  rcases covered with content | empty
  · simp only [content.inline, if_true]
    exact spliced_right_iff content short
  · simp only [empty.inline, Bool.false_eq_true, if_false]
    exact first_right_iff empty short

theorem writeRoute_accepted (covered : Covered v w) (short : w.offset + w.size < inlineMax - 1) (accepted : Accepted v w)
    (e : WriteEnv) : writeRoute e w v = .inline (written e v w) := by
  unfold writeRoute written
  rcases covered with content | empty
  · have stays : spliceSize v w < inlineMax - 1 := by
      rw [spliceSize_eq content short]
      exact Int.ofNat_lt.mpr (accepted content.inline)
    simp only [content.inline, content.fileCreated, if_true, if_pos stays]
  · simp only [empty.inline, empty.fileCreated, Bool.false_eq_true, if_false]
    rw [if_pos (by omega)]

theorem writeRoute_refused (covered : Covered v w) (short : w.offset + w.size < inlineMax - 1) (refused : ¬Accepted v w)
    (e : WriteEnv) : writeRoute e w v = .refused := by
  obtain ⟨inline, large⟩ := Classical.not_imp.mp refused
  unfold writeRoute
  rcases covered with content | empty
  · have leaves : ¬spliceSize v w < inlineMax - 1 := by
      rw [spliceSize_eq content short]
      exact fun stays => large (Int.ofNat_lt.mp stays)
    simp only [content.inline, content.fileCreated, if_neg leaves]
  · rw [empty.inline] at inline
    cases inline

theorem writeLoop_right_iff (short : w.offset + w.size < inlineMax - 1) (answers : List Answer) :
    ∀ {v : Value} (k : Nat), Covered v w → (∀ a ∈ answers, ∀ next ∈ a.next, Covered next w) →
      (Right flags w (fun env => writeLoop env w k v answers) ↔ Suited flags w v answers) := by
  have zeros : (List.replicate inlineMax (0 : UInt8)).length = inlineMax := List.length_replicate
  have some : Buffers flags (memory flags (List.replicate inlineMax 0) (List.replicate inlineMax 0)) :=
    memory_buffers flags zeros zeros
  induction answers with
  | nil =>
      intro v k _ _
      refine iff_of_true (fun env _ o run success => ?_) trivial
      simp only [writeLoop] at run
      split at run
      · cases run
        have minus : (-1 : Int) = w.size := success
        omega
      · cases run
      · cases run
  | cons a as ih =>
      intro v k covered again
      by_cases accepted : Accepted v w
      · have route (e : WriteEnv) : writeRoute e w v = .inline (written e v w) :=
          writeRoute_accepted covered short accepted e
        simp only [Suited, writeLoop, route, Right, accepted, true_implies]
        cases answer : a.result with
        | conflict =>
            cases read : a.next with
            | none =>
                simp
            | some next =>
                simp only [Option.bind_some, Option.mem_def, Option.some.injEq, forall_eq']
                exact ih (k + 1) (again a List.mem_cons_self next read)
                  fun b member => again b (List.mem_cons_of_mem a member)
        | success =>
            simp only [Option.some.injEq]
            rw [← written_right_iff covered short]
            constructor
            · intro right e buffers
              obtain ⟨x, stored, overwritten⟩ := right (fun _ => e) (fun _ => buffers) _ rfl rfl
              cases stored
              exact overwritten
            · rintro right env buffers o rfl -
              exact ⟨_, rfl, right (env k) (buffers k)⟩
        | error =>
            refine iff_of_true (fun env _ o run success => ?_) trivial
            cases run
            have minus : (-1 : Int) = w.size := success
            omega
        | noMemory =>
            refine iff_of_false (fun right => ?_) id
            obtain ⟨x, stored, -⟩ := right (fun _ => memory flags _ _) (fun _ => some) _ rfl rfl
            cases stored
      · refine iff_of_true (fun env _ o run success => ?_) fun is => absurd is accepted
        simp only [writeLoop, writeRoute_refused covered short accepted] at run
        cases run
        have minus : (-1 : Int) = w.size := success
        omega

/-- Whatever the memory held before and however often the CAS conflicts: a successful write has put its bytes into the
content exactly if the computed size happens to be right and no NUL stops the copies. -/
theorem overwrites_iff (flags : BitVec 32) (w : Write) (v : Value) (answers : List Answer)
    (short : w.offset + w.size < inlineMax - 1) (covered : Covered v w)
    (again : ∀ a ∈ answers, ∀ next ∈ a.next, Covered next w) :
    Right flags w (fun env => paconWrite env false w v answers) ↔ (longer w = false → Suited flags w v answers) := by
  unfold paconWrite
  cases long : longer w with
  | true =>
      refine iff_of_true (fun env _ o run success => ?_) fun is => by cases is
      cases run
      have minus : (-1 : Int) = w.size := success
      omega
  | false =>
      simp only [Bool.false_eq_true, if_false, true_implies]
      exact writeLoop_right_iff short answers 0 covered again

def exampleFile : Value := ⟨{ exampleValue.stat with flags := 3, size := 4 }, [97, 98, 99, 100]⟩

def letters (offset : Nat) : Write := ⟨[120, 121, 0], 2, offset, by decide, by decide⟩

theorem covered_exampleFile {offset : Nat} (inside : offset ≤ 4) : Covered exampleFile (letters offset) :=
  .inl ⟨by decide, by decide, rfl, by decide, inside⟩

theorem overwrites_iff_inside : Right 2 (letters 2)
    (fun env => paconWrite env false (letters 2) exampleFile [⟨.success, none⟩]) := by
  have covered : Covered exampleFile (letters 2) := covered_exampleFile (by decide)
  refine (overwrites_iff 2 _ _ _ (by decide) covered (by simp)).mpr fun _ _ => ?_
  exact ⟨.inl (by decide), by decide, fun behind => absurd behind (by decide)⟩

theorem append_lost : InlineContent exampleFile (letters 4) ∧ 0 ∉ (letters 4).data ∧
    ∀ env, ∃ x, paconWrite env false (letters 4) exampleFile [⟨.success, none⟩] = some ⟨2, [x], true, true⟩ ∧
      x.old = exampleFile ∧ x.new.stat.size = 4 ∧ ¬Overwritten exampleFile (letters 4) x.new := by
  refine ⟨⟨by decide, by decide, rfl, by decide, by decide⟩, by decide, fun env => ?_⟩
  refine ⟨_, rfl, rfl, rfl, fun right => ?_⟩
  have stored : 4 = max exampleFile.data.length ((letters 4).offset + (letters 4).data.length) := right.size
  exact absurd stored (by decide)

end Pacon.Splice
