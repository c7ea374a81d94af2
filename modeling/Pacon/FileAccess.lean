import Pacon.Commit.WriteBack

/-!
# One file through its clients' calls, one at a time

`pacon_write_new`, `pacon_read_new` and `pacon_getattr` on a file whose entry stays in the cache and
that is on the DFS. A client whose `p_file` holds a descriptor works on the DFS alone.
-/

set_option linter.unusedSectionVars false

namespace Pacon.FileAccess
open Lib Function Commit InlineWrite

structure State (κ : Type) where
  value : Value
  dfs : List UInt8
  opened : κ → Bool
  /-- History only: what the successful writes have made of the file's first bytes. -/
  content : List UInt8

inductive Event (κ : Type)
  | write (c : κ) (env : Env) (w : Write)
  | read (c : κ) (env : Env) (size offset : Nat)
  | getattr (c : κ)

def pwrite (file buf : List UInt8) (offset : Nat) : List UInt8 :=
  if buf = [] then file
  else file.take offset ++ List.replicate (offset - file.length) 0 ++ buf ++ file.drop (offset + buf.length)

def pread (file : List UInt8) (size offset : Nat) : List UInt8 := (file.drop offset).take size

def recordAlone (v : Value) : Value := ⟨v.stat, []⟩

def newSizeInt (v : Value) (buf : List UInt8) (offset : Nat) : Int :=
  (BitVec.ofNat 32 (newSize v buf offset)).toInt

def OnDfs (v : Value) : Prop := getStatFlag v.stat .inline = false ∧ getStatFlag v.stat .fileCreated = true

instance (v : Value) : Decidable (OnDfs v) := inferInstanceAs (Decidable (_ ∧ _))

section
variable {κ : Type} [DecidableEq κ]

def inlineBytes (env : Env) (s : State κ) : List UInt8 := strcpy env.inlineData s.value.data

def writeDfs (env : Env) (s : State κ) (c : κ) (w : Write) : State κ :=
  let file :=
    if getStatFlag s.value.stat .inline then
      pwrite s.dfs ((inlineBytes env s).take s.value.stat.size.toNat) 0
    else s.dfs
  { s with dfs := pwrite file w.data w.offset
           opened := update s.opened c true
           value := recordAlone s.value }

/-- `none` is where the copy of the old data overruns `new_data`. -/
def writeNew (env : Env) (s : State κ) (c : κ) (w : Write) : Option (Int × State κ) :=
  if w.size < (w.buf.takeWhile (· ≠ 0)).length then some (-1, s)
  else if s.opened c then
    some (w.size, { s with dfs := pwrite s.dfs w.data w.offset, value := recordAlone s.value })
  else if s.value.stat.size.toNat < w.offset then some (-1, s)
  else if newSizeInt s.value w.data w.offset < inlineMax - 1 then
    if newSize s.value w.data w.offset < inlineMax - 1 then
      some (w.size, { s with value := writtenValue env s.value w.data w.offset })
    else none
  else some (w.size, writeDfs env s c w)

/-- The bytes that are read, `none` for -1. -/
def readNew (env : Env) (s : State κ) (c : κ) (size offset : Nat) : Option (List UInt8) × State κ :=
  if s.opened c then (some (pread s.dfs size offset), s)
  else if getStatFlag s.value.stat .inline then
    if s.value.stat.size.toNat < offset + size then (none, s)
    else (some (pread (inlineBytes env s) size offset), s)
  else (some (pread s.dfs size offset), { s with opened := update s.opened c true })

/-- The size that `pacon_getattr` reports; it asks the DFS about a file that is there. -/
def getattrSize (s : State κ) : Nat :=
  if OnDfs s.value then (BitVec.ofNat 32 s.dfs.length).toNat else s.value.stat.size.toNat

def wrote (content : List UInt8) (w : Write) (x : Int × State κ) : State κ :=
  if 0 ≤ x.1 then { x.2 with content := overwrite content w.data w.offset } else x.2

def step (s : State κ) : Event κ → Option (State κ)
  | .write c env w => (writeNew env s c w).map (wrote s.content w)
  | .read c env size offset => some (readNew env s c size offset).2
  | .getattr _ => some s

/-- A file that a call made and whose CREATE is committed, or one loaded from the DFS, which any
client may have opened. -/
inductive Initial (s : State κ) : Prop
  | created (env : Env) (m : Make) (file : m ≠ .mkdir) (buf : s.content = (Op.make m).buf)
      (nulFree : 0 ∉ s.content) (short : s.content.length < inlineMax - 1) (value : s.value = newValue env m)
      (empty : s.dfs = []) (closed : ∀ c, s.opened c = false)
  | loaded (env : Env) (opens : BitVec 32) (file : s.dfs = s.content)
      (value : s.value = ⟨{ (loadedValue env (.file s.content)).stat with openCounter := opens }, []⟩)

def system (κ : Type) [DecidableEq κ] : System (State κ) (Event κ) := ⟨Initial, step⟩

def Agree (s : State κ) (content : List UInt8) : Prop := ∀ c, s.opened c = true → s.dfs = content

/-- Where a write of the file's `content` leaves every reader with the same bytes. -/
inductive Keeps (s : State κ) (c : κ) (w : Write) : Prop
  | refused (longer : w.size < (w.buf.takeWhile (· ≠ 0)).length)
  | beyond (closed : s.opened c = false) (beyond : s.value.stat.size.toNat < w.offset)
  | through (there : OnDfs s.value) (opened : s.opened c = true)
  | large (there : OnDfs s.value) (large : inlineMax - 1 ≤ newSize s.value w.data w.offset)
      (int : newSize s.value w.data w.offset < 2 ^ 31)
  | whole (there : OnDfs s.value) (start : w.offset = 0) (covers : s.content.length ≤ w.size)
      (short : w.size < inlineMax - 1) (agree : Agree s w.data)
  | inline (small : ¬OnDfs s.value) (closed : s.opened c = false) (ends : w.offset + w.size < inlineMax - 1)
      (agree : Agree s (overwrite s.content w.data w.offset))
  | nothing (small : ¬OnDfs s.value) (empty : s.content = []) (none : w.size = 0)

/-- NUL-free writes at offsets up to the current size. -/
def Plain (s : State κ) : Event κ → Prop
  | .write _ _ w => 0 ∉ w.data ∧ w.offset ≤ s.content.length
  | .read _ _ _ _ | .getattr _ => True

instance (s : State κ) : DecidablePred (Plain s)
  | .write _ _ _ => inferInstanceAs (Decidable (_ ∧ _))
  | .read _ _ _ _ | .getattr _ => inferInstanceAs (Decidable True)

def Kept (s : State κ) : Event κ → Prop
  | .write c env w => Plain s (.write c env w) ∧ Keeps s c w
  | .read _ _ _ _ | .getattr _ => True

variable {s t : State κ}

inductive Place (s : State κ) : Prop
  | inline (small : ¬OnDfs s.value) (sound : s.value.Sound) (data : s.value.data = s.content)
      (short : s.content.length < inlineMax - 1)
      (empty : getStatFlag s.value.stat .inline = false → s.content = [] ∧ s.dfs = [])
  | dfs (there : OnDfs s.value) (file : s.dfs = s.content) (size : s.value.stat.size.toNat ≤ s.content.length)
      (data : s.value.data = [])

structure Coherent (s : State κ) : Prop where
  place : Place s
  agree : Agree s s.content

theorem Coherent.initial (h : Initial s) : Coherent s := by
  cases h with
  | created env m file buf nulFree short value empty closed =>
      have flags : ¬OnDfs s.value := by
        rw [value]
        cases m <;> simp [OnDfs, newValue, getStatFlag_newStat]
      refine ⟨.inline flags ?_ ?_ short fun plain => ?_, fun c opened => ?_⟩
      · rw [value]
        refine newValue_sound env (buf ▸ nulFree) fun data is => ?_
        subst is
        rwa [buf] at short
      · rw [value, buf]
        cases m with
        | mkdir => exact absurd rfl file
        | create => rfl
        | createWrite data =>
            rw [buf] at nulFree
            exact take_strcpy nulFree env.val
      · refine ⟨?_, empty⟩
        rw [value] at plain
        rw [buf]
        cases m with
        | mkdir | create => rfl
        | createWrite data => simp [newValue] at plain
      · rw [closed c] at opened
        cases opened
  | loaded env opens file value =>
      refine ⟨.dfs ?_ file ?_ (by rw [value]), fun _ _ => file⟩
      · rw [value]
        simp only [OnDfs, loadedValue, getStatFlag_eq, setStatFlag]
        decide
      · rw [value]
        simp only [loadedValue, setStatFlag, BitVec.toNat_ofNat]
        exact Nat.mod_le ..

theorem pwrite_eq {file buf : List UInt8} {offset : Nat} (inside : offset ≤ file.length) :
    pwrite file buf offset = overwrite file buf offset := by
  unfold pwrite
  split
  · rename_i empty
    rw [empty, overwrite_nil]
  · rw [Nat.sub_eq_zero_of_le inside, List.replicate_zero, List.append_nil]
    rfl

theorem newSizeInt_eq {v : Value} {buf : List UInt8} {offset : Nat} (int : newSize v buf offset < 2 ^ 31) :
    newSizeInt v buf offset = newSize v buf offset := by
  unfold newSizeInt
  rw [BitVec.toInt_eq_toNat_cond, BitVec.toNat_ofNat]
  have small : newSize v buf offset % 2 ^ 32 = newSize v buf offset := Nat.mod_eq_of_lt (by omega)
  rw [small, if_pos (by omega)]

inductive WriteEffect (env : Env) (s : State κ) (c : κ) (w : Write) : State κ → Prop
  | through (opened : s.opened c = true) : WriteEffect env s c w
      { s with dfs := pwrite s.dfs w.data w.offset, value := recordAlone s.value }
  | inline (closed : s.opened c = false) (inside : w.offset ≤ s.value.stat.size.toNat)
      (short : newSize s.value w.data w.offset < inlineMax - 1) : WriteEffect env s c w
      { s with value := writtenValue env s.value w.data w.offset }
  | dfs (closed : s.opened c = false) (inside : w.offset ≤ s.value.stat.size.toNat)
      (large : (inlineMax - 1 : Int) ≤ newSizeInt s.value w.data w.offset) : WriteEffect env s c w (writeDfs env s c w)

theorem writeNew_cases {env : Env} {c : κ} {w : Write} {x : Int × State κ} (h : writeNew env s c w = some x) :
    x = (-1, s) ∧ (w.size < (w.buf.takeWhile (· ≠ 0)).length ∨
      s.opened c = false ∧ s.value.stat.size.toNat < w.offset) ∨
    (w.buf.takeWhile (· ≠ 0)).length ≤ w.size ∧ ∃ t, x = ((w.size : Int), t) ∧ WriteEffect env s c w t := by
  unfold writeNew at h
  split at h
  · rename_i longer
    cases h
    exact .inl ⟨rfl, .inl longer⟩
  rename_i fits
  have fits := Nat.not_lt.mp fits
  split at h
  · rename_i opened
    cases h
    exact .inr ⟨fits, _, rfl, .through opened⟩
  rename_i closed
  have closed : s.opened c = false := by simpa using closed
  split at h
  · rename_i beyond
    cases h
    exact .inl ⟨rfl, .inr ⟨closed, beyond⟩⟩
  rename_i inside
  have inside := Nat.not_lt.mp inside
  split at h
  · split at h
    · rename_i short
      cases h
      exact .inr ⟨fits, _, rfl, .inline closed inside short⟩
    · cases h
  · rename_i large
    cases h
    exact .inr ⟨fits, _, rfl, .dfs closed inside (by omega)⟩

theorem Coherent.writeThrough (h : Coherent s) {w : Write} (inside : w.offset ≤ s.content.length)
    (there : OnDfs s.value) {opened : κ → Bool} :
    Coherent (⟨recordAlone s.value, pwrite s.dfs w.data w.offset, opened, overwrite s.content w.data w.offset⟩ :
      State κ) := by
  cases h.place with
  | inline small => exact absurd there small
  | dfs _ file size =>
      have after : pwrite s.dfs w.data w.offset = overwrite s.content w.data w.offset := by
        rw [file, pwrite_eq inside]
      refine ⟨.dfs there after (size.trans ?_) rfl, fun _ _ => after⟩
      rw [length_overwrite inside]
      exact le_max_right ..

theorem Coherent.writeInline (h : Coherent s) (small : ¬OnDfs s.value) {env : Env} {w : Write} (nulFree : 0 ∉ w.data)
    (inside : w.offset ≤ s.content.length) (short : newSize s.value w.data w.offset < inlineMax - 1)
    (agree : Agree s (overwrite s.content w.data w.offset)) :
    Coherent { s with value := writtenValue env s.value w.data w.offset
                      content := overwrite s.content w.data w.offset } := by
  cases h.place with
  | dfs there => exact absurd there small
  | inline _ sound data =>
      rw [← data] at inside
      have inline : getStatFlag (writtenValue env s.value w.data w.offset).stat .inline = true := by
        simp [writtenValue]
      refine ⟨.inline (fun is => ?_) (writtenValue_sound sound nulFree inside short env) ?_ ?_ fun plain => ?_, agree⟩
      · rw [is.1] at inline
        cases inline
      · rw [writtenValue_data sound nulFree inside, data]
      · rw [← data, length_overwrite inside, ← newSize_eq sound]
        exact short
      · rw [inline] at plain
        cases plain

theorem Coherent.writeWhole (h : Coherent s) (there : OnDfs s.value) {env : Env} {w : Write} (nulFree : 0 ∉ w.data)
    (start : w.offset = 0) (covers : s.content.length ≤ w.size) (short : w.size < inlineMax - 1)
    (agree : Agree s w.data) :
    Coherent { s with value := writtenValue env s.value w.data w.offset
                      content := overwrite s.content w.data w.offset } := by
  cases h.place with
  | inline small => exact absurd there small
  | dfs _ _ size data =>
      have length : w.data.length = w.size := w.length_data
      have content : overwrite s.content w.data w.offset = w.data := by
        rw [start, overwrite, List.take_zero, List.nil_append, Nat.zero_add, List.drop_eq_nil_of_le (by omega),
          List.append_nil]
      have newSize : newSize s.value w.data w.offset = w.size := by
        rw [newSize, start, length]
        omega
      have written : (writtenValue env s.value w.data w.offset).data = w.data := by
        unfold writtenValue
        dsimp only
        rw [newSize, start]
        unfold newData
        rw [List.take_zero, List.nil_append, if_neg (by omega), List.append_nil, ← length]
        exact take_strcpy nulFree env.val
      have inline : getStatFlag (writtenValue env s.value w.data w.offset).stat .inline = true := by
        simp [writtenValue]
      rw [content]
      refine ⟨.inline (fun is => ?_) ⟨by rwa [written], ?_⟩ written (length ▸ short) fun plain => ?_, agree⟩
      · rw [is.1] at inline
        cases inline
      · rw [written, length]
        show (BitVec.ofNat 32 (Commit.newSize s.value w.data w.offset)).toNat = _
        rw [newSize]
        exact toNat_inlineSize short
      · rw [inline] at plain
        cases plain

theorem Coherent.writeNothing (h : Coherent s) (small : ¬OnDfs s.value) (empty : s.content = []) :
    Coherent { s with value := recordAlone s.value } := by
  cases h.place with
  | dfs there => exact absurd there small
  | inline _ sound data short plain =>
      rw [empty] at data
      refine ⟨.inline small ⟨List.not_mem_nil, ?_⟩ empty.symm short plain, h.agree⟩
      rw [recordAlone, sound.size, data]

theorem Place.newSize_lt (place : Place s) (small : ¬OnDfs s.value) {w : Write}
    (ends : w.offset + w.size < inlineMax - 1) : newSize s.value w.data w.offset < inlineMax - 1 := by
  cases place with
  | dfs there => exact absurd there small
  | inline _ sound data short =>
      rw [newSize_eq sound, w.length_data, data]
      exact max_lt ends short

theorem Coherent.write (h : Coherent s) {env : Env} {c : κ} {w : Write} (nulFree : 0 ∉ w.data)
    (inside : w.offset ≤ s.content.length) (fits : (w.buf.takeWhile (· ≠ 0)).length ≤ w.size)
    (keeps : Keeps s c w) (effect : WriteEffect env s c w t) :
    Coherent { t with content := overwrite s.content w.data w.offset } := by
  have empty : w.size = 0 → w.data = [] := by
    intro none
    rw [← List.length_eq_zero_iff, w.length_data, none]
  cases keeps with
  | refused longer => exact absurd fits (Nat.not_le.mpr longer)
  | beyond closed beyond =>
      cases effect with
      | through opened => rw [closed] at opened; cases opened
      | inline _ inside | dfs _ inside => exact absurd inside (Nat.not_le.mpr beyond)
  | through there opened =>
      cases effect with
      | through => exact h.writeThrough inside there
      | inline closed | dfs closed => rw [closed] at opened; cases opened
  | large there large =>
      cases effect with
      | through => exact h.writeThrough inside there
      | inline _ _ short => exact absurd short (Nat.not_lt.mpr large)
      | dfs =>
          simp only [writeDfs, there.1]
          exact h.writeThrough inside there
  | whole there start covers short agree =>
      cases effect with
      | through => exact h.writeThrough inside there
      | inline => exact h.writeWhole there nulFree start covers short agree
      | dfs =>
          simp only [writeDfs, there.1]
          exact h.writeThrough inside there
  | inline small closed ends agree =>
      have short := h.place.newSize_lt small ends
      cases effect with
      | through opened => rw [closed] at opened; cases opened
      | inline => exact h.writeInline small nulFree inside short agree
      | dfs _ _ large =>
          rw [newSizeInt_eq (short.trans (by decide))] at large
          omega
  | nothing small none zero =>
      have same : overwrite s.content w.data w.offset = s.content := by rw [empty zero, overwrite_nil]
      have offset : w.offset = 0 := by simpa [none] using inside
      have short : newSize s.value w.data w.offset < inlineMax - 1 :=
        h.place.newSize_lt small (by rw [offset, zero]; decide)
      cases effect with
      | through =>
          simp only [empty zero, pwrite, if_true, overwrite_nil]
          exact h.writeNothing small none
      | inline => exact h.writeInline small nulFree inside short (by rw [same]; exact h.agree)
      | dfs _ _ large =>
          rw [newSizeInt_eq (short.trans (by decide))] at large
          omega

theorem Coherent.read (h : Coherent s) (env : Env) (c : κ) (size offset : Nat) :
    Coherent (readNew env s c size offset).2 := by
  unfold readNew
  split
  · exact h
  split
  · split <;> exact h
  rename_i plain
  refine ⟨?_, fun _ _ => ?_⟩
  · cases h.place with
    | inline small sound data short empty => exact .inline small sound data short empty
    | dfs there file size data => exact .dfs there file size data
  · cases h.place with
    | inline _ _ _ _ empty =>
        obtain ⟨content, file⟩ := empty (by simpa using plain)
        exact file.trans content.symm
    | dfs _ file => exact file

theorem Coherent.read_eq (h : Coherent s) {env : Env} {c : κ} {size offset : Nat} {out : List UInt8}
    (reads : (readNew env s c size offset).1 = some out) : out = pread s.content size offset := by
  have after := (h.read env c size offset).agree c
  unfold readNew at reads after
  split at reads
  · rename_i opened
    cases reads
    rw [h.agree c opened]
  rename_i closed
  split at reads
  · rename_i inline
    split at reads
    · cases reads
    rename_i inside
    cases reads
    cases h.place with
    | dfs there => rw [there.1] at inline; cases inline
    | inline _ sound data =>
        rw [sound.size] at inside
        unfold inlineBytes pread
        rw [strcpy_of_nulFree sound.nulFree, ← data, List.drop_append_of_le_length (by omega),
          List.take_append_of_le_length (by rw [List.length_drop]; omega)]
  · rename_i plain
    cases reads
    rw [if_neg closed, if_neg plain] at after
    rw [show s.dfs = s.content from after (update_self ..)]

theorem Coherent.getattr_eq (h : Coherent s) : getattrSize s = s.content.length ↔ s.content.length < 2 ^ 32 := by
  have word : ∀ n, (BitVec.ofNat 32 n).toNat = n ↔ n < 2 ^ 32 := by
    intro n
    rw [BitVec.toNat_ofNat]
    exact ⟨fun same => same ▸ Nat.mod_lt _ (by decide), Nat.mod_eq_of_lt⟩
  unfold getattrSize
  cases h.place with
  | inline small sound data short =>
      rw [if_neg small, sound.size, data]
      exact iff_of_true rfl (short.trans (by decide))
  | dfs there file =>
      rw [if_pos there, file]
      exact word _

theorem Coherent.step {e : Event κ} (h : Coherent s) (ok : Kept s e) (does : step s e = some t) : Coherent t := by
  cases e with
  | read c env size offset =>
      cases does
      exact h.read env c size offset
  | getattr =>
      cases does
      exact h
  | write c env w =>
      obtain ⟨⟨nulFree, inside⟩, keeps⟩ := ok
      obtain ⟨x, writes, rfl⟩ := Option.map_eq_some_iff.mp does
      rcases writeNew_cases writes with ⟨rfl, -⟩ | ⟨fits, t, rfl, effect⟩
      · exact h
      · rw [wrote, if_pos (Int.natCast_nonneg _)]
        exact h.write nulFree inside fits keeps effect

/-- In runs whose writes are all kept, every read returns the file's bytes and `pacon_getattr` their
number, as far as 32 bits hold it. -/
theorem file_coherent (reach : (system κ).Reachable Kept s) :
    (∀ c env size offset out, (readNew env s c size offset).1 = some out → out = pread s.content size offset) ∧
      (getattrSize s = s.content.length ↔ s.content.length < 2 ^ 32) := by
  have h : Coherent s := reach.invariant (fun _ => .initial) fun _ _ _ _ h => h.step
  exact ⟨fun _ _ _ _ _ => h.read_eq, h.getattr_eq⟩

def Write.ofBytes (data : List UInt8) (offset : Nat) : Write where
  buf := data ++ [0]
  size := data.length
  offset := offset
  readable := by simp
  terminated := by simp

def loadedFile {κ : Type} (content : List UInt8) : State κ :=
  ⟨loadedValue .zero (.file content), content, fun _ => false, content⟩

def createdFile : State Unit := ⟨newValue .zero .create, [], fun _ => false, []⟩

def blank : Env := { Env.zero with inlineData := List.replicate inlineMax 0, val := List.replicate inlineMax 0 }

theorem file_incoherent :
    (∃ s, (system Unit).Reachable Plain s ∧ s.content = [1, 9] ∧ (readNew blank s () 2 0).1 = some [0, 0]) ∧
    ∃ s, (system Unit).Reachable Plain s ∧ s.content.length = 4051 ∧ getattrSize s = 0 := by
  constructor
  · obtain ⟨s, reach, h⟩ := System.exists_reachable (system Unit) Plain (s := loadedFile [1, 2])
      (.loaded .zero 0 rfl rfl) [.write () blank (Write.ofBytes [9] 1)]
      (fun s => decide (s.content = [1, 9] ∧ (readNew blank s () 2 0).1 = some [0, 0])) (by decide +kernel)
    exact ⟨s, reach, of_decide_eq_true h⟩
  · obtain ⟨s, reach, h⟩ := System.exists_reachable (system Unit) Plain (s := createdFile)
      (.created .zero .create (fun is => (by cases is)) rfl List.not_mem_nil (by decide) rfl rfl fun _ => rfl)
      [.write () .zero (Write.ofBytes (List.replicate 4051 97) 0)]
      (fun s => decide (s.content.length = 4051 ∧ getattrSize s = 0)) (by decide +kernel)
    exact ⟨s, reach, of_decide_eq_true h⟩

def staysInline (s : State Unit) : Event Unit → Bool
  | .write c env w => Plain s (.write c env w) ∧ ¬OnDfs s.value ∧ s.opened c = false ∧
      w.offset + w.size < inlineMax - 1
  | .read _ _ _ _ | .getattr _ => true

theorem kept_of_staysInline {s : State Unit} {e : Event Unit} (h : staysInline s e = true) : Kept s e := by
  cases e with
  | read | getattr => trivial
  | write c env w =>
      obtain ⟨plain, small, closed, ends⟩ := of_decide_eq_true h
      refine ⟨plain, .inline small closed ends fun d opened => ?_⟩
      rw [show d = c from rfl, closed] at opened
      cases opened

def goesThrough (s : State Bool) : Event Bool → Bool
  | .write c env w => Plain s (.write c env w) ∧ OnDfs s.value ∧ s.opened c = true
  | .read _ _ _ _ | .getattr _ => true

theorem kept_of_goesThrough {s : State Bool} {e : Event Bool} (h : goesThrough s e = true) : Kept s e := by
  cases e with
  | read | getattr => trivial
  | write c env w =>
      obtain ⟨plain, there, opened⟩ := of_decide_eq_true h
      exact ⟨plain, .through there opened⟩

theorem reads_of_coherent {κ : Type} [DecidableEq κ] {s : State κ} (coherent : ∀ c env size offset out,
    (readNew env s c size offset).1 = some out → out = pread s.content size offset) {c : κ} {env : Env} {size offset : Nat}
    (found : (readNew env s c size offset).1.isSome) :
    (readNew env s c size offset).1 = some (pread s.content size offset) := by
  obtain ⟨out, read⟩ := Option.isSome_iff_exists.mp found
  rw [read, coherent _ _ _ _ _ read]

theorem file_coherent_run :
    (∃ s : State Unit, (system Unit).Reachable Kept s ∧
      (readNew .zero s () 2 0).1 = some [65, 67] ∧ getattrSize s = 2) ∧
    ∃ s : State Bool, (system Bool).Reachable Kept s ∧
      (∀ c, (readNew .zero s c 3 0).1 = some [1, 7, 8]) ∧ getattrSize s = 3 := by
  constructor
  · obtain ⟨s, reach, h⟩ := System.exists_reachable (system Unit) (fun s e => staysInline s e = true)
      (s := createdFile)
      (.created .zero .create (fun is => (by cases is)) rfl List.not_mem_nil (by decide) rfl rfl fun _ => rfl)
      [.write () .zero (Write.ofBytes [65, 66] 0), .getattr (), .write () .zero (Write.ofBytes [67] 1)]
      (fun s => decide (s.content = [65, 67] ∧ (readNew .zero s () 2 0).1.isSome)) rfl
    obtain ⟨content, found⟩ := of_decide_eq_true h
    have kept := reach.mono fun _ _ _ => kept_of_staysInline
    obtain ⟨reads, size⟩ := file_coherent kept
    refine ⟨s, kept, ?_, ?_⟩
    · rw [reads_of_coherent reads found, content]
      rfl
    · rw [size.mpr (by rw [content]; decide), content]
      rfl
  · obtain ⟨s, reach, h⟩ := System.exists_reachable (system Bool) (fun s e => goesThrough s e = true)
      (s := loadedFile [1, 2]) (.loaded .zero 0 rfl rfl)
      [.read false .zero 1 0, .write false .zero (Write.ofBytes [9] 1), .read true .zero 2 0,
        .write true .zero (Write.ofBytes [7, 8] 1)]
      (fun s => decide (s.content = [1, 7, 8] ∧ ∀ c, (readNew .zero s c 3 0).1.isSome)) rfl
    obtain ⟨content, found⟩ := of_decide_eq_true h
    have kept := reach.mono fun _ _ _ => kept_of_goesThrough
    obtain ⟨reads, size⟩ := file_coherent kept
    refine ⟨s, kept, fun c => ?_, ?_⟩
    · rw [reads_of_coherent reads (found c), content]
      rfl
    · rw [size.mpr (by rw [content]; decide), content]
      rfl

end
end Pacon.FileAccess
