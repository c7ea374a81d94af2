import Pacon.Calls.Files

/-!
# Files of joined regions

`cregion_joint` makes a `struct pacon` for each region it joins. `pacon_open` looks for the region of the path
among them, and the reads go through the mark that it leaves in the descriptor. Each call runs to its end
with nobody else in between.
-/

set_option linter.unusedSectionVars false

namespace Pacon.Reading
open Lib Function Commit Calls FileAccess

/-- What a `struct pacon` has of its own: its workspace, the number of its `kv_handle`, its `perm_info`. -/
structure Handle where
  mountPath : CString
  kv : Nat
  permitted : Permission.Opt → Bool

/-- `struct pacon *`; the first `cr_num` entries of `remote_cr_root` are `roots`. -/
inductive PaconPtr
  | unset
  | mk (here : Handle) (roots : List CString) (remotePaconList : Nat → PaconPtr)

structure PaconFile where
  fd : Option Fd
  hitRemoteCr : Nat
  flags : Evict.OpenFlags
  openFlags : Evict.OpenFlags

structure State where
  kv : Nat → Path → Option Entry
  clock : Nat
  dfs : Path → Option Node

def put (s : State) (k : Nat) (p : Path) (v : Value) : State :=
  { s with kv := update s.kv k (update (s.kv k) p (some ⟨s.clock, v⟩)), clock := s.clock + 1 }

/-- Neither `init_remote_pacon` nor `cregion_joint` sets `remote_pacon_list` of the new struct. -/
def initRemotePacon (kv : Nat) (memory root : CString) : PaconPtr :=
  .mk ⟨setRootPath memory root, kv, fun _ => true⟩ [] fun _ => .unset

/-- `list` is what `remote_pacon_list` held before; what is behind the joined regions stays. -/
def joinedList (roots : List CString) (kv : Nat → Nat) (memory : Nat → CString) (list : Nat → PaconPtr) (i : Nat) :
    PaconPtr :=
  match roots[i]? with
  | some root => initRemotePacon (kv i) (memory i) root
  | none => list i

def cregionJoint (here : Handle) (roots : List CString) (kv : Nat → Nat) (memory : Nat → CString)
    (list : Nat → PaconPtr) : PaconPtr :=
  .mk here roots (joinedList roots kv memory list)

def remoteOf (roots : List CString) (p : Path) : Option Nat :=
  roots.findIdx? fun root => 0 < childCmpNew (text p) root

/-- A miss in the workspace; `none` where the retry after a failed add never ends. -/
def openMissing (env : Env) (p : Path) (flags : Evict.OpenFlags) (here : Handle) (s : State) (file : PaconFile) :
    Option (Int × State × PaconFile) :=
  match Evict.openCall s.dfs flags p, s.dfs p with
  | none, _ => some (-1, s, file)
  | some dfs, none => some (-1, { s with dfs := dfs }, file)
  | some dfs, some node =>
      if p = [] then none
      else some (0, put { s with dfs := dfs } here.kv p (Evict.openedValue env node), { file with fd := some .file })

def openCached (p : Path) (flags : Evict.OpenFlags) (here : Handle) (e : Entry) (s : State) (file : PaconFile) :
    Int × State × PaconFile :=
  if getStatFlag e.value.stat .fileCreated ∧ ¬getStatFlag e.value.stat .inline ∧ 0 < e.value.stat.size.toNat then
    match Evict.openCall s.dfs flags p with
    | none => (-1, s, file)
    | some dfs =>
        (0, put { s with dfs := dfs } here.kv p (Evict.counted e.value), { file with fd := some .file })
  else (0, s, { file with fd := none })

/-- `none` where it dereferences a pointer that is not set, too. -/
def paconOpen (env : Env) (p : Path) (flags : Evict.OpenFlags) :
    PaconPtr → State → PaconFile → Option (Int × State × PaconFile)
  | .unset, _, _ => none
  | .mk here roots list, s, file =>
      if here.permitted .rw then
        let file := { file with openFlags := flags, hitRemoteCr := 0 }
        match s.kv here.kv p with
        | some e => some (openCached p flags here e s file)
        | none =>
            if childCmpNew (text p) here.mountPath = 0 then
              match remoteOf roots p with
              | none => some (-1, s, file)
              | some cr =>
                  (paconOpen env p flags (list cr) s file).map fun x =>
                    if x.1 = 0 then (0, x.2.1, { x.2.2 with hitRemoteCr := 1 }) else (-1, x.2)
            else openMissing env p flags here s file
      else some (-1, s, file)

def fdContent (s : State) (p : Path) : Fd → List UInt8
  | .unlinked content => content
  | .file =>
      match s.dfs p with
      | some (.file content) => content
      | _ => []

abbrev Read := Option (List UInt8) × State × PaconFile

def readFound (env : Env) (p : Path) (size offset : Nat) (here : Handle) (e : Entry) (s : State)
    (file : PaconFile) : Read :=
  if ¬getStatFlag e.value.stat .inline ∧ getStatFlag e.value.stat .fileCreated ∧ 0 < e.value.stat.size.toNat then
    match Evict.openCall s.dfs file.flags p with
    | none => (none, s, file)
    | some dfs =>
        let t := put { s with dfs := dfs } here.kv p (Evict.counted e.value)
        (some (pread (fdContent t p .file) size offset), t, { file with fd := some .file })
  else if e.value.stat.size.toNat < offset + size then (none, s, file)
  else (some (pread (strcpy env.inlineData e.value.data) size offset), s, file)

def paconRead (env : Env) (p : Path) (size offset : Nat) : PaconPtr → State → PaconFile → Option Read
  | .unset, _, _ => none
  | .mk here _ list, s, file =>
      if here.permitted .read then
        if 0 < file.hitRemoteCr then paconRead env p size offset (list file.hitRemoteCr) s file
        else
          match file.fd with
          | some fd => some (some (pread (fdContent s p fd) size offset), s, file)
          | none =>
              match s.kv here.kv p with
              | none => some (none, s, file)
              | some e => some (readFound env p size offset here e s file)
      else some (none, s, file)

def readDfs (p : Path) (size offset : Nat) (s : State) (file : PaconFile) : Read :=
  match s.dfs p with
  | some (.file content) => (some (pread content size offset), s, { file with fd := some .file })
  | _ => (none, s, { file with fd := none })

def readHere (env : Env) (p : Path) (size offset : Nat) (here : Handle) (s : State) (file : PaconFile) : Read :=
  match file.fd with
  | some fd => (some (pread (fdContent s p fd) size offset), s, file)
  | none =>
      match s.kv here.kv p with
      | none => (none, s, file)
      | some e =>
          if getStatFlag e.value.stat .inline then
            if e.value.stat.size.toNat < offset + size then (none, s, file)
            else (some (pread (strcpy env.inlineData e.value.data) size offset), s, file)
          else readDfs p size offset s file

def paconReadNew (env : Env) (p : Path) (size offset : Nat) : PaconPtr → State → PaconFile → Option Read
  | .unset, _, _ => none
  | .mk here _ list, s, file =>
      if here.permitted .read then
        if 0 < file.hitRemoteCr then
          (paconReadNew env p size offset (list file.hitRemoteCr) s file).map fun x =>
            match x with
            | (none, t, file) => readDfs p size offset t file
            | (some _, t, file) => readHere env p size offset here t file
        else some (readHere env p size offset here s file)
      else some (none, s, file)

/-- A file opened through the joined region is read as that region reads it. -/
structure ReadsOpened (env : Env) (p : Path) (pacon region : PaconPtr) (s : State) (file : PaconFile) : Prop where
  read : ∀ (size offset : Nat) (data : List UInt8),
    (paconRead env p size offset region s { file with hitRemoteCr := 0 }).map Prod.fst = some (some data) →
      (paconRead env p size offset pacon s file).map Prod.fst = some (some data)
  readNew : ∀ (size offset : Nat) (data : List UInt8),
    (paconReadNew env p size offset region s { file with hitRemoteCr := 0 }).map Prod.fst = some (some data) →
      (paconReadNew env p size offset pacon s file).map Prod.fst = some (some data)

structure Through (here : Handle) (roots : List CString) (s : State) (p : Path) (j : Nat) : Prop where
  missing : s.kv here.kv p = none
  outside : childCmpNew (text p) here.mountPath = 0
  found : remoteOf roots p = some j

/-- A struct that no joint has filled in or that one has made. -/
def FromJoint (pacon : PaconPtr) : Prop :=
  pacon = .unset ∨ ∃ kv memory root, pacon = initRemotePacon kv memory root

variable {env : Env} {p : Path} {flags : Evict.OpenFlags} {here : Handle} {roots : List CString} {kv : Nat → Nat}
variable {memory : Nat → CString} {list : Nat → PaconPtr} {s t : State} {file file' : PaconFile} {j size offset : Nat}

theorem fromJoint_joinedList (left : ∀ i, FromJoint (list i)) (i : Nat) :
    FromJoint (joinedList roots kv memory list i) := by
  unfold joinedList
  cases roots[i]? with
  | some root => exact .inr ⟨_, _, _, rfl⟩
  | none => exact left i

theorem paconRead_fromJoint {pacon : PaconPtr} (joint : FromJoint pacon) (hit : 0 < file.hitRemoteCr) :
    paconRead env p size offset pacon s file = none := by
  rcases joint with rfl | ⟨kv, memory, root, rfl⟩
  · rfl
  · simp [initRemotePacon, paconRead, hit]

theorem paconReadNew_fromJoint {pacon : PaconPtr} (joint : FromJoint pacon) (hit : 0 < file.hitRemoteCr) :
    paconReadNew env p size offset pacon s file = none := by
  rcases joint with rfl | ⟨kv, memory, root, rfl⟩
  · rfl
  · simp [initRemotePacon, paconReadNew, hit]

theorem paconRead_hit (left : ∀ i, FromJoint (list i)) (hit : 0 < file.hitRemoteCr) :
    paconRead env p size offset (cregionJoint here roots kv memory list) s file =
      if here.permitted .read then none else some (none, s, file) := by
  unfold cregionJoint paconRead
  rw [if_pos hit, paconRead_fromJoint (fromJoint_joinedList left _) hit]

theorem paconReadNew_hit (left : ∀ i, FromJoint (list i)) (hit : 0 < file.hitRemoteCr) :
    paconReadNew env p size offset (cregionJoint here roots kv memory list) s file =
      if here.permitted .read then none else some (none, s, file) := by
  unfold cregionJoint paconReadNew
  rw [if_pos hit, paconReadNew_fromJoint (fromJoint_joinedList left _) hit]
  rfl

theorem openCached_readable {e : Entry}
    (opened : openCached p flags here e s file = (0, t, file')) :
    file'.fd = some .file ∨ file'.fd = none ∧ t = s ∧ ¬(¬getStatFlag e.value.stat .inline ∧
      getStatFlag e.value.stat .fileCreated ∧ 0 < e.value.stat.size.toNat) := by
  unfold openCached at opened
  split at opened
  · split at opened
    · cases opened
    · cases opened
      exact .inl rfl
  · rename_i closed
    cases opened
    exact .inr ⟨rfl, rfl, fun ⟨inline, created, size⟩ => closed ⟨created, inline, size⟩⟩

theorem readFound_nothing {e : Entry} (closed : ¬(¬getStatFlag e.value.stat .inline ∧
    getStatFlag e.value.stat .fileCreated ∧ 0 < e.value.stat.size.toNat)) :
    (readFound env p 0 0 here e s file).1 = some [] := by
  rw [readFound, if_neg closed, if_neg (Nat.not_lt_zero _)]
  rfl

theorem read_of_open {k : Nat} {mem root : CString}
    (opened : paconOpen env p flags (initRemotePacon k mem root) s file = some (0, t, file')) :
    (paconRead env p 0 0 (initRemotePacon k mem root) t { file' with hitRemoteCr := 0 }).map Prod.fst =
      some (some []) := by
  have readable : file'.fd = some .file ∨ file'.fd = none ∧ ∃ e, t.kv k p = some e ∧
      ¬(¬getStatFlag e.value.stat .inline ∧ getStatFlag e.value.stat .fileCreated ∧ 0 < e.value.stat.size.toNat) := by
    simp only [initRemotePacon, paconOpen, if_true] at opened
    cases there : s.kv k p with
    | some e =>
        simp only [there, Option.some.injEq] at opened
        rcases openCached_readable opened with fd | ⟨fd, rfl, closed⟩
        · exact .inl fd
        · exact .inr ⟨fd, e, there, closed⟩
    | none =>
        simp only [there] at opened
        split at opened
        · cases opened
        · unfold openMissing at opened
          split at opened
          · cases opened
          · cases opened
          · split at opened
            · cases opened
            · cases opened
              exact .inl rfl
  rcases readable with fd | ⟨fd, e, there, closed⟩
  · simp [initRemotePacon, paconRead, fd, pread]
  · simpa [initRemotePacon, paconRead, fd, there] using readFound_nothing closed

theorem open_through (through : Through here roots s p j)
    (opened : paconOpen env p flags (cregionJoint here roots kv memory list) s file = some (0, t, file')) :
    ∃ root file₁, roots[j]? = some root ∧ file' = { file₁ with hitRemoteCr := 1 } ∧
      paconOpen env p flags (initRemotePacon (kv j) (memory j) root) s
        { file with openFlags := flags, hitRemoteCr := 0 } = some (0, t, file₁) := by
  obtain ⟨root, there⟩ : ∃ root, roots[j]? = some root := by
    obtain ⟨bound, -⟩ := List.findIdx?_eq_some_iff_getElem.mp through.found
    exact ⟨_, List.getElem?_eq_getElem bound⟩
  unfold cregionJoint paconOpen at opened
  simp only [through.missing, through.outside, if_true, through.found, joinedList, there] at opened
  split at opened
  · obtain ⟨⟨ret, u, file₁⟩, inner, result⟩ := Option.map_eq_some_iff.mp opened
    split at result
    · rename_i zero
      cases result
      cases zero
      exact ⟨root, file₁, there, rfl, inner⟩
    · cases result
  · cases opened

/-- Whichever region the file was opened in, a read of it is refused by the caller's own permissions or comes to a
pointer that is not set. -/
theorem remote_reads_fail (left : ∀ i, FromJoint (list i)) (through : Through here roots s p j)
    (opened : paconOpen env p flags (cregionJoint here roots kv memory list) s file = some (0, t, file')) :
    (∃ root, roots[j]? = some root ∧ ¬ReadsOpened env p (cregionJoint here roots kv memory list)
      (initRemotePacon (kv j) (memory j) root) t file') ∧
    ∀ size offset,
      paconRead env p size offset (cregionJoint here roots kv memory list) t file' =
        (if here.permitted .read then none else some (none, t, file')) ∧
      paconReadNew env p size offset (cregionJoint here roots kv memory list) t file' =
        (if here.permitted .read then none else some (none, t, file')) := by
  obtain ⟨root, file₁, there, rfl, inner⟩ := open_through through opened
  refine ⟨⟨root, there, fun right => ?_⟩, fun size offset => ⟨paconRead_hit left one_pos, paconReadNew_hit left one_pos⟩⟩
  have own := read_of_open inner
  have data := right.read 0 0 [] own
  rw [paconRead_hit left one_pos] at data
  split at data <;> cases data

def exampleHandle : Handle := ⟨"/w".toList, 0, fun _ => true⟩

def exampleJoint : PaconPtr :=
  cregionJoint exampleHandle ["/x".toList] (fun i => i + 1) (fun _ => []) fun _ => .unset

def exampleFile : Path := [['f'], ['x']]

def exampleValue : Value := ⟨setStatFlag { Env.zero.stat with size := 2 } .inline true, [104, 105]⟩

def exampleStores : State where
  kv k p := if k = 1 ∧ p = exampleFile then some ⟨0, exampleValue⟩ else none
  clock := 1
  dfs _ := none

def exampleDescriptor : PaconFile := ⟨none, 0, ⟨false, false, false⟩, ⟨false, false, false⟩⟩

theorem example_through : Through exampleHandle ["/x".toList] exampleStores exampleFile 0 :=
  ⟨by decide, by decide, by decide⟩

theorem example_opened : paconOpen .zero exampleFile ⟨false, false, false⟩ exampleJoint exampleStores exampleDescriptor =
    some (0, exampleStores, { exampleDescriptor with hitRemoteCr := 1 }) := by
  rfl

theorem remote_reads_fail_example :
    paconRead .zero exampleFile 2 0 exampleJoint exampleStores { exampleDescriptor with hitRemoteCr := 1 } = none :=
  ((remote_reads_fail (fun _ => .inl rfl) example_through example_opened).2 2 0).1

theorem remote_read_lost : ¬∀ (t : State) (file : PaconFile),
    paconOpen .zero exampleFile ⟨false, false, false⟩ exampleJoint exampleStores exampleDescriptor = some (0, t, file) →
      ReadsOpened .zero exampleFile exampleJoint (initRemotePacon 1 [] "/x".toList) t file := by
  intro right
  have data := (right _ _ example_opened).read 2 0 [104, 105] (by decide)
  cases data

end Pacon.Reading
