import Pacon.Calls.Creating
import Pacon.Calls.Files

/-!
# What fills the cache

`load_to_pacon`, `pacon_getattr` and `pacon_open` each make a record of their own of what is on the DFS.
The records agree in what `stat` has told and differ in the flags, which the parent check goes by.
-/

set_option linter.unusedSectionVars false

namespace Pacon.Calls
open Lib Function Commit

variable {ι κ : Type} [DecidableEq ι] [DecidableEq κ] {cfg : Config ι κ}

inductive Fill
  | load
  | getattr
  | openFile (flags : Evict.OpenFlags) (file : PFile)

inductive Way
  | load | getattr | openFile
  deriving DecidableEq

def Fill.way : Fill → Way
  | .load => .load
  | .getattr => .getattr
  | .openFile _ _ => .openFile

def Fill.run (cfg : Config ι κ) (s : State ι κ) (w : World) (p : Path) : Fill → Option (State ι κ)
  | .load => some (loadToPacon cfg s w p).2
  | .getattr => some (paconGetattr cfg s w p).2
  | .openFile flags file => (paconOpen cfg s w p flags file).map fun x => x.2.1

def Fill.record (cfg : Config ι κ) (s : State ι κ) (w : World) (p : Path) (f : Fill) : Option Value :=
  (f.run cfg s w p).bind fun t => (t.cache p).map Entry.value

structure SameAttributes (a b : PaconStat) : Prop where
  mode : a.mode = b.mode
  times : a.ctime = b.ctime ∧ a.atime = b.atime ∧ a.mtime = b.mtime
  size : a.size = b.size
  owners : a.uid = b.uid ∧ a.gid = b.gid

structure SameRecord (a b : PaconStat) : Prop extends SameAttributes a b where
  type : getStatFlag a .type = getStatFlag b .type
  existedinDfs : getStatFlag a .existedinDfs = getStatFlag b .existedinDfs
  fileCreated : getStatFlag a .fileCreated = getStatFlag b .fileCreated

structure SameLater (cfg : Config ι κ) (t u : State ι κ) (p : Path) : Prop where
  parent : ∀ (c : κ) (w : World) (name : CString), (checkParentDir cfg t c w (name :: p)).map Prod.fst =
    (checkParentDir cfg u c w (name :: p)).map Prod.fst
  getattr : ∀ w : World, (paconGetattr cfg t w p).1 = (paconGetattr cfg u w p).1
  openFile : ∀ (w : World) (flags : Evict.OpenFlags) (file : PFile),
    (paconOpen cfg t w p flags file).map Prod.fst = (paconOpen cfg u w p flags file).map Prod.fst

structure Alike (cfg : Config ι κ) (s : State ι κ) (w : World) (p : Path) : Prop where
  records : ∀ (f g : Fill) (a b : Value), f.record cfg s w p = some a → g.record cfg s w p = some b →
    SameRecord a.stat b.stat
  later : ∀ (f g : Fill) (t u : State ι κ), f.run cfg s w p = some t → g.run cfg s w p = some u →
    t.cache p ≠ none → u.cache p ≠ none → SameLater cfg t u p

/-- The path is on the DFS, in the workspace, and not cached. -/
structure Uncached (cfg : Config ι κ) (s : State ι κ) (p : Path) (node : Node) : Prop where
  notRoot : p ≠ []
  inside : inWorkspace cfg p = true
  missing : s.cache p = none
  there : s.dfs p = some node

def Way.value (env : Env) (node : Node) : Way → Value
  | .load => loadedValue env node
  | .getattr => Evict.getattrValue env node
  | .openFile => Evict.openedValue env node

variable {s t : State ι κ} {w : World} {p : Path} {node : Node} {env : Env} {v : Value}

theorem existedin_value (way : Way) : getStatFlag (way.value env node).stat .existedinDfs = decide (way = .load) := by
  cases way <;> cases node <;>
    simp [Way.value, loadedValue, Evict.getattrValue, Evict.openedValue, Evict.statRecord, Evict.counted, getStatFlag,
      setStatFlag, StatFlag.bit]

theorem created_value {way : Way} (other : way ≠ .load) :
    getStatFlag (way.value env node).stat .fileCreated = decide (way = .openFile) := by
  cases way with
  | load => exact absurd rfl other
  | getattr | openFile =>
      cases node <;>
        simp [Way.value, Evict.getattrValue, Evict.openedValue, Evict.statRecord, Evict.counted, getStatFlag,
          setStatFlag, StatFlag.bit]

theorem attributes_value (way way' : Way) : SameAttributes (way.value env node).stat (way'.value env node).stat := by
  cases way <;> cases way' <;> cases node <;> exact ⟨rfl, ⟨rfl, rfl, rfl⟩, rfl, rfl, rfl⟩

theorem sameRecord_value_iff (way way' : Way) :
    SameRecord (way.value env node).stat (way'.value env node).stat ↔ way = way' := by
  constructor
  · rintro ⟨-, -, existedin, created⟩
    rw [existedin_value, existedin_value, decide_eq_decide] at existedin
    by_cases load : way = .load
    · exact load.trans (existedin.mp load).symm
    · rw [created_value load, created_value (mt existedin.mpr load), decide_eq_decide] at created
      cases way <;> cases way' <;> simp_all
  · rintro rfl
    exact ⟨attributes_value way way, rfl, rfl, rfl⟩

theorem Uncached.add (h : Uncached cfg s p node) (dfs : Path → Option Node) (v : Value) :
    dmkvAdd { s with dfs := dfs } p v = some (store { s with dfs := dfs } p v) := by
  simp [dmkvAdd, h.notRoot, h.missing]

theorem Uncached.run (h : Uncached cfg s p node) {f : Fill} (run : f.run cfg s w p = some t)
    (cached : t.cache p ≠ none) : ∃ dfs, t = store { s with dfs := dfs } p (f.way.value w.env node) := by
  cases f with
  | load =>
      have added := h.add s.dfs (loadedValue w.env node)
      rw [Fill.run, loadToPacon_found h.inside h.there, added] at run
      exact ⟨s.dfs, (Option.some.inj run).symm⟩
  | getattr =>
      cases allowed : w.permitted .read with
      | true =>
          have added := h.add s.dfs (Evict.getattrValue w.env node)
          simp only [Fill.run, paconGetattr, allowed, if_true, h.missing, h.inside, h.there, added] at run
          exact ⟨s.dfs, (Option.some.inj run).symm⟩
      | false =>
          simp only [Fill.run, paconGetattr, allowed, Bool.false_eq_true, if_false, Option.some.injEq] at run
          exact absurd (run ▸ h.missing) cached
  | openFile flags file =>
      obtain ⟨⟨ret, u, file'⟩, opened, rfl⟩ := Option.map_eq_some_iff.mp run
      unfold paconOpen at opened
      cases allowed : w.permitted .rw with
      | false =>
          simp only [allowed, Bool.false_eq_true, if_false, Option.some.injEq, Prod.mk.injEq] at opened
          exact absurd (opened.2.1 ▸ h.missing) cached
      | true =>
          simp only [allowed, if_true, h.missing, h.inside, h.there] at opened
          cases call : Evict.openCall s.dfs flags p with
          | none =>
              simp only [call, Option.some.injEq, Prod.mk.injEq] at opened
              exact absurd (opened.2.1 ▸ h.missing) cached
          | some dfs =>
              simp only [call, h.add, Option.map_some, Option.some.injEq, Prod.mk.injEq] at opened
              exact ⟨dfs, opened.2.1.symm⟩

theorem Uncached.record (h : Uncached cfg s p node) {f : Fill} (filled : f.record cfg s w p = some v) :
    v = f.way.value w.env node := by
  obtain ⟨t, run, entry⟩ := Option.bind_eq_some_iff.mp filled
  obtain ⟨e, there, rfl⟩ := Option.map_eq_some_iff.mp entry
  obtain ⟨dfs, rfl⟩ := h.run run (by simp [there])
  rw [store_cache, update_self] at there
  cases there
  rfl

theorem Uncached.load_records (h : Uncached cfg s p node) : ∃ v, Fill.load.record cfg s w p = some v := by
  have added := h.add s.dfs (loadedValue w.env node)
  exact ⟨_, by simp [Fill.record, Fill.run, loadToPacon_found h.inside h.there, added, store_cache]; rfl⟩

theorem Uncached.getattr_records (h : Uncached cfg s p node) (allowed : w.permitted .read = true) :
    ∃ v, Fill.getattr.record cfg s w p = some v := by
  have added := h.add s.dfs (Evict.getattrValue w.env node)
  exact ⟨_, by simp [Fill.record, Fill.run, paconGetattr, allowed, h.missing, h.inside, h.there, added, store_cache]; rfl⟩

theorem Uncached.sameRecord_iff (h : Uncached cfg s p node) {f g : Fill} {a b : Value}
    (left : f.record cfg s w p = some a) (right : g.record cfg s w p = some b) :
    SameRecord a.stat b.stat ↔ f.way = g.way := by
  rw [h.record left, h.record right]
  exact sameRecord_value_iff f.way g.way

theorem Uncached.not_alike (h : Uncached cfg s p node) (allowed : w.permitted .read = true) : ¬Alike cfg s w p := by
  intro alike
  obtain ⟨a, load⟩ := h.load_records (w := w)
  obtain ⟨b, getattr⟩ := h.getattr_records allowed
  cases (h.sameRecord_iff load getattr).mp (alike.records _ _ a b load getattr)

/-- The records never agree: `load_to_pacon` and `pacon_getattr` both leave one, and two of them are the
same only if they were made the same way. -/
theorem fills_differ (h : Uncached cfg s p node) (allowed : w.permitted .read = true) :
    ¬Alike cfg s w p ∧
      ∀ (f g : Fill) (a b : Value), f.record cfg s w p = some a → g.record cfg s w p = some b →
        SameAttributes a.stat b.stat ∧ (SameRecord a.stat b.stat ↔ f.way = g.way) := by
  refine ⟨h.not_alike allowed, fun f g a b left right => ⟨?_, h.sameRecord_iff left right⟩⟩
  rw [h.record left, h.record right]
  exact attributes_value f.way g.way

theorem checkParentDir_cached {c : κ} {name : CString} {e : Entry} (there : t.cache p = some e)
    (unchecked : t.table c p = false) (fits : (text (name :: p)).length < Message.pathMax) (w : World) :
    checkParentDir cfg t c w (name :: p) = checkParentEntry cfg t c w p e := by
  unfold checkParentDir
  rw [if_neg (List.cons_ne_nil name p), if_neg (Nat.not_le_of_lt fits), List.tail_cons, unchecked,
    getOrLoad_cached there]
  simp only [Bool.false_eq_true, if_false, there]

theorem file_as_parent {content : List UInt8} {f : Fill} {c : κ} {name : CString}
    (h : Uncached cfg s p (.file content)) (run : f.run cfg s w p = some t) (cached : t.cache p ≠ none)
    (unchecked : s.table c p = false) (fits : (text (name :: p)).length < Message.pathMax) (w' : World) :
    ∃ u, checkParentDir cfg t c w' (name :: p) = some (if f.way = .load then -1 else 0, u) := by
  obtain ⟨dfs, rfl⟩ := h.run run cached
  rw [checkParentDir_cached (by rw [store_cache, update_self]) (by exact unchecked) fits]
  unfold checkParentEntry
  cases way : f.way <;>
    simp [Way.value, loadedValue, Evict.getattrValue, Evict.openedValue, Evict.statRecord, Evict.counted, getStatFlag,
      setStatFlag, StatFlag.bit]

theorem children_not_loaded {f : Fill} {c : κ} {name : CString} (h : Uncached cfg s p .dir)
    (run : f.run cfg s w p = some t) (cached : t.cache p ≠ none) (other : f.way ≠ .load)
    (unchecked : s.table c p = false) (fits : (text (name :: p)).length < Message.pathMax) (w' : World) :
    checkParentDir cfg t c w' (name :: p) = some (0, addToDirCheckTable t c p) := by
  obtain ⟨dfs, rfl⟩ := h.run run cached
  rw [checkParentDir_cached (by rw [store_cache, update_self]) (by exact unchecked) fits]
  unfold checkParentEntry
  cases way : f.way with
  | load => exact absurd way other
  | getattr | openFile =>
      simp [Way.value, Evict.getattrValue, Evict.openedValue, Evict.statRecord, Evict.counted, getStatFlag,
        setStatFlag, StatFlag.bit]

def existingFile : State Unit Unit :=
  { initialState fileWorkspace .zero with
    dfs := update (initialState fileWorkspace .zero : State Unit Unit).dfs exampleFile (some (.file [])) }

theorem existingFile_uncached : Uncached fileWorkspace existingFile exampleFile (.file []) :=
  ⟨by decide, by decide, by decide, by decide⟩

theorem fills_differ_file : Uncached fileWorkspace existingFile exampleFile (.file []) ∧
    ¬Alike fileWorkspace existingFile exampleWorld exampleFile :=
  ⟨existingFile_uncached, (fills_differ (w := exampleWorld) existingFile_uncached rfl).1⟩

theorem fills_not_alike : ¬∀ (s : State Unit Unit) (p : Path) (node : Node), Uncached fileWorkspace s p node →
    Alike fileWorkspace s exampleWorld p := by
  intro alike
  have later := (alike existingFile exampleFile _ existingFile_uncached).later .load .getattr _ _ rfl rfl
    (by decide) (by decide)
  have same := later.parent () exampleWorld ['x']
  revert same
  decide

end Pacon.Calls
