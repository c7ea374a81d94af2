import Pacon.Calls.Files
import Pacon.Calls.Creating

/-!
# A removed file

`pacon_rm` leaves the entry with STAT_rm behind until the server has removed the file. What each call
makes of such an entry: only `pacon_getattr` looks at the flag.
-/

set_option linter.unusedSectionVars false

namespace Pacon.Calls
open Lib Function Commit

variable {ι κ : Type} [DecidableEq ι] [DecidableEq κ] {cfg : Config ι κ}

inductive Use
  | getattr
  | openFile (flags : Evict.OpenFlags) (file : PFile)
  | read (file : PFile) (remote : Int × PFile) (size offset : Nat)
  | write (file : PFile) (wr : InlineWrite.Write)
  | rm
  | rename (newp : Path)
  | renameTo (oldp : Path)

/-- The call treats the path as gone: it fails and changes nothing, and a rename onto the path does
not find it there. -/
def TakenAsGone (cfg : Config ι κ) (serve : Server ι κ) (s : State ι κ) (c : κ) (w : World) (p : Path) : Use → Prop
  | .getattr => paconGetattr cfg s w p = (-1, s)
  | .openFile flags file => ∃ file', paconOpen cfg s w p flags file = some (-1, s, file')
  | .read file remote size offset => (paconReadNew s w p file remote size offset).1 = none
  | .write file wr => ∃ file', paconWriteNew s c w p file wr = some (-1, s, file')
  | .rm => paconRm cfg s c w p = some (-1, s)
  | .rename newp => paconRename cfg serve s w p newp = some (-1, s)
  | .renameTo oldp => ∀ t, checkRename cfg s w oldp p ≠ .newNameExisted t

def OpensDfs (v : Value) : Prop :=
  getStatFlag v.stat .fileCreated = true ∧ getStatFlag v.stat .inline = false ∧ 0 < v.stat.size.toNat

def NoFile (s : State ι κ) (p : Path) : Prop := ∀ content, s.dfs p ≠ some (.file content)

inductive ReadFails (s : State ι κ) (p : Path) (v : Value) (file : PFile) (remote : Int × PFile)
    (size offset : Nat) : Prop
  | joined (hit : file.hitRemoteCr = true) (failed : remote.1 = -1) (missing : NoFile s p)
  | inline (other : file.hitRemoteCr = true → remote.1 ≠ -1)
      (closed : (if file.hitRemoteCr then remote.2 else file).fd = none)
      (inline : getStatFlag v.stat .inline = true) (short : v.stat.size.toNat < offset + size)
  | dfs (other : file.hitRemoteCr = true → remote.1 ≠ -1)
      (closed : (if file.hitRemoteCr then remote.2 else file).fd = none)
      (there : getStatFlag v.stat .inline = false) (missing : NoFile s p)

def RequestFails (serve : Server ι κ) (s : State ι κ) (w : World) (p newp : Path) : Prop :=
  ∀ mesg, (Message.paconRename w.barrierId (text p) (text newp) w.timestamp).sent = some mesg →
    ∃ answer, answer ≠ '0' ∧ serve mesg s = some (answer, s)

/-- Where a call treats the entry of a removed file as it should: `pacon_getattr` always, the others
only if something else than the flag turns them away. -/
def TurnedAway (cfg : Config ι κ) (serve : Server ι κ) (s : State ι κ) (w : World) (p : Path) (v : Value) : Use → Prop
  | .getattr => True
  | .openFile flags _ => w.permitted .rw = true → OpensDfs v ∧ Evict.openCall s.dfs flags p = none
  | .read file remote size offset => w.permitted .read = true → ReadFails s p v file remote size offset
  | .write file wr => w.permitted .write = true →
      wr.size < (wr.buf.takeWhile (· ≠ 0)).length ∨ file.fd = none ∧ v.stat.size.toNat < wr.offset
  | .rm => w.permitted .rm = false
  | .rename newp => w.permitted .rename = true →
      (s.cache newp).isSome ∨ inWorkspace cfg newp = true ∧ s.dfs newp ≠ none ∧ newp = [] ∨
        (inWorkspace cfg newp = true → s.dfs newp = none) ∧ RequestFails serve s w p newp
  | .renameTo oldp => w.permitted .rename = true →
      s.cache oldp = none ∧ (inWorkspace cfg oldp = true → s.dfs oldp = none)

variable {serve : Server ι κ} {s t : State ι κ} {c : κ} {w : World} {p : Path} {e : Entry}

theorem store_ne (clock : t.clock = s.clock) (p : Path) (v : Value) : store t p v ≠ s := by
  intro same
  have later : t.clock + 1 = s.clock := congrArg State.clock same
  omega

theorem addToMq_clock (s : State ι κ) (c : κ) (m : Msg) : (addToMq s c m).2.clock = s.clock := by
  unfold addToMq
  split <;> rfl

theorem getattr_gone (there : s.cache p = some e) (marked : getStatFlag e.value.stat .rm = true) :
    paconGetattr cfg s w p = (-1, s) := by
  simp [paconGetattr, there, marked]

theorem open_gone_iff (there : s.cache p = some e) (flags : Evict.OpenFlags) (file : PFile) :
    (∃ file', paconOpen cfg s w p flags file = some (-1, s, file')) ↔
      (w.permitted .rw = true → OpensDfs e.value ∧ Evict.openCall s.dfs flags p = none) := by
  unfold paconOpen
  cases permitted : w.permitted .rw with
  | false => simp
  | true =>
      simp only [if_true, there, forall_const]
      by_cases opens : getStatFlag e.value.stat .fileCreated = true ∧
          ¬getStatFlag e.value.stat .inline = true ∧ 0 < e.value.stat.size.toNat
      · rw [if_pos opens]
        have opens' : OpensDfs e.value := ⟨opens.1, Bool.eq_false_of_not_eq_true opens.2.1, opens.2.2⟩
        cases call : Evict.openCall s.dfs flags p with
        | none => exact ⟨fun _ => ⟨opens', rfl⟩, fun _ => ⟨_, rfl⟩⟩
        | some dfs =>
            constructor
            · rintro ⟨file', result⟩
              cases result
            · rintro ⟨-, fails⟩
              cases fails
      · rw [if_neg opens]
        constructor
        · rintro ⟨file', result⟩
          cases result
        · rintro ⟨⟨created, inline, size⟩, -⟩
          exact absurd ⟨created, by simp [inline], size⟩ opens

theorem readDfs_none_iff (s : State ι κ) (p : Path) (file : PFile) (size offset : Nat) :
    (readDfs s p file size offset).1 = none ↔ NoFile s p := by
  unfold readDfs NoFile
  split
  · rename_i content there
    simp [there]
  · rename_i other
    exact ⟨fun _ => other, fun _ => rfl⟩

theorem read_gone_iff (there : s.cache p = some e) (file : PFile) (remote : Int × PFile) (size offset : Nat) :
    (paconReadNew s w p file remote size offset).1 = none ↔
      (w.permitted .read = true → ReadFails s p e.value file remote size offset) := by
  unfold paconReadNew
  cases permitted : w.permitted .read with
  | false => simp
  | true =>
      simp only [if_true, forall_const]
      by_cases hit : file.hitRemoteCr = true ∧ remote.1 = -1
      · rw [if_pos hit, readDfs_none_iff]
        refine ⟨fun missing => .joined hit.1 hit.2 missing, fun fails => ?_⟩
        cases fails with
        | joined _ _ missing => exact missing
        | inline other => exact absurd hit.2 (other hit.1)
        | dfs other => exact absurd hit.2 (other hit.1)
      · rw [if_neg hit]
        have other : file.hitRemoteCr = true → remote.1 ≠ -1 := fun h failed => hit ⟨h, failed⟩
        cases closed : (if file.hitRemoteCr then remote.2 else file).fd with
        | some fd =>
            refine ⟨fun none => (by cases none), fun fails => ?_⟩
            cases fails with
            | joined h failed => exact absurd failed (other h)
            | inline _ closed' => simp [closed] at closed'
            | dfs _ closed' => simp [closed] at closed'
        | none =>
            simp only [there]
            cases inline : getStatFlag e.value.stat .inline with
            | true =>
                simp only [if_true]
                by_cases short : e.value.stat.size.toNat < offset + size
                · rw [if_pos short]
                  exact ⟨fun _ => .inline other closed inline short, fun _ => rfl⟩
                · rw [if_neg short]
                  refine ⟨fun none => (by cases none), fun fails => ?_⟩
                  cases fails with
                  | joined h failed => exact absurd failed (other h)
                  | inline _ _ _ short' => exact absurd short' short
                  | dfs _ _ there' => simp [inline] at there'
            | false =>
                simp only [Bool.false_eq_true, if_false, readDfs_none_iff]
                refine ⟨fun missing => .dfs other closed inline missing, fun fails => ?_⟩
                cases fails with
                | joined h failed => exact absurd failed (other h)
                | inline _ _ inline' => simp [inline] at inline'
                | dfs _ _ _ missing => exact missing

theorem write_gone_iff (there : s.cache p = some e) (file : PFile) (wr : InlineWrite.Write) :
    (∃ file', paconWriteNew s c w p file wr = some (-1, s, file')) ↔
      (w.permitted .write = true → wr.size < (wr.buf.takeWhile (· ≠ 0)).length ∨
        file.fd = none ∧ e.value.stat.size.toNat < wr.offset) := by
  have written : ∀ {t : State ι κ} {file' file'' : PFile},
      some ((wr.size : Int), t, file'') ≠ some (-1, s, file') := by
    intro t file' file'' same
    have size := congrArg Prod.fst (Option.some.inj same)
    dsimp only at size
    omega
  unfold paconWriteNew
  cases permitted : w.permitted .write with
  | false => simp
  | true =>
      simp only [not_true_eq_false, if_false, forall_const]
      by_cases longer : wr.size < (wr.buf.takeWhile (· ≠ 0)).length
      · rw [if_pos longer]
        exact ⟨fun _ => .inl longer, fun _ => ⟨_, rfl⟩⟩
      rw [if_neg longer]
      simp only [there, longer, false_or]
      cases opened : file.fd with
      | some fd =>
          constructor
          · rintro ⟨file', result⟩
            exact absurd result written
          · rintro ⟨closed, -⟩
            cases closed
      | none =>
          by_cases beyond : e.value.stat.size.toNat < wr.offset
          · simp only [if_pos beyond]
            exact ⟨fun _ => ⟨trivial, beyond⟩, fun _ => ⟨_, rfl⟩⟩
          simp only [if_neg beyond]
          constructor
          · rintro ⟨file', result⟩
            split at result
            · split at result
              · exact absurd result written
              · cases result
            · split at result
              · exact absurd result written
              · cases result
          · rintro ⟨-, beyond'⟩
            exact absurd beyond' beyond

theorem rm_gone_iff (there : s.cache p = some e) : paconRm cfg s c w p = some (-1, s) ↔ w.permitted .rm = false := by
  unfold paconRm
  cases permitted : w.permitted .rm with
  | false => simp
  | true =>
      simp only [if_true, getOrLoad_cached there, there, Bool.true_eq_false, iff_false]
      intro result
      have same := congrArg Prod.snd (Option.some.inj result)
      have clock := (addToMq_clock (store s p (flagged e.value .rm)) c ⟨.rm, p⟩).symm.trans
        (congrArg State.clock same)
      exact absurd clock (Nat.succ_ne_self _)

theorem checkRename_cached (permitted : w.permitted .rename = true) (there : s.cache p = some e) (newp : Path) :
    checkRename cfg s w p newp =
      if (s.cache newp).isSome then .newNameExisted s
      else
        match loadToPacon cfg s w newp with
        | (-1, u) => .passed u
        | (_, u) => .newNameExisted u := by
  unfold checkRename
  rw [if_pos permitted, getOrLoad_cached there]
  rfl

theorem request_gone_iff {newp : Path} :
    addToLocalRpc serve s (Message.paconRename w.barrierId (text p) (text newp) w.timestamp) = some (-1, s) ↔
      RequestFails serve s w p newp := by
  unfold addToLocalRpc RequestFails
  split
  · rename_i unsent
    simp [unsent]
  · rename_i mesg sent
    rw [sent]
    simp only [Option.some.injEq, forall_eq', Option.map_eq_some_iff]
    constructor
    · rintro ⟨⟨answer, t⟩, served, result⟩
      have refused : answer ≠ '0' := fun zero => (by simp [zero] at result)
      exact ⟨answer, refused, by rw [served, show t = s from congrArg Prod.snd result]⟩
    · rintro ⟨answer, refused, served⟩
      exact ⟨(answer, s), served, by simp [refused]⟩

theorem rename_gone_iff (there : s.cache p = some e) (newp : Path) :
    paconRename cfg serve s w p newp = some (-1, s) ↔
      (w.permitted .rename = true →
        (s.cache newp).isSome ∨ inWorkspace cfg newp = true ∧ s.dfs newp ≠ none ∧ newp = [] ∨
          (inWorkspace cfg newp = true → s.dfs newp = none) ∧ RequestFails serve s w p newp) := by
  unfold paconRename
  cases permitted : w.permitted .rename with
  | false => simp [checkRename, permitted]
  | true =>
      rw [checkRename_cached permitted there]
      by_cases cached : (s.cache newp).isSome
      · simp [cached]
      simp only [cached, Bool.false_eq_true, if_false, false_or, forall_const]
      by_cases missing : inWorkspace cfg newp = true → s.dfs newp = none
      · rw [loadToPacon_missing missing]
        refine Iff.trans request_gone_iff ?_
        refine ⟨fun fails => .inr ⟨missing, fails⟩, fun either => ?_⟩
        rcases either with ⟨inside, found, -⟩ | ⟨-, fails⟩
        · exact absurd (missing inside) found
        · exact fails
      · obtain ⟨inside, found⟩ := Classical.not_imp.mp missing
        obtain ⟨node, found⟩ := Option.ne_none_iff_exists'.mp found
        rw [loadToPacon_found inside found]
        have uncached : s.cache newp = none := Option.not_isSome_iff_eq_none.mp cached
        by_cases root : newp = []
        · have refused : dmkvAdd s newp (loadedValue w.env node) = none := if_pos (.inl root)
          rw [refused]
          exact ⟨fun _ => .inl ⟨inside, by simp [found], root⟩, fun _ => rfl⟩
        · have added : dmkvAdd s newp (loadedValue w.env node) = some (store s newp (loadedValue w.env node)) :=
            if_neg (by simp [root, uncached])
          rw [added]
          constructor
          · intro result
            exact absurd (congrArg Prod.snd (Option.some.inj result)) (store_ne rfl _ _)
          · rintro (⟨-, -, root'⟩ | ⟨missing', -⟩)
            · exact absurd root' root
            · exact absurd missing' missing

theorem renameTo_gone_iff (there : s.cache p = some e) (oldp : Path) :
    (∀ t, checkRename cfg s w oldp p ≠ .newNameExisted t) ↔
      (w.permitted .rename = true →
        s.cache oldp = none ∧ (inWorkspace cfg oldp = true → s.dfs oldp = none)) := by
  unfold checkRename
  cases permitted : w.permitted .rename with
  | false => simp
  | true =>
      simp only [if_true, forall_const]
      cases old : s.cache oldp with
      | some e' =>
          rw [getOrLoad_cached old]
          refine ⟨fun never => absurd ?_ (never s), fun none => (by cases none.1)⟩
          exact if_pos (by rw [there]; rfl)
      | none =>
          have loads : getOrLoad cfg s w oldp = loadToPacon cfg s w oldp := by simp [getOrLoad, old]
          rw [loads]
          by_cases missing : inWorkspace cfg oldp = true → s.dfs oldp = none
          · rw [loadToPacon_missing missing]
            exact ⟨fun _ => ⟨rfl, missing⟩, fun _ t same => (by cases same)⟩
          · obtain ⟨inside, found⟩ := Classical.not_imp.mp missing
            obtain ⟨node, found⟩ := Option.ne_none_iff_exists'.mp found
            have still : Loaded w p s (loadToPacon cfg s w oldp).2 := loadToPacon_loaded s w oldp
            rw [loadToPacon_found inside found] at still ⊢
            refine ⟨fun never => absurd (if_pos ?_) (never ((dmkvAdd s oldp (loadedValue w.env node)).getD s)),
              fun both => absurd both.2 missing⟩
            rcases still.entry with same | ⟨none, -⟩
            · rw [same, there]
              rfl
            · rw [there] at none
              cases none

/-- Each call treats the entry as that of a file that is gone exactly if it is a `pacon_getattr` or
something else than the flag turns it away. -/
theorem taken_as_gone_iff (there : s.cache p = some e) (marked : getStatFlag e.value.stat .rm = true) (use : Use) :
    TakenAsGone cfg serve s c w p use ↔ TurnedAway cfg serve s w p e.value use := by
  cases use with
  | getattr => exact ⟨fun _ => trivial, fun _ => getattr_gone there marked⟩
  | openFile flags file => exact open_gone_iff there flags file
  | read file remote size offset => exact read_gone_iff there file remote size offset
  | write file wr => exact write_gone_iff there file wr
  | rm => exact rm_gone_iff there
  | rename newp => exact rename_gone_iff there newp
  | renameTo oldp => exact renameTo_gone_iff there oldp

theorem removed_reachable : ∃ s e, (system fileWorkspace).Reachable (Calls (OnPath exampleFile)) s ∧
    s.client () = .idle ∧ s.cache exampleFile = some e ∧ getStatFlag e.value.stat .rm = true ∧
    e.value.stat.size = 0 ∧ (s.cache fileWorkspace.root).isSome := by
  have run := System.exists_reachable (system fileWorkspace) (Calls (OnPath exampleFile))
    (s := initialState fileWorkspace .zero) (initial_initialState _ _ (List.cons_ne_nil _ _)) removeRun
    (fun s : State Unit Unit =>
      decide (s.client () = .idle ∧ (s.cache fileWorkspace.root).isSome) && (s.cache exampleFile).any fun e =>
        decide (getStatFlag e.value.stat .rm = true ∧ e.value.stat.size = 0)) (by decide +kernel)
  obtain ⟨s, reach, h⟩ := run
  obtain ⟨ready, entry⟩ := (Bool.and_eq_true _ _).mp h
  obtain ⟨idle, root⟩ := of_decide_eq_true ready
  obtain ⟨e, there, flags⟩ := (Option.any_eq_true _ _).mp entry
  obtain ⟨marked, size⟩ := of_decide_eq_true flags
  exact ⟨s, e, reach, idle, there, marked, size, root⟩

def noServer : Server Unit Unit := fun _ _ => none

def closedFile : PFile := ⟨none, false⟩

theorem removed_still_there : ∃ s e, (system fileWorkspace).Reachable (Calls (OnPath exampleFile)) s ∧
    s.client () = .idle ∧ s.cache exampleFile = some e ∧ getStatFlag e.value.stat .rm = true ∧
    ∀ use ∈ [Use.openFile ⟨false, false, false⟩ closedFile, .rm, .renameTo fileWorkspace.root],
      ¬TakenAsGone fileWorkspace noServer s () exampleWorld exampleFile use := by
  obtain ⟨s, e, reach, idle, there, marked, size, root⟩ := removed_reachable
  refine ⟨s, e, reach, idle, there, marked, fun use member => ?_⟩
  simp only [List.mem_cons, List.not_mem_nil, or_false] at member
  rcases member with rfl | rfl | rfl
  · intro gone
    obtain ⟨⟨-, -, positive⟩, -⟩ := (open_gone_iff there _ _).mp gone rfl
    simp [size] at positive
  · intro gone
    cases (rm_gone_iff there).mp gone
  · intro gone
    have missing := ((renameTo_gone_iff there _).mp gone rfl).1
    simp [missing] at root

theorem taken_as_gone_iff_getattr : ∃ s e, (system fileWorkspace).Reachable (Calls (OnPath exampleFile)) s ∧
    s.cache exampleFile = some e ∧ getStatFlag e.value.stat .rm = true ∧
    TakenAsGone fileWorkspace noServer s () exampleWorld exampleFile .getattr ∧
    ¬TakenAsGone fileWorkspace noServer s () exampleWorld exampleFile .rm := by
  obtain ⟨s, e, reach, idle, there, marked, -⟩ := removed_reachable
  refine ⟨s, e, reach, there, marked, (taken_as_gone_iff there marked .getattr).mpr trivial, fun gone => ?_⟩
  have denied := (taken_as_gone_iff there marked .rm).mp gone
  cases denied

end Pacon.Calls
