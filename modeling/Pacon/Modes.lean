import Pacon.Calls.Creating
import Pacon.Removing.Model

/-!
# The modes of what is created

The client chooses the mode that it caches, and the server the one that it creates the entry with.
-/

set_option linter.unusedSectionVars false

namespace Pacon.Modes
open Lib Commit Calls Removing Permission

def defaultMode : Kind → BitVec 32
  | .dir => sIfdir ||| 0o755
  | .file => sIfreg ||| 0o644

def spMode (info : PermissionInfo) (kind : Kind) (i : Nat) : BitVec 32 :=
  match info.specials[i]? with
  | none => unset
  | some x => x.mode (kind = .dir)

def make : Kind → Make
  | .dir => .mkdir
  | .file => .create

def permissionOpt : Kind → Opt
  | .dir => .mkdir
  | .file => .create

/-- What `check_permission` returns. A check that overruns its buffers lets no call go on. -/
def permissionResult (info : PermissionInfo) (junk : Junk) (path : CString) (opt : Opt) : Int :=
  (checkPermission info junk path opt).getD (-1)

/-- The result of `check_permission` is used as an index. -/
def chosenMode (perm : Option PermissionInfo) (junk : Junk) (kind : Kind) (path : CString) : BitVec 32 :=
  match perm with
  | none => defaultMode kind
  | some info => spMode info kind (permissionResult info junk path (permissionOpt kind)).toNat

def permits (perm : Option PermissionInfo) (junk : Junk) (path : CString) (opt : Opt) : Bool :=
  match perm with
  | none => true
  | some info => 0 ≤ permissionResult info junk path opt

/-- The caller of `pacon_mkdir` or `pacon_create`, with what `perm_info` makes of the path. -/
def caller (w : World) (perm : Option PermissionInfo) (junk : Junk) (kind : Kind) (path : CString) : World :=
  { w with
    env := { w.env with stat := { w.env.stat with mode := chosenMode perm junk kind path } }
    permitted := permits perm junk path }

/-- The `st_mode` of what `mkdir` and `creat` make with the umask zero; the type is that of the call. -/
def entryMode (kind : Kind) (mode : BitVec 32) : BitVec 32 :=
  match kind with
  | .dir => sIfdir ||| (mode &&& 0o1777)
  | .file => sIfreg ||| (mode &&& 0o7777)

def sIfmt : BitVec 32 := 0o170000

structure SameMode (a b : BitVec 32) : Prop where
  type : a &&& sIfmt = b &&& sIfmt
  permissions : a &&& 0o7777 = b &&& 0o7777

instance (a b : BitVec 32) : Decidable (SameMode a b) :=
  decidable_of_iff (a &&& sIfmt = b &&& sIfmt ∧ a &&& 0o7777 = b &&& 0o7777)
    ⟨fun h => ⟨h.1, h.2⟩, fun h => ⟨h.type, h.permissions⟩⟩

def messageType : Kind → Message.OptType
  | .dir => .mkdir
  | .file => .create

/-- A server after its start, with any list of directories that are being removed. -/
def server (r : RemovingDirs) : ServerInfo := { startPaconServer with removingDirs := r }

def madeMode (kind : Kind) (failures : Nat) : BitVec 32 :=
  match kind with
  | .dir => sIfdir ||| 0o755
  | .file => if failures = 0 then sIfreg ||| 0o644 else sIfreg ||| 0o755

/-- Without batch permissions only a file can differ, if its first attempt failed; with them the mode of the
special location must be what the server uses anyway. -/
def Suits (perm : Option PermissionInfo) (junk : Junk) (kind : Kind) (path : CString) (failures : Nat) : Prop :=
  match perm with
  | none => kind = .dir ∨ failures = 0
  | some info =>
      SameMode (spMode info kind (permissionResult info junk path (permissionOpt kind)).toNat) (madeMode kind failures)

section
variable {ι κ : Type} [DecidableEq ι] [DecidableEq κ] {cfg : Config ι κ}
variable {s t : State ι κ} {c : κ} {w : World} {m : Make} {p : Path} {e : Entry}
variable {perm : Option PermissionInfo} {junk : Junk} {kind made : Kind} {path mesg : CString} {mode : BitVec 32}
variable {failures : Nat} {spPermission : Int} {r : RemovingDirs} {timestamp : BitVec 32}

theorem addNew_cache {u : State ι κ} (other : m = .mkdir ∨ m = .create)
    (run : addNew s c w m p (overMarked c m p) (overLive c m p) = (0, u)) :
    u.cache p = some ⟨s.clock, newValue w.env m⟩ := by
  have stored : (store s p (newValue w.env m)).cache p = some ⟨s.clock, newValue w.env m⟩ := Function.update_self ..
  have queued {v : State ι κ} {msg : Msg} (queue : addToMq (store s p (newValue w.env m)) c msg = (0, v)) :
      v.cache p = some ⟨s.clock, newValue w.env m⟩ := by
    unfold addToMq at queue
    split at queue
    · cases queue
    · cases queue
      exact stored
  unfold addNew at run
  cases added : dmkvAdd s p (newValue w.env m) with
  | some v =>
      obtain ⟨-, -, rfl⟩ := dmkvAdd_some added
      rw [added] at run
      exact queued run
  | none =>
      cases there : s.cache p with
      | none =>
          simp only [added, there] at run
          cases run
      | some e =>
          simp only [added, there] at run
          split at run
          · rcases other with rfl | rfl
            · cases run
              exact stored
            · exact queued run
          · rcases other with rfl | rfl <;> cases run

theorem created_mode (run : create cfg s c w p (make kind) = some (0, t)) :
    ∃ e, t.cache p = some e ∧ e.value.stat.mode = w.env.stat.mode := by
  obtain ⟨ret, u, check⟩ := create_checked run
  by_cases passed : ret = 0
  · subst passed
    have small : Small (make kind) := by cases kind <;> trivial
    rw [create_adds check small] at run
    refine ⟨_, addNew_cache (by cases kind <;> simp [make]) (Option.some.inj run), ?_⟩
    cases kind <;> rfl
  · have result := (create_refused check passed).symm.trans run
    cases result
    exact absurd rfl passed

theorem commitMake_made
    (commit : commitMake (server r) spPermission (some failures) kind path = .made made mode) :
    entryMode made mode = madeMode kind failures := by
  unfold commitMake at commit
  split_ifs at commit
  cases failures with
  | zero =>
      cases commit
      cases kind <;> decide
  | succ n =>
      have retried : retryMode (server r) kind = sIfdir ||| 0o755 := by cases kind <;> rfl
      rw [retried] at commit
      cases commit
      cases kind with
      | dir => rfl
      | file =>
          rw [madeMode, if_neg n.succ_ne_zero]
          rfl

theorem commitToFs_sent (sent : (Message.addToMq path (messageType kind) timestamp).sent = some mesg)
    (read : (Message.commitToFs mesg).1 = path) (info : ServerInfo) (attempts : Option Nat) :
    Removing.commitToFs info spPermission attempts mesg =
      some (commitMake info spPermission attempts kind path) := by
  have code : (Message.commitToFs mesg).2 = some (messageType kind).code := by
    show Message.charAt mesg ((Message.commitToFs mesg).1.length + 1) = _
    rw [read, Message.sent_addToMq sent]
    exact Message.charAt_code ..
  unfold Removing.commitToFs
  rw [code, read]
  cases kind <;> rfl

theorem sameMode_made_iff : SameMode (madeMode kind failures) (chosenMode perm junk kind path) ↔
    Suits perm junk kind path failures := by
  cases perm with
  | some info => exact ⟨fun h => ⟨h.type.symm, h.permissions.symm⟩, fun h => ⟨h.type.symm, h.permissions.symm⟩⟩
  | none =>
      cases kind with
      | dir => exact ⟨fun _ => .inl rfl, fun _ => ⟨rfl, rfl⟩⟩
      | file =>
          by_cases first : failures = 0
          · simp only [Suits, first, or_true, iff_true]
            exact ⟨rfl, rfl⟩
          · have differ : ¬SameMode (sIfreg ||| 0o755) (sIfreg ||| 0o644) := by decide
            simpa [Suits, first, madeMode, chosenMode, defaultMode] using differ

/-- What the server creates for a call that returned 0 has the mode of the cached record exactly under the
condition. -/
theorem modes_agree_iff (r : RemovingDirs) (spPermission : Int) (failures : Nat) (timestamp : BitVec 32)
    (run : create cfg s c (caller w perm junk kind (text p)) p (make kind) = some (0, t))
    (sent : (Message.addToMq (text p) (messageType kind) timestamp).sent = some mesg)
    (read : (Message.commitToFs mesg).1 = text p)
    (commit : Removing.commitToFs (server r) spPermission (some failures) mesg = some (.made made mode)) :
    (∃ e, t.cache p = some e ∧ SameMode (entryMode made mode) e.value.stat.mode) ↔
      Suits perm junk kind (text p) failures := by
  obtain ⟨e, there, chosen⟩ := created_mode run
  rw [commitToFs_sent sent read] at commit
  rw [← sameMode_made_iff, ← commitMake_made (Option.some.inj commit)]
  constructor
  · rintro ⟨e', there', same⟩
    cases there.symm.trans there'
    rw [chosen] at same
    exact same
  · intro same
    refine ⟨e, there, ?_⟩
    rw [chosen]
    exact same

end

def exampleJunk : Junk := ⟨0, fun _ => 0⟩

def emptyWorkspace : State Unit Unit := initialState fileWorkspace .zero

def createMessage (kind : Kind) : CString := text exampleFile ++ (messageType kind).text ++ ['7']

theorem created (kind : Kind) : ∃ t, create fileWorkspace emptyWorkspace ()
    (caller exampleWorld none exampleJunk kind (text exampleFile)) exampleFile (make kind) = some (0, t) := by
  cases kind <;> exact ⟨_, rfl⟩

theorem modes_agree_iff_mkdir : ∃ t : State Unit Unit,
    create fileWorkspace emptyWorkspace () (caller exampleWorld none exampleJunk .dir (text exampleFile)) exampleFile
      .mkdir = some (0, t) ∧
    ∃ e, t.cache exampleFile = some e ∧ SameMode (entryMode .dir (sIfdir ||| 0o755)) e.value.stat.mode := by
  obtain ⟨t, run⟩ := created .dir
  have sent : (Message.addToMq (text exampleFile) (messageType .dir) 7).sent = some (createMessage .dir) := rfl
  exact ⟨t, run, (modes_agree_iff ⟨0, fun _ => []⟩ 0 3 7 run sent rfl rfl).mpr (.inl rfl)⟩

theorem modes_disagree : ¬∀ (t : State Unit Unit) (failures : Nat) (mode : BitVec 32),
    create fileWorkspace emptyWorkspace () (caller exampleWorld none exampleJunk .file (text exampleFile)) exampleFile
      .create = some (0, t) →
    Removing.commitToFs startPaconServer 0 (some failures) (createMessage .file) = some (.made .file mode) →
    ∃ e, t.cache exampleFile = some e ∧ SameMode (entryMode .file mode) e.value.stat.mode := by
  intro agree
  obtain ⟨t, run⟩ := created .file
  obtain ⟨e, there, same⟩ := agree t 1 (sIfdir ||| 0o755) run rfl
  obtain ⟨e', there', chosen⟩ := created_mode run
  cases there.symm.trans there'
  rw [chosen] at same
  revert same
  decide

end Pacon.Modes
