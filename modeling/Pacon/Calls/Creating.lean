import Pacon.Calls.Parent
import Pacon.Commit.Recreate
import Pacon.Commit.Versions

/-!
# Creating calls, all or nothing

A creating call should store a new entry and send its message, or do neither. The parent check in
front of it can load the path, and behind it there are four ways on.
-/

set_option linter.unusedSectionVars false

namespace Pacon.Calls
open Lib Function Commit

variable {ι κ : Type} [DecidableEq ι] [DecidableEq κ] {cfg : Config ι κ}

/-- What is cached afterwards is new and the call's. -/
def StoredNew (before after : Option Entry) (w : World) (m : Make) : Prop :=
  after ≠ before ∧ ∃ e, after = some e ∧ e.value = newValue w.env m ∧ getStatFlag e.value.stat .rm = false

structure Whole (s t : State ι κ) (c : κ) (w : World) (m : Make) (p : Path) (ret : Int) : Prop where
  success : ret = 0 ↔ StoredNew (s.cache p) (t.cache p) w m ∧
    t.out = update s.out c (s.out c ++ [Call.msg ⟨.make m, p⟩])
  failure : ret ≠ 0 → t.cache p = s.cache p ∧ t.out = s.out

def AllOrNothing (cfg : Config ι κ) (s : State ι κ) (c : κ) (w : World) (m : Make) (p : Path) : Prop :=
  ∀ ret t, create cfg s c w p m = some (ret, t) → Whole s t c w m p ret

def Room (p : Path) : Prop := (text p).length + 3 ≤ Message.pathMax

instance (p : Path) : Decidable (Room p) := inferInstanceAs (Decidable (_ ≤ _))

def Small : Make → Prop
  | .createWrite buf => buf.length < inlineMax - 1
  | .mkdir | .create => True

inductive AddProper (m : Make) (p : Path) : Option Entry → Prop
  | fresh (room : p = [] ∨ Room p) : AddProper m p none
  | marked {e} (marked : getStatFlag e.value.stat .rm = true) (sends : m ≠ .mkdir) (room : Room p) :
      AddProper m p (some e)
  | live {e} (live : getStatFlag e.value.stat .rm = false) (silent : ∀ buf, m = .createWrite buf → ¬Room p) :
      AddProper m p (some e)

/-- The parent check does not load the path, and the add, if the call comes to it, is proper. -/
def Proper (cfg : Config ι κ) (s : State ι κ) (c : κ) (w : World) (m : Make) (p : Path) : Prop :=
  ¬LoadsPath cfg s c w m p ∧ (Accepts cfg s c w m p → Small m → AddProper m p (s.cache p))

variable {s t u : State ι κ} {c : κ} {w : World} {m : Make} {p q : Path} {ret : Int}

theorem proper_iff : Proper cfg s c w m p ↔ ∀ ret t, checked cfg s c w m p = some (ret, t) →
    t.cache p = s.cache p ∧ (ret = 0 → Small m → AddProper m p (s.cache p)) := by
  unfold Proper
  rw [loadsPath_iff, accepts_iff]
  constructor
  · rintro ⟨kept, add⟩ ret t check
    refine ⟨?_, fun zero small => add ⟨t, zero ▸ check⟩ small⟩
    by_contra changed
    exact kept ⟨ret, t, check, changed⟩
  · intro proper
    exact ⟨fun ⟨ret, t, check, changed⟩ => changed (proper ret t check).1,
      fun ⟨t, check⟩ small => (proper 0 t check).2 rfl small⟩

def overMarked (c : κ) (m : Make) (p : Path) (u : State ι κ) : Int × State ι κ :=
  match m with
  | .mkdir => (0, u)
  | .create | .createWrite _ => addToMq u c ⟨.create, p⟩

def overLive (c : κ) (m : Make) (p : Path) (u : State ι κ) : Int × State ι κ :=
  match m with
  | .mkdir | .create => (-1, u)
  | .createWrite _ => addToMq u c ⟨.create, p⟩

theorem create_refused (check : checked cfg s c w m p = some (ret, t)) (refused : ret ≠ 0) :
    create cfg s c w p m = some (ret, t) := by
  cases m <;> simp [create, paconMkdir, paconCreate, paconCreateWrite, check, refused]

theorem create_large (check : checked cfg s c w m p = some (0, t)) (large : ¬Small m) :
    create cfg s c w p m = some (-1, t) := by
  cases m with
  | mkdir | create => exact absurd trivial large
  | createWrite buf =>
      simp only [create, paconCreateWrite, check]
      exact if_neg large

theorem create_adds (check : checked cfg s c w m p = some (0, t)) (small : Small m) :
    create cfg s c w p m = some (addNew t c w m p (overMarked c m p) (overLive c m p)) := by
  cases m with
  | mkdir | create =>
      simp only [create, paconMkdir, paconCreate, check]
      rfl
  | createWrite buf =>
      simp only [create, paconCreateWrite, check]
      exact if_pos small

theorem create_checked (run : create cfg s c w p m = some (ret, t)) :
    ∃ ret₁ t₁, checked cfg s c w m p = some (ret₁, t₁) := by
  cases check : checked cfg s c w m p with
  | none => cases m <;> simp [create, paconMkdir, paconCreate, paconCreateWrite, check] at run
  | some x => exact ⟨x.1, x.2, rfl⟩

theorem addToMq_room (room : Room p) (s : State ι κ) (c : κ) (opt : OptType) :
    addToMq s c ⟨opt, p⟩ = (0, { s with out := update s.out c (s.out c ++ [⟨opt, p⟩]) }) :=
  if_neg (Nat.not_lt.mpr room)

theorem addToMq_long (long : ¬Room p) (s : State ι κ) (c : κ) (opt : OptType) :
    addToMq s c ⟨opt, p⟩ = (-1, s) :=
  if_pos (Nat.lt_of_not_le long)

theorem live_newValue (w : World) (m : Make) : getStatFlag (newValue w.env m).stat .rm = false := by
  cases m <;> simp [newValue, getStatFlag_newStat]

theorem fresh_newValue (w : World) (m : Make) : getStatFlag (newValue w.env m).stat .existedinDfs = false := by
  cases m <;> simp [newValue, getStatFlag_newStat]

theorem out_ne (s : State ι κ) (c : κ) (msg : Msg) : s.out ≠ update s.out c (s.out c ++ [msg]) := by
  intro same
  have at_c := congrFun same c
  rw [update_self] at at_c
  simpa using congrArg List.length at_c

theorem whole_refused (s : State ι κ) (c : κ) (w : World) (m : Make) (p : Path) : Whole s s c w m p (-1) where
  success := ⟨fun zero => absurd zero (by decide), fun both => absurd rfl both.1.1⟩
  failure _ := ⟨rfl, rfl⟩

theorem whole_stored (other : ∀ e, s.cache p = some e → e.cas < s.clock) :
    Whole s { store s p (newValue w.env m) with
      out := update s.out c (s.out c ++ [Call.msg ⟨.make m, p⟩]) } c w m p 0 where
  success := by
    refine ⟨fun _ => ⟨⟨fun same => ?_, ⟨s.clock, newValue w.env m⟩, update_self .., rfl, live_newValue w m⟩, rfl⟩,
      fun _ => rfl⟩
    have entry : s.cache p = some ⟨s.clock, newValue w.env m⟩ := same.symm.trans (update_self ..)
    exact absurd (other _ entry) (Nat.lt_irrefl _)
  failure never := absurd rfl never

theorem not_whole_stored (other : ∀ e, s.cache p = some e → e.cas < s.clock) (ret : Int) :
    ¬Whole s (store s p (newValue w.env m)) c w m p ret := by
  intro whole
  by_cases zero : ret = 0
  · exact out_ne s c _ (whole.success.mp zero).2
  · have same := (whole.failure zero).1
    rw [store_cache, update_self] at same
    exact absurd (other _ same.symm) (Nat.lt_irrefl _)

theorem not_whole_sent (out : κ → List Msg) : ¬Whole s { s with out := out } c w m p 0 :=
  fun whole => (whole.success.mp rfl).1.1 rfl

theorem addNew_whole (versions : ∀ e, s.cache p = some e → e.cas < s.clock) :
    Whole s (addNew s c w m p (overMarked c m p) (overLive c m p)).2 c w m p
      (addNew s c w m p (overMarked c m p) (overLive c m p)).1 ↔ AddProper m p (s.cache p) := by
  unfold addNew
  cases entry : s.cache p with
  | none =>
      by_cases root : p = []
      · have refused : dmkvAdd s p (newValue w.env m) = none := if_pos (.inl root)
        simp only [refused]
        exact ⟨fun _ => .fresh (.inl root), fun _ => whole_refused s c w m p⟩
      · have added : dmkvAdd s p (newValue w.env m) = some (store s p (newValue w.env m)) :=
          if_neg (by simp [root, entry])
        simp only [added]
        by_cases room : Room p
        · have sent := addToMq_room room (store s p (newValue w.env m)) c (Op.make m).optType
          simp only [Call.msg, sent]
          exact ⟨fun _ => .fresh (.inr room), fun _ => whole_stored versions⟩
        · have unsent := addToMq_long room (store s p (newValue w.env m)) c (Op.make m).optType
          simp only [Call.msg, unsent]
          refine ⟨fun whole => absurd whole (not_whole_stored versions _), fun proper => ?_⟩
          cases proper with
          | fresh room' => exact absurd (room'.resolve_left root) room
  | some e =>
      have refused : dmkvAdd s p (newValue w.env m) = none := if_pos (.inr (by simp [entry]))
      simp only [refused]
      cases flag : getStatFlag e.value.stat .rm with
      | true =>
          simp only [if_true]
          have proper_iff : AddProper m p (some e) ↔ m ≠ .mkdir ∧ Room p := by
            refine ⟨fun proper => ?_, fun both => .marked flag both.1 both.2⟩
            cases proper with
            | marked _ sends room => exact ⟨sends, room⟩
            | live live => simp [flag] at live
          rw [proper_iff]
          cases m with
          | mkdir => exact ⟨fun whole => absurd whole (not_whole_stored versions _), fun both => absurd rfl both.1⟩
          | create | createWrite buf =>
              simp only [overMarked]
              by_cases room : Room p
              · rw [addToMq_room room]
                exact ⟨fun _ => ⟨Make.noConfusion, room⟩, fun _ => whole_stored versions⟩
              · rw [addToMq_long room]
                exact ⟨fun whole => absurd whole (not_whole_stored versions _), fun both => absurd both.2 room⟩
      | false =>
          simp only [Bool.false_eq_true, if_false]
          have proper_iff : AddProper m p (some e) ↔ ∀ buf, m = .createWrite buf → ¬Room p := by
            refine ⟨fun proper => ?_, fun silent => .live flag silent⟩
            cases proper with
            | marked marked => simp [flag] at marked
            | live _ silent => exact silent
          rw [proper_iff]
          cases m with
          | mkdir | create => exact ⟨fun _ buf same => (by cases same), fun _ => whole_refused s c w _ p⟩
          | createWrite buf =>
              simp only [overLive]
              by_cases room : Room p
              · rw [addToMq_room room]
                exact ⟨fun whole => absurd whole (not_whole_sent _), fun silent => absurd room (silent buf rfl)⟩
              · rw [addToMq_long room]
                exact ⟨fun _ _ _ => room, fun _ => whole_refused s c w _ p⟩

theorem Whole.congr (cache : t.cache p = s.cache p) (out : t.out = s.out) :
    Whole t u c w m p ret ↔ Whole s u c w m p ret := by
  constructor <;> intro whole
  · exact ⟨by rw [← cache, ← out]; exact whole.success, by rw [← cache, ← out]; exact whole.failure⟩
  · exact ⟨by rw [cache, out]; exact whole.success, by rw [cache, out]; exact whole.failure⟩

theorem live_loadedValue (env : Env) (node : Node) : getStatFlag (loadedValue env node).stat .rm = false := by
  cases node <;> simp only [loadedValue, getStatFlag_setStatFlag, reduceCtorEq, if_false] <;> simp [getStatFlag_eq]

theorem not_whole_loaded {e : Entry} {node : Node} (missing : s.cache p = none) (there : u.cache p = some e)
    (loaded : e.value = loadedValue w.env node) : ¬Whole s u c w m p ret := by
  intro whole
  by_cases zero : ret = 0
  · obtain ⟨-, e', there', new, -⟩ := (whole.success.mp zero).1
    rw [there] at there'
    cases there'
    have fresh := fresh_newValue w m
    rw [← new, loaded] at fresh
    cases node <;> simp [loadedValue] at fresh
  · have same := (whole.failure zero).1
    rw [missing, there] at same
    cases same

theorem addNew_live {e : Entry} (there : s.cache p = some e) (live : getStatFlag e.value.stat .rm = false) :
    (addNew s c w m p (overMarked c m p) (overLive c m p)).2.cache p = some e := by
  have refused : dmkvAdd s p (newValue w.env m) = none := if_pos (.inr (by simp [there]))
  unfold addNew
  simp only [refused, there, live, Bool.false_eq_true, if_false]
  cases m with
  | mkdir | create => exact there
  | createWrite buf =>
      simp only [overLive, addToMq]
      split <;> exact there

/-- A creating call makes its path or leaves it alone exactly if the parent check does not load it,
the message fits, and it is no mkdir of a removed path and no write to a live one. -/
theorem all_or_nothing_iff (versions : ∀ e, s.cache p = some e → e.cas < s.clock) :
    AllOrNothing cfg s c w m p ↔ Proper cfg s c w m p := by
  rw [proper_iff]
  constructor
  · intro all ret t check
    have loaded : Loaded w p s t := checked_loaded check
    rcases loaded.entry with same | ⟨missing, e, node, there, value⟩
    · refine ⟨same, fun zero small => ?_⟩
      subst zero
      have whole := all _ _ (create_adds check small)
      rw [← same]
      exact (addNew_whole fun e there => (versions e (same ▸ there)).trans_le loaded.clock).mp
        ((Whole.congr same loaded.out).mpr whole)
    · exfalso
      by_cases zero : ret = 0
      · subst zero
        by_cases small : Small m
        · refine not_whole_loaded missing (addNew_live there ?_) value (all _ _ (create_adds check small))
          rw [value]
          exact live_loadedValue w.env node
        · exact not_whole_loaded missing there value (all _ _ (create_large check small))
      · exact not_whole_loaded missing there value (all _ _ (create_refused check zero))
  · intro proper ret u run
    obtain ⟨ret₁, t, check⟩ := create_checked run
    have loaded : Loaded w p s t := checked_loaded check
    obtain ⟨same, add⟩ := proper ret₁ t check
    refine (Whole.congr same loaded.out).mp ?_
    by_cases zero : ret₁ = 0
    · subst zero
      by_cases small : Small m
      · have result := Option.some.inj ((create_adds check small).symm.trans run)
        rw [show ret = _ from (congrArg Prod.fst result).symm, show u = _ from (congrArg Prod.snd result).symm]
        refine (addNew_whole fun e there => (versions e (same ▸ there)).trans_le loaded.clock).mpr ?_
        rw [same]
        exact add rfl small
      · rw [create_large check small] at run
        cases run
        exact whole_refused _ c w m p
    · have result := Option.some.inj ((create_refused check zero).symm.trans run)
      rw [← (Prod.mk.inj result).1, ← (Prod.mk.inj result).2]
      exact ⟨⟨fun is => absurd is zero, fun both => absurd rfl both.1.1⟩, fun _ => ⟨rfl, rfl⟩⟩

def exampleWorld : World := ⟨.zero, fun _ => true, [], 0, 0, none⟩

def removeRun : List (Event Unit Unit) := callRun (.make .create) 3 ++ callRun .rm 4

theorem all_or_nothing_fails : ∃ s, (system fileWorkspace).Reachable (Calls (OnPath exampleFile)) s ∧
    s.client () = .idle ∧ ¬AllOrNothing fileWorkspace s () exampleWorld .mkdir exampleFile := by
  obtain ⟨s, reach, h⟩ := System.exists_reachable (system fileWorkspace) (Calls (OnPath exampleFile))
    (s := initialState fileWorkspace .zero) (initial_initialState _ _ (List.cons_ne_nil _ _)) removeRun
    (fun s : State Unit Unit => decide (s.client () = .idle) && (create fileWorkspace s () exampleWorld exampleFile .mkdir).any
      fun x : Int × State Unit Unit => decide (x.1 = 0 ∧ x.2.out () = s.out ())) rfl
  obtain ⟨idle, made⟩ := (Bool.and_eq_true _ _).mp h
  obtain ⟨⟨ret, t⟩, run, silent⟩ := (Option.any_eq_true _ _).mp made
  obtain ⟨zero, same⟩ := of_decide_eq_true silent
  refine ⟨s, reach, of_decide_eq_true idle, fun all => ?_⟩
  have sent := ((all ret t run).success.mp zero).2
  exact out_ne s () _ (funext fun c => same.symm.trans (congrFun sent c))

theorem all_or_nothing_iff_create : ∃ s, (system fileWorkspace).Reachable (Calls (OnPath exampleFile)) s ∧
    s.client () = .idle ∧ AllOrNothing fileWorkspace s () exampleWorld .create exampleFile := by
  obtain ⟨s, reach, h⟩ := System.exists_reachable (system fileWorkspace) (Calls (OnPath exampleFile))
    (s := initialState fileWorkspace .zero) (initial_initialState _ _ (List.cons_ne_nil _ _)) removeRun
    (fun s : State Unit Unit => decide (s.client () = .idle) &&
      (s.cache exampleFile).any fun e => getStatFlag e.value.stat .rm) rfl
  obtain ⟨idle, marked⟩ := (Bool.and_eq_true _ _).mp h
  obtain ⟨e, there, flag⟩ := (Option.any_eq_true _ _).mp marked
  refine ⟨s, reach, of_decide_eq_true idle, (all_or_nothing_iff fun e there => (versioned_of_reachable reach).entry there).mpr ?_⟩
  refine ⟨fun loads => ?_, fun _ _ => ?_⟩
  · cases there.symm.trans loads.missing
  · rw [there]
    exact .marked flag (by decide) (by decide)

end Pacon.Calls
