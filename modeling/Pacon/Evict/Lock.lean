import Pacon.Lib.CString
import Pacon.Lib.CasLock
import Pacon.Lib.Transition

/-!
# The evict lock

Clients run `evict_metadata`, `evict_metadata_new` and `evict_metadata_explicit`, which take the lock
under the key `evict_lock` by CAS. Every access to memcached is a step of its own and can fail; what an
eviction flushes plays no part.
-/

set_option linter.unusedSectionVars false

namespace Pacon.EvictLock
open Lib Function

inductive Variant
  | metadata | new | explicit
  deriving DecidableEq

/-- Where a client stands, each time before its next access; `beyond` is a `readdir` on what is no
directory stream. -/
inductive ClientPc
  | idle
  | getLock (v : Variant)
  | casLock (v : Variant) (cas : Nat)
  | getRecord (v : Variant)
  | search (v : Variant) (rr : Int)
  | flush (v : Variant) (rr : Int) (dir : Bool)
  | setRecord (v : Variant) (rr : Int)
  | freeLock (v : Variant)
  | returning (result : Int)
  | beyond
  deriving DecidableEq

structure State (κ : Type) where
  version : Nat
  lock : Option Char
  evictRecord : Option CString
  client : κ → ClientPc
  /-- History only: the client whose `1` is in the lock. -/
  owner : Option κ

inductive DirEntry
  | dot | file | dir
  deriving DecidableEq

/-- How memcached answers; an error may come after the change is made. -/
inductive Answer
  | answer
  | error (applied : Bool)
  deriving DecidableEq

/-- What a step takes from outside: whether a get is answered with what is there, the answer to a CAS
or a set, the directory, what the flush of the entry returns. -/
structure Env where
  got : Bool
  stored : Answer
  opened : Bool
  entries : List DirEntry
  flushed : Int
  deriving DecidableEq

inductive Event (κ : Type)
  | start (c : κ) (v : Variant)
  | client (c : κ) (env : Env)
  | expire

inductive Scanned
  | found (dir : Bool)
  | again
  | ended

/-- The loop over the directory from the `c`th entry on; only `evict_metadata_new` counts the dots. -/
def scan (v : Variant) (rr : Int) : Int → Nat → List DirEntry → Scanned
  | _, _, [] => .ended
  | c, r1, .dot :: es => if v = .new ∧ 3 ≤ r1 + 1 then .again else scan v rr c (r1 + 1) es
  | c, r1, .file :: es => if c = rr then .found false else scan v rr (c + 1) r1 es
  | c, r1, .dir :: es => if c = rr then .found true else scan v rr (c + 1) r1 es

/-- `evict_metadata_explicit` does not begin again with the first entry. -/
def searched (v : Variant) (rr : Int) : Scanned → ClientPc
  | .found dir => .flush v rr dir
  | .again => .search v rr
  | .ended => if v = .explicit then .setRecord v rr else .search v 0

/-- `flush_dir_new` is void; the others have their result tested. -/
def flushFails (v : Variant) (dir : Bool) (flushed : Int) : Bool :=
  flushed ≠ 0 && (!dir || v = .metadata)

section
variable {κ : Type} [DecidableEq κ]

def setPc (s : State κ) (c : κ) (pc : ClientPc) : State κ := { s with client := update s.client c pc }

def take (s : State κ) (c : κ) : State κ :=
  { s with version := s.version + 1, lock := some '1', owner := some c }

def setFree (s : State κ) : State κ := { s with version := s.version + 1, lock := some '0', owner := none }

def current (s : State κ) (cas : Nat) : Prop := s.lock ≠ none ∧ s.version = cas

instance (s : State κ) (cas : Nat) : Decidable (current s cas) := inferInstanceAs (Decidable (_ ∧ _))

def casStep (s : State κ) (c : κ) (v : Variant) (cas : Nat) : Answer → State κ
  | .answer =>
      if current s cas then setPc (take s c) c (.getRecord v)
      else if s.lock = none then setPc s c (.getRecord v)
      else setPc s c (.getLock v)
  | .error applied => setPc (if applied ∧ current s cas then take s c else s) c (.getRecord v)

def clientStep (s : State κ) (c : κ) (env : Env) : Option (State κ) :=
  match s.client c with
  | .idle | .beyond => none
  | .getLock v => some <| setPc s c <|
      match s.lock with
      | none => .returning (-1)
      | some val =>
          if env.got = false then .returning (-1)
          else if val = '0' then .casLock v s.version
          else if val = '1' then .getLock v
          else .returning (-1)
  | .casLock v cas => some (casStep s c v cas env.stored)
  | .getRecord v => some <| setPc s c <|
      match s.evictRecord with
      | none => .returning (-1)
      | some val => if env.got = false then .returning (-1) else .search v (atoi val)
  | .search v rr => some <| setPc s c <|
      if env.opened then searched v rr (scan v rr 0 0 env.entries) else .beyond
  | .flush v rr dir => some <| setPc s c <|
      if flushFails v dir env.flushed then .returning (-1) else .setRecord v (rr + 1)
  | .setRecord v rr => some <|
      match env.stored with
      | .answer => setPc { s with evictRecord := some (printInt rr) } c (.freeLock v)
      | .error applied =>
          setPc { s with evictRecord := if applied then some (printInt rr) else s.evictRecord } c (.returning (-1))
  | .freeLock _ => some <|
      match env.stored with
      | .answer => setPc (setFree s) c (.returning 0)
      | .error applied => setPc (if applied then setFree s else s) c (.returning (-1))
  | .returning _ => some (setPc s c .idle)

def step (s : State κ) : Event κ → Option (State κ)
  | .start c v => if s.client c = .idle then some (setPc s c (.getLock v)) else none
  | .client c env => clientStep s c env
  | .expire => some { s with version := s.version + 1, lock := none }

/-- `init_pacon` has put a `0` under the key. -/
structure Initial (s : State κ) : Prop where
  lock : s.lock = some '0'
  client : ∀ c, s.client c = .idle
  owner : s.owner = none

def system (κ : Type) [DecidableEq κ] : System (State κ) (Event κ) := ⟨Initial, step⟩

def Inside : ClientPc → Prop
  | .getRecord _ | .search _ _ | .flush _ _ _ | .setRecord _ _ | .freeLock _ | .beyond => True
  | .idle | .getLock _ | .casLock _ _ | .returning _ => False

/-- No access fails that a client makes with the lock, and the CAS of the lock does not fail without
having stored. -/
def Unfailing (s : State κ) : Event κ → Prop
  | .start _ _ | .expire => True
  | .client c env =>
      match s.client c with
      | .casLock _ cas => env.stored = .answer ∧ s.lock ≠ none ∨ env.stored = .error true ∧ current s cas
      | .getRecord _ => env.got = true ∧ s.evictRecord ≠ none
      | .flush v _ dir => flushFails v dir env.flushed = false
      | .setRecord _ _ => env.stored = .answer
      | .freeLock _ => env.stored ≠ .error false
      | _ => True

instance (s : State κ) (e : Event κ) : Decidable (Unfailing s e) := by
  unfold Unfailing
  split
  · infer_instance
  · infer_instance
  · split <;> infer_instance

variable {s t : State κ}

def ClientPc.hold : ClientPc → Hold
  | .casLock _ cas => .saw cas
  | .getRecord _ | .search _ _ | .flush _ _ _ | .setRecord _ _ | .freeLock _ | .beyond => .inside
  | .idle | .getLock _ | .returning _ => .outside

def lockOf (s : State κ) : CasLock κ := ⟨s.version, s.lock = some '0', fun c => (s.client c).hold⟩

theorem inside_iff {pc : ClientPc} : Inside pc ↔ pc.hold = .inside := by
  cases pc <;> simp [Inside, ClientPc.hold]

theorem lockOf_setPc (s : State κ) (c : κ) (pc : ClientPc) :
    lockOf (setPc s c pc) = { lockOf s with hold := update (lockOf s).hold c pc.hold } := by
  unfold lockOf setPc
  congr 1
  exact Function.comp_update ClientPc.hold s.client c pc

theorem hold_searched (v : Variant) (rr : Int) (found : Scanned) : (searched v rr found).hold = .inside := by
  cases found with
  | found dir => rfl
  | again => rfl
  | ended => cases v <;> rfl

inductive Stepped (s : State κ) : State κ → Prop
  | outside (c : κ) (pc : ClientPc) (out : ¬Inside (s.client c)) (arrives : pc.hold = .outside) :
      Stepped s (setPc s c pc)
  | seen (c : κ) (pc : ClientPc) (out : ¬Inside (s.client c)) (free : s.lock = some '0')
      (arrives : pc.hold = .saw s.version) : Stepped s (setPc s c pc)
  | inside (c : κ) (pc : ClientPc) (record : Option CString) (held : Inside (s.client c)) (arrives : Inside pc) :
      Stepped s (setPc { s with evictRecord := record } c pc)
  | taken (c : κ) (pc : ClientPc) (saw : (s.client c).hold = .saw s.version) (arrives : Inside pc) :
      Stepped s (setPc (take s c) c pc)
  | freed (c : κ) (pc : ClientPc) (held : Inside (s.client c)) (arrives : pc.hold = .outside) :
      Stepped s (setPc (setFree s) c pc)
  | expired : Stepped s { s with version := s.version + 1, lock := none }

theorem casStep_stepped {c : κ} {v : Variant} {cas : Nat} {stored : Answer} (at_pc : s.client c = .casLock v cas)
    (ok : stored = .answer ∧ s.lock ≠ none ∨ stored = .error true ∧ current s cas) :
    Stepped s (casStep s c v cas stored) := by
  have taken (now : current s cas) : Stepped s (setPc (take s c) c (.getRecord v)) :=
    .taken c _ (by rw [at_pc, ← now.2]; rfl) trivial
  rcases ok with ⟨rfl, there⟩ | ⟨rfl, now⟩
  · unfold casStep
    by_cases now : current s cas
    · rw [if_pos now]
      exact taken now
    · rw [if_neg now, if_neg there]
      exact .outside c _ (by simp [at_pc, Inside]) rfl
  · have both : True ∧ current s cas := ⟨trivial, now⟩
    simpa [casStep, both] using taken now

theorem clientStep_stepped {c : κ} {env : Env} (ok : Unfailing s (.client c env))
    (h : clientStep s c env = some t) : Stepped s t := by
  unfold clientStep at h
  unfold Unfailing at ok
  cases at_pc : s.client c with
  | idle => simp [at_pc] at h
  | beyond => simp [at_pc] at h
  | getLock v =>
      have out : ¬Inside (s.client c) := by simp [at_pc, Inside]
      simp only [at_pc, Option.some.injEq] at h
      subst h
      split
      · exact .outside c _ out rfl
      · rename_i val here
        split_ifs with lost zero one
        · exact .outside c _ out rfl
        · exact .seen c _ out (zero ▸ here) rfl
        · exact .outside c _ out rfl
        · exact .outside c _ out rfl
  | casLock v cas =>
      simp only [at_pc] at h ok
      cases h
      exact casStep_stepped at_pc ok
  | getRecord v =>
      have held : Inside (s.client c) := by simp [at_pc, Inside]
      simp only [at_pc, Option.some.injEq] at h ok
      obtain ⟨val, there⟩ := Option.ne_none_iff_exists'.mp ok.2
      simp only [there, ok.1, Bool.true_eq_false, if_false] at h
      subst h
      exact .inside c _ _ held trivial
  | search v rr =>
      have held : Inside (s.client c) := by simp [at_pc, Inside]
      simp only [at_pc, Option.some.injEq] at h
      subst h
      refine .inside c _ _ held (inside_iff.mpr ?_)
      split
      · exact hold_searched v rr _
      · rfl
  | flush v rr dir =>
      have held : Inside (s.client c) := by simp [at_pc, Inside]
      simp only [at_pc, Option.some.injEq] at h ok
      simp only [ok, Bool.false_eq_true, if_false] at h
      subst h
      exact .inside c _ _ held trivial
  | setRecord v rr =>
      have held : Inside (s.client c) := by simp [at_pc, Inside]
      simp only [at_pc, Option.some.injEq] at h ok
      simp only [ok] at h
      subst h
      exact .inside c _ _ held trivial
  | freeLock v =>
      have held : Inside (s.client c) := by simp [at_pc, Inside]
      simp only [at_pc, Option.some.injEq] at h ok
      cases stored : env.stored with
      | answer =>
          simp only [stored] at h
          subst h
          exact .freed c _ held rfl
      | error applied =>
          cases applied with
          | true =>
              simp only [stored, if_true] at h
              subst h
              exact .freed c _ held rfl
          | false => exact absurd stored ok
  | returning result =>
      simp only [at_pc, Option.some.injEq] at h
      subst h
      exact .outside c _ (by simp [at_pc, Inside]) rfl

theorem step_stepped {e : Event κ} (ok : Unfailing s e) (h : step s e = some t) : Stepped s t := by
  cases e with
  | start c v =>
      obtain ⟨idle, rfl⟩ : s.client c = .idle ∧ setPc s c (.getLock v) = t := by
        simpa [step] using h
      exact .outside c _ (by simp [idle, Inside]) rfl
  | client c env => exact clientStep_stepped ok h
  | expire =>
      cases h
      exact .expired

theorem Stepped.move (h : Stepped s t) : CasLock.Move (lockOf s) (lockOf t) := by
  cases h with
  | outside c pc out arrives =>
      rw [lockOf_setPc, arrives]
      exact .leave c (mt inside_iff.mpr out)
  | seen c pc out free arrives =>
      rw [lockOf_setPc, arrives]
      exact .see c (decide_eq_true free) (mt inside_iff.mpr out)
  | inside c pc record held arrives =>
      rw [lockOf_setPc, inside_iff.mp arrives]
      exact .stay c (inside_iff.mp held)
  | taken c pc saw arrives =>
      rw [lockOf_setPc, inside_iff.mp arrives]
      exact .enter c saw s.version.lt_succ_self
  | freed c pc held arrives =>
      rw [lockOf_setPc, arrives]
      exact .exit c (inside_iff.mp held) s.version.lt_succ_self
  | expired => exact .block s.version.lt_succ_self

def Owned (s : State κ) : Prop := ∀ c, s.owner = some c → Inside (s.client c)

theorem Stepped.owned (h : Stepped s t) (owned : Owned s) : Owned t := by
  have moved {c d : κ} {pc : ClientPc} (owner : s.owner = some d) (arrives : Inside (s.client c) → Inside pc) :
      Inside (update s.client c pc d) := by
    by_cases here : d = c
    · subst here
      rw [update_self]
      exact arrives (owned d owner)
    · rw [update_of_ne here]
      exact owned d owner
  cases h with
  | outside c pc out arrives => exact fun d owner => moved owner fun held => absurd held out
  | seen c pc out free arrives => exact fun d owner => moved owner fun held => absurd held out
  | inside c pc record held arrives => exact fun d owner => moved owner fun _ => arrives
  | taken c pc saw arrives =>
      intro d owner
      cases owner
      show Inside (update s.client c pc c)
      rwa [update_self]
  | freed c pc held arrives =>
      intro d owner
      cases owner
  | expired => exact owned

theorem lock_invariant (h : (system κ).Reachable Unfailing s) : CasLock.Exclusive (lockOf s) ∧ Owned s := by
  refine h.invariant (P := fun s => CasLock.Exclusive (lockOf s) ∧ Owned s) (fun s initial => ?_)
    (fun s e t _ held ok step => ?_)
  · refine ⟨?_, fun c owner => ?_⟩
    · have outside : lockOf s = ⟨s.version, true, fun _ => .outside⟩ := by
        simp [lockOf, initial.lock, initial.client, ClientPc.hold]
      rw [outside]
      exact .initial
    · rw [initial.owner] at owner
      cases owner
  · have stepped := step_stepped ok step
    exact ⟨held.1.move stepped.move, stepped.owned held.2⟩

theorem lock_discipline (h : (system κ).Reachable Unfailing s) :
    (∀ c d, Inside (s.client c) → Inside (s.client d) → c = d) ∧
      ∀ c result, s.client c = .returning result → s.owner ≠ some c := by
  obtain ⟨exclusive, owned⟩ := lock_invariant h
  refine ⟨fun c d hc hd => exclusive.one c d (inside_iff.mp hc) (inside_iff.mp hd), fun c result at_pc owner => ?_⟩
  have held := owned c owner
  rw [at_pc] at held
  exact held

end

def quiet : State Bool := ⟨7, some '0', some "0".toList, fun _ => .idle, none⟩

theorem quiet_initial : Initial quiet := ⟨rfl, fun _ => rfl, rfl⟩

def answered : Env := ⟨true, .answer, true, [.dot, .dot, .file], 0⟩

def contention : List (Event Bool) :=
  [.start true .new, .start false .metadata, .client true answered, .client false answered, .client true answered,
    .client false answered, .client true answered, .client false answered, .client true answered,
    .client true answered, .client true answered, .client true answered, .client false answered,
    .client false answered]

theorem lock_discipline_contention : ∃ s : State Bool, (system Bool).Reachable Unfailing s ∧
    s.client true = .returning 0 ∧ s.owner ≠ some true ∧ ∀ c, Inside (s.client c) → c = false := by
  obtain ⟨s, reach, at_pc⟩ := (system Bool).exists_reachable Unfailing quiet_initial contention
    (fun s => s.client true = .returning 0 ∧ s.client false = .getRecord .metadata) (by decide)
  obtain ⟨returns, inside⟩ := of_decide_eq_true at_pc
  obtain ⟨one, released⟩ := lock_discipline reach
  refine ⟨s, reach, returns, released true 0 returns, fun c held => one c false held ?_⟩
  rw [inside]
  trivial

theorem lock_not_released : ¬∀ s : State Bool, (system Bool).Reachable (fun _ _ => True) s →
    (∀ c d, Inside (s.client c) → Inside (s.client d) → c = d) ∧
      ∀ c result, s.client c = .returning result → s.owner ≠ some c := by
  intro disciplined
  obtain ⟨s, reach, held⟩ := (system Bool).exists_reachable (fun _ _ => True) quiet_initial
    [.start true .new, .client true answered, .client true answered, .client true { answered with got := false }]
    (fun s => s.client true = .returning (-1) ∧ s.owner = some true) (by decide)
  obtain ⟨returns, owner⟩ := of_decide_eq_true held
  exact (disciplined s reach).2 true (-1) returns owner

theorem lock_entered_twice : ∃ s : State Bool, (system Bool).Reachable (fun _ _ => True) s ∧
    Inside (s.client true) ∧ Inside (s.client false) := by
  obtain ⟨s, reach, both⟩ := (system Bool).exists_reachable (fun _ _ => True) quiet_initial
    [.start true .new, .start false .new, .client true answered, .client false answered, .client true answered,
      .client false { answered with stored := .error false }]
    (fun s => s.client true = .getRecord .new ∧ s.client false = .getRecord .new) (by decide)
  obtain ⟨first, second⟩ := of_decide_eq_true both
  refine ⟨s, reach, ?_, ?_⟩
  · rw [first]
    trivial
  · rw [second]
    trivial

end Pacon.EvictLock
