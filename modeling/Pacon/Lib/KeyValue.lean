import Mathlib.Logic.Function.Basic

/-!
# A key-value store with versions

The operations of memcached on one item each. A request may also fail, for whatever reason the server
has, and may then have been applied or not, or have cost the item that was there.
-/

namespace Pacon.Lib.KeyValue
open Function

inductive Rc
  | success | dataExists | notStored | notFound | badKeyProvided | memoryAllocationFailure | timeout | failure
  deriving DecidableEq

structure Cell (α : Type*) where
  value : α
  cas : Nat

structure Store (κ α : Type*) where
  items : κ → Option (Cell α)
  next : Nat

inductive Failure
  | memory | timeout | other
  deriving DecidableEq

def Failure.rc : Failure → Rc
  | .memory => .memoryAllocationFailure
  | .timeout => .timeout
  | .other => .failure

inductive Effect
  | nothing | applied | dropped
  deriving DecidableEq

structure Fault where
  failure : Failure
  effect : Effect
  deriving DecidableEq

namespace Store
variable {κ α : Type*} [DecidableEq κ]

def empty : Store κ α := ⟨fun _ => none, 0⟩

def write (s : Store κ α) (k : κ) (v : α) : Store κ α := ⟨update s.items k (some ⟨v, s.next⟩), s.next + 1⟩

def erase (s : Store κ α) (k : κ) : Store κ α := { s with items := update s.items k none }

def leave (s t : Store κ α) (k : κ) : Effect → Store κ α
  | .nothing => s
  | .applied => t
  | .dropped => s.erase k

def answer (s : Store κ α) (fault : Option Fault) (k : κ) (r : Rc × Store κ α) : Rc × Store κ α :=
  match fault with
  | none => r
  | some f => (f.failure.rc, s.leave r.2 k f.effect)

def set (s : Store κ α) (fault : Option Fault) (k : κ) (v : α) : Rc × Store κ α :=
  s.answer fault k (.success, s.write k v)

def add (s : Store κ α) (fault : Option Fault) (k : κ) (v : α) : Rc × Store κ α :=
  s.answer fault k <|
    match s.items k with
    | some _ => (.notStored, s)
    | none => (.success, s.write k v)

def cas (s : Store κ α) (fault : Option Fault) (k : κ) (v : α) (version : Nat) : Rc × Store κ α :=
  s.answer fault k <|
    match s.items k with
    | none => (.notFound, s)
    | some cell => if cell.cas = version then (.success, s.write k v) else (.dataExists, s)

def get (s : Store κ α) (fault : Option Fault) (k : κ) : Rc × Option (Cell α) :=
  match fault, s.items k with
  | some f, _ => (f.failure.rc, none)
  | none, none => (.notFound, none)
  | none, some cell => (.success, some cell)

def delete (s : Store κ α) (fault : Option Fault) (k : κ) : Rc × Store κ α :=
  s.answer fault k <|
    match s.items k with
    | none => (.notFound, s)
    | some _ => (.success, s.erase k)

variable {s : Store κ α} {k k' : κ} {v : α}

@[simp] theorem items_write_self : (s.write k v).items k = some ⟨v, s.next⟩ := update_self ..

theorem items_write_of_ne (other : k' ≠ k) : (s.write k v).items k' = s.items k' := update_of_ne other ..

def Numbered (s : Store κ α) : Prop := ∀ k cell, s.items k = some cell → cell.cas < s.next

theorem Numbered.write (h : s.Numbered) (k : κ) (v : α) : (s.write k v).Numbered := by
  intro k' cell item
  by_cases here : k' = k
  · subst here
    rw [items_write_self, Option.some.injEq] at item
    subst item
    exact Nat.lt_succ_self _
  · rw [items_write_of_ne here] at item
    exact Nat.lt_succ_of_lt (h k' cell item)

end Store
end Pacon.Lib.KeyValue
