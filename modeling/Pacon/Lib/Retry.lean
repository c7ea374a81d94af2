import Pacon.Lib.Sums

/-!
# What a retry loop costs

Clients in loops around compare-and-swap, each read and each swap a step. A swap that fails has been overtaken
by one that did not, and one that did not ends its loop: no step is without an effect on the work left.
-/

namespace Pacon.Lib

inductive Stage
  | out
  | leaving
  | reading
  | trying (version : Nat)

inductive RetryMove (version : Nat) : Stage → Nat → Stage → Prop
  | read : RetryMove version .reading version (.trying version)
  | refuse {stage} (left : stage = .leaving ∨ stage = .out) : RetryMove version .reading version stage
  | swap {version'} : RetryMove version (.trying version) version' .leaving
  | retry {old} (overtaken : old ≠ version) : RetryMove version (.trying old) version .reading
  | leave : RetryMove version .leaving version .out

def Stage.price (n version : Nat) : Stage → Nat
  | .out => 0
  | .leaving => 1
  | .reading => 2 * n + 3
  | .trying old => if old = version then 2 * n + 2 else 2 * n + 4

def callPrice (n : Nat) : Nat := 2 * n + 4

theorem Stage.price_le (n version version' : Nat) (stage : Stage) :
    stage.price n version' ≤ stage.price n version + 2 := by
  cases stage with
  | trying old =>
      rw [price, price]
      split <;> split <;> omega
  | _ => exact Nat.le_add_right _ _

section
variable {κ : Type*} [Fintype κ]

def retryWork (version : Nat) (stage : κ → Stage) : Nat :=
  ∑ c, (stage c).price (Fintype.card κ) version

theorem retryWork_raise (version version' : Nat) (stage : κ → Stage) :
    retryWork version' stage ≤ retryWork version stage + Fintype.card κ * 2 :=
  sum_le_of_raise fun c => (stage c).price_le _ version version'

variable [DecidableEq κ] {version version' : Nat} {stage : κ → Stage} {c : κ} {next : Stage}

theorem retryWork_update (version : Nat) (stage : κ → Stage) (c : κ) (next : Stage) :
    retryWork version (Function.update stage c next) + (stage c).price (Fintype.card κ) version =
      retryWork version stage + next.price (Fintype.card κ) version :=
  sum_update stage (Stage.price (Fintype.card κ) version) c next

theorem RetryMove.less (move : RetryMove version (stage c) version' next) :
    retryWork version' (Function.update stage c next) < retryWork version stage := by
  have change := retryWork_update version stage c next
  generalize before : stage c = own at move change
  cases move with
  | read =>
      rw [Stage.price, Stage.price, if_pos rfl] at change
      omega
  | refuse left =>
      rcases left with rfl | rfl <;> rw [Stage.price, Stage.price] at change <;> omega
  | swap =>
      have raised := retryWork_raise version version' (Function.update stage c .leaving)
      rw [Stage.price, Stage.price, if_pos rfl] at change
      omega
  | retry overtaken =>
      rw [Stage.price, Stage.price, if_neg overtaken] at change
      omega
  | leave =>
      rw [Stage.price, Stage.price] at change
      omega

theorem retryWork_enter (outside : stage c = .out) (enters : next = .reading ∨ next = .leaving) :
    retryWork version (Function.update stage c next) < retryWork version stage + callPrice (Fintype.card κ) := by
  have change := retryWork_update version stage c next
  rw [outside] at change
  rcases enters with rfl | rfl <;> rw [Stage.price, Stage.price] at change <;> unfold callPrice <;> omega

end
end Pacon.Lib
