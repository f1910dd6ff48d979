import Mathlib

/-!
# Computations that reject or fault

A `Check φ ε α` ends in one of three ways: it accepts with a value, it rejects with a reason `ε`
that its caller handles, or a fault `φ` unwinds the whole call.  A list of checks is a `do` block;
`bind_eq_accept_iff` and its two companions take it apart again.
-/

namespace Lib

/-- How a check ends. -/
inductive Check (φ ε α : Type) where
  | accept (a : α)
  | reject (e : ε)
  | fault (f : φ)
  deriving DecidableEq

namespace Check

variable {φ ε α β : Type}

def bind (x : Check φ ε α) (f : α → Check φ ε β) : Check φ ε β :=
  match x with
  | accept a => f a
  | reject e => reject e
  | fault e => fault e

instance : Monad (Check φ ε) where
  pure := accept
  bind := bind

/-- Reject unless the condition holds. -/
def require (p : Prop) [Decidable p] (e : ε) : Check φ ε Unit :=
  if p then accept () else reject e

/-- A call without reasons for rejection inside a check. -/
def lift (x : Except φ α) : Check φ ε α :=
  match x with
  | .ok a => accept a
  | .error f => fault f

/-- A call that rejects but does not fault inside a check. -/
def ofExcept (x : Except ε α) : Check φ ε α :=
  match x with
  | .ok a => accept a
  | .error e => reject e

@[simp]
theorem pure_eq (a : α) : (pure a : Check φ ε α) = accept a := rfl

@[simp]
theorem accept_bind (a : α) (f : α → Check φ ε β) : (accept a >>= f) = f a := rfl

@[simp]
theorem reject_bind (e : ε) (f : α → Check φ ε β) : (reject e >>= f) = reject e := rfl

@[simp]
theorem fault_bind (e : φ) (f : α → Check φ ε β) : (fault e >>= f) = fault e := rfl

instance : LawfulMonad (Check φ ε) := LawfulMonad.mk' _
  (by intro α x; cases x <;> rfl)
  (by intros; rfl)
  (by intro α β γ x f g; cases x <;> rfl)

theorem bind_eq_accept_iff {x : Check φ ε α} {f : α → Check φ ε β} {b : β} :
    (x >>= f) = accept b ↔ ∃ a, x = accept a ∧ f a = accept b := by
  cases x <;> simp

theorem bind_eq_reject_iff {x : Check φ ε α} {f : α → Check φ ε β} {e : ε} :
    (x >>= f) = reject e ↔ x = reject e ∨ ∃ a, x = accept a ∧ f a = reject e := by
  cases x <;> simp

@[simp]
theorem require_eq_accept_iff {p : Prop} [Decidable p] {e : ε} {u : Unit} :
    (require p e : Check φ ε Unit) = accept u ↔ p := by
  unfold require
  split <;> simp_all

theorem require_eq_reject_iff {p : Prop} [Decidable p] {e e' : ε} :
    (require p e : Check φ ε Unit) = reject e' ↔ ¬ p ∧ e = e' := by
  unfold require
  split <;> simp_all

@[simp]
theorem require_ne_fault {p : Prop} [Decidable p] {e : ε} {f : φ} :
    (require p e : Check φ ε Unit) ≠ fault f := by
  unfold require
  split <;> simp

@[simp]
theorem lift_eq_accept_iff {x : Except φ α} {a : α} :
    (lift x : Check φ ε α) = accept a ↔ x = .ok a := by
  cases x <;> simp [lift]

@[simp]
theorem lift_ne_reject {x : Except φ α} {e : ε} : (lift x : Check φ ε α) ≠ reject e := by
  cases x <;> simp [lift]

@[simp]
theorem lift_eq_fault_iff {x : Except φ α} {f : φ} :
    (lift x : Check φ ε α) = fault f ↔ x = .error f := by
  cases x <;> simp [lift]

@[simp]
theorem ofExcept_eq_accept_iff {x : Except ε α} {a : α} :
    (ofExcept x : Check φ ε α) = accept a ↔ x = .ok a := by
  cases x <;> simp [ofExcept]

@[simp]
theorem ofExcept_ne_fault {x : Except ε α} {f : φ} : (ofExcept x : Check φ ε α) ≠ fault f := by
  cases x <;> simp [ofExcept]

end Check

end Lib
