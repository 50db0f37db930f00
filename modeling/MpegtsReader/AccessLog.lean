import Mathlib.Data.List.Basic
import Mathlib.Tactic.Common

/-!
# Computations that log their memory accesses

`Logged α` is a value together with the indices that were dereferenced to compute it, in order.
The value of a computation never depends on the log, so values and accesses are read off the same
definition (`val_bind`, `log_bind`).
-/

/-- A value and the indices dereferenced on the way to it. -/
structure Logged (α : Type) where
  val : α
  log : List ℕ

namespace Logged

variable {α β : Type}

instance : Monad Logged where
  pure a := ⟨a, []⟩
  bind x f := ⟨(f x.val).val, x.log ++ (f x.val).log⟩

/-- Dereference one byte of `mem`. -/
def deref (mem : ℕ → α) (i : ℕ) : Logged α := ⟨mem i, [i]⟩

@[simp] theorem val_pure (a : α) : (pure a : Logged α).val = a := rfl

@[simp] theorem log_pure (a : α) : (pure a : Logged α).log = [] := rfl

@[simp] theorem val_bind (x : Logged α) (f : α → Logged β) : (x >>= f).val = (f x.val).val := rfl

@[simp] theorem log_bind (x : Logged α) (f : α → Logged β) :
    (x >>= f).log = x.log ++ (f x.val).log := rfl

@[simp] theorem val_deref (mem : ℕ → α) (i : ℕ) : (deref mem i).val = mem i := rfl

@[simp] theorem log_deref (mem : ℕ → α) (i : ℕ) : (deref mem i).log = [i] := rfl

/-- Every index the computation dereferences is below `n`. -/
def Below (n : ℕ) (x : Logged α) : Prop := ∀ i ∈ x.log, i < n

@[simp] theorem below_pure (n : ℕ) (a : α) : Below n (pure a) := by
  intro i hi
  cases hi

@[simp] theorem below_bind {n : ℕ} {x : Logged α} {f : α → Logged β} :
    Below n (x >>= f) ↔ Below n x ∧ Below n (f x.val) := by
  simp [Below, or_imp, forall_and]

@[simp] theorem below_deref {n i : ℕ} {mem : ℕ → α} : Below n (deref mem i) ↔ i < n := by
  simp [Below]

end Logged
