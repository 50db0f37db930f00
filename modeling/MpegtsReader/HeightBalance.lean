import Mathlib.Data.Nat.Fib.Basic
import Mathlib.Data.Tree.Basic
import Mathlib.Tactic.Ring

/-!
# Height-balanced trees

Binary trees in which the heights of the two subtrees of each node differ by `bal` at most. Such a
tree of height `d` has `minNodes bal d` nodes at least (`Within.minNodes_le`), which is a Fibonacci
number less one where `bal` is 1, and doubles with every `bal + 1` levels.
-/

namespace HeightBalance

open BinaryTree

variable {α : Type} {bal : ℕ} {t : BinaryTree α}

/-- The heights of the subtrees of each node differ by `bal` at most. -/
def Within (bal : ℕ) : BinaryTree α → Prop
  | nil => True
  | node _ l r => l.height ≤ r.height + bal ∧ r.height ≤ l.height + bal ∧ Within bal l ∧
      Within bal r

/-- The nodes of the smallest tree of a height: one, a tree that is one lower, and the lowest one
that may stand beside it. -/
def minNodes (bal : ℕ) : ℕ → ℕ
  | 0 => 0
  | d + 1 => minNodes bal d + minNodes bal (d - bal) + 1
termination_by d => d

theorem minNodes_succ (bal d : ℕ) :
    minNodes bal (d + 1) = minNodes bal d + minNodes bal (d - bal) + 1 := by
  rw [minNodes]

theorem minNodes_mono (bal : ℕ) : Monotone (minNodes bal) := by
  refine monotone_nat_of_le_succ fun d => ?_
  rw [minNodes_succ]
  omega

theorem Within.minNodes_le (ht : Within bal t) : minNodes bal t.height ≤ t.numNodes := by
  induction t with
  | nil => rw [height, minNodes, numNodes]
  | node x l r ihl ihr =>
    obtain ⟨hlr, hrl, hl, hr⟩ := ht
    have hnl := ihl hl
    have hnr := ihr hr
    rw [height, minNodes_succ, numNodes]
    rcases le_total l.height r.height with hle | hle
    · have hlow := minNodes_mono bal (show r.height - bal ≤ l.height by omega)
      rw [max_eq_right hle]
      omega
    · have hlow := minNodes_mono bal (show l.height - bal ≤ r.height by omega)
      rw [max_eq_left hle]
      omega

/-- The Fibonacci trees are the smallest. -/
theorem minNodes_one (d : ℕ) : minNodes 1 d + 1 = Nat.fib (d + 2) := by
  induction d using Nat.twoStepInduction with
  | zero => rw [minNodes]; rfl
  | one => rw [minNodes, minNodes]; rfl
  | more d ih₁ ih₂ =>
    rw [minNodes_succ, Nat.add_sub_cancel, Nat.fib_add_two, ← ih₁, ← ih₂]
    ring

theorem two_pow_le (bal d : ℕ) : 2 ^ (d / (bal + 1)) ≤ minNodes bal d + 1 := by
  induction d using Nat.strong_induction_on with
  | _ d ih =>
    by_cases hlow : d < bal + 1
    · rw [Nat.div_eq_of_lt hlow]
      omega
    · obtain ⟨e, rfl⟩ : ∃ e, d = e + bal + 1 := ⟨d - bal - 1, by omega⟩
      have hmono := minNodes_mono bal (Nat.le_add_right e bal)
      have hhalf := ih e (by omega)
      have hdiv : (e + bal + 1) / (bal + 1) = e / (bal + 1) + 1 := by
        rw [Nat.add_assoc, Nat.add_div_right e (Nat.succ_pos bal)]
      rw [hdiv, Nat.pow_succ, minNodes_succ, Nat.add_sub_cancel]
      omega

/-- What the number of nodes says about the height. -/
structure HeightBound (bal height numNodes : ℕ) : Prop where
  least : minNodes bal height ≤ numNodes
  log : 2 ^ (height / (bal + 1)) ≤ numNodes + 1
  fib : bal = 1 → Nat.fib (height + 2) ≤ numNodes + 1

theorem Within.heightBound (ht : Within bal t) : HeightBound bal t.height t.numNodes where
  least := ht.minNodes_le
  log := (two_pow_le bal t.height).trans (Nat.succ_le_succ ht.minNodes_le)
  fib := by
    rintro rfl
    rw [← minNodes_one]
    exact Nat.succ_le_succ ht.minNodes_le

end HeightBalance
