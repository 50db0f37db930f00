import Mathlib.Data.List.Infix
import Mathlib.Data.Prod.Basic
import Mathlib.Data.Tree.Basic

/-!
# The outline of a binary tree

The outline lists the values of a tree from right to left, each with its depth. The value at the
smallest depth is the one at the root, so a tree is known from its outline (`outline_injective`).
-/

namespace Outline

open BinaryTree

variable {α β : Type} {t u : BinaryTree α} {d : ℕ} {a : ℕ × α}

/-- The values from right to left, the root at depth `d`. -/
def outline : BinaryTree α → ℕ → List (ℕ × α)
  | nil, _ => []
  | node x l r, d => outline r (d + 1) ++ (d, x) :: outline l (d + 1)

/-- The tree without its values. -/
def shape (t : BinaryTree α) : BinaryTree Unit := t.map fun _ => ()

theorem outline_map (f : α → β) (t : BinaryTree α) (d : ℕ) :
    outline (t.map f) d = (outline t d).map (Prod.map id f) := by
  induction t generalizing d with
  | nil => rfl
  | node x l r ihl ihr =>
    rw [BinaryTree.map, outline, outline, ihl, ihr, List.map_append, List.map_cons]
    rfl

/-! ## Depths -/

theorem depth_of_mem_outline (ha : a ∈ outline t d) : d ≤ a.1 ∧ a.1 < d + t.height := by
  induction t generalizing d with
  | nil => cases ha
  | node x l r ihl ihr =>
    rw [outline, List.mem_append, List.mem_cons] at ha
    rw [height]
    rcases ha with hr | rfl | hl
    · have := ihr hr
      have := le_max_right l.height r.height
      omega
    · exact ⟨le_rfl, by omega⟩
    · have := ihl hl
      have := le_max_left l.height r.height
      omega

/-- The deepest value of the tree. -/
theorem exists_mem_outline (ht : t ≠ nil) (d : ℕ) :
    ∃ a ∈ outline t d, a.1 + 1 = d + t.height := by
  induction t generalizing d with
  | nil => exact (ht rfl).elim
  | node x l r ihl ihr =>
    rw [outline, height]
    rcases le_total l.height r.height with hle | hle
    · rw [max_eq_right hle]
      by_cases hr : r = nil
      · subst hr
        exact ⟨(d, x), by simp, rfl⟩
      · obtain ⟨a, ha, hdepth⟩ := ihr hr (d + 1)
        exact ⟨a, List.mem_append_left _ ha, by omega⟩
    · rw [max_eq_left hle]
      by_cases hl : l = nil
      · subst hl
        exact ⟨(d, x), by simp, rfl⟩
      · obtain ⟨a, ha, hdepth⟩ := ihl hl (d + 1)
        exact ⟨a, List.mem_append_right _ (List.mem_cons_of_mem _ ha), by omega⟩

/-! ## Trees from outlines -/

theorem notMem_outline_succ (t : BinaryTree α) (d : ℕ) (x : α) : (d, x) ∉ outline t (d + 1) :=
  fun hmem => absurd (depth_of_mem_outline hmem).1 (Nat.not_succ_le_self d)

/-- A tree is known from its outline. -/
theorem outline_injective (h : outline t d = outline u d) : t = u := by
  induction t generalizing u d with
  | nil =>
    cases u with
    | nil => rfl
    | node y l r => simp [outline] at h
  | node x l r ihl ihr =>
    cases u with
    | nil => simp [outline] at h
    | node y l' r' =>
      -- the only value at depth `d` is the one at the root
      obtain ⟨hr, hx, hl⟩ := (List.append_cons_inj_of_notMem (notMem_outline_succ r d y)
        (notMem_outline_succ l d y)).mp h
      rw [ihl hl, ihr hr, (Prod.mk.inj hx).2]

theorem outline_inj : outline t d = outline u d ↔ t = u :=
  ⟨outline_injective, fun h => by rw [h]⟩

end Outline
