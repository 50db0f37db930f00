import MpegtsReader.AvlStored
import MpegtsReader.HeightBalance

/-!
# The heights in an AVL tree

The height that is stored in a node against the height of the tree below it. A tree is `Good` when
all stored heights are right and every node is balanced. A rotation takes the height of the node
that it raises from one of its sides: `rotateRight_eq` and the others say what a rotation makes of
subtrees whose heights are right, and `good_fromLeft_iff` when a height taken from one side is.
-/

namespace MpegtsReader

namespace AvlTree

open HeightBalance

variable {ν κ : Type} {t l r ll lr rl rr gl gr : AvlTree ν κ} {x y z : ν} {k ky kz : κ}
  {bal h hy hz : ℤ}

/-- The number of nodes on the longest way down. -/
def depth : AvlTree ν κ → ℤ
  | nil => 0
  | node l _ _ _ r => max l.depth r.depth + 1

@[simp] theorem depth_nil : (nil : AvlTree ν κ).depth = 0 := rfl

@[simp] theorem depth_node : (node l x k h r).depth = max l.depth r.depth + 1 := rfl

theorem depth_nonneg (t : AvlTree ν κ) : 0 ≤ t.depth := by
  induction t with
  | nil => exact le_refl 0
  | node l x k h r ihl ihr =>
    rw [depth_node]
    omega

theorem depth_eq_zero_iff : t.depth = 0 ↔ t = nil := by
  cases t with
  | nil => simp
  | node l x k h r =>
    have hl := depth_nonneg l
    simp only [depth_node, reduceCtorEq, iff_false]
    omega

theorem depth_pos (ht : t ≠ nil) : 1 ≤ t.depth := by
  have hnonneg := depth_nonneg t
  have hzero := mt depth_eq_zero_iff.mp ht
  omega

theorem depth_eq (ht : t ≠ nil) : t.depth = max t.left.depth t.right.depth + 1 := by
  cases t with
  | nil => exact (ht rfl).elim
  | node l x k h r => rfl

@[simp] theorem depth_mirror (t : AvlTree ν κ) : t.mirror.depth = t.depth := by
  induction t with
  | nil => rfl
  | node l x k h r ihl ihr => rw [mirror_node, depth_node, depth_node, ihl, ihr, max_comm]

/-- The tree without what is stored in its nodes but for item and key. -/
def shape : AvlTree ν κ → BinaryTree (ν × κ)
  | nil => .nil
  | node l x k _ r => .node (x, k) l.shape r.shape

theorem height_shape (t : AvlTree ν κ) : (t.shape.height : ℤ) = t.depth := by
  induction t with
  | nil => rfl
  | node l x k h r ihl ihr =>
    rw [shape, BinaryTree.height, depth_node, ← ihl, ← ihr]
    omega

/-! ## Good trees -/

/-- Every stored height is the height of the tree below. -/
def Exact : AvlTree ν κ → Prop
  | nil => True
  | node l _ _ h r => h = max l.depth r.depth + 1 ∧ l.Exact ∧ r.Exact

/-- The heights of two subtrees differ by `bal` at most. -/
def Near (bal : ℤ) (l r : AvlTree ν κ) : Prop :=
  l.depth ≤ r.depth + bal ∧ r.depth ≤ l.depth + bal

/-- The subtrees of every node are near. -/
def Balanced (bal : ℤ) : AvlTree ν κ → Prop
  | nil => True
  | node l _ _ _ r => Near bal l r ∧ l.Balanced bal ∧ r.Balanced bal

/-- All stored heights are right and every node is balanced. -/
structure Good (bal : ℤ) (t : AvlTree ν κ) : Prop where
  exact : t.Exact
  balanced : t.Balanced bal

instance (bal : ℤ) (l r : AvlTree ν κ) : Decidable (Near bal l r) :=
  inferInstanceAs (Decidable (_ ∧ _))

instance decidableExact : (t : AvlTree ν κ) → Decidable t.Exact
  | nil => isTrue trivial
  | node l _ _ _ r =>
    have := decidableExact l
    have := decidableExact r
    inferInstanceAs (Decidable (_ ∧ _ ∧ _))

instance decidableBalanced (bal : ℤ) : (t : AvlTree ν κ) → Decidable (t.Balanced bal)
  | nil => isTrue trivial
  | node l _ _ _ r =>
    have := decidableBalanced bal l
    have := decidableBalanced bal r
    inferInstanceAs (Decidable (_ ∧ _ ∧ _))

instance (bal : ℤ) (t : AvlTree ν κ) : Decidable (Good bal t) :=
  decidable_of_iff (t.Exact ∧ t.Balanced bal) ⟨fun ⟨a, b⟩ => ⟨a, b⟩, fun ⟨a, b⟩ => ⟨a, b⟩⟩

@[simp] theorem good_nil : Good bal (nil : AvlTree ν κ) := ⟨trivial, trivial⟩

theorem good_node_iff : Good bal (node l x k h r) ↔
    h = max l.depth r.depth + 1 ∧ Near bal l r ∧ Good bal l ∧ Good bal r :=
  ⟨fun ⟨⟨hh, hel, her⟩, hn, hbl, hbr⟩ => ⟨hh, hn, ⟨hel, hbl⟩, ⟨her, hbr⟩⟩,
    fun ⟨hh, hn, ⟨hel, hbl⟩, ⟨her, hbr⟩⟩ => ⟨⟨hh, hel, her⟩, hn, hbl, hbr⟩⟩

theorem Good.left (ht : Good bal t) : Good bal t.left := by
  cases t with
  | nil => exact good_nil
  | node l x k h r => exact (good_node_iff.mp ht).2.2.1

theorem Good.right (ht : Good bal t) : Good bal t.right := by
  cases t with
  | nil => exact good_nil
  | node l x k h r => exact (good_node_iff.mp ht).2.2.2

theorem Good.leaf (hbal : 0 ≤ bal) (x : ν) (k : κ) : Good bal (node nil x k 1 nil) :=
  good_node_iff.mpr ⟨rfl, ⟨by simpa using hbal, by simpa using hbal⟩, good_nil, good_nil⟩

theorem exact_mirror (t : AvlTree ν κ) : t.mirror.Exact ↔ t.Exact := by
  induction t with
  | nil => rfl
  | node l x k h r ihl ihr =>
    simp only [mirror_node, Exact, depth_mirror, ihl, ihr, max_comm l.depth, and_comm]

theorem near_mirror : Near bal r.mirror l.mirror ↔ Near bal l r := by
  unfold Near
  rw [depth_mirror, depth_mirror, and_comm]

theorem good_mirror (t : AvlTree ν κ) : Good bal t.mirror ↔ Good bal t := by
  induction t with
  | nil => rfl
  | node l x k h r ihl ihr =>
    rw [mirror_node, good_node_iff, good_node_iff, near_mirror, ihl, ihr, depth_mirror,
      depth_mirror, max_comm, and_comm (a := Good bal r)]

/-- The stored height of a tree is its height. -/
theorem Exact.height? (ht : t.Exact) (hne : t ≠ nil) : t.height? = some t.depth := by
  cases t with
  | nil => exact (hne rfl).elim
  | node l x k h r => exact congrArg some ht.1

theorem Exact.posHeights (ht : t.Exact) : t.PosHeights := by
  induction t with
  | nil => trivial
  | node l x k h r ihl ihr =>
    obtain ⟨hh, hl, hr⟩ := ht
    have hnonneg := depth_nonneg l
    exact posHeights_node.mpr ⟨by omega, ihl hl, ihr hr⟩

theorem Exact.stored (ht : t.Exact) : t.stored = t.depth := by
  cases t with
  | nil => rfl
  | node l x k h r => exact ht.1

/-- A balanced tree is height-balanced as a tree. -/
theorem Balanced.within {bal : ℕ} (ht : t.Balanced bal) : Within bal t.shape := by
  induction t with
  | nil => trivial
  | node l x k h r ihl ihr =>
    obtain ⟨⟨hlr, hrl⟩, hl, hr⟩ := ht
    rw [← height_shape, ← height_shape] at hlr hrl
    exact ⟨by omega, by omega, ihl hl, ihr hr⟩

/-! ## Rotations of good subtrees -/

theorem maxChildHeight_eq (hl : l.Exact) (hr : r.Exact) :
    (node l x k h r).maxChildHeight = max l.depth r.depth := by
  rw [maxChildHeight_stored hl.posHeights hr.posHeights, hl.stored, hr.stored]

/-- The node that is raised gets the height of its left side, the other one its own. -/
theorem rotateRight_eq (hll : ll.Exact) (hlr : lr.Exact) (hr : r.Exact) :
    rotateRight (node (node ll y ky hy lr) x k h r) =
      node ll y ky (ll.depth + 1) (node lr x k (max lr.depth r.depth + 1) r) := by
  have hsub : (node lr x k h r).maxChildHeight = max lr.depth r.depth := maxChildHeight_eq hlr hr
  cases ll with
  | nil => simp [rotateRight, setHeight, hsub]
  | node lll w kw hw llr =>
    have hheight : hw = (node lll w kw hw llr).depth := hll.1
    simp only [rotateRight, setHeight, hsub]
    rw [← hheight]

theorem rotateLeft_eq (hrr : rr.Exact) (hrl : rl.Exact) (hl : l.Exact) :
    rotateLeft (node l x k h (node rl y ky hy rr)) =
      node (node l x k (max l.depth rl.depth + 1) rl) y ky (rr.depth + 1) rr := by
  have hmirror := rotateRight_mirror (node l x k h (node rl y ky hy rr))
  simp only [mirror_node] at hmirror
  rw [rotateRight_eq ((exact_mirror rr).mpr hrr) ((exact_mirror rl).mpr hrl)
    ((exact_mirror l).mpr hl)] at hmirror
  have hback := congrArg mirror hmirror
  rw [mirror_mirror] at hback
  rw [← hback]
  simp [max_comm rl.depth]

/-- The node in the middle is raised by two. -/
theorem doubleRight_eq (hll : ll.Exact) (hgl : gl.Exact) (hgr : gr.Exact) (hr : r.Exact) :
    rotateRight (node (rotateLeft (node ll y ky hy (node gl z kz hz gr))) x k h r) =
      node (node ll y ky (max ll.depth gl.depth + 1) gl) z kz (max ll.depth gl.depth + 2)
        (node gr x k (max gr.depth r.depth + 1) r) := by
  have hleft : (node ll y ky (max ll.depth gl.depth + 1) gl).Exact := ⟨rfl, hll, hgl⟩
  rw [rotateLeft_eq hgr hgl hll, rotateRight_eq hleft hgr hr, depth_node, add_assoc]
  rfl

theorem doubleLeft_eq (hl : l.Exact) (hgl : gl.Exact) (hgr : gr.Exact) (hrr : rr.Exact) :
    rotateLeft (node l x k h (rotateRight (node (node gl z kz hz gr) y ky hy rr))) =
      node (node l x k (max l.depth gl.depth + 1) gl) z kz (max gr.depth rr.depth + 2)
        (node gr y ky (max gr.depth rr.depth + 1) rr) := by
  have hright : (node gr y ky (max gr.depth rr.depth + 1) rr).Exact := ⟨rfl, hgr, hrr⟩
  rw [rotateRight_eq hgl hgr hrr, rotateLeft_eq hright hgl hl, depth_node, add_assoc]
  rfl

/-! ## A height that is taken from one side -/

theorem good_fromLeft_iff : Good bal (node l x k (l.depth + 1) r) ↔
    r.depth ≤ l.depth ∧ l.depth ≤ r.depth + bal ∧ Good bal l ∧ Good bal r := by
  rw [good_node_iff]
  unfold Near
  constructor
  · rintro ⟨hh, ⟨hlr, -⟩, hl, hr⟩
    exact ⟨by omega, hlr, hl, hr⟩
  · rintro ⟨hle, hlr, hl, hr⟩
    have hbal : 0 ≤ bal := by omega
    exact ⟨by omega, ⟨hlr, by omega⟩, hl, hr⟩

theorem good_fromRight_iff : Good bal (node l x k (r.depth + 1) r) ↔
    l.depth ≤ r.depth ∧ r.depth ≤ l.depth + bal ∧ Good bal l ∧ Good bal r := by
  rw [← good_mirror, mirror_node, ← depth_mirror r, good_fromLeft_iff, depth_mirror, depth_mirror,
    good_mirror, good_mirror, and_comm (a := Good bal r)]

end AvlTree

end MpegtsReader
