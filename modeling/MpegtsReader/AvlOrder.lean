import MpegtsReader.AvlMirror
import MpegtsReader.OrderedBag

/-!
# The nodes of an AVL tree

The nodes of a tree in order are a sequence, which the rotations do not change, and a tree is to
have its keys in order.

The deletions of a smallest or largest node read the height of a child behind a rotation. There is
one since a node without children is never stored as higher than one: `LowLeaves`. A stored height
says no more than that, and only in such a node.
-/

namespace MpegtsReader

namespace AvlTree

open OrderedBag

variable {ν κ : Type} {t t' l r : AvlTree ν κ} {x : ν} {k : κ} {bal h : ℤ}

/-- The nodes in order, each with its key. -/
def nodes : AvlTree ν κ → List (ν × κ)
  | nil => []
  | node l x k _ r => l.nodes ++ (x, k) :: r.nodes

@[simp] theorem nodes_nil : (nil : AvlTree ν κ).nodes = [] := rfl

@[simp] theorem nodes_node : (node l x k h r).nodes = l.nodes ++ (x, k) :: r.nodes := rfl

theorem nodes_eq_nil_iff : t.nodes = [] ↔ t = nil := by cases t <;> simp

theorem exists_height (ht : t ≠ nil) : ∃ h, t.height? = some h := by
  cases t with
  | nil => exact (ht rfl).elim
  | node => exact ⟨_, rfl⟩

@[simp] theorem nodes_setHeight : (t.setHeight h).nodes = t.nodes := by cases t <;> rfl

@[simp] theorem nodes_mirror (t : AvlTree ν κ) : t.mirror.nodes = t.nodes.reverse := by
  induction t with
  | nil => rfl
  | node l x k h r ihl ihr => simp [ihl, ihr]

/-! ## Stored heights -/

/-- The height that is stored in a node without children is one at most. -/
def LowLeaves : AvlTree ν κ → Prop
  | nil => True
  | node l _ _ h r => (l = nil → r = nil → h ≤ 1) ∧ l.LowLeaves ∧ r.LowLeaves

/-- The same of the nodes below the first. -/
def LowBelow (t : AvlTree ν κ) : Prop := t.left.LowLeaves ∧ t.right.LowLeaves

@[simp] theorem lowLeaves_nil : (nil : AvlTree ν κ).LowLeaves := trivial

theorem lowLeaves_node :
    (node l x k h r).LowLeaves ↔ (l = nil → r = nil → h ≤ 1) ∧ l.LowLeaves ∧ r.LowLeaves := Iff.rfl

@[simp] theorem lowBelow_node : (node l x k h r).LowBelow ↔ l.LowLeaves ∧ r.LowLeaves := Iff.rfl

theorem LowLeaves.below (ht : t.LowLeaves) : t.LowBelow := by
  cases t with
  | nil => exact ⟨trivial, trivial⟩
  | node l x k h r => exact ht.2

/-- Nothing is said of the height of a node with a child. -/
theorem LowBelow.lowLeaves (ht : t.LowBelow) (hchild : t.left ≠ nil ∨ t.right ≠ nil) :
    t.LowLeaves := by
  cases t with
  | nil => trivial
  | node l x k h r => exact ⟨fun hl hr => (hchild.elim (· hl) (· hr)).elim, ht⟩

theorem lowLeaves_mirror (t : AvlTree ν κ) : t.mirror.LowLeaves ↔ t.LowLeaves := by
  have hnil (t : AvlTree ν κ) : t.mirror = nil ↔ t = nil := by cases t <;> simp
  induction t with
  | nil => rfl
  | node l x k h r ihl ihr =>
    simp only [mirror_node, lowLeaves_node, ihl, ihr, hnil]
    tauto

theorem lowLeaves_setMax (ht : t.LowBelow) : (t.setHeight (t.maxChildHeight + 1)).LowLeaves := by
  cases t with
  | nil => trivial
  | node l x k h r =>
    refine ⟨?_, ht⟩
    rintro rfl rfl
    exact le_refl _

/-! ## Rotations -/

/-- `t'` has the nodes of `t` in the same order, and low leaves if `t` has. -/
structure Rearranges (t t' : AvlTree ν κ) : Prop where
  nodes : t'.nodes = t.nodes
  low : t.LowLeaves → t'.LowLeaves

theorem Rearranges.refl (t : AvlTree ν κ) : Rearranges t t := ⟨rfl, id⟩

theorem Rearranges.trans {t'' : AvlTree ν κ} (h₁ : Rearranges t t') (h₂ : Rearranges t' t'') :
    Rearranges t t'' := ⟨h₂.nodes.trans h₁.nodes, h₂.low ∘ h₁.low⟩

theorem Rearranges.ne_nil (hr : Rearranges t t') (ht : t ≠ nil) : t' ≠ nil := by
  rw [Ne, ← nodes_eq_nil_iff, hr.nodes, nodes_eq_nil_iff]
  exact ht

theorem Rearranges.ite {p : Prop} [Decidable p] (hr : Rearranges t t') :
    Rearranges t (if p then t' else t) := by
  split
  · exact hr
  · exact .refl t

theorem Rearranges.mirror (hr : Rearranges t t') : Rearranges t.mirror t'.mirror where
  nodes := by rw [nodes_mirror, nodes_mirror, hr.nodes]
  low := by
    rw [lowLeaves_mirror, lowLeaves_mirror]
    exact hr.low

theorem Rearranges.node_right {r' : AvlTree ν κ} (hr : Rearranges r r') :
    Rearranges (node l x k h r) (node l x k h r') where
  nodes := by rw [nodes_node, nodes_node, hr.nodes]
  low := by
    rintro ⟨hlow, hl, hr'⟩
    refine ⟨fun hl hnil => hlow hl ?_, hl, hr.low hr'⟩
    rw [← nodes_eq_nil_iff, ← hr.nodes, hnil, nodes_nil]

theorem Rearranges.node_left {l' : AvlTree ν κ} (hl : Rearranges l l') :
    Rearranges (node l x k h r) (node l' x k h r) := by
  have hright := (hl.mirror.node_right (l := r.mirror) (x := x) (k := k) (h := h)).mirror
  simpa using hright

theorem rearranges_rotateLeft (t : AvlTree ν κ) : Rearranges t t.rotateLeft := by
  rcases t with _ | ⟨l, x, k, h, _ | ⟨rl, y, ky, hr, rr⟩⟩
  · exact .refl _
  · exact .refl _
  · refine ⟨?_, ?_⟩
    · cases rr <;> simp [rotateLeft]
    · rintro ⟨-, hl, -, hrl, hrr⟩
      refine ⟨fun hnil _ => ?_, ?_, hrr⟩
      · cases hnil
      · exact lowLeaves_setMax ⟨hl, hrl⟩

theorem rearranges_rotateRight (t : AvlTree ν κ) : Rearranges t t.rotateRight := by
  have hleft := (rearranges_rotateLeft t.mirror).mirror
  rwa [rotateLeft_mirror, mirror_mirror, mirror_mirror] at hleft

/-- The node that is raised takes the first one below its left. -/
theorem lt_left_rotateLeft (hr : r ≠ nil) :
    l.nodes.length < (node l x k h r).rotateLeft.left.nodes.length := by
  cases r with
  | nil => exact (hr rfl).elim
  | node rl y ky hy rr =>
    have hleft : (node l x k h (node rl y ky hy rr)).rotateLeft.left.nodes =
        (node l x k h rl).nodes := rfl
    rw [hleft, nodes_node, List.length_append, List.length_cons]
    omega

theorem lt_right_rotateRight (hl : l ≠ nil) :
    r.nodes.length < (node l x k h r).rotateRight.right.nodes.length := by
  have hleft := lt_left_rotateLeft (l := r.mirror) (x := x) (k := k) (h := h) (mirror_ne_nil hl)
  rwa [← mirror_node, rotateLeft_mirror, left_mirror, nodes_mirror, nodes_mirror,
    List.length_reverse, List.length_reverse] at hleft

theorem lt_left_raiseRight (hr : r ≠ nil) :
    l.nodes.length < (node l x k h r).raiseRight.left.nodes.length := by
  unfold raiseRight
  split
  · next heq =>
    obtain ⟨rfl, rfl, rfl, rfl, rfl⟩ := heq
    exact lt_left_rotateLeft ((rearranges_rotateRight _).ne_nil nofun)
  · exact lt_left_rotateLeft hr

theorem lt_right_raiseLeft (hl : l ≠ nil) :
    r.nodes.length < (node l x k h r).raiseLeft.right.nodes.length := by
  have hleft := lt_left_raiseRight (l := r.mirror) (x := x) (k := k) (h := h) (mirror_ne_nil hl)
  rwa [← mirror_node, raiseRight_mirror, left_mirror, nodes_mirror, nodes_mirror,
    List.length_reverse, List.length_reverse] at hleft

/-! ## Keys in order -/

section Keys

variable [LinearOrder κ]

/-- The keys of a tree do not decrease. -/
def InOrder (t : AvlTree ν κ) : Prop := Ordered Prod.snd t.nodes

theorem InOrder.left (ht : (node l x k h r).InOrder) : l.InOrder := (ordered_middle.mp ht).1

theorem InOrder.right (ht : (node l x k h r).InOrder) : r.InOrder := (ordered_middle.mp ht).2.1

/-- The nodes from the first on, when the key is below its key. -/
theorem InOrder.lt_of_lt {key : κ} (ht : (node l x k h r).InOrder) (hk : key < k) :
    ∀ b ∈ (x, k) :: r.nodes, key < b.2 :=
  List.forall_mem_cons.mpr ⟨hk, fun b hb => hk.trans_le ((ordered_middle.mp ht).2.2.2 b hb)⟩

/-- The nodes up to the first, when the key is above its key. -/
theorem InOrder.gt_of_gt {key : κ} (ht : (node l x k h r).InOrder) (hk : k < key) :
    ∀ b ∈ l.nodes ++ [(x, k)], b.2 < key :=
  List.forall_mem_append.mpr ⟨fun b hb => ((ordered_middle.mp ht).2.2.1 b hb).trans_lt hk,
    List.forall_mem_singleton.mpr hk⟩

/-- A lookup finds a node with the key if and only if there is one. -/
theorem found_lookup {key : κ} (ht : t.InOrder) :
    Found Prod.snd key ↑t.nodes (t.lookup key).top := by
  induction t with
  | nil => exact nofun
  | node l x k h r ihl ihr =>
    rw [lookup]
    split_ifs with hlt hgt
    · exact (ihl ht.left).left fun b hb => (ht.lt_of_lt hlt b hb).ne'
    · rw [nodes_node, List.append_cons]
      exact (ihr ht.right).right fun b hb => (ht.gt_of_gt hgt b hb).ne
    · exact ⟨List.mem_append_right _ List.mem_cons_self,
        le_antisymm (not_lt.mp hlt) (not_lt.mp hgt)⟩

end Keys

end AvlTree

end MpegtsReader
