import MpegtsReader.AvlOrder

/-!
# Deletion from an AVL tree

`delete_lm_rc` and `delete_rm_rc` take the first and the last of the sequence of nodes, on a tree
with low leaves and with a balance factor that is not 0. `delete_rc` deletes one node of the key
from the sequence if there is one, on any tree with its keys in order. All keep the leaves low:
where a node loses its last child its height is stored anew.
-/

namespace MpegtsReader

namespace AvlTree

open OrderedBag

variable {ν κ : Type} {t t' l r : AvlTree ν κ} {x : ν} {k : κ} {bal h : ℤ}

theorem rearranges_raiseRight (t : AvlTree ν κ) : Rearranges t t.raiseRight := by
  unfold raiseRight
  split
  · exact (rearranges_rotateRight _).node_right.trans (rearranges_rotateLeft _)
  · exact rearranges_rotateLeft _

/-- A node on the right that is higher than one gets one on its own right, or is there already. -/
theorem right_raiseRight_ne_nil {rl rr : AvlTree ν κ} {y : ν} {ky : κ} {hr : ℤ}
    (hlow : (node rl y ky hr rr).LowLeaves) (hhigh : 1 < hr) :
    (node l x k h (node rl y ky hr rr)).raiseRight.right ≠ nil := by
  rcases rr with _ | ⟨rrl, z, kz, hrr, rrr⟩
  · rcases rl with _ | ⟨rll, z, kz, hrl, rlr⟩
    · have hle := hlow.1 rfl rfl
      omega
    · exact nofun
  · exact nofun

/-! ## On the way back -/

/-- `t'` has the nodes of `t` in the same order, and low leaves whatever the height of the first. -/
structure Settles (t t' : AvlTree ν κ) : Prop where
  nodes : t'.nodes = t.nodes
  low : t.LowBelow → t'.LowLeaves

/-- The height of a node with a child may be another one. -/
theorem Rearranges.settles {h' : ℤ} (hr : Rearranges (node l x k h' r) t')
    (hchild : l ≠ nil ∨ r ≠ nil) : Settles (node l x k h r) t' :=
  ⟨hr.nodes, fun hlow => hr.low (LowBelow.lowLeaves hlow hchild)⟩

theorem settles_leaf : Settles (node nil x k h nil) (node nil x k 1 nil) :=
  ⟨rfl, fun hlow => ⟨fun _ _ => le_refl _, hlow⟩⟩

theorem settles_settleTakeLeft (bal : ℤ) (t : AvlTree ν κ) : Settles t (settleTakeLeft bal t) := by
  rcases t with _ | ⟨_ | ⟨ll, y, ky, hl, lr⟩, x, k, h, _ | ⟨rl, z, kz, hr, rr⟩⟩
  · exact ⟨rfl, fun _ => trivial⟩
  · exact settles_leaf
  · exact (rearranges_rotateLeft _).ite.settles (.inr nofun)
  · exact (Rearranges.refl _).settles (.inl nofun)
  · exact (rearranges_rotateLeft _).ite.settles (.inl nofun)

theorem settles_settleLeft (bal : ℤ) (t : AvlTree ν κ) : Settles t (settleLeft bal t) := by
  rcases t with _ | ⟨_ | ⟨ll, y, ky, hl, lr⟩, x, k, h, _ | ⟨rl, z, kz, hr, rr⟩⟩
  · exact ⟨rfl, fun _ => trivial⟩
  · exact settles_leaf
  · exact (rearranges_raiseRight _).ite.settles (.inr nofun)
  · exact (Rearranges.refl _).settles (.inl nofun)
  · exact (rearranges_raiseRight _).ite.settles (.inl nofun)

theorem lowBelow_mirror (t : AvlTree ν κ) : t.mirror.LowBelow ↔ t.LowBelow := by
  cases t with
  | nil => rfl
  | node l x k h r =>
    rw [mirror_node, lowBelow_node, lowBelow_node, lowLeaves_mirror, lowLeaves_mirror, and_comm]

theorem settles_settleRight (bal : ℤ) (t : AvlTree ν κ) : Settles t (settleRight bal t) := by
  have hleft := settles_settleLeft bal t.mirror
  have hright := settleRight_mirror bal t.mirror
  rw [mirror_mirror] at hright
  rw [hright]
  exact ⟨by rw [nodes_mirror, hleft.nodes, nodes_mirror, List.reverse_reverse],
    fun hlow => (lowLeaves_mirror _).mpr (hleft.low ((lowBelow_mirror t).mpr hlow))⟩

/-! ## A node for the place of the one that is deleted -/

theorem exists_takeLeftmostRc (bal : ℤ) (ht : t ≠ nil) :
    ∃ t' leaf y, takeLeftmostRc bal t = (t', leaf) ∧ leaf.top = some y ∧ t.nodes = y :: t'.nodes ∧
      (t.LowLeaves → t'.LowLeaves) := by
  induction t with
  | nil => exact (ht rfl).elim
  | node l x k h r ih =>
    cases l with
    | nil => exact ⟨r, node nil x k h r, (x, k), rfl, rfl, rfl, fun hlow => hlow.2.2⟩
    | node ll y ky hl lr =>
      obtain ⟨l', leaf, z, heq, hleaf, hnodes, hlow⟩ := ih node_ne_nil
      have hsettle := settles_settleTakeLeft bal (node l' x k h r)
      refine ⟨_, leaf, z, ?_, hleaf, ?_, fun h => hsettle.low ⟨hlow h.2.1, h.2.2⟩⟩
      · rw [takeLeftmostRc, heq]
      · rw [hsettle.nodes, nodes_node, hnodes]
        rfl

theorem exists_fillFromRight (bal h : ℤ) (l : AvlTree ν κ) (hr : r ≠ nil) :
    ∃ t, fillFromRight bal l h r = some t ∧ t.nodes = l.nodes ++ r.nodes ∧
      (l.LowLeaves → r.LowLeaves → t.LowBelow) := by
  obtain ⟨r', leaf, y, heq, hleaf, hnodes, hlow⟩ := exists_takeLeftmostRc bal hr
  cases leaf with
  | nil => cases hleaf
  | node ll x k h' lr =>
    obtain rfl : (x, k) = y := Option.some.inj hleaf
    refine ⟨node l x k h r', ?_, ?_, fun hl hr => ⟨hl, hlow hr⟩⟩
    · rw [fillFromRight, heq]
      rfl
    · rw [hnodes, nodes_node]

theorem exists_fillFromLeft (bal h : ℤ) (r : AvlTree ν κ) (hl : l ≠ nil) :
    ∃ t, fillFromLeft bal l h r = some t ∧ t.nodes = l.nodes ++ r.nodes ∧
      (l.LowLeaves → r.LowLeaves → t.LowBelow) := by
  obtain ⟨t', heq, hnodes, hlow⟩ := exists_fillFromRight bal h r.mirror (mirror_ne_nil hl)
  rw [fillFromRight_mirror, Option.map_eq_some_iff] at heq
  obtain ⟨t, heq, rfl⟩ := heq
  rw [lowLeaves_mirror, lowLeaves_mirror, lowBelow_mirror] at hlow
  refine ⟨t, heq, ?_, fun hl hr => hlow hr hl⟩
  rw [nodes_mirror, nodes_mirror, nodes_mirror, ← List.reverse_append] at hnodes
  exact List.reverse_injective hnodes

/-! ## The smallest and the largest node -/

theorem left_setHeight (t : AvlTree ν κ) : (t.setHeight h).left = t.left := by cases t <;> rfl

theorem right_setHeight (t : AvlTree ν κ) : (t.setHeight h).right = t.right := by cases t <;> rfl

theorem lowBelow_setHeight (t : AvlTree ν κ) : (t.setHeight h).LowBelow ↔ t.LowBelow := by
  cases t <;> rfl

/-- The node on the right is there behind the rotation: before it, it is higher than one. -/
theorem exists_settleOnlyRight {rl rr : AvlTree ν κ} {y : ν} {ky : κ} {hr : ℤ} (hbal : 1 ≤ bal)
    (hlow : (node l x k h (node rl y ky hr rr)).LowBelow) :
    ∃ t', settleOnlyRight bal hr (node l x k h (node rl y ky hr rr)) = some t' ∧
      t'.nodes = (node l x k h (node rl y ky hr rr)).nodes ∧ t'.LowLeaves := by
  have ht := (rearranges_raiseRight (node l x k h (node rl y ky hr rr))).ite (p := hr > bal)
  have hright : (if hr > bal then (node l x k h (node rl y ky hr rr)).raiseRight
      else node l x k h (node rl y ky hr rr)).right ≠ nil := by
    split_ifs with hhigh
    · exact right_raiseRight_ne_nil hlow.2 (hbal.trans_lt hhigh)
    · exact nofun
  unfold settleOnlyRight
  generalize (if hr > bal then (node l x k h (node rl y ky hr rr)).raiseRight
    else node l x k h (node rl y ky hr rr)) = t at ht hright ⊢
  obtain ⟨hh, hheight⟩ := exists_height hright
  refine ⟨t.setHeight (hh + 1), ?_, ?_, ?_⟩
  · simp [hheight]
  · rw [nodes_setHeight, ht.nodes]
  · refine LowBelow.lowLeaves ((lowBelow_setHeight t).mpr ?_) (.inr ?_)
    · exact (ht.low (LowBelow.lowLeaves hlow (.inr nofun))).below
    · rwa [right_setHeight]

theorem exists_settleOnlyLeft {ll lr : AvlTree ν κ} {y : ν} {ky : κ} {hl : ℤ} (hbal : 1 ≤ bal)
    (hlow : (node (node ll y ky hl lr) x k h r).LowBelow) :
    ∃ t', settleOnlyLeft bal hl (node (node ll y ky hl lr) x k h r) = some t' ∧
      t'.nodes = (node (node ll y ky hl lr) x k h r).nodes ∧ t'.LowLeaves := by
  have hright := settleOnlyRight_mirror bal hl (node (node ll y ky hl lr) x k h r)
  obtain ⟨t', heq, hnodes, hlow'⟩ := exists_settleOnlyRight (h := h) (x := x) (k := k) hbal
    ((lowBelow_mirror (node (node ll y ky hl lr) x k h r)).mpr hlow)
  simp only [mirror_node] at hright
  rw [hright, Option.map_eq_some_iff] at heq
  obtain ⟨t, heq, rfl⟩ := heq
  refine ⟨t, heq, ?_, (lowLeaves_mirror t).mp hlow'⟩
  rw [nodes_mirror, ← mirror_node, ← mirror_node, nodes_mirror] at hnodes
  exact List.reverse_injective hnodes

theorem exists_settleLm (hbal : 1 ≤ bal) (ht : t ≠ nil) (hlow : t.LowBelow) :
    ∃ t', t.settleLm bal = some t' ∧ t'.nodes = t.nodes ∧ t'.LowLeaves := by
  rcases t with _ | ⟨_ | ⟨ll, y, ky, hl, lr⟩, x, k, h, _ | ⟨rl, z, kz, hr, rr⟩⟩
  · exact (ht rfl).elim
  · exact ⟨_, rfl, settles_leaf.nodes, settles_leaf.low hlow⟩
  · exact exists_settleOnlyRight hbal hlow
  · exact exists_settleOnlyLeft hbal hlow
  · have hraise := (rearranges_raiseRight (node (node ll y ky hl lr) x k h
      (node rl z kz hr rr))).ite (p := hr - hl > bal)
    refine ⟨_, rfl, ?_, ?_⟩
    · rw [nodes_setHeight, hraise.nodes]
    · exact lowLeaves_setMax (hraise.low (LowBelow.lowLeaves hlow (.inl nofun))).below

theorem exists_deleteLmRc (hbal : 1 ≤ bal) (hlow : t.LowLeaves) :
    ∃ t' deleted, deleteLmRc bal none t = some (t', deleted) ∧ t'.nodes = t.nodes.tail ∧
      deleted.top = t.nodes.head? ∧ t'.LowLeaves := by
  induction t with
  | nil => exact ⟨nil, nil, rfl, rfl, rfl, trivial⟩
  | node l x k h r ih =>
    cases l with
    | nil =>
      cases r with
      | nil => exact ⟨nil, node nil x k h nil, rfl, rfl, rfl, trivial⟩
      | node rl y ky hr rr =>
        obtain ⟨t, hfill, hnodes, hbelow⟩ := exists_fillFromRight bal h nil
          (r := node rl y ky hr rr) node_ne_nil
        have hne : t ≠ nil := by
          rintro rfl
          simp at hnodes
        obtain ⟨t', hsettle, hnodes', hlow'⟩ := exists_settleLm hbal hne
          (hbelow trivial hlow.2.2)
        refine ⟨t', node nil x k h nil, ?_, ?_, rfl, hlow'⟩
        · simp [deleteLmRc, replaceNode, hfill, hsettle]
        · rw [hnodes', hnodes]
          rfl
    | node ll y ky hl lr =>
      obtain ⟨l', deleted, heq, hnodes, htop, hlow'⟩ := ih hlow.2.1
      obtain ⟨t', hsettle, hnodes', hlow''⟩ :=
        exists_settleLm (t := node l' x k h r) hbal node_ne_nil
        ⟨hlow', hlow.2.2⟩
      obtain ⟨z, m, hl⟩ := List.exists_cons_of_ne_nil
        (mt (nodes_eq_nil_iff (t := node ll y ky hl lr)).mp node_ne_nil)
      refine ⟨t', deleted, ?_, ?_, ?_, hlow''⟩
      · simp [deleteLmRc, heq, hsettle]
      · rw [hnodes', nodes_node, hnodes, nodes_node (l := node ll y ky _ lr), hl]
        rfl
      · rw [htop, nodes_node (l := node ll y ky _ lr), hl]
        rfl

theorem exists_deleteRmRc (hbal : 1 ≤ bal) (hlow : t.LowLeaves) :
    ∃ t' deleted, deleteRmRc bal none t = some (t', deleted) ∧ t'.nodes = t.nodes.dropLast ∧
      deleted.top = t.nodes.getLast? ∧ t'.LowLeaves := by
  obtain ⟨t', deleted, heq, hnodes, htop, hlow'⟩ :=
    exists_deleteLmRc hbal ((lowLeaves_mirror t).mpr hlow)
  rw [deleteLmRc_mirror, Option.map_eq_some_iff] at heq
  obtain ⟨⟨u, d⟩, heq, hud⟩ := heq
  obtain ⟨rfl, rfl⟩ := Prod.mk.inj hud
  refine ⟨u, d, heq, ?_, ?_, (lowLeaves_mirror u).mp hlow'⟩
  · rw [nodes_mirror, nodes_mirror, List.tail_reverse] at hnodes
    exact List.reverse_injective hnodes
  · rw [top_mirror, nodes_mirror, List.head?_reverse] at htop
    exact htop

/-! ## A node with a key -/

theorem exists_deleteFound (bal : ℤ) (l : AvlTree ν κ) (x : ν) (k : κ) (h : ℤ) (r : AvlTree ν κ) :
    ∃ t', deleteFound bal none (node l x k h r) = some (t', node nil x k h nil) ∧
      t'.nodes = l.nodes ++ r.nodes ∧ ((node l x k h r).LowLeaves → t'.LowLeaves) := by
  rcases r with _ | ⟨rl, z, kz, hr, rr⟩
  · rcases l with _ | ⟨ll, y, ky, hl, lr⟩
    · exact ⟨nil, rfl, rfl, fun _ => trivial⟩
    · obtain ⟨t, heq, hnodes, hlow⟩ :=
        exists_fillFromLeft bal h (l := node ll y ky hl lr) nil node_ne_nil
      refine ⟨t.setHeight (t.maxChildHeight + 1), ?_, ?_, fun h =>
        lowLeaves_setMax (hlow h.2.1 h.2.2)⟩
      · simp [deleteFound, replaceNode, heq]
      · rw [nodes_setHeight, hnodes]
  · obtain ⟨t, heq, hnodes, hlow⟩ :=
      exists_fillFromRight bal h (r := node rl z kz hr rr) l node_ne_nil
    refine ⟨t.setHeight (t.maxChildHeight + 1), ?_, ?_, fun h =>
      lowLeaves_setMax (hlow h.2.1 h.2.2)⟩
    · cases l <;> simp [deleteFound, replaceNode, heq]
    · rw [nodes_setHeight, hnodes]

theorem exists_deleteRc [LinearOrder κ] (bal : ℤ) (key : κ) (ht : t.InOrder) :
    ∃ t' deleted, deleteRc bal key none t = some (t', deleted) ∧
      Deletion Prod.snd key t.nodes deleted.top t'.nodes ∧ (t.LowLeaves → t'.LowLeaves) := by
  induction t with
  | nil => exact ⟨nil, nil, rfl, .absent nofun, id⟩
  | node l x k h r ihl ihr =>
    rcases lt_trichotomy key k with hlt | rfl | hgt
    · obtain ⟨l', deleted, heq, hdel, hlow⟩ := ihl ht.left
      have hsettle := settles_settleLeft bal (node l' x k h r)
      refine ⟨_, deleted, ?_, ?_, fun h => hsettle.low ⟨hlow h.2.1, h.2.2⟩⟩
      · rw [deleteRc, if_pos hlt, heq]
        rfl
      · rw [hsettle.nodes]
        exact hdel.left fun b hb => (ht.lt_of_lt hlt b hb).ne'
    · obtain ⟨t', heq, hnodes, hlow⟩ := exists_deleteFound bal l x key h r
      refine ⟨t', node nil x key h nil, ?_, ?_, hlow⟩
      · rw [deleteRc, if_neg (lt_irrefl key), if_neg (lt_irrefl key), heq]
      · rw [hnodes, nodes_node]
        exact .present rfl
    · obtain ⟨r', deleted, heq, hdel, hlow⟩ := ihr ht.right
      have hsettle := settles_settleRight bal (node l x k h r')
      refine ⟨_, deleted, ?_, ?_, fun h => hsettle.low ⟨h.2.1, hlow h.2.2⟩⟩
      · rw [deleteRc, if_neg hgt.not_gt, if_pos hgt, heq]
        rfl
      · rw [hsettle.nodes, nodes_node, nodes_node, List.append_cons l.nodes (x, k) r.nodes,
          List.append_cons l.nodes (x, k) r'.nodes]
        exact hdel.right fun b hb => (ht.gt_of_gt hgt b hb).ne

end AvlTree

end MpegtsReader
