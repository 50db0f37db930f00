import MpegtsReader.AvlStored
import MpegtsReader.TreeQueries

/-!
# What an AVL tree is asked

The macros of `utils/cdsl_avltree.h` hand an AVL tree to the functions of `utils/base_tree.c`, for
which a node is its links and its key. From the initialisation on their answers are those of the bag
of the nodes (`reads_of_reachable`).
-/

namespace MpegtsReader

open EarlyExit OrderedBag

namespace AvlTree

variable {ν κ σ : Type} {t : AvlTree ν κ}

/-- The tree that a cast to `base_treeRoot_t *` shows. -/
def base : AvlTree ν κ → BaseTree (ν × κ)
  | nil => .null false
  | node l x k _ r => .node false l.base (x, k) r.base

theorem inorder_base (t : AvlTree ν κ) : t.base.inorder = t.nodes := by
  induction t with
  | nil => rfl
  | node l x k h r ihl ihr => rw [base, BaseTree.inorder, ihl, ihr, nodes_node]

theorem mirror_base (t : AvlTree ν κ) : t.base.mirror = t.mirror.base := by
  induction t with
  | nil => rfl
  | node l x k h r ihl ihr => rw [base, BaseTree.mirror, ihl, ihr, mirror_node, base]

theorem isNull_base : t.base.isNull = true ↔ t.nodes = [] := by
  rw [nodes_eq_nil_iff]
  cases t with
  | nil => exact iff_of_true rfl rfl
  | node l x k h r => exact iff_of_false nofun nofun

/-- No pointer has its tag bit set. -/
theorem leftTagged_base (t : AvlTree ν κ) : t.base.leftTagged = false := by
  induction t with
  | nil => rfl
  | node l x k h r ihl ihr => exact ihl

theorem minLoop_base (t : AvlTree ν κ) : t.base.minLoop = t.nodes.head? := by
  rw [BaseTree.minLoop_eq, leftTagged_base, inorder_base]
  cases t with
  | nil => rfl
  | node l x k h r => rfl

theorem maxLoop_base (t : AvlTree ν κ) : t.base.maxLoop = t.nodes.getLast? := by
  rw [BaseTree.maxLoop_eq_mirror, mirror_base, minLoop_base, nodes_mirror, List.head?_reverse]

/-- The traversal to a target calls the callback where a lookup ends. -/
theorem traverseTargetRc_base [LinearOrder κ] (key : κ) (cb : TreeCallback (ν × κ) σ)
    (t : AvlTree ν κ) (i : ℕ) (s : σ) :
    (t.base.traverseTargetRc Prod.snd key cb i s).2 =
      (t.lookup key).top.elim s fun b => (cb i b s).2 := by
  induction t with
  | nil => rfl
  | node l x k h r ihl ihr =>
    rw [base, BaseTree.traverseTargetRc, lookup]
    split_ifs with hgt hlt
    · exact ihl
    · exact ihr
    · rfl

/-- A traversal of the tree is a visit of its nodes in this order. -/
theorem treeForEach_base (t : AvlTree ν κ) (cb : TreeCallback (ν × κ) σ) (s : σ) :
    treeForEach (some t.base) (some cb) orderInc s =
      some (visit BaseTree.breaks cb t.nodes 0 s).2.2 ∧
    treeForEach (some t.base) (some cb) orderDec s =
      some (visit BaseTree.breaks cb t.nodes.reverse 0 s).2.2 := by
  rw [← inorder_base]
  by_cases hnull : t.base.isNull = true
  · simp only [treeForEach, if_pos hnull, BaseTree.inorder_of_isNull hnull]
    exact ⟨rfl, rfl⟩
  · constructor
    · rw [treeForEach, BaseTree.foreachIncrementalRc_eq, if_neg hnull, if_neg (by decide),
        if_pos rfl]
    · rw [treeForEach, BaseTree.foreachDecrementalRc_eq, if_neg hnull, if_pos rfl]

theorem treeForEachToTarget_base [LinearOrder κ] (key : κ) (cb : TreeCallback (ν × κ) σ)
    (t : AvlTree ν κ) (s : σ) :
    treeForEachToTarget Prod.snd (some t.base) (some cb) key s =
      (t.lookup key).top.elim s fun b => (cb 0 b s).2 := by
  rw [treeForEachToTarget, traverseTargetRc_base]
  split_ifs with hnull
  · rw [nodes_eq_nil_iff.mp (isNull_base.mp hnull)]
    rfl
  · rfl

theorem treeIsEmpty_base (t : AvlTree ν κ) : treeIsEmpty (some t.base) = t.base.isNull := by
  cases t <;> rfl

end AvlTree

section Root

open AvlTree BaseTree

variable {ν κ : Type} [LinearOrder κ] {root : AvlRoot ν κ} {factor : UInt8}

/-- The answers about a tree are those about the bag that `l` lists in the order of the keys. -/
structure Reads (root : AvlRoot ν κ) (l : List (ν × κ)) : Prop where
  bag : root.bag = l
  ordered : Ordered Prod.snd l
  forEach : ∀ {σ : Type} (cb : TreeCallback (ν × κ) σ) (s : σ),
    Traverses root.entry.base orderInc l cb s ∧ Traverses root.entry.base orderDec l.reverse cb s
  toTarget : ∀ {σ : Type} (cb : TreeCallback (ν × κ) σ) (s : σ) (key : κ), ∃ b : Option (ν × κ),
    Found Prod.snd key root.bag b ∧ b = (cdslAvltreeLookup root key).top ∧
    treeForEachToTarget Prod.snd (some root.entry.base) (some cb) key s =
      b.elim s fun b => (cb 0 b s).2
  size : treeSize (some root.entry.base) = root.bag.card
  isEmpty : treeIsEmpty (some root.entry.base) = true ↔ root.bag = 0
  min : treeMin (some root.entry.base) = l.head?.map some
  max : treeMax (some root.entry.base) = l.getLast?.map some
  print : (printedLines (treePrint (some root.entry.base) true)).map Prod.snd = l.reverse
  depth : (∀ a ∈ printedLines (treePrint (some root.entry.base) true),
      a.1 < treeMaxDepth (some root.entry.base)) ∧
    (root.bag ≠ 0 → ∃ a ∈ printedLines (treePrint (some root.entry.base) true),
      a.1 + 1 = treeMaxDepth (some root.entry.base))
  deleteAll : ∃ events, treeDeleteAll (some root.entry.base) true = some (null false, events) ∧
    (events.filterMap Event.freed).Perm l ∧ events.Pairwise Event.Before

/-- **The answers about a tree.** From the initialisation on, whatever the balance factor: the
callback is called on the nodes in the order of the keys, or in the reverse order, up to the first
on which it breaks, and on the way to a target once on the node that a lookup finds; the size is the
number of the nodes; the smallest and the largest node are the first and the last of them, and in
the empty tree `NULL` is dereferenced; and the deletion of all frees each node once and touches it
no more. -/
theorem reads_of_reachable
    (hreach : Transition.Reachable goAvl Fresh (cdslAvltreeRootInit factor) root) :
    Reads root root.entry.nodes := by
  have hinv := treeInv_of_reachable hreach
  have hbag : root.bag = root.entry.nodes := rfl
  have honce : root.entry.base.inorder.Nodup := by
    rw [inorder_base]
    exact .of_map Prod.fst hinv.once
  refine ⟨hbag, hinv.inOrder, fun cb s => ⟨?_, ?_⟩, fun cb s key => ?_, ?_, ?_, ?_, ?_, ?_,
    ?_, ?_⟩
  · exact traverses_of_visit (congrArg List.length (inorder_base _).symm)
      fun cb s => (treeForEach_base root.entry cb s).1
  · exact traverses_of_visit (by rw [inorder_base, List.length_reverse])
      fun cb s => (treeForEach_base root.entry cb s).2
  · exact ⟨_, found_lookup hinv.inOrder, rfl, treeForEachToTarget_base key cb root.entry s⟩
  · rw [treeSize, calcSizeRc_eq, inorder_base, hbag, Multiset.coe_card]
  · rw [treeIsEmpty_base, isNull_base, hbag, Multiset.coe_eq_zero]
  · rw [treeMin, minLoop_base]
  · rw [treeMax, maxLoop_base]
  · rw [map_snd_printedLines, inorder_base]
  · refine (treePrint_depth root.entry.base).imp_right fun hdeepest hne => hdeepest ?_
    rw [← Bool.not_eq_true, isNull_base]
    intro hnodes
    rw [hbag, hnodes] at hne
    exact hne rfl
  · rw [← inorder_base]
    exact exists_treeDeleteAll honce

/-- Two nodes of one key and a smaller one. -/
theorem reads_threeNodes :
    ∃ root : AvlRoot ℕ ℕ, root.entry.nodes = [(3, 5), (2, 10), (1, 10)] ∧
      Reads root [(3, 5), (2, 10), (1, 10)] :=
  ⟨_, rfl, @reads_of_reachable ℕ ℕ _ _ 1
    (reachable_inserts [(1, 10), (2, 10), (3, 5)] false (by decide) rfl)⟩

end Root

end MpegtsReader
