import MpegtsReader.AvlSwap

/-!
# An update of a node

`tree_update` of `utils/base_tree.c`, which `cdsl_avltreeUpdate` calls for nodes of an AVL tree.
Their pointers have no tag bits. The new node gets the links of the one that it replaces, and keeps
the height that it has.
-/

namespace MpegtsReader

namespace AvlTree

variable {ν κ : Type} [LinearOrder κ] {t : AvlTree ν κ} {y : ν} {key : κ}

/-- `tree_update`: the loop for a new node with this item, key and height. The tree and the node
that is returned. -/
def treeUpdateLoop (y : ν) (key : κ) (height : ℤ) : AvlTree ν κ → AvlTree ν κ × AvlTree ν κ
  | nil => (nil, nil)
  | node l x k h r =>
    if key > k then
      let (r, replaced) := treeUpdateLoop y key height r
      (node l x k h r, replaced)
    else if key < k then
      let (l, replaced) := treeUpdateLoop y key height l
      (node l x k h r, replaced)
    else (node l y key height r, node l x k h r)

theorem treeUpdateLoop_eq (y : ν) (key : κ) (height : ℤ) (t : AvlTree ν κ) :
    treeUpdateLoop y key height t =
      ((t.swap y key).modify key (setHeight height), t.lookup key) := by
  induction t with
  | nil => rfl
  | node l x k h r ihl ihr =>
    rw [treeUpdateLoop, swap_node, lookup]
    rcases lt_trichotomy key k with hlt | rfl | hgt
    · simp only [gt_iff_lt, if_neg hlt.not_gt, if_pos hlt, ihl, modify]
    · simp only [gt_iff_lt, lt_irrefl, if_false, modify, setHeight]
    · simp only [gt_iff_lt, if_neg hgt.not_gt, if_pos hgt, ihr, modify]

theorem posHeights_swap (ht : t.PosHeights) : (t.swap y key).PosHeights := by
  induction t with
  | nil => trivial
  | node l x k h r ihl ihr =>
    obtain ⟨hh, hl, hr⟩ := ht
    rw [swap_node]
    split_ifs
    · exact ⟨hh, ihl hl, hr⟩
    · exact ⟨hh, hl, ihr hr⟩
    · exact ⟨hh, hl, hr⟩

/-- A height of 0 is stored where the key is found. -/
theorem not_posHeights_treeUpdateLoop (hfound : t.lookup key ≠ nil) :
    ¬(treeUpdateLoop y key 0 t).1.PosHeights := by
  induction t with
  | nil => exact (hfound rfl).elim
  | node l x k h r ihl ihr =>
    rw [lookup] at hfound
    rw [treeUpdateLoop]
    rcases lt_trichotomy key k with hlt | rfl | hgt
    · simp only [gt_iff_lt, if_neg hlt.not_gt, if_pos hlt] at hfound ⊢
      exact fun hpos => ihl hfound hpos.2.1
    · simp only [gt_iff_lt, lt_irrefl, if_false] at hfound ⊢
      exact fun hpos => absurd hpos.1 (by decide)
    · simp only [gt_iff_lt, if_neg hgt.not_gt, if_pos hgt] at hfound ⊢
      exact fun hpos => ihr hfound hpos.2.2

end AvlTree

section Root

open AvlTree

variable {ν κ : Type} [LinearOrder κ] {root : AvlRoot ν κ} {y : ν} {key : κ} {factor : UInt8}

/-- `cdsl_avltreeUpdate`, which is `tree_update`: the tree and the node that is returned. -/
def cdslAvltreeUpdate (root : AvlRoot ν κ) (nitem : AvlTree ν κ) : AvlRoot ν κ × AvlTree ν κ :=
  match nitem with
  | nil => (root, nil)
  | node _ y key height _ =>
    let (entry, replaced) := treeUpdateLoop y key height root.entry
    ({ root with entry }, replaced)

/-- The update puts the new node in the place of the one with the key, which is returned, and leaves
it with the links and the height of that one and everything else as it is. -/
def UpdatesItem (root : AvlRoot ν κ) (y : ν) (key : κ) : Prop :=
  cdslAvltreeUpdate root (cdslAvltreeNodeInit y key) =
    ({ root with entry := root.entry.swap y key }, root.entry.lookup key)

/-- The links and the node that is returned are right, and the height is the one that
`cdsl_avltreeNodeInit` stores. -/
theorem cdslAvltreeUpdate_eq (root : AvlRoot ν κ) (y : ν) (key : κ) :
    cdslAvltreeUpdate root (cdslAvltreeNodeInit y key) =
      ({ root with entry := (root.entry.swap y key).modify key (setHeight 0) },
        root.entry.lookup key) := by
  simp only [cdslAvltreeUpdate, cdslAvltreeNodeInit, treeUpdateLoop_eq]

/-- **An update of a node.** From the initialisation on, the update of a key that is there never
leaves the new node with the height of the old one: no stored height is 0. -/
theorem not_updatesItem
    (hreach : Transition.Reachable goAvl Fresh (cdslAvltreeRootInit factor) root)
    (hkey : ∃ b ∈ root.bag, b.2 = key) : ¬UpdatesItem root y key := by
  have hinv := treeInv_of_reachable hreach
  intro heq
  have hentry : (treeUpdateLoop y key 0 root.entry).1 = root.entry.swap y key :=
    congrArg (fun r => r.1.entry) heq
  refine not_posHeights_treeUpdateLoop (y := y) (lookup_ne_nil hinv.inOrder hkey) ?_
  rw [hentry]
  exact posHeights_swap hinv.pos

/-- A node below the root gets the height 0 instead of 2. -/
theorem not_updatesItem_fourNodes :
    ∃ root : AvlRoot ℕ ℕ,
      root.entry = node (node nil 1 1 1 nil) 2 2 3 (node nil 3 3 2 (node nil 4 4 1 nil)) ∧
      (cdslAvltreeUpdate root (cdslAvltreeNodeInit 9 3)).1.entry =
        node (node nil 1 1 1 nil) 2 2 3 (node nil 9 3 0 (node nil 4 4 1 nil)) ∧
      ¬UpdatesItem root 9 3 := by
  refine ⟨_, rfl, rfl, @not_updatesItem ℕ ℕ _ _ 9 3 1
    (reachable_inserts [(2, 2), (1, 1), (3, 3), (4, 4)] false (by decide) rfl)
    ⟨(3, 3), by decide, rfl⟩⟩

/-- The same in a tree that is reached. -/
theorem not_updatesItem_reached :
    ∃ root : AvlRoot ℕ ℕ, Transition.Reachable goAvl Fresh (cdslAvltreeRootInit 1) root ∧
      (∃ b ∈ root.bag, b.2 = 3) ∧ ¬UpdatesItem root 9 3 := by
  refine ⟨_, reachable_inserts [(2, 2), (1, 1), (3, 3), (4, 4)] false (by decide) rfl,
    ⟨(3, 3), by decide, rfl⟩, fun heq => ?_⟩
  exact absurd (congrArg (fun r => r.1.entry) heq) (by decide)

end Root

end MpegtsReader
