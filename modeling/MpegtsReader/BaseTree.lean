import Mathlib.Data.Int.Notation
import MpegtsReader.EarlyExit

/-!
# The traversal of a tree

`tree_for_each` and `tree_size` of `utils/base_tree.c`. A pointer to a node is what is below it,
with its tag bit; `GET_PTR` clears the bit, so a pointer that is `NULL` but for the bit ends the
tree as well. The callback has a state and leaves the tree as it is; its calls are those of a visit
of the nodes in order (`foreachIncrementalRc_eq`, `foreachDecrementalRc_eq`).
-/

namespace MpegtsReader

open EarlyExit

/-- `base_treeNode_t *`. -/
inductive BaseTree (ν : Type)
  | null (nptr : Bool)
  | node (nptr : Bool) (left : BaseTree ν) (item : ν) (right : BaseTree ν)

/-- `base_tree_callback_t`: the order and the node; what it returns, and its state. -/
abbrev TreeCallback (ν σ : Type) := ℕ → ν → σ → ℤ × σ

/-- `FOREACH_CONTINUE`. -/
def foreachContinue : ℤ := 0

/-- `FOREACH_BREAK`. -/
def foreachBreak : ℤ := 1

/-- `ORDER_INC`. -/
def orderInc : ℤ := 0

/-- `ORDER_DEC`. -/
def orderDec : ℤ := 1

namespace BaseTree

variable {ν σ : Type}

/-- `GET_PTR(ptr) == NULL`. -/
def isNull : BaseTree ν → Bool
  | null _ => true
  | node .. => false

/-- `calc_size_rc`. -/
def calcSizeRc : BaseTree ν → ℕ
  | null _ => 0
  | node _ l _ r =>
    let cnt := 1
    if l.isNull && r.isNull then cnt
    else
      let cnt := if l.isNull then cnt else cnt + calcSizeRc l
      if r.isNull then cnt else cnt + calcSizeRc r

/-- `foreach_incremental_rc`: what it returns, the order that comes next, and the state of the
callback. -/
def foreachIncrementalRc (cb : TreeCallback ν σ) : BaseTree ν → ℕ → σ → ℤ × ℕ × σ
  | null _, currentOrder, s => (foreachContinue, currentOrder, s)
  | node _ l x r, currentOrder, s =>
    let (ret, currentOrder, s) := foreachIncrementalRc cb l currentOrder s
    if ret = foreachBreak then (foreachBreak, currentOrder, s)
    else
      let (ret, s) := cb currentOrder x s
      if ret = foreachBreak then (foreachBreak, currentOrder + 1, s)
      else foreachIncrementalRc cb r (currentOrder + 1) s

/-- `foreach_decremental_rc`. -/
def foreachDecrementalRc (cb : TreeCallback ν σ) : BaseTree ν → ℕ → σ → ℤ × ℕ × σ
  | null _, currentOrder, s => (foreachContinue, currentOrder, s)
  | node _ l x r, currentOrder, s =>
    let (ret, currentOrder, s) := foreachDecrementalRc cb r currentOrder s
    if ret = foreachBreak then (foreachBreak, currentOrder, s)
    else
      let (ret, s) := cb currentOrder x s
      if ret = foreachBreak then (foreachBreak, currentOrder + 1, s)
      else foreachDecrementalRc cb l (currentOrder + 1) s

end BaseTree

section Root

variable {ν σ : Type}

/-- `tree_size`. -/
def treeSize : Option (BaseTree ν) → ℕ
  | none => 0
  | some entry => entry.calcSizeRc

/-- `tree_for_each`: the state of the callback, `none` for the call of a function pointer that is
`NULL`. -/
def treeForEach (rootp : Option (BaseTree ν)) (cb : Option (TreeCallback ν σ)) (order : ℤ) (s : σ) :
    Option σ :=
  match cb, rootp with
  | some cb, some entry =>
    if entry.isNull then some s
    else if order = orderDec then some (entry.foreachDecrementalRc cb 0 s).2.2
    else if order = orderInc then some (entry.foreachIncrementalRc cb 0 s).2.2
    else none
  | _, _ => some s

end Root

namespace BaseTree

variable {ν σ : Type}

/-- The nodes from left to right. -/
def inorder : BaseTree ν → List ν
  | null _ => []
  | node _ l x r => l.inorder ++ x :: r.inorder

/-- The tree with left and right exchanged. -/
def mirror : BaseTree ν → BaseTree ν
  | null b => null b
  | node b l x r => node b r.mirror x l.mirror

/-- The answer that ends a traversal. -/
def breaks (ret : ℤ) : Bool := ret = foreachBreak

theorem inorder_of_isNull {t : BaseTree ν} (ht : t.isNull = true) : t.inorder = [] := by
  cases t with
  | null b => rfl
  | node b l x r => cases ht

theorem inorder_mirror (t : BaseTree ν) : t.mirror.inorder = t.inorder.reverse := by
  induction t with
  | null b => rfl
  | node b l x r ihl ihr =>
    rw [mirror, inorder, inorder, ihl, ihr, List.reverse_append, List.reverse_cons,
      List.append_assoc, List.singleton_append]

theorem calcSizeRc_eq (t : BaseTree ν) : t.calcSizeRc = t.inorder.length := by
  induction t with
  | null b => rfl
  | node b l x r ihl ihr =>
    have hadd {t : BaseTree ν} (n : ℕ) (ih : t.calcSizeRc = t.inorder.length) :
        (if t.isNull then n else n + t.calcSizeRc) = n + t.inorder.length := by
      split_ifs with ht
      · rw [inorder_of_isNull ht]
        rfl
      · rw [ih]
    rw [calcSizeRc, inorder, List.length_append, List.length_cons]
    dsimp only
    rw [hadd _ ihr, hadd _ ihl]
    split_ifs with hboth
    · obtain ⟨hl, hr⟩ := Bool.and_eq_true_iff.mp hboth
      rw [inorder_of_isNull hl, inorder_of_isNull hr]
      rfl
    · omega

/-! ## The calls -/

/-- The traversal is a visit of the nodes from left to right. -/
theorem foreachIncrementalRc_eq (cb : TreeCallback ν σ) (t : BaseTree ν) (i : ℕ) (s : σ) :
    foreachIncrementalRc cb t i s =
      (if (visit breaks cb t.inorder i s).1 then foreachBreak else foreachContinue,
        (visit breaks cb t.inorder i s).2) := by
  induction t generalizing i s with
  | null b => rfl
  | node b l x r ihl ihr =>
    rw [foreachIncrementalRc, inorder, visit_append, ihl]
    obtain ⟨stopped, j, s⟩ := visit breaks cb l.inorder i s
    cases stopped with
    | true => rfl
    | false =>
      have hgo : foreachContinue ≠ foreachBreak := by decide
      simp only [Bool.false_eq_true, if_false, if_neg hgo]
      by_cases hbreak : (cb j x s).1 = foreachBreak
      · have hstop : breaks (cb j x s).1 = true := decide_eq_true hbreak
        rw [if_pos hbreak, visit_cons_of_stop hstop]
        rfl
      · have hstop : breaks (cb j x s).1 = false := decide_eq_false hbreak
        rw [if_neg hbreak, visit_cons_of_go hstop, ihr]

/-- The other traversal is this one in the mirror. -/
theorem foreachDecrementalRc_eq_mirror (cb : TreeCallback ν σ) (t : BaseTree ν) (i : ℕ) (s : σ) :
    foreachDecrementalRc cb t i s = foreachIncrementalRc cb t.mirror i s := by
  induction t generalizing i s with
  | null b => rfl
  | node b l x r ihl ihr =>
    rw [mirror, foreachDecrementalRc, foreachIncrementalRc, ihr]
    simp only [ihl]

/-- It is a visit of the nodes from right to left. -/
theorem foreachDecrementalRc_eq (cb : TreeCallback ν σ) (t : BaseTree ν) (i : ℕ) (s : σ) :
    foreachDecrementalRc cb t i s =
      (if (visit breaks cb t.inorder.reverse i s).1 then foreachBreak else foreachContinue,
        (visit breaks cb t.inorder.reverse i s).2) := by
  rw [foreachDecrementalRc_eq_mirror, foreachIncrementalRc_eq, inorder_mirror]

/-- What a traversal of the tree in this order is to do: the callback is called on the nodes `l`, up
to and including the first on which it breaks, and on all of them when it never does. -/
structure Traverses (t : BaseTree ν) (order : ℤ) (l : List ν) (cb : TreeCallback ν σ) (s : σ) :
    Prop where
  calls : ∃ s', treeForEach (some t) (some cb) order s = some s' ∧
    treeForEach (some t) (some (logged cb)) order (s, []) = some (s', callsUntil breaks cb l 0 s)
  all : (∀ r ∈ answers cb l 0 s, r ≠ foreachBreak) →
    callsUntil breaks cb l 0 s = l.zipIdx ∧ l.length = treeSize (some t)

/-- The traversal of a tree, when it is one visit for every callback. -/
theorem traverses_of_visit {t : BaseTree ν} {order : ℤ} {l : List ν} {cb : TreeCallback ν σ} {s : σ}
    (hlen : l.length = t.inorder.length)
    (hvisit : ∀ {σ : Type} (cb : TreeCallback ν σ) (s : σ),
      treeForEach (some t) (some cb) order s = some (visit breaks cb l 0 s).2.2) :
    Traverses t order l cb s where
  calls := by
    refine ⟨_, hvisit cb s, ?_⟩
    rw [hvisit, visit_logged, List.nil_append]
  all hgo := by
    refine ⟨callsUntil_of_go fun r hr => decide_eq_false (hgo r hr), ?_⟩
    rw [hlen, treeSize, calcSizeRc_eq]

/-- **The traversal of a tree.** In increasing order the callback is called on the nodes from left
to right, with the orders 0, 1, 2 and so on, up to the first on which it breaks, and in decreasing
order on the reverse sequence. -/
theorem treeForEach_traverses (t : BaseTree ν) (cb : TreeCallback ν σ) (s : σ) :
    Traverses t orderInc t.inorder cb s ∧ Traverses t orderDec t.inorder.reverse cb s := by
  constructor
  · refine traverses_of_visit rfl fun cb s => ?_
    rw [treeForEach, foreachIncrementalRc_eq]
    by_cases hnull : t.isNull = true
    · rw [if_pos hnull, inorder_of_isNull hnull]
      rfl
    · rw [if_neg hnull, if_neg (by decide), if_pos rfl]
  · refine traverses_of_visit List.length_reverse fun cb s => ?_
    rw [treeForEach, foreachDecrementalRc_eq]
    by_cases hnull : t.isNull = true
    · rw [if_pos hnull, inorder_of_isNull hnull]
      rfl
    · rw [if_neg hnull, if_pos rfl]

end BaseTree

end MpegtsReader
