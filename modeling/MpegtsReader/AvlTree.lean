import Mathlib.Data.Int.Notation
import Mathlib.Order.Lattice

/-!
# The AVL tree

`utils/cdsl_avltree.c`. A pointer to a node is what is below it, `nil` for `NULL`: no node of a tree
is below another one twice, so the stores to a node are seen by its parent alone. A result is `none`
where the code dereferences `NULL`. A height is the one that is stored in the node, whatever the
tree below it.
-/

namespace MpegtsReader

/-- `avltreeNode_t *`. -/
inductive AvlTree (ν κ : Type)
  | nil
  | node (left : AvlTree ν κ) (item : ν) (key : κ) (height : ℤ) (right : AvlTree ν κ)
  deriving DecidableEq

/-- `avltreeRoot_t`. -/
structure AvlRoot (ν κ : Type) where
  entry : AvlTree ν κ
  balanceFactor : ℤ

/-- A call of a `base_tree_replacer_t`: whether it returns true, and the pointer as it is then. -/
structure Replacer (ν κ : Type) where
  result : Bool
  node : AvlTree ν κ

namespace AvlTree

variable {ν κ : Type}

/-! ## The fields of a node -/

/-- `node->left`. -/
def left : AvlTree ν κ → AvlTree ν κ
  | nil => nil
  | node l _ _ _ _ => l

/-- `node->right`. -/
def right : AvlTree ν κ → AvlTree ν κ
  | nil => nil
  | node _ _ _ _ r => r

/-- `node->height`. -/
def height? : AvlTree ν κ → Option ℤ
  | nil => none
  | node _ _ _ h _ => some h

/-- A store to `node->height`. -/
def setHeight (h : ℤ) : AvlTree ν κ → AvlTree ν κ
  | nil => nil
  | node l x k _ r => node l x k h r

/-- Stores to `node->left`, `node->right` and `node->height`. -/
def setLinks (l : AvlTree ν κ) (h : ℤ) (r : AvlTree ν κ) : AvlTree ν κ → Option (AvlTree ν κ)
  | nil => none
  | node _ x k _ _ => some (node l x k h r)

/-- The node that a pointer points to. -/
def top : AvlTree ν κ → Option (ν × κ)
  | nil => none
  | node _ x k _ _ => some (x, k)

/-- `cdsl_avltreeNodeInit`. -/
def cdslAvltreeNodeInit (item : ν) (key : κ) : AvlTree ν κ := node nil item key 0 nil

/-! ## Rotations -/

/-- `max_child_height`. -/
def maxChildHeight : AvlTree ν κ → ℤ
  | node (node _ _ _ hl _) _ _ _ (node _ _ _ hr _) => if hr > hl then hr else hl
  | node (node _ _ _ hl _) _ _ _ nil => hl
  | node nil _ _ _ (node _ _ _ hr _) => hr
  | _ => 0

/-- `rotate_right`. -/
def rotateRight : AvlTree ν κ → AvlTree ν κ
  | node (node ll y ky _ lr) x k h r =>
    let h' := match ll with
      | node _ _ _ hll _ => hll + 1
      | nil => 1
    let sub := node lr x k h r
    node ll y ky h' (sub.setHeight (sub.maxChildHeight + 1))
  | t => t

/-- `rotate_left`. -/
def rotateLeft : AvlTree ν κ → AvlTree ν κ
  | node l x k h (node rl y ky _ rr) =>
    let h' := match rr with
      | node _ _ _ hrr _ => hrr + 1
      | nil => 1
    let sub := node l x k h rl
    node (sub.setHeight (sub.maxChildHeight + 1)) y ky h' rr
  | t => t

/-- `if(!sub_root_c->right->right) { sub_root_c->right = rotate_right(sub_root_c->right); }` and
`sub_root_c = rotate_left(sub_root_c);`, where there is a node on the right. -/
def raiseRight : AvlTree ν κ → AvlTree ν κ
  | node l x k h (node rl y ky hy nil) =>
    rotateLeft (node l x k h (node rl y ky hy nil).rotateRight)
  | t => t.rotateLeft

/-- `if(!sub_root_c->left->left) { sub_root_c->left = rotate_left(sub_root_c->left); }` and
`sub_root_c = rotate_right(sub_root_c);`, where there is a node on the left. -/
def raiseLeft : AvlTree ν κ → AvlTree ν κ
  | node (node nil y ky hy lr) x k h r =>
    rotateRight (node (node nil y ky hy lr).rotateLeft x k h r)
  | t => t.rotateRight

/-! ## Insertion -/

/-- `DIR_LEFT`. -/
def dirLeft : UInt8 := 1

/-- `DIR_RIGHT`. -/
def dirRight : UInt8 := 2

/-- `PATTERN_MASK`. -/
def patternMask : UInt8 := 0x0F

/-- `LEFTRIGTH_PATTERN`. -/
def leftRightPattern : UInt8 := dirRight <<< 2 ||| dirLeft

/-- `LEFTLEFT_PATTERN`. -/
def leftLeftPattern : UInt8 := dirLeft <<< 2 ||| dirLeft

/-- `RIGHTLEFT_PATTERN`. -/
def rightLeftPattern : UInt8 := dirLeft <<< 2 ||| dirRight

/-- `RIGHTRIGHT_PATTERN`. -/
def rightRightPattern : UInt8 := dirRight <<< 2 ||| dirRight

/-- The test of `RIGHTLEFT_PATTERN` and `RIGHTRIGHT_PATTERN`. With no node on the left it is the
height of the node itself that counts. -/
def leansRight (bal : ℤ) : AvlTree ν κ → Option Bool
  | nil => none
  | node nil _ _ h _ => some (h > bal)
  | node (node _ _ _ hl _) _ _ _ r => do
    let hr ← r.height?
    some (hr - hl > bal)

/-- The test of `LEFTLEFT_PATTERN` and `LEFTRIGTH_PATTERN`. -/
def leansLeft (bal : ℤ) : AvlTree ν κ → Option Bool
  | nil => none
  | node l _ _ _ nil => do
    let hl ← l.height?
    some (hl > bal)
  | node l _ _ _ (node _ _ _ hr _) => do
    let hl ← l.height?
    some (hl - hr > bal)

/-- `insert_rc`: the switch. -/
def switchPattern (bal : ℤ) (dir : UInt8) (t : AvlTree ν κ) : Option (AvlTree ν κ) :=
  if dir &&& patternMask = rightLeftPattern then do
    let lean ← t.leansRight bal
    match t with
    | node l x k h r => some (if lean then rotateLeft (node l x k h r.rotateRight) else t)
    | nil => none
  else if dir &&& patternMask = rightRightPattern then do
    let lean ← t.leansRight bal
    some (if lean then t.rotateLeft else t)
  else if dir &&& patternMask = leftLeftPattern then do
    let lean ← t.leansLeft bal
    some (if lean then t.rotateRight else t)
  else if dir &&& patternMask = leftRightPattern then do
    let lean ← t.leansLeft bal
    match t with
    | node l x k h r => some (if lean then rotateRight (node l.rotateLeft x k h r) else t)
    | nil => none
  else some t

/-- `insert_rc`: from the insertion on the left on. -/
def backFromLeft (bal : ℤ) (x : ν) (k : κ) (r : AvlTree ν κ) :
    AvlTree ν κ × UInt8 × AvlTree ν κ → Option (AvlTree ν κ × UInt8 × AvlTree ν κ)
  | (l, dir, replaced) => do
    let hl ← l.height?
    let dir := dir ||| dirLeft
    let t ← (node l x k (hl + 1) r).switchPattern bal dir
    some (t, dir <<< 2, replaced)

/-- `insert_rc`: from the insertion on the right on. -/
def backFromRight (bal : ℤ) (l : AvlTree ν κ) (x : ν) (k : κ) :
    AvlTree ν κ × UInt8 × AvlTree ν κ → Option (AvlTree ν κ × UInt8 × AvlTree ν κ)
  | (r, dir, replaced) => do
    let hr ← r.height?
    let dir := dir ||| dirRight
    let t ← (node l x k (hr + 1) r).switchPattern bal dir
    some (t, dir <<< 2, replaced)

/-- `insert_rc`: the tree, `*rc_dir` and `*replaced`. The pointer `replaced` is not `NULL` if
`isSet`. -/
def insertRc [LinearOrder κ] (bal : ℤ) (item : AvlTree ν κ) (dir : UInt8) (isSet : Bool) :
    AvlTree ν κ → Option (AvlTree ν κ × UInt8 × AvlTree ν κ)
  | nil => some (item.setHeight 1, dir, nil)
  | node l x k h r => do
    let (_, key) ← item.top
    if k > key then
      backFromLeft bal x k r (← insertRc bal item dir isSet l)
    else if k < key then
      backFromRight bal l x k (← insertRc bal item dir isSet r)
    else if isSet then
      let item ← setLinks l h r item
      some (item, dir, node l x k h r)
    else
      backFromLeft bal x k r (← insertRc bal item dir isSet l)

/-! ## Deletion -/

/-- `take_leftmost_rc`: from the recursive call on. -/
def settleTakeLeft (bal : ℤ) : AvlTree ν κ → AvlTree ν κ
  | nil => nil
  | node nil x k _ nil => node nil x k 1 nil
  | node nil x k h (node rl y ky hr rr) =>
    let t := node nil x k h (node rl y ky hr rr)
    if hr > bal then t.rotateLeft else t
  | node (node ll y ky hl lr) x k _ nil => node (node ll y ky hl lr) x k (hl + 1) nil
  | node (node ll y ky hl lr) x k h (node rl z kz hr rr) =>
    let t := node (node ll y ky hl lr) x k h (node rl z kz hr rr)
    if hr - hl > bal then t.rotateLeft else t

/-- `take_leftmost_rc`: the tree and `*leaf`. -/
def takeLeftmostRc (bal : ℤ) : AvlTree ν κ → AvlTree ν κ × AvlTree ν κ
  | nil => (nil, nil)
  | node nil x k h r => (r, node nil x k h r)
  | node (node ll y ky hy lr) x k h r =>
    let (l, leaf) := takeLeftmostRc bal (node ll y ky hy lr)
    (settleTakeLeft bal (node l x k h r), leaf)

/-- `take_rightmost_rc`: from the recursive call on. -/
def settleTakeRight (bal : ℤ) : AvlTree ν κ → AvlTree ν κ
  | nil => nil
  | node nil x k _ nil => node nil x k 1 nil
  | node (node ll y ky hl lr) x k h nil =>
    let t := node (node ll y ky hl lr) x k h nil
    if hl > bal then t.rotateRight else t
  | node nil x k _ (node rl y ky hr rr) => node nil x k (hr + 1) (node rl y ky hr rr)
  | node (node ll y ky hl lr) x k h (node rl z kz hr rr) =>
    let t := node (node ll y ky hl lr) x k h (node rl z kz hr rr)
    if hl - hr > bal then t.rotateRight else t

/-- `take_rightmost_rc`: the tree and `*leaf`. -/
def takeRightmostRc (bal : ℤ) : AvlTree ν κ → AvlTree ν κ × AvlTree ν κ
  | nil => (nil, nil)
  | node l x k h nil => (l, node l x k h nil)
  | node l x k h (node rl y ky hy rr) =>
    let (r, leaf) := takeRightmostRc bal (node rl y ky hy rr)
    (settleTakeRight bal (node l x k h r), leaf)

/-- `nroot`, taken from the right, in the place of the node with these children and this height. -/
def fillFromRight (bal : ℤ) (l : AvlTree ν κ) (h : ℤ) (r : AvlTree ν κ) : Option (AvlTree ν κ) :=
  let (r, nroot) := takeLeftmostRc bal r
  setLinks l h r nroot

/-- `nroot`, taken from the left, in the place of the node with these children and this height. -/
def fillFromLeft (bal : ℤ) (l : AvlTree ν κ) (h : ℤ) (r : AvlTree ν κ) : Option (AvlTree ν κ) :=
  let (l, nroot) := takeRightmostRc bal l
  setLinks l h r nroot

/-- The node `deleted` is to be deleted: the tree and `*deleted` if the replacer returns true. -/
def replaceNode (replacer : Option (Replacer ν κ)) (deleted : AvlTree ν κ) :
    Option (AvlTree ν κ × AvlTree ν κ) :=
  match replacer, deleted with
  | some ⟨true, nil⟩, deleted => some (deleted, deleted)
  | some ⟨true, node _ y ky _ _⟩, node l x k h r => some (node l y ky h r, node nil x k h nil)
  | _, _ => none

/-- `delete_rc`: from the deletion on the left on. -/
def settleLeft (bal : ℤ) : AvlTree ν κ → AvlTree ν κ
  | nil => nil
  | node nil x k _ nil => node nil x k 1 nil
  | node nil x k _ (node rl y ky hr rr) =>
    let t := node nil x k (hr + 1) (node rl y ky hr rr)
    if hr > bal then t.raiseRight else t
  | node (node ll y ky hl lr) x k _ nil => node (node ll y ky hl lr) x k (hl + 1) nil
  | node (node ll y ky hl lr) x k _ (node rl z kz hr rr) =>
    let t := node (node ll y ky hl lr) x k (if hr > hl then hr + 1 else hl + 1) (node rl z kz hr rr)
    if hr - hl > bal then t.raiseRight else t

/-- `delete_rc`: from the deletion on the right on. -/
def settleRight (bal : ℤ) : AvlTree ν κ → AvlTree ν κ
  | nil => nil
  | node nil x k _ nil => node nil x k 1 nil
  | node (node ll y ky hl lr) x k _ nil =>
    let t := node (node ll y ky hl lr) x k (hl + 1) nil
    if hl > bal then t.raiseLeft else t
  | node nil x k _ (node rl y ky hr rr) => node nil x k (hr + 1) (node rl y ky hr rr)
  | node (node ll y ky hl lr) x k _ (node rl z kz hr rr) =>
    let t := node (node ll y ky hl lr) x k (if hr > hl then hr + 1 else hl + 1) (node rl z kz hr rr)
    if hl - hr > bal then t.raiseLeft else t

/-- `delete_rc`: the node with the key is deleted. -/
def deleteFound (bal : ℤ) (replacer : Option (Replacer ν κ)) (deleted : AvlTree ν κ) :
    Option (AvlTree ν κ × AvlTree ν κ) :=
  match replaceNode replacer deleted with
  | some (t, deleted) => some (t, deleted)
  | none =>
    match deleted with
    | nil => none
    | node nil x k h nil => some (nil, node nil x k h nil)
    | node l x k h nil => do
      let t ← fillFromLeft bal l h nil
      some (t.setHeight (t.maxChildHeight + 1), node nil x k h nil)
    | node l x k h r => do
      let t ← fillFromRight bal l h r
      some (t.setHeight (t.maxChildHeight + 1), node nil x k h nil)

/-- `delete_rc`: the tree and `*deleted`. -/
def deleteRc [LinearOrder κ] (bal : ℤ) (key : κ) (replacer : Option (Replacer ν κ)) :
    AvlTree ν κ → Option (AvlTree ν κ × AvlTree ν κ)
  | nil => some (nil, nil)
  | node l x k h r =>
    if k > key then do
      let (l, deleted) ← deleteRc bal key replacer l
      some (settleLeft bal (node l x k h r), deleted)
    else if k < key then do
      let (r, deleted) ← deleteRc bal key replacer r
      some (settleRight bal (node l x k h r), deleted)
    else deleteFound bal replacer (node l x k h r)

/-- `delete_lm_rc` and `delete_rm_rc`: the end, where there is a node on the right only. -/
def settleOnlyRight (bal hr : ℤ) (t : AvlTree ν κ) : Option (AvlTree ν κ) := do
  let t := if hr > bal then t.raiseRight else t
  let h ← t.right.height?
  some (t.setHeight (h + 1))

/-- `delete_lm_rc` and `delete_rm_rc`: the end, where there is a node on the left only. -/
def settleOnlyLeft (bal hl : ℤ) (t : AvlTree ν κ) : Option (AvlTree ν κ) := do
  let t := if hl > bal then t.raiseLeft else t
  let h ← t.left.height?
  some (t.setHeight (h + 1))

/-- `delete_lm_rc`: from the recursive call on. -/
def settleLm (bal : ℤ) : AvlTree ν κ → Option (AvlTree ν κ)
  | nil => none
  | node (node ll y ky hl lr) x k h (node rl z kz hr rr) =>
    let t := node (node ll y ky hl lr) x k h (node rl z kz hr rr)
    let t := if hr - hl > bal then t.raiseRight else t
    some (t.setHeight (t.maxChildHeight + 1))
  | node nil x k h (node rl y ky hr rr) =>
    settleOnlyRight bal hr (node nil x k h (node rl y ky hr rr))
  | node (node ll y ky hl lr) x k h nil =>
    settleOnlyLeft bal hl (node (node ll y ky hl lr) x k h nil)
  | node nil x k _ nil => some (node nil x k 1 nil)

/-- `delete_lm_rc`: the tree and `*deleted`. The node that fills the place has `NULL` on the left,
for which the recursive call returns `NULL`. -/
def deleteLmRc (bal : ℤ) (replacer : Option (Replacer ν κ)) :
    AvlTree ν κ → Option (AvlTree ν κ × AvlTree ν κ)
  | nil => some (nil, nil)
  | node nil x k h r =>
    match replaceNode replacer (node nil x k h r) with
    | some (t, deleted) => some (t, deleted)
    | none =>
      match r with
      | nil => some (nil, node nil x k h nil)
      | r => do
        let t ← fillFromRight bal nil h r
        let t ← t.settleLm bal
        some (t, node nil x k h nil)
  | node (node ll y ky hy lr) x k h r => do
    let (l, deleted) ← deleteLmRc bal replacer (node ll y ky hy lr)
    let t ← (node l x k h r).settleLm bal
    some (t, deleted)

/-- `delete_rm_rc`: from the recursive call on. -/
def settleRm (bal : ℤ) : AvlTree ν κ → Option (AvlTree ν κ)
  | nil => none
  | node (node ll y ky hl lr) x k h (node rl z kz hr rr) =>
    let t := node (node ll y ky hl lr) x k h (node rl z kz hr rr)
    let t := if hl - hr > bal then t.raiseLeft else t
    some (t.setHeight (t.maxChildHeight + 1))
  | node nil x k h (node rl y ky hr rr) =>
    settleOnlyRight bal hr (node nil x k h (node rl y ky hr rr))
  | node (node ll y ky hl lr) x k h nil =>
    settleOnlyLeft bal hl (node (node ll y ky hl lr) x k h nil)
  | node nil x k _ nil => some (node nil x k 1 nil)

/-- `delete_rm_rc`: the tree and `*deleted`. -/
def deleteRmRc (bal : ℤ) (replacer : Option (Replacer ν κ)) :
    AvlTree ν κ → Option (AvlTree ν κ × AvlTree ν κ)
  | nil => some (nil, nil)
  | node l x k h nil =>
    match replaceNode replacer (node l x k h nil) with
    | some (t, deleted) => some (t, deleted)
    | none =>
      match l with
      | nil => some (nil, node nil x k h nil)
      | l => do
        let t ← fillFromLeft bal l h nil
        let t ← t.settleRm bal
        some (t, node nil x k h nil)
  | node l x k h (node rl y ky hy rr) => do
    let (r, deleted) ← deleteRmRc bal replacer (node rl y ky hy rr)
    let t ← (node l x k h r).settleRm bal
    some (t, deleted)

/-- `cdsl_avltreeLookup`: the loop. -/
def lookup [LinearOrder κ] (key : κ) : AvlTree ν κ → AvlTree ν κ
  | nil => nil
  | node l x k h r =>
    if k > key then l.lookup key
    else if k < key then r.lookup key
    else node l x k h r

end AvlTree

/-! ## The operations on a tree -/

section Root

open AvlTree

variable {ν κ : Type}

/-- `cdsl_avltreeRootInit`. -/
def cdslAvltreeRootInit (bal : UInt8) : AvlRoot ν κ := ⟨nil, bal.toNat⟩

/-- `cdsl_avltreeDeleteMinReplace`: the tree and the node that is returned. -/
def cdslAvltreeDeleteMinReplace (root : AvlRoot ν κ) (replacer : Option (Replacer ν κ)) :
    Option (AvlRoot ν κ × AvlTree ν κ) := do
  let (entry, deleted) ← deleteLmRc root.balanceFactor replacer root.entry
  some ({ root with entry }, deleted)

/-- `cdsl_avltreeDeleteMaxReplace`: the tree and the node that is returned. -/
def cdslAvltreeDeleteMaxReplace (root : AvlRoot ν κ) (replacer : Option (Replacer ν κ)) :
    Option (AvlRoot ν κ × AvlTree ν κ) := do
  let (entry, deleted) ← deleteRmRc root.balanceFactor replacer root.entry
  some ({ root with entry }, deleted)

/-- `cdsl_avltreeDeleteMin`. -/
def cdslAvltreeDeleteMin (root : AvlRoot ν κ) : Option (AvlRoot ν κ × AvlTree ν κ) :=
  cdslAvltreeDeleteMinReplace root none

/-- `cdsl_avltreeDeleteMax`. -/
def cdslAvltreeDeleteMax (root : AvlRoot ν κ) : Option (AvlRoot ν κ × AvlTree ν κ) :=
  cdslAvltreeDeleteMaxReplace root none

variable [LinearOrder κ]

/-- `cdsl_avltreeInsert`: the tree and the node that is returned. -/
def cdslAvltreeInsert (root : AvlRoot ν κ) (item : AvlTree ν κ) (isSet : Bool) :
    Option (AvlRoot ν κ × AvlTree ν κ) :=
  match item with
  | nil => some (root, nil)
  | item => do
    let (entry, _, replaced) ← insertRc root.balanceFactor item 0 isSet root.entry
    some ({ root with entry }, replaced)

/-- `cdsl_avltreeDeleteReplace`: the tree and the node that is returned. -/
def cdslAvltreeDeleteReplace (root : AvlRoot ν κ) (key : κ) (replacer : Option (Replacer ν κ)) :
    Option (AvlRoot ν κ × AvlTree ν κ) := do
  let (entry, deleted) ← deleteRc root.balanceFactor key replacer root.entry
  some ({ root with entry }, deleted)

/-- `cdsl_avltreeDelete`. -/
def cdslAvltreeDelete (root : AvlRoot ν κ) (key : κ) : Option (AvlRoot ν κ × AvlTree ν κ) :=
  cdslAvltreeDeleteReplace root key none

/-- `cdsl_avltreeLookup`. -/
def cdslAvltreeLookup (root : AvlRoot ν κ) (key : κ) : AvlTree ν κ := root.entry.lookup key

end Root

end MpegtsReader
