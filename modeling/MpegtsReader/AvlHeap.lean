import Mathlib.Logic.Function.Basic
import MpegtsReader.AvlTree

/-!
# The AVL tree in memory

`utils/cdsl_avltree.c` once more, with the nodes as addresses in a heap: a function stores to the
nodes and returns a pointer, as the code does. `AvlTree.lean` has trees in the place of pointers.
There is no result where `NULL` is dereferenced, nor when the fuel of a recursion does not last. The
replacer is `NULL` here.
-/

namespace MpegtsReader

open AvlTree (dirLeft dirRight patternMask leftRightPattern leftLeftPattern rightLeftPattern
  rightRightPattern)

/-- `avltreeNode_t`, with pointers. -/
@[ext]
structure AvlCell (α κ : Type) where
  left : Option α
  right : Option α
  key : κ
  height : ℤ

/-- The nodes in memory. -/
@[ext]
structure AvlHeap (α κ : Type) where
  cell : α → AvlCell α κ

namespace AvlHeap

variable {α κ : Type}

/-! ## The fields of a node -/

/-- `node->left`. -/
def left (h : AvlHeap α κ) (node : α) : Option α := (h.cell node).left

/-- `node->right`. -/
def right (h : AvlHeap α κ) (node : α) : Option α := (h.cell node).right

/-- `node->key`. -/
def key (h : AvlHeap α κ) (node : α) : κ := (h.cell node).key

/-- `node->height`. -/
def height (h : AvlHeap α κ) (node : α) : ℤ := (h.cell node).height

variable [DecidableEq α]

/-- A store of a whole node. -/
def set (h : AvlHeap α κ) (node : α) (c : AvlCell α κ) : AvlHeap α κ :=
  ⟨Function.update h.cell node c⟩

/-- A store to `node->left`. -/
def setLeft (h : AvlHeap α κ) (node : α) (p : Option α) : AvlHeap α κ :=
  h.set node { h.cell node with left := p }

/-- A store to `node->right`. -/
def setRight (h : AvlHeap α κ) (node : α) (p : Option α) : AvlHeap α κ :=
  h.set node { h.cell node with right := p }

/-- A store to `node->height`. -/
def setHeight (h : AvlHeap α κ) (node : α) (v : ℤ) : AvlHeap α κ :=
  h.set node { h.cell node with height := v }

/-- `cdsl_avltreeNodeInit`. -/
def cdslAvltreeNodeInit (h : AvlHeap α κ) (node : α) (key : κ) : AvlHeap α κ :=
  h.set node ⟨none, none, key, 0⟩

/-! ## Rotations -/

omit [DecidableEq α] in
/-- `max_child_height`. -/
def maxChildHeight (h : AvlHeap α κ) (node : α) : ℤ :=
  match h.left node, h.right node with
  | some l, some r => if h.height r > h.height l then h.height r else h.height l
  | some l, none => h.height l
  | none, some r => h.height r
  | none, none => 0

/-- `node->height = max_child_height(node) + 1;` -/
def setMax (h : AvlHeap α κ) (node : α) : AvlHeap α κ :=
  h.setHeight node (h.maxChildHeight node + 1)

/-- `rotate_right`. -/
def rotateRight (h : AvlHeap α κ) : Option α → AvlHeap α κ × Option α
  | none => (h, none)
  | some subRoot =>
    match h.left subRoot with
    | none => (h, some subRoot)
    | some nroot =>
      let h := h.setLeft subRoot (h.right nroot)
      let h := h.setRight nroot (some subRoot)
      let h := match h.left nroot with
        | some l => h.setHeight nroot (h.height l + 1)
        | none => h.setHeight nroot 1
      (h.setMax subRoot, some nroot)

/-- `rotate_left`. -/
def rotateLeft (h : AvlHeap α κ) : Option α → AvlHeap α κ × Option α
  | none => (h, none)
  | some subRoot =>
    match h.right subRoot with
    | none => (h, some subRoot)
    | some nroot =>
      let h := h.setRight subRoot (h.left nroot)
      let h := h.setLeft nroot (some subRoot)
      let h := match h.right nroot with
        | some r => h.setHeight nroot (h.height r + 1)
        | none => h.setHeight nroot 1
      (h.setMax subRoot, some nroot)

/-- `sub_root_c->right = rotate_right(sub_root_c->right); sub_root_c = rotate_left(sub_root_c);` -/
def doubleLeft (h : AvlHeap α κ) (c : α) : AvlHeap α κ × Option α :=
  let (h, r) := h.rotateRight (h.right c)
  (h.setRight c r).rotateLeft (some c)

/-- `sub_root_c->left = rotate_left(sub_root_c->left); sub_root_c = rotate_right(sub_root_c);` -/
def doubleRight (h : AvlHeap α κ) (c : α) : AvlHeap α κ × Option α :=
  let (h, l) := h.rotateLeft (h.left c)
  (h.setLeft c l).rotateRight (some c)

/-- `if(!sub_root_c->right->right) { ... }` and the rotation, where `r` is on the right. -/
def raiseRight (h : AvlHeap α κ) (c r : α) : AvlHeap α κ × Option α :=
  if (h.right r).isNone then h.doubleLeft c else h.rotateLeft (some c)

/-- `if(!sub_root_c->left->left) { ... }` and the rotation, where `l` is on the left. -/
def raiseLeft (h : AvlHeap α κ) (c l : α) : AvlHeap α κ × Option α :=
  if (h.left l).isNone then h.doubleRight c else h.rotateRight (some c)

/-! ## Insertion -/

omit [DecidableEq α] in
/-- The test of `RIGHTLEFT_PATTERN` and `RIGHTRIGHT_PATTERN`. -/
def leansRight (h : AvlHeap α κ) (bal : ℤ) (c : α) : Option Bool :=
  match h.left c with
  | none => some (h.height c > bal)
  | some l => do
    let r ← h.right c
    some (h.height r - h.height l > bal)

omit [DecidableEq α] in
/-- The test of `LEFTLEFT_PATTERN` and `LEFTRIGTH_PATTERN`. -/
def leansLeft (h : AvlHeap α κ) (bal : ℤ) (c : α) : Option Bool :=
  match h.right c with
  | none => do
    let l ← h.left c
    some (h.height l > bal)
  | some r => do
    let l ← h.left c
    some (h.height l - h.height r > bal)

/-- `insert_rc`: the switch. -/
def switchPattern (h : AvlHeap α κ) (bal : ℤ) (dir : UInt8) (c : α) :
    Option (AvlHeap α κ × Option α) :=
  if dir &&& patternMask = rightLeftPattern then do
    let lean ← h.leansRight bal c
    some (if lean then h.doubleLeft c else (h, some c))
  else if dir &&& patternMask = rightRightPattern then do
    let lean ← h.leansRight bal c
    some (if lean then h.rotateLeft (some c) else (h, some c))
  else if dir &&& patternMask = leftLeftPattern then do
    let lean ← h.leansLeft bal c
    some (if lean then h.rotateRight (some c) else (h, some c))
  else if dir &&& patternMask = leftRightPattern then do
    let lean ← h.leansLeft bal c
    some (if lean then h.doubleRight c else (h, some c))
  else some (h, some c)

/-- `insert_rc`: from the insertion on the left on, which has returned `l`. -/
def backFromLeft (h : AvlHeap α κ) (bal : ℤ) (c : α) (l : Option α) (dir : UInt8) :
    Option (AvlHeap α κ × Option α × UInt8) := do
  let h := h.setLeft c l
  let l ← h.left c
  let h := h.setHeight c (h.height l + 1)
  let dir := dir ||| dirLeft
  let (h, p) ← h.switchPattern bal dir c
  some (h, p, dir <<< 2)

/-- `insert_rc`: from the insertion on the right on, which has returned `r`. -/
def backFromRight (h : AvlHeap α κ) (bal : ℤ) (c : α) (r : Option α) (dir : UInt8) :
    Option (AvlHeap α κ × Option α × UInt8) := do
  let h := h.setRight c r
  let r ← h.right c
  let h := h.setHeight c (h.height r + 1)
  let dir := dir ||| dirRight
  let (h, p) ← h.switchPattern bal dir c
  some (h, p, dir <<< 2)

/-- `insert_rc`: `item` gets the links and the height of `c`. -/
def takeLinks (h : AvlHeap α κ) (c item : α) : AvlHeap α κ :=
  let h := h.setLeft item (h.left c)
  let h := h.setRight item (h.right c)
  h.setHeight item (h.height c)

/-- `insert_rc`: the pointer that is returned, `*rc_dir` and `*replaced`. -/
def insertRc [LinearOrder κ] (bal : ℤ) (item : α) (isSet : Bool) :
    ℕ → AvlHeap α κ → Option α → UInt8 → Option (AvlHeap α κ × Option α × UInt8 × Option α)
  | 0, _, _, _ => none
  | _ + 1, h, none, dir => some (h.setHeight item 1, some item, dir, none)
  | fuel + 1, h, some c, dir =>
    if h.key c > h.key item then do
      let (h, l, dir, replaced) ← insertRc bal item isSet fuel h (h.left c) dir
      let (h, p, dir) ← h.backFromLeft bal c l dir
      some (h, p, dir, replaced)
    else if h.key c < h.key item then do
      let (h, r, dir, replaced) ← insertRc bal item isSet fuel h (h.right c) dir
      let (h, p, dir) ← h.backFromRight bal c r dir
      some (h, p, dir, replaced)
    else if isSet then
      some (h.takeLinks c item, some item, dir, some c)
    else do
      let (h, l, dir, replaced) ← insertRc bal item isSet fuel h (h.left c) dir
      let (h, p, dir) ← h.backFromLeft bal c l dir
      some (h, p, dir, replaced)

/-! ## Deletion -/

/-- `take_leftmost_rc`: from the recursive call on. -/
def settleTakeLeft (h : AvlHeap α κ) (bal : ℤ) (parent : α) : AvlHeap α κ × Option α :=
  match h.left parent, h.right parent with
  | none, none => (h.setHeight parent 1, some parent)
  | none, some r => if h.height r > bal then h.rotateLeft (some parent) else (h, some parent)
  | some l, none => (h.setHeight parent (h.height l + 1), some parent)
  | some l, some r =>
    if h.height r - h.height l > bal then h.rotateLeft (some parent) else (h, some parent)

/-- `take_leftmost_rc`: the pointer that is returned, and `*leaf`. -/
def takeLeftmostRc (bal : ℤ) :
    ℕ → AvlHeap α κ → Option α → Option (AvlHeap α κ × Option α × Option α)
  | 0, _, _ => none
  | _ + 1, h, none => some (h, none, none)
  | fuel + 1, h, some parent =>
    if (h.left parent).isNone then some (h, h.right parent, some parent)
    else do
      let (h, l, leaf) ← takeLeftmostRc bal fuel h (h.left parent)
      let (h, p) := (h.setLeft parent l).settleTakeLeft bal parent
      some (h, p, leaf)

/-- `take_rightmost_rc`: from the recursive call on. -/
def settleTakeRight (h : AvlHeap α κ) (bal : ℤ) (parent : α) : AvlHeap α κ × Option α :=
  match h.left parent, h.right parent with
  | none, none => (h.setHeight parent 1, some parent)
  | some l, none => if h.height l > bal then h.rotateRight (some parent) else (h, some parent)
  | none, some r => (h.setHeight parent (h.height r + 1), some parent)
  | some l, some r =>
    if h.height l - h.height r > bal then h.rotateRight (some parent) else (h, some parent)

/-- `take_rightmost_rc`: the pointer that is returned, and `*leaf`. -/
def takeRightmostRc (bal : ℤ) :
    ℕ → AvlHeap α κ → Option α → Option (AvlHeap α κ × Option α × Option α)
  | 0, _, _ => none
  | _ + 1, h, none => some (h, none, none)
  | fuel + 1, h, some parent =>
    if (h.right parent).isNone then some (h, h.left parent, some parent)
    else do
      let (h, r, leaf) ← takeRightmostRc bal fuel h (h.right parent)
      let (h, p) := (h.setRight parent r).settleTakeRight bal parent
      some (h, p, leaf)

/-- `nroot` gets the links and the height of `c`, and `c` has no links any more. -/
def moveLinks (h : AvlHeap α κ) (c nroot : α) : AvlHeap α κ :=
  let h := h.setRight nroot (h.right c)
  let h := h.setLeft nroot (h.left c)
  let h := h.setHeight nroot (h.height c)
  (h.setRight c none).setLeft c none

/-- `sub_root_c->right = take_leftmost_rc(bal, sub_root_c->right, &nroot);` and what follows, up to
`sub_root_c = nroot;` -/
def fillFromRight (h : AvlHeap α κ) (bal : ℤ) (fuel : ℕ) (c : α) : Option (AvlHeap α κ × α) := do
  let (h, r, nroot) ← takeLeftmostRc bal fuel h (h.right c)
  let nroot ← nroot
  some ((h.setRight c r).moveLinks c nroot, nroot)

/-- `sub_root_c->left = take_rightmost_rc(bal, sub_root_c->left, &nroot);` and what follows, up to
`sub_root_c = nroot;` -/
def fillFromLeft (h : AvlHeap α κ) (bal : ℤ) (fuel : ℕ) (c : α) : Option (AvlHeap α κ × α) := do
  let (h, l, nroot) ← takeRightmostRc bal fuel h (h.left c)
  let nroot ← nroot
  some ((h.setLeft c l).moveLinks c nroot, nroot)

/-- `delete_rc`: from the deletion on the left on. -/
def settleLeft (h : AvlHeap α κ) (bal : ℤ) (c : α) : AvlHeap α κ × Option α :=
  match h.left c, h.right c with
  | none, none => (h.setHeight c 1, some c)
  | none, some r =>
    let h := h.setHeight c (h.height r + 1)
    if h.height r > bal then h.raiseRight c r else (h, some c)
  | some l, none => (h.setHeight c (h.height l + 1), some c)
  | some l, some r =>
    let h := h.setHeight c (if h.height r > h.height l then h.height r + 1 else h.height l + 1)
    if h.height r - h.height l > bal then h.raiseRight c r else (h, some c)

/-- `delete_rc`: from the deletion on the right on. -/
def settleRight (h : AvlHeap α κ) (bal : ℤ) (c : α) : AvlHeap α κ × Option α :=
  match h.left c, h.right c with
  | none, none => (h.setHeight c 1, some c)
  | some l, none =>
    let h := h.setHeight c (h.height l + 1)
    if h.height l > bal then h.raiseLeft c l else (h, some c)
  | none, some r => (h.setHeight c (h.height r + 1), some c)
  | some l, some r =>
    let h := h.setHeight c (if h.height r > h.height l then h.height r + 1 else h.height l + 1)
    if h.height l - h.height r > bal then h.raiseLeft c l else (h, some c)

/-- `delete_rc`: the node `c` is deleted. -/
def deleteFound (h : AvlHeap α κ) (bal : ℤ) (fuel : ℕ) (c : α) :
    Option (AvlHeap α κ × Option α) :=
  match h.left c, h.right c with
  | _, some _ => do
    let (h, c) ← h.fillFromRight bal fuel c
    some (h.setMax c, some c)
  | some _, none => do
    let (h, c) ← h.fillFromLeft bal fuel c
    some (h.setMax c, some c)
  | none, none => some (h, none)

/-- `delete_rc`: the pointer that is returned, and `*deleted`. -/
def deleteRc [LinearOrder κ] (bal : ℤ) (key : κ) :
    ℕ → AvlHeap α κ → Option α → Option (AvlHeap α κ × Option α × Option α)
  | 0, _, _ => none
  | _ + 1, h, none => some (h, none, none)
  | fuel + 1, h, some c =>
    if h.key c > key then do
      let (h, l, deleted) ← deleteRc bal key fuel h (h.left c)
      let (h, p) := (h.setLeft c l).settleLeft bal c
      some (h, p, deleted)
    else if h.key c < key then do
      let (h, r, deleted) ← deleteRc bal key fuel h (h.right c)
      let (h, p) := (h.setRight c r).settleRight bal c
      some (h, p, deleted)
    else do
      let (h, p) ← h.deleteFound bal fuel c
      some (h, p, some c)

/-- `delete_lm_rc` and `delete_rm_rc`: the end, where `r` is on the right only. -/
def settleOnlyRight (h : AvlHeap α κ) (bal : ℤ) (c r : α) : Option (AvlHeap α κ × Option α) := do
  let (h, p) := if h.height r > bal then h.raiseRight c r else (h, some c)
  let c ← p
  let r ← h.right c
  some (h.setHeight c (h.height r + 1), some c)

/-- `delete_lm_rc` and `delete_rm_rc`: the end, where `l` is on the left only. -/
def settleOnlyLeft (h : AvlHeap α κ) (bal : ℤ) (c l : α) : Option (AvlHeap α κ × Option α) := do
  let (h, p) := if h.height l > bal then h.raiseLeft c l else (h, some c)
  let c ← p
  let l ← h.left c
  some (h.setHeight c (h.height l + 1), some c)

/-- `delete_lm_rc`: from the recursive call on. -/
def settleLm (h : AvlHeap α κ) (bal : ℤ) (c : α) : Option (AvlHeap α κ × Option α) :=
  match h.left c, h.right c with
  | some l, some r => do
    let (h, p) := if h.height r - h.height l > bal then h.raiseRight c r else (h, some c)
    let c ← p
    some (h.setMax c, some c)
  | none, some r => h.settleOnlyRight bal c r
  | some l, none => h.settleOnlyLeft bal c l
  | none, none => some (h.setHeight c 1, some c)

/-- `delete_lm_rc`: the pointer that is returned, and `*deleted`. -/
def deleteLmRc (bal : ℤ) :
    ℕ → AvlHeap α κ → Option α → Option α → Option (AvlHeap α κ × Option α × Option α)
  | 0, _, _, _ => none
  | _ + 1, h, none, deleted => some (h, none, deleted)
  | fuel + 1, h, some c, deleted =>
    match h.left c, h.right c with
    | none, none => some (h, none, some c)
    | none, some _ => do
      let (h, nroot) ← h.fillFromRight bal fuel c
      let (h, l, deleted) ← deleteLmRc bal fuel h (h.left nroot) (some c)
      let (h, p) ← (h.setLeft nroot l).settleLm bal nroot
      some (h, p, deleted)
    | some _, _ => do
      let (h, l, deleted) ← deleteLmRc bal fuel h (h.left c) deleted
      let (h, p) ← (h.setLeft c l).settleLm bal c
      some (h, p, deleted)

/-- `delete_rm_rc`: from the recursive call on. -/
def settleRm (h : AvlHeap α κ) (bal : ℤ) (c : α) : Option (AvlHeap α κ × Option α) :=
  match h.left c, h.right c with
  | some l, some r => do
    let (h, p) := if h.height l - h.height r > bal then h.raiseLeft c l else (h, some c)
    let c ← p
    some (h.setMax c, some c)
  | none, some r => h.settleOnlyRight bal c r
  | some l, none => h.settleOnlyLeft bal c l
  | none, none => some (h.setHeight c 1, some c)

/-- `delete_rm_rc`: the pointer that is returned, and `*deleted`. -/
def deleteRmRc (bal : ℤ) :
    ℕ → AvlHeap α κ → Option α → Option α → Option (AvlHeap α κ × Option α × Option α)
  | 0, _, _, _ => none
  | _ + 1, h, none, deleted => some (h, none, deleted)
  | fuel + 1, h, some c, deleted =>
    match h.left c, h.right c with
    | none, none => some (h, none, some c)
    | some _, none => do
      let (h, nroot) ← h.fillFromLeft bal fuel c
      let (h, r, deleted) ← deleteRmRc bal fuel h (h.right nroot) (some c)
      let (h, p) ← (h.setRight nroot r).settleRm bal nroot
      some (h, p, deleted)
    | _, some _ => do
      let (h, r, deleted) ← deleteRmRc bal fuel h (h.right c) deleted
      let (h, p) ← (h.setRight c r).settleRm bal c
      some (h, p, deleted)

omit [DecidableEq α] in
/-- `cdsl_avltreeLookup`: the loop. -/
def lookup [LinearOrder κ] (key : κ) (h : AvlHeap α κ) : ℕ → Option α → Option (Option α)
  | 0, _ => none
  | _ + 1, none => some none
  | fuel + 1, some cur =>
    if h.key cur > key then lookup key h fuel (h.left cur)
    else if h.key cur < key then lookup key h fuel (h.right cur)
    else some (some cur)

end AvlHeap

/-! ## The operations on a tree -/

/-- `avltreeRoot_t`, and the nodes. -/
structure AvlMemory (α κ : Type) where
  heap : AvlHeap α κ
  entry : Option α
  balanceFactor : ℤ

namespace AvlMemory

variable {α κ : Type} [DecidableEq α]

omit [DecidableEq α] in
/-- `cdsl_avltreeRootInit`. -/
def cdslAvltreeRootInit (h : AvlHeap α κ) (bal : UInt8) : AvlMemory α κ := ⟨h, none, bal.toNat⟩

/-- `cdsl_avltreeNodeInit`. -/
def cdslAvltreeNodeInit (m : AvlMemory α κ) (node : α) (key : κ) : AvlMemory α κ :=
  { m with heap := m.heap.cdslAvltreeNodeInit node key }

/-- `cdsl_avltreeDeleteMin`, `cdsl_avltreeDeleteMinReplace` without a replacer. -/
def cdslAvltreeDeleteMin (fuel : ℕ) (m : AvlMemory α κ) : Option (AvlMemory α κ × Option α) := do
  let (heap, entry, deleted) ← AvlHeap.deleteLmRc m.balanceFactor fuel m.heap m.entry none
  some ({ m with heap, entry }, deleted)

/-- `cdsl_avltreeDeleteMax`, `cdsl_avltreeDeleteMaxReplace` without a replacer. -/
def cdslAvltreeDeleteMax (fuel : ℕ) (m : AvlMemory α κ) : Option (AvlMemory α κ × Option α) := do
  let (heap, entry, deleted) ← AvlHeap.deleteRmRc m.balanceFactor fuel m.heap m.entry none
  some ({ m with heap, entry }, deleted)

variable [LinearOrder κ]

/-- `cdsl_avltreeInsert`. -/
def cdslAvltreeInsert (fuel : ℕ) (m : AvlMemory α κ) (item : α) (isSet : Bool) :
    Option (AvlMemory α κ × Option α) := do
  let (heap, entry, _, replaced) ←
    AvlHeap.insertRc m.balanceFactor item isSet fuel m.heap m.entry 0
  some ({ m with heap, entry }, replaced)

/-- `cdsl_avltreeDelete`, `cdsl_avltreeDeleteReplace` without a replacer. -/
def cdslAvltreeDelete (fuel : ℕ) (m : AvlMemory α κ) (key : κ) :
    Option (AvlMemory α κ × Option α) := do
  let (heap, entry, deleted) ← AvlHeap.deleteRc m.balanceFactor key fuel m.heap m.entry
  some ({ m with heap, entry }, deleted)

omit [DecidableEq α] in
/-- `cdsl_avltreeLookup`. -/
def cdslAvltreeLookup (fuel : ℕ) (m : AvlMemory α κ) (key : κ) : Option (Option α) :=
  m.heap.lookup key fuel m.entry

end AvlMemory

end MpegtsReader
