import MpegtsReader.AvlHeight

/-!
# The heights after an insertion

On its way back `insert_rc` takes the height of a node from the side that it comes from, and so do
the rotations. `halves` says from the heights before how high the two sides of the first node are
afterwards, and `EnteredHigher` that the side that was entered is the higher one at every node of
the way. The equations at the end say what is done at a node when the heights beside the way are
right.
-/

namespace MpegtsReader

namespace AvlTree

variable {ν κ : Type} {t t' l r l' r' replaced : AvlTree ν κ} {x y : ν} {k key : κ}
  {bal h s : ℤ} {isSet : Bool} {dir : UInt8}

/-! ## The way down -/

/-- Where the insertion goes on: into a subtree, or nowhere, where there is no node or one to be
replaced. -/
inductive Turn
  | left
  | right
  | stop
  deriving DecidableEq

/-- The turn in the directions of `insert_rc`. -/
def Turn.code : Turn → UInt8
  | left => dirLeft
  | right => dirRight
  | stop => 0

section Turns

variable [LinearOrder κ]

/-- The turn at a node with the key `k`. -/
def turn (key : κ) (isSet : Bool) (k : κ) : Turn :=
  if key < k then .left else if k < key then .right else if isSet then .stop else .left

/-- The turn at the first node of a tree. -/
def turnOf (key : κ) (isSet : Bool) : AvlTree ν κ → Turn
  | nil => .stop
  | node _ _ k _ _ => turn key isSet k

theorem insertRc_left (hturn : turn key isSet k = .left) :
    insertRc bal (cdslAvltreeNodeInit y key) dir isSet (node l x k h r) =
      (insertRc bal (cdslAvltreeNodeInit y key) dir isSet l).bind (backFromLeft bal x k r) := by
  unfold turn at hturn
  split_ifs at hturn with hlt hgt hset
  · simp [insertRc, cdslAvltreeNodeInit, top, hlt]
  · simp [insertRc, cdslAvltreeNodeInit, top, hlt, hgt, hset]

theorem insertRc_right (hturn : turn key isSet k = .right) :
    insertRc bal (cdslAvltreeNodeInit y key) dir isSet (node l x k h r) =
      (insertRc bal (cdslAvltreeNodeInit y key) dir isSet r).bind (backFromRight bal l x k) := by
  unfold turn at hturn
  split_ifs at hturn with hlt hgt hset
  simp [insertRc, cdslAvltreeNodeInit, top, hlt, hgt]

theorem insertRc_stop (hturn : turn key isSet k = .stop) :
    insertRc bal (cdslAvltreeNodeInit y key) dir isSet (node l x k h r) =
      some (node l y key h r, dir, node l x k h r) := by
  unfold turn at hturn
  split_ifs at hturn with hlt hgt hset
  simp [insertRc, cdslAvltreeNodeInit, top, hlt, hgt, hset, setLinks]

end Turns

/-! ## The heights on both sides -/

/-- The heights of the two subtrees of a node. -/
structure Halves where
  left : ℤ
  right : ℤ

/-- The height of the tree. -/
def Halves.height (c : Halves) : ℤ := max c.left c.right + 1

/-- A rotation follows an insertion on the left: the insertion went on below, and the left side is
too high. -/
def LiftsLeft (bal : ℤ) (next : Turn) (c : Halves) (r : ℤ) : Prop :=
  next ≠ .stop ∧ r + bal < c.height

/-- A rotation follows an insertion on the right. Without a node on the left the height of the node
itself is compared. -/
def LiftsRight (bal : ℤ) (next : Turn) (l : ℤ) (c : Halves) : Prop :=
  next ≠ .stop ∧ if l = 0 then bal < c.height + 1 else l + bal < c.height

instance (bal : ℤ) (next : Turn) (c : Halves) (r : ℤ) : Decidable (LiftsLeft bal next c r) :=
  inferInstanceAs (Decidable (_ ∧ _))

instance (bal : ℤ) (next : Turn) (l : ℤ) (c : Halves) : Decidable (LiftsRight bal next l c) :=
  inferInstanceAs (Decidable (_ ∧ _))

/-- The sides of a node after an insertion on the left, which leaves `c` below its left child and
`g` below the child of that one that was entered. -/
def afterLeft (bal : ℤ) (next : Turn) (c g : Halves) (r : ℤ) : Halves :=
  if LiftsLeft bal next c r then
    if next = .right then ⟨max c.left g.left + 1, max g.right r + 1⟩
    else ⟨c.left, max c.right r + 1⟩
  else ⟨c.height, r⟩

/-- The sides of a node after an insertion on the right. -/
def afterRight (bal : ℤ) (next : Turn) (l : ℤ) (c g : Halves) : Halves :=
  if LiftsRight bal next l c then
    if next = .left then ⟨max l g.left + 1, max g.right c.right + 1⟩
    else ⟨max l c.left + 1, c.right⟩
  else ⟨l, c.height⟩

section Condition

variable [LinearOrder κ]

/-- The heights that an insertion leaves below the first node, and below the child of it that was
entered, when all heights are right. -/
def halves (bal : ℤ) (key : κ) (isSet : Bool) : AvlTree ν κ → Halves × Halves
  | nil => (⟨0, 0⟩, ⟨0, 0⟩)
  | node l _ k _ r =>
    match turn key isSet k with
    | .left =>
      let c := halves bal key isSet l
      (afterLeft bal (turnOf key isSet l) c.1 c.2 r.depth, c.1)
    | .right =>
      let c := halves bal key isSet r
      (afterRight bal (turnOf key isSet r) l.depth c.1 c.2, c.1)
    | .stop => (⟨l.depth, r.depth⟩, ⟨0, 0⟩)

/-- At every node on the way the side that is entered is at least as high as the other one, with the
insertion and the rotation that follows it. -/
def EnteredHigher (bal : ℤ) (key : κ) (isSet : Bool) : AvlTree ν κ → Prop
  | nil => True
  | node l _ k _ r =>
    match turn key isSet k with
    | .left =>
      let c := halves bal key isSet l
      let top := afterLeft bal (turnOf key isSet l) c.1 c.2 r.depth
      EnteredHigher bal key isSet l ∧ top.right ≤ top.left
    | .right =>
      let c := halves bal key isSet r
      let top := afterRight bal (turnOf key isSet r) l.depth c.1 c.2
      EnteredHigher bal key isSet r ∧ top.left ≤ top.right
    | .stop => True

end Condition

/-! ## The way back -/

theorem and_pattern_shift (d : UInt8) :
    (d <<< 2) &&& patternMask = ((d &&& patternMask) <<< 2) &&& patternMask := by
  obtain ⟨b⟩ := d
  revert b
  decide

theorem and_pattern_or (d last : UInt8) :
    (d ||| last) &&& patternMask = (d &&& patternMask) ||| (last &&& patternMask) := by
  refine UInt8.eq_of_toBitVec_eq (BitVec.eq_of_getElem_eq fun i hi => ?_)
  simp only [UInt8.toBitVec_and, UInt8.toBitVec_or, BitVec.getElem_and, BitVec.getElem_or,
    Bool.and_or_distrib_right]

/-- The pattern is the turn below and the last one. -/
theorem pattern_eq {next : Turn} {last : UInt8} (hdir : dir &&& patternMask = next.code <<< 2)
    (hlast : last &&& patternMask = last) :
    (dir ||| last) &&& patternMask = next.code <<< 2 ||| last := by
  rw [and_pattern_or, hdir, hlast]

theorem pattern_next {next : Turn} {last : UInt8} (hdir : dir &&& patternMask = next.code <<< 2)
    (hlast : last = dirLeft ∨ last = dirRight) :
    ((dir ||| last) <<< 2) &&& patternMask = last <<< 2 := by
  have hmask : last &&& patternMask = last := by rcases hlast with rfl | rfl <;> rfl
  rw [and_pattern_shift, pattern_eq hdir hmask]
  rcases hlast with rfl | rfl <;> cases next <;> rfl

theorem leansLeft_eq (bal : ℤ) (hl : l.height? = some s) (hr : r.Exact) :
    (node l x k h r).leansLeft bal = some (decide (r.depth + bal < s)) := by
  cases r with
  | nil => simp [leansLeft, hl]
  | node rl y ky hy rr =>
    have hheight : hy = (node rl y ky hy rr).depth := hr.1
    simp only [leansLeft, hl, Option.bind_eq_bind, Option.bind_some, ← hheight]
    exact congrArg some (decide_eq_decide.mpr (by omega))

theorem leansRight_eq (bal : ℤ) (hl : l.Exact) (hr : r.height? = some s) :
    (node l x k (s + 1) r).leansRight bal =
      some (decide (if l.depth = 0 then bal < s + 1 else l.depth + bal < s)) := by
  cases l with
  | nil => simp [leansRight]
  | node ll y ky hy lr =>
    have hheight : hy = (node ll y ky hy lr).depth := hl.1
    have hpos : 1 ≤ (node ll y ky hy lr).depth := depth_pos node_ne_nil
    simp only [leansRight, hr, Option.bind_eq_bind, Option.bind_some]
    refine congrArg some (decide_eq_decide.mpr ?_)
    rw [if_neg (by omega)]
    omega

/-- The rotation after an insertion on the left. -/
def liftLeft (next : Turn) (l : AvlTree ν κ) (x : ν) (k : κ) (h : ℤ) (r : AvlTree ν κ) :
    AvlTree ν κ :=
  if next = .right then rotateRight (node l.rotateLeft x k h r) else rotateRight (node l x k h r)

/-- The rotation after an insertion on the right. -/
def liftRight (next : Turn) (l : AvlTree ν κ) (x : ν) (k : κ) (h : ℤ) (r : AvlTree ν κ) :
    AvlTree ν κ :=
  if next = .left then rotateLeft (node l x k h r.rotateRight) else rotateLeft (node l x k h r)

theorem switchPattern_left {next : Turn} {p : Prop} [Decidable p]
    (hpattern : dir &&& patternMask = next.code <<< 2 ||| dirLeft)
    (hlean : (node l x k h r).leansLeft bal = some (decide p)) :
    (node l x k h r).switchPattern bal dir =
      some (if next ≠ .stop ∧ p then liftLeft next l x k h r else node l x k h r) := by
  unfold switchPattern liftLeft
  rw [hpattern]
  cases next
  · rw [if_neg (by decide), if_neg (by decide), if_pos (by decide), hlean]
    simp
  · rw [if_neg (by decide), if_neg (by decide), if_neg (by decide), if_pos (by decide), hlean]
    simp
  · rw [if_neg (by decide), if_neg (by decide), if_neg (by decide), if_neg (by decide)]
    simp

theorem switchPattern_right {next : Turn} {p : Prop} [Decidable p]
    (hpattern : dir &&& patternMask = next.code <<< 2 ||| dirRight)
    (hlean : (node l x k h r).leansRight bal = some (decide p)) :
    (node l x k h r).switchPattern bal dir =
      some (if next ≠ .stop ∧ p then liftRight next l x k h r else node l x k h r) := by
  unfold switchPattern liftRight
  rw [hpattern]
  cases next
  · rw [if_pos (by decide), hlean]
    simp
  · rw [if_neg (by decide), if_pos (by decide), hlean]
    simp
  · rw [if_neg (by decide), if_neg (by decide), if_neg (by decide), if_neg (by decide)]
    simp

theorem backFromLeft_eq (bal : ℤ) (x : ν) (k : κ) (replaced : AvlTree ν κ) {next : Turn}
    (hl : l'.height? = some s) (hr : r.Exact)
    (hdir : dir &&& patternMask = next.code <<< 2) :
    ∃ dir', dir' &&& patternMask = dirLeft <<< 2 ∧
      backFromLeft bal x k r (l', dir, replaced) =
        some (if next ≠ .stop ∧ r.depth + bal < s then liftLeft next l' x k (s + 1) r
          else node l' x k (s + 1) r, dir', replaced) := by
  refine ⟨_, pattern_next hdir (.inl rfl), ?_⟩
  have hswitch := switchPattern_left (h := s + 1) (pattern_eq hdir rfl)
    (leansLeft_eq (x := x) (k := k) bal hl hr)
  simp [backFromLeft, hl, hswitch]

theorem backFromRight_eq (bal : ℤ) (x : ν) (k : κ) (replaced : AvlTree ν κ) {next : Turn}
    (hl : l.Exact) (hr : r'.height? = some s)
    (hdir : dir &&& patternMask = next.code <<< 2) :
    ∃ dir', dir' &&& patternMask = dirRight <<< 2 ∧
      backFromRight bal l x k (r', dir, replaced) =
        some (if next ≠ .stop ∧ (if l.depth = 0 then bal < s + 1 else l.depth + bal < s) then
            liftRight next l x k (s + 1) r'
          else node l x k (s + 1) r', dir', replaced) := by
  refine ⟨_, pattern_next hdir (.inr rfl), ?_⟩
  have hswitch := switchPattern_right (pattern_eq hdir rfl)
    (leansRight_eq (x := x) (k := k) bal hl hr)
  simp [backFromRight, hr, hswitch]

end AvlTree

end MpegtsReader
