import MpegtsReader.AvlGrowth

/-!
# A set-mode insertion of a key that is there

`insert_rc` puts the new node in the place of the first one with its key and goes back as after any
insertion: the height of a node is taken from the side that was entered, and the directions of the
way are looked up in the patterns. In a good tree nothing but the node changes exactly when the side
that is entered is nowhere the lower one, and no node without a left child is as high on its right
as the balance factor allows (`swapsItem_iff`).
-/

namespace MpegtsReader

namespace AvlTree

variable {ν κ : Type} {t t' l r l' r' replaced : AvlTree ν κ} {x y : ν} {k key : κ}
  {bal h s : ℤ} {next : Turn}

/-! ## A node in the place of another one -/

/-- The item and the key of the first node. -/
def setItem (y : ν) (key : κ) : AvlTree ν κ → AvlTree ν κ
  | nil => nil
  | node l _ _ h r => node l y key h r

/-- The tree with another one in the place of what is found under the key. -/
def modify [LinearOrder κ] (key : κ) (f : AvlTree ν κ → AvlTree ν κ) : AvlTree ν κ → AvlTree ν κ
  | nil => nil
  | node l x k h r =>
    if key < k then node (l.modify key f) x k h r
    else if k < key then node l x k h (r.modify key f)
    else f (node l x k h r)

/-- The tree with the item in the place of the first node with the key on the way to it. -/
def swap [LinearOrder κ] (y : ν) (key : κ) (t : AvlTree ν κ) : AvlTree ν κ :=
  t.modify key (setItem y key)

section Keys

variable [LinearOrder κ]

theorem swap_node : (node l x k h r).swap y key =
    if key < k then node (l.swap y key) x k h r
    else if k < key then node l x k h (r.swap y key)
    else node l y key h r := rfl

theorem stored_swap (t : AvlTree ν κ) : (t.swap y key).stored = t.stored := by
  cases t with
  | nil => rfl
  | node l x k h r =>
    rw [swap_node]
    split_ifs <;> rfl

theorem lookup_ne_nil (ht : t.InOrder) (hkey : ∃ b ∈ t.nodes, b.2 = key) : t.lookup key ≠ nil := by
  intro hnil
  have hfound : OrderedBag.Found Prod.snd key ↑t.nodes (t.lookup key).top := found_lookup ht
  rw [hnil] at hfound
  obtain ⟨b, hb, hk⟩ := hkey
  exact hfound b hb hk

end Keys

/-! ## The way back -/

theorem stored_eq (ht : t.height? = some s) : t.stored = s := by
  cases t with
  | nil => cases ht
  | node => exact Option.some.inj ht

theorem ite_ne_nil {p : Prop} [Decidable p] (ht : t ≠ nil) (ht' : t' ≠ nil) :
    (if p then t else t') ≠ nil := by
  split
  · exact ht
  · exact ht'

theorem liftLeft_ne_nil : liftLeft next l x k h r ≠ nil := by
  unfold liftLeft
  split_ifs
  · exact (rearranges_rotateRight _).ne_nil nofun
  · exact (rearranges_rotateRight _).ne_nil nofun

theorem liftRight_ne_nil : liftRight next l x k h r ≠ nil := by
  unfold liftRight
  split_ifs
  · exact (rearranges_rotateLeft _).ne_nil nofun
  · exact (rearranges_rotateLeft _).ne_nil nofun

theorem lt_right_liftLeft (hl : l ≠ nil) :
    r.nodes.length < (liftLeft next l x k h r).right.nodes.length := by
  unfold liftLeft
  split_ifs
  · exact lt_right_rotateRight ((rearranges_rotateLeft l).ne_nil hl)
  · exact lt_right_rotateRight hl

theorem lt_left_liftRight (hr : r ≠ nil) :
    l.nodes.length < (liftRight next l x k h r).left.nodes.length := by
  unfold liftRight
  split_ifs
  · exact lt_left_rotateLeft ((rearranges_rotateRight r).ne_nil hr)
  · exact lt_left_rotateLeft hr

/-- The condition at a node whose left side is entered. -/
theorem fromLeft_eq_iff {u : AvlTree ν κ} (ht : Good bal (node l x k h r))
    (hu : u.stored = l.stored) (hs : l'.height? = some s) :
    (if next ≠ .stop ∧ r.depth + bal < s then liftLeft next l' x k (s + 1) r
      else node l' x k (s + 1) r) = node u x k h r ↔ l' = u ∧ r.depth ≤ l.depth := by
  obtain ⟨rfl, ⟨hnear, -⟩, hl, -⟩ := good_node_iff.mp ht
  rw [hl.exact.stored] at hu
  have hstored := stored_eq hs
  constructor
  · intro heq
    split_ifs at heq with hlift
    · have hne : l' ≠ nil := by
        rintro rfl
        cases hs
      have hlt : r.nodes.length < (liftLeft next l' x k (s + 1) r).right.nodes.length :=
        lt_right_liftLeft hne
      rw [heq, right] at hlt
      omega
    · obtain ⟨rfl, -, -, hh, -⟩ := node.inj heq
      exact ⟨rfl, by omega⟩
  · rintro ⟨rfl, hle⟩
    rw [if_neg (by omega), show s + 1 = max l.depth r.depth + 1 by omega]

/-- The condition at a node whose right side is entered. -/
theorem fromRight_eq_iff {u : AvlTree ν κ} (ht : Good bal (node l x k h r))
    (hu : u.stored = r.stored) (hs : r'.height? = some s) :
    (if next ≠ .stop ∧ (if l.depth = 0 then bal < s + 1 else l.depth + bal < s) then
        liftRight next l x k (s + 1) r'
      else node l x k (s + 1) r') = node l x k h u ↔
        r' = u ∧ l.depth ≤ r.depth ∧ (l.depth = 0 → r.depth = bal → next = .stop) := by
  obtain ⟨rfl, ⟨-, hnear⟩, -, hr⟩ := good_node_iff.mp ht
  rw [hr.exact.stored] at hu
  have hstored := stored_eq hs
  constructor
  · intro heq
    by_cases hlift : next ≠ .stop ∧ if l.depth = 0 then bal < s + 1 else l.depth + bal < s
    · rw [if_pos hlift] at heq
      have hne : r' ≠ nil := by
        rintro rfl
        cases hs
      have hlt : l.nodes.length < (liftRight next l x k (s + 1) r').left.nodes.length :=
        lt_left_liftRight hne
      rw [heq, left] at hlt
      omega
    · rw [if_neg hlift] at heq
      obtain ⟨-, -, -, hh, rfl⟩ := node.inj heq
      refine ⟨rfl, by omega, fun hzero hhigh => ?_⟩
      by_contra hnext
      exact hlift ⟨hnext, by rw [if_pos hzero]; omega⟩
  · rintro ⟨rfl, hle, hstop⟩
    have hlow : ¬(next ≠ .stop ∧ if l.depth = 0 then bal < s + 1 else l.depth + bal < s) := by
      rintro ⟨hnext, hhigh⟩
      split_ifs at hhigh with hzero
      · exact hnext (hstop hzero (by omega))
      · omega
    rw [if_neg hlow, show s + 1 = max l.depth r.depth + 1 by omega]

/-! ## The insertion -/

section Keys

variable [LinearOrder κ]

/-- On the way to the key the side that is entered is nowhere the lower one. A node without a left
child whose right side has the height `bal` is rotated, unless the key is found there. -/
def SwapKeeps (bal : ℤ) (key : κ) : AvlTree ν κ → Prop
  | nil => True
  | node l _ k _ r =>
    if key < k then l.SwapKeeps bal key ∧ r.depth ≤ l.depth
    else if k < key then
      r.SwapKeeps bal key ∧ l.depth ≤ r.depth ∧
        (l.depth = 0 → r.depth = bal → turnOf key true r = .stop)
    else True

instance decidableSwapKeeps (bal : ℤ) (key : κ) :
    (t : AvlTree ν κ) → Decidable (t.SwapKeeps bal key)
  | nil => isTrue trivial
  | node l _ _ _ r =>
    have := decidableSwapKeeps bal key l
    have := decidableSwapKeeps bal key r
    inferInstanceAs (Decidable (@ite Prop _ _ _ _))

theorem exists_insertRc_swap (y : ν) (ht : Good bal t) (hfound : t.lookup key ≠ nil) :
    ∃ t' dir, insertRc bal (cdslAvltreeNodeInit y key) 0 true t = some (t', dir, t.lookup key) ∧
      dir &&& patternMask = (turnOf key true t).code <<< 2 ∧ t' ≠ nil ∧
      (t' = t.swap y key ↔ t.SwapKeeps bal key) := by
  induction t with
  | nil => exact (hfound rfl).elim
  | node l x k h r ihl ihr =>
    obtain ⟨-, -, hl, hr⟩ := good_node_iff.mp ht
    rw [lookup] at hfound ⊢
    rw [swap_node, SwapKeeps, turnOf]
    by_cases hlt : key < k
    · rw [if_pos hlt] at hfound
      have hturn : turn key true k = .left := by rw [turn, if_pos hlt]
      obtain ⟨l', dir, heq, hdir, hne, hself⟩ := ihl hl hfound
      obtain ⟨s, hs⟩ := exists_height hne
      obtain ⟨dir', hdir', hback⟩ := backFromLeft_eq bal x k (l.lookup key) hs hr.exact hdir
      simp only [gt_iff_lt, if_pos hlt]
      rw [hturn, insertRc_left hturn, heq, Option.bind_some, hback, ← hself]
      exact ⟨_, dir', rfl, hdir', ite_ne_nil liftLeft_ne_nil node_ne_nil,
        fromLeft_eq_iff ht (stored_swap l) hs⟩
    · by_cases hgt : k < key
      · rw [if_neg hlt, if_pos hgt] at hfound
        have hturn : turn key true k = .right := by rw [turn, if_neg hlt, if_pos hgt]
        obtain ⟨r', dir, heq, hdir, hne, hself⟩ := ihr hr hfound
        obtain ⟨s, hs⟩ := exists_height hne
        obtain ⟨dir', hdir', hback⟩ := backFromRight_eq bal x k (r.lookup key) hl.exact hs hdir
        simp only [gt_iff_lt, if_neg hlt, if_pos hgt]
        rw [hturn, insertRc_right hturn, heq, Option.bind_some, hback, ← hself]
        exact ⟨_, dir', rfl, hdir', ite_ne_nil liftRight_ne_nil node_ne_nil,
          fromRight_eq_iff ht (stored_swap r) hs⟩
      · have hturn : turn key true k = .stop := by rw [turn, if_neg hlt, if_neg hgt, if_pos rfl]
        simp only [gt_iff_lt, if_neg hlt, if_neg hgt]
        rw [hturn, insertRc_stop hturn]
        exact ⟨_, 0, rfl, rfl, node_ne_nil, iff_of_true rfl trivial⟩

end Keys

end AvlTree

/-! ## The whole tree -/

section Root

open AvlTree

variable {ν κ : Type} [LinearOrder κ] {root : AvlRoot ν κ} {y : ν} {key : κ}

/-- The set-mode insertion puts the new node in the place of the first one with the key, which is
returned, and changes nothing else. -/
def SwapsItem (root : AvlRoot ν κ) (y : ν) (key : κ) : Prop :=
  cdslAvltreeInsert root (cdslAvltreeNodeInit y key) true =
    some ({ root with entry := root.entry.swap y key }, root.entry.lookup key)

/-- **A key that is there.** A set-mode insertion in a good tree that has the key swaps the node and
changes nothing else exactly when the heights on the way to it allow it. -/
theorem swapsItem_iff (hgood : Good root.balanceFactor root.entry) (hin : root.entry.InOrder)
    (hkey : ∃ b ∈ root.bag, b.2 = key) :
    SwapsItem root y key ↔ root.entry.SwapKeeps root.balanceFactor key := by
  obtain ⟨t, dir, heq, -, -, hself⟩ := exists_insertRc_swap y hgood (lookup_ne_nil hin hkey)
  have hinsert : cdslAvltreeInsert root (cdslAvltreeNodeInit y key) true =
      some ({ root with entry := t }, root.entry.lookup key) := by
    rw [cdslAvltreeNodeInit] at heq
    simp [cdslAvltreeInsert, cdslAvltreeNodeInit, heq]
  rw [SwapsItem, hinsert, ← hself]
  constructor
  · intro h
    exact congrArg (fun r => r.1.entry) (Option.some.inj h)
  · rintro rfl
    rfl

/-- The smallest of three nodes at their heights is swapped and nothing else. -/
theorem swapsItem_threeNodes :
    SwapsItem ⟨node (node nil 1 1 1 nil) 2 2 2 (node nil 3 3 1 nil), 1⟩ 4 1 :=
  (swapsItem_iff (by decide) (by simp [InOrder, OrderedBag.Ordered]) ⟨(1, 1), by decide, rfl⟩).mpr
    (by decide)

/-- With a higher side on the right the first node gets the height 2 instead of 3. -/
theorem not_swapsItem_fourNodes :
    ∃ root : AvlRoot ℕ ℕ, 1 ≤ root.balanceFactor ∧ Good root.balanceFactor root.entry ∧
      root.entry.InOrder ∧ (∃ b ∈ root.bag, b.2 = 1) ∧ ¬SwapsItem root 5 1 := by
  refine ⟨⟨node (node nil 1 1 1 nil) 2 2 3 (node nil 3 3 2 (node nil 4 4 1 nil)), 1⟩, by decide,
    by decide, by simp [InOrder, OrderedBag.Ordered], ⟨(1, 1), by decide, rfl⟩, fun heq => ?_⟩
  exact absurd (congrArg (Option.map fun r => r.1.entry) heq) (by decide)

end Root

end MpegtsReader
