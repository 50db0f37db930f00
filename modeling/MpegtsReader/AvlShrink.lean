import MpegtsReader.AvlHeight

/-!
# The heights after a deletion

A node is out of balance after a deletion when the side that it was deleted from has become lower
and the other one was higher by `bal` already. The rotations that follow suit some shapes of the
higher side only, and not every height on the way back is stored anew. `DeleteKeeps`, `MinKeeps` and
`LeftmostKeeps` say from the heights before that the heights stay right, and `DeleteShrinks`,
`MinShrinks` and `LeftmostShrinks` that the tree becomes lower.
-/

namespace MpegtsReader

namespace AvlTree

variable {ν κ : Type} {t l r l' : AvlTree ν κ} {x : ν} {k : κ} {bal h d : ℤ}
  {keeps shrinks keeps' shrinks' : Prop}

/-! ## The heights before -/

/-- A higher side on the right that a rotation leaves with right heights: its right is the higher
one, or there is none and a double rotation follows. -/
def Raisable (r : AvlTree ν κ) : Prop :=
  r.left.depth < r.right.depth ∨ r.right.depth = 0 ∧ r.left.left.depth ≤ r.left.right.depth

instance (r : AvlTree ν κ) : Decidable r.Raisable := inferInstanceAs (Decidable (_ ∨ _))

/-- `take_leftmost_rc` makes the tree lower. -/
def LeftmostShrinks (bal : ℤ) : AvlTree ν κ → Prop
  | nil => False
  | node l _ _ _ r => l.depth = 0 ∨
      l.LeftmostShrinks bal ∧ (r.depth < l.depth ∨ r.depth = l.depth + bal)

/-- `take_leftmost_rc` keeps the heights right. It stores no height at a node with both children but
in a rotation, which is a single one. -/
def LeftmostKeeps (bal : ℤ) : AvlTree ν κ → Prop
  | nil => True
  | node l _ _ _ r => l.LeftmostKeeps bal ∧
      (l.LeftmostShrinks bal → (r.depth < l.depth → r.depth = 0) ∧
        (r.depth = l.depth + bal → r.left.depth < r.right.depth))

/-- `delete_lm_rc` makes the tree lower. -/
def MinShrinks (bal : ℤ) : AvlTree ν κ → Prop
  | nil => False
  | node l _ _ _ r =>
    if l.depth = 0 then r.depth = 0 ∨ r.LeftmostShrinks bal
    else l.MinShrinks bal ∧ (r.depth < l.depth ∨
      r.depth = l.depth + bal ∧ (l.depth = 1 ∨ r.left.depth < r.right.depth))

/-- `delete_lm_rc` keeps the heights right. The height of a node with both children is the one of
its higher child, and the rotation has to leave them balanced. -/
def MinKeeps (bal : ℤ) : AvlTree ν κ → Prop
  | nil => True
  | node l _ _ _ r =>
    if l.depth = 0 then r.LeftmostKeeps bal
    else l.MinKeeps bal ∧ (l.MinShrinks bal → r.depth = l.depth + bal →
      if l.depth = 1 then r.Raisable else r.left.depth < r.right.depth + bal)

section Keys

variable [LinearOrder κ]

/-- `delete_rc` makes the tree lower. -/
def DeleteShrinks (bal : ℤ) (key : κ) : AvlTree ν κ → Prop
  | nil => False
  | node l _ k _ r =>
    if key < k then
      l.DeleteShrinks bal key ∧ (r.depth < l.depth ∨ r.depth = l.depth + bal)
    else if k < key then
      r.DeleteShrinks bal key ∧ (l.depth < r.depth ∨ l.depth = r.depth + bal)
    else if r.depth = 0 then l.depth = 0 ∨ l.mirror.LeftmostShrinks bal
    else r.LeftmostShrinks bal ∧ l.depth < r.depth

/-- `delete_rc` keeps the heights right. No rotation follows where a node is deleted and another one
takes its place. -/
def DeleteKeeps (bal : ℤ) (key : κ) : AvlTree ν κ → Prop
  | nil => True
  | node l _ k _ r =>
    if key < k then
      l.DeleteKeeps bal key ∧
        (l.DeleteShrinks bal key → r.depth = l.depth + bal → r.Raisable)
    else if k < key then
      r.DeleteKeeps bal key ∧
        (r.DeleteShrinks bal key → l.depth = r.depth + bal → l.mirror.Raisable)
    else if r.depth = 0 then l.mirror.LeftmostKeeps bal
    else r.LeftmostKeeps bal ∧ (r.LeftmostShrinks bal → l.depth ≠ r.depth + bal)

end Keys

instance decidableLeftmostShrinks (bal : ℤ) :
    (t : AvlTree ν κ) → Decidable (t.LeftmostShrinks bal)
  | nil => isFalse id
  | node l _ _ _ _ =>
    have := decidableLeftmostShrinks bal l
    inferInstanceAs (Decidable (_ ∨ _ ∧ _))

instance decidableLeftmostKeeps (bal : ℤ) : (t : AvlTree ν κ) → Decidable (t.LeftmostKeeps bal)
  | nil => isTrue trivial
  | node l _ _ _ _ =>
    have := decidableLeftmostKeeps bal l
    inferInstanceAs (Decidable (_ ∧ (_ → _ ∧ _)))

instance decidableMinShrinks (bal : ℤ) : (t : AvlTree ν κ) → Decidable (t.MinShrinks bal)
  | nil => isFalse id
  | node l _ _ _ _ =>
    have := decidableMinShrinks bal l
    inferInstanceAs (Decidable (@ite Prop _ _ _ _))

instance decidableMinKeeps (bal : ℤ) : (t : AvlTree ν κ) → Decidable (t.MinKeeps bal)
  | nil => isTrue trivial
  | node l _ _ _ _ =>
    have := decidableMinKeeps bal l
    inferInstanceAs (Decidable (@ite Prop _ _ _ _))

instance decidableDeleteShrinks [LinearOrder κ] (bal : ℤ) (key : κ) :
    (t : AvlTree ν κ) → Decidable (t.DeleteShrinks bal key)
  | nil => isFalse id
  | node l _ _ _ r =>
    have := decidableDeleteShrinks bal key l
    have := decidableDeleteShrinks bal key r
    inferInstanceAs (Decidable (@ite Prop _ _ _ _))

instance decidableDeleteKeeps [LinearOrder κ] (bal : ℤ) (key : κ) :
    (t : AvlTree ν κ) → Decidable (t.DeleteKeeps bal key)
  | nil => isTrue trivial
  | node l _ _ _ r =>
    have := decidableDeleteKeeps bal key l
    have := decidableDeleteKeeps bal key r
    inferInstanceAs (Decidable (@ite Prop _ _ _ _))

/-! ## A tree that a node was removed from -/

/-- What is left of a tree of the height `d`: its heights are right if `keeps` holds, and then it is
lower by one if `shrinks` does. -/
structure Removed (bal : ℤ) (keeps shrinks : Prop) (d : ℤ) (t : AvlTree ν κ) : Prop where
  good_iff : Good bal t ↔ keeps
  lower : keeps → shrinks → t.depth + 1 = d
  same : keeps → ¬ shrinks → t.depth = d

theorem Removed.congr (ht : Removed bal keeps shrinks d t) (hkeeps : keeps ↔ keeps')
    (hshrinks : keeps → (shrinks ↔ shrinks')) : Removed bal keeps' shrinks' d t where
  good_iff := ht.good_iff.trans hkeeps
  lower := fun hk hs => ht.lower (hkeeps.mpr hk) ((hshrinks (hkeeps.mpr hk)).mpr hs)
  same := fun hk hs => ht.same (hkeeps.mpr hk) (mt (hshrinks (hkeeps.mpr hk)).mp hs)

theorem Removed.spoilt (ht : ¬ Good bal t) (hkeeps : ¬ keeps) : Removed bal keeps shrinks d t :=
  ⟨iff_of_false ht hkeeps, fun hk => (hkeeps hk).elim, fun hk => (hkeeps hk).elim⟩

theorem removed_mirror :
    Removed bal keeps shrinks d t.mirror ↔ Removed bal keeps shrinks d t := by
  constructor
  · rintro ⟨hgood, hlower, hsame⟩
    rw [good_mirror] at hgood
    rw [depth_mirror] at hlower hsame
    exact ⟨hgood, hlower, hsame⟩
  · rintro ⟨hgood, hlower, hsame⟩
    rw [← good_mirror] at hgood
    rw [← depth_mirror] at hlower hsame
    exact ⟨hgood, hlower, hsame⟩

/-- A node whose height is stored anew. -/
theorem removed_node (hl : Good bal l) (hr : Good bal r) (hnear : Near bal l r)
    (hd : max l.depth r.depth + 1 = d ∨ max l.depth r.depth + 2 = d) :
    Removed bal True (max l.depth r.depth + 2 = d) d
      (node l x k (max l.depth r.depth + 1) r) where
  good_iff := iff_of_true (good_node_iff.mpr ⟨rfl, hnear, hl, hr⟩) trivial
  lower := fun _ hlow => by rw [depth_node]; omega
  same := fun _ hhigh => by rw [depth_node]; omega

/-! ## Rotations -/

theorem raiseRight_single {rl rrl rrr : AvlTree ν κ} {y z : ν} {ky kz : κ} {hy hz : ℤ} :
    raiseRight (node l x k h (node rl y ky hy (node rrl z kz hz rrr))) =
      rotateLeft (node l x k h (node rl y ky hy (node rrl z kz hz rrr))) := by
  rw [raiseRight]
  exact nofun

section Rotations

variable (hbal : 1 ≤ bal) (hl : Good bal l) (hr : Good bal r)
  (hhigh : r.depth = l.depth + bal + 1)

include hbal hl hr hhigh

theorem removed_rotateLeft :
    Removed bal (r.left.depth < r.right.depth) True (r.depth + 1)
      (rotateLeft (node l x k h r)) := by
  have hnonneg := depth_nonneg l
  rcases r with _ | ⟨cl, y, ky, hy, cr⟩
  · rw [depth_nil] at hhigh
    omega
  · obtain ⟨-, ⟨hlr, hrl⟩, hcl, hcr⟩ := good_node_iff.mp hr
    rw [depth_node] at hhigh
    rw [rotateLeft_eq hcr.exact hcl.exact hl.exact, left, right]
    have hsub : Good bal (node l x k (max l.depth cl.depth + 1) cl) :=
      good_node_iff.mpr ⟨rfl, ⟨by omega, by omega⟩, hl, hcl⟩
    refine ⟨?_, fun hlow _ => ?_, fun _ h => (h trivial).elim⟩
    · rw [good_fromRight_iff, depth_node]
      refine ⟨fun h => by have hle := h.1; omega, fun hlow => ⟨by omega, by omega, hsub, hcr⟩⟩
    · simp only [depth_node]
      omega

theorem removed_raiseRight :
    Removed bal r.Raisable True (r.depth + 1) (raiseRight (node l x k h r)) := by
  have hnonneg := depth_nonneg l
  rcases r with _ | ⟨cl, y, ky, hy, _ | ⟨crl, z, kz, hz, crr⟩⟩
  · rw [depth_nil] at hhigh
    omega
  · obtain ⟨-, ⟨hlr, -⟩, hcl, -⟩ := good_node_iff.mp hr
    rw [depth_node, depth_nil] at hhigh
    rw [depth_nil] at hlr
    rcases cl with _ | ⟨gl, z, kz, hz, gr⟩
    · rw [depth_nil] at hhigh
      omega
    · obtain ⟨-, ⟨hnl, hnr⟩, hgl, hgr⟩ := good_node_iff.mp hcl
      have hposl := depth_nonneg gl
      have hposr := depth_nonneg gr
      have hnil : Good bal (nil : AvlTree ν κ) := good_nil
      rw [depth_node] at hhigh hlr
      rw [raiseRight, doubleLeft_eq hl.exact hgl.exact hgr.exact hnil.exact]
      have hleft : Good bal (node l x k (max l.depth gl.depth + 1) gl) :=
        good_node_iff.mpr ⟨rfl, ⟨by omega, by omega⟩, hl, hgl⟩
      have hright : Good bal (node gr y ky (max gr.depth 0 + 1) nil) :=
        good_node_iff.mpr ⟨rfl, ⟨by rw [depth_nil]; omega, by rw [depth_nil]; omega⟩, hgr, hnil⟩
      have hraisable : (node (node gl z kz hz gr) y ky hy nil).Raisable ↔
          gl.depth ≤ gr.depth := by
        refine ⟨fun h => h.elim (fun hlow => ?_) (·.2), fun hle => .inr ⟨rfl, hle⟩⟩
        simp only [left, right, depth_node, depth_nil] at hlow
        omega
      rw [depth_nil, show max gr.depth 0 + 2 = (node gr y ky (max gr.depth 0 + 1) nil).depth + 1 by
        rw [depth_node, depth_nil]; omega]
      refine ⟨?_, fun hlow _ => ?_, fun _ h => (h trivial).elim⟩
      · rw [hraisable, good_fromRight_iff]
        simp only [depth_node, depth_nil]
        exact ⟨fun h => by have hle := h.1; omega, fun hle => ⟨by omega, by omega, hleft, hright⟩⟩
      · have hle := hraisable.mp hlow
        simp only [depth_node, depth_nil]
        omega
  · have hpos := depth_pos (t := node crl z kz hz crr) node_ne_nil
    rw [raiseRight_single]
    refine (removed_rotateLeft hbal hl hr hhigh).congr ⟨.inl, fun hraise => hraise.resolve_right ?_⟩
      fun _ => Iff.rfl
    rintro ⟨hzero, -⟩
    rw [right] at hzero
    omega

/-- Behind `delete_lm_rc` and `delete_rm_rc` the height of the raised node is stored anew. -/
theorem removed_raiseRight_max (hne : l ≠ nil) :
    Removed bal (r.left.depth < r.right.depth + bal) (r.left.depth < r.right.depth) (r.depth + 1)
      ((raiseRight (node l x k h r)).setHeight
        ((raiseRight (node l x k h r)).maxChildHeight + 1)) := by
  have hpos := depth_pos hne
  rcases r with _ | ⟨cl, y, ky, hy, _ | ⟨crl, z, kz, hz, crr⟩⟩
  · rw [depth_nil] at hhigh
    omega
  · obtain ⟨-, ⟨hlr, -⟩, -, -⟩ := good_node_iff.mp hr
    rw [depth_node, depth_nil] at hhigh
    rw [depth_nil] at hlr
    omega
  · obtain ⟨-, ⟨hlr, hrl⟩, hcl, hcr⟩ := good_node_iff.mp hr
    rw [depth_node] at hhigh
    generalize hcr' : node crl z kz hz crr = cr at *
    have hraise : raiseRight (node l x k h (node cl y ky hy cr)) =
        node (node l x k (max l.depth cl.depth + 1) cl) y ky (cr.depth + 1) cr := by
      rw [← rotateLeft_eq hcr.exact hcl.exact hl.exact, ← hcr', raiseRight_single]
    have hsub : Good bal (node l x k (max l.depth cl.depth + 1) cl) :=
      good_node_iff.mpr ⟨rfl, ⟨by omega, by omega⟩, hl, hcl⟩
    rw [hraise, maxChildHeight_eq hsub.exact hcr.exact, setHeight, left, right]
    refine ⟨?_, fun _ hlow => ?_, fun _ hlow => ?_⟩
    · rw [good_node_iff, Near, depth_node]
      exact ⟨fun h => by have hle := h.2.1.1; omega,
        fun hlow => ⟨rfl, ⟨by omega, by omega⟩, hsub, hcr⟩⟩
    · simp only [depth_node]
      omega
    · simp only [depth_node]
      omega

end Rotations

end AvlTree

end MpegtsReader
