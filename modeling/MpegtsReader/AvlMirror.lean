import MpegtsReader.AvlTree
import Mathlib.Tactic.SplitIfs

/-!
# Left and right

The functions of the AVL tree come in pairs, each the other with left and right exchanged. `mirror`
turns a tree round, and the mirror image of what one function does is what the other one does to the
mirror image; so it is enough to know about one of each pair.
-/

namespace MpegtsReader

namespace AvlTree

variable {ν κ : Type} {t : AvlTree ν κ} {h : ℤ}

/-- The tree with left and right exchanged. -/
def mirror : AvlTree ν κ → AvlTree ν κ
  | nil => nil
  | node l x k h r => node r.mirror x k h l.mirror

@[simp] theorem mirror_nil : (nil : AvlTree ν κ).mirror = nil := rfl

@[simp] theorem mirror_node (l : AvlTree ν κ) (x : ν) (k : κ) (h : ℤ) (r : AvlTree ν κ) :
    (node l x k h r).mirror = node r.mirror x k h l.mirror := rfl

@[simp] theorem mirror_mirror (t : AvlTree ν κ) : t.mirror.mirror = t := by
  induction t with
  | nil => rfl
  | node l x k h r ihl ihr => rw [mirror_node, mirror_node, ihl, ihr]

theorem mirror_inj {u : AvlTree ν κ} : t.mirror = u.mirror ↔ t = u :=
  ⟨fun heq => by rw [← mirror_mirror t, heq, mirror_mirror], congrArg mirror⟩

@[simp] theorem top_mirror (t : AvlTree ν κ) : t.mirror.top = t.top := by cases t <;> rfl

theorem node_ne_nil {l r : AvlTree ν κ} {x : ν} {k : κ} : node l x k h r ≠ nil := by rintro ⟨⟩

theorem mirror_ne_nil (ht : t ≠ nil) : t.mirror ≠ nil := by
  cases t with
  | nil => exact ht
  | node => exact node_ne_nil

theorem left_mirror (t : AvlTree ν κ) : t.mirror.left = t.right.mirror := by cases t <;> rfl

theorem right_mirror (t : AvlTree ν κ) : t.mirror.right = t.left.mirror := by cases t <;> rfl

theorem height?_mirror (t : AvlTree ν κ) : t.mirror.height? = t.height? := by
  cases t <;> rfl

theorem mirror_setHeight (t : AvlTree ν κ) : (t.setHeight h).mirror = t.mirror.setHeight h := by
  cases t <;> rfl

/-! ## Rotations -/

theorem maxChildHeight_mirror (t : AvlTree ν κ) : t.mirror.maxChildHeight = t.maxChildHeight := by
  rcases t with _ | ⟨_ | ⟨ll, y, ky, hl, lr⟩, x, k, h, _ | ⟨rl, z, kz, hr, rr⟩⟩
  · rfl
  · rfl
  · rfl
  · rfl
  · simp only [mirror_node, maxChildHeight]
    split_ifs <;> omega

theorem rotateLeft_mirror (t : AvlTree ν κ) : t.mirror.rotateLeft = t.rotateRight.mirror := by
  rcases t with _ | ⟨_ | ⟨ll, y, ky, hl, lr⟩, x, k, h, r⟩
  · rfl
  · cases r <;> rfl
  · have hmax := maxChildHeight_mirror (node lr x k h r)
    rw [mirror_node] at hmax
    cases ll <;> simp [rotateLeft, rotateRight, hmax, setHeight]

theorem rotateRight_mirror (t : AvlTree ν κ) : t.mirror.rotateRight = t.rotateLeft.mirror := by
  have h := rotateLeft_mirror t.mirror
  rw [mirror_mirror] at h
  rw [h, mirror_mirror]

theorem raiseRight_mirror (t : AvlTree ν κ) : t.mirror.raiseRight = t.raiseLeft.mirror := by
  rcases t with _ | ⟨_ | ⟨_ | ⟨lll, z, kz, hz, llr⟩, y, ky, hl, lr⟩, x, k, h, r⟩
  · rfl
  · exact rotateLeft_mirror (node nil x k h r)
  · have hinner := rotateRight_mirror (node nil y ky hl lr)
    have houter := rotateLeft_mirror (node (node nil y ky hl lr).rotateLeft x k h r)
    rw [mirror_node, ← hinner] at houter
    exact houter
  · exact rotateLeft_mirror (node (node (node lll z kz hz llr) y ky hl lr) x k h r)

/-! ## Deletion -/

theorem settleTakeLeft_mirror (bal : ℤ) (t : AvlTree ν κ) :
    settleTakeLeft bal t.mirror = (settleTakeRight bal t).mirror := by
  have hrotate := rotateLeft_mirror t
  rcases t with _ | ⟨_ | ⟨ll, y, ky, hl, lr⟩, x, k, h, _ | ⟨rl, z, kz, hr, rr⟩⟩
  · rfl
  · rfl
  · rfl
  · simp only [mirror_node, mirror_nil, settleTakeLeft, settleTakeRight] at hrotate ⊢
    split_ifs
    · exact hrotate
    · rfl
  · simp only [mirror_node, settleTakeLeft, settleTakeRight] at hrotate ⊢
    split_ifs
    · exact hrotate
    · rfl

theorem takeLeftmostRc_mirror (bal : ℤ) (t : AvlTree ν κ) :
    takeLeftmostRc bal t.mirror =
      ((takeRightmostRc bal t).1.mirror, (takeRightmostRc bal t).2.mirror) := by
  induction t with
  | nil => rfl
  | node l x k h r _ ih =>
    cases r with
    | nil => rfl
    | node rl y ky hy rr =>
      simp only [mirror_node, takeLeftmostRc, takeRightmostRc] at ih ⊢
      rw [ih]
      exact congrArg (·, _) (settleTakeLeft_mirror bal (node l x k h _))

theorem setLinks_mirror (l r t : AvlTree ν κ) :
    setLinks r.mirror h l.mirror t.mirror = (setLinks l h r t).map mirror := by
  cases t <;> rfl

theorem fillFromRight_mirror (bal h : ℤ) (l r : AvlTree ν κ) :
    fillFromRight bal r.mirror h l.mirror = (fillFromLeft bal l h r).map mirror := by
  unfold fillFromRight fillFromLeft
  rw [takeLeftmostRc_mirror]
  exact setLinks_mirror _ _ _

theorem settleRight_mirror (bal : ℤ) (t : AvlTree ν κ) :
    settleRight bal t.mirror = (settleLeft bal t).mirror := by
  have hraise (t : AvlTree ν κ) : t.mirror.raiseLeft = t.raiseRight.mirror := by
    have h := raiseRight_mirror t.mirror
    rw [mirror_mirror] at h
    rw [h, mirror_mirror]
  rcases t with _ | ⟨_ | ⟨ll, y, ky, hl, lr⟩, x, k, h, _ | ⟨rl, z, kz, hr, rr⟩⟩
  · rfl
  · rfl
  · have hraise := hraise (node nil x k (hr + 1) (node rl z kz hr rr))
    simp only [mirror_node, mirror_nil, settleRight, settleLeft] at hraise ⊢
    split_ifs
    · exact hraise
    · rfl
  · rfl
  · have hheight : (if hl > hr then hl + 1 else hr + 1) = if hr > hl then hr + 1 else hl + 1 := by
      split_ifs <;> omega
    have hraise := hraise (node (node ll y ky hl lr) x k (if hr > hl then hr + 1 else hl + 1)
      (node rl z kz hr rr))
    simp only [mirror_node, settleRight, settleLeft, hheight] at hraise ⊢
    split_ifs at hraise ⊢ <;> first | exact hraise | rfl

theorem settleOnlyRight_mirror (bal h : ℤ) (t : AvlTree ν κ) :
    settleOnlyRight bal h t.mirror = (settleOnlyLeft bal h t).map mirror := by
  have hraise : (if h > bal then t.mirror.raiseRight else t.mirror) =
      (if h > bal then t.raiseLeft else t).mirror := by
    rw [raiseRight_mirror, apply_ite mirror]
  unfold settleOnlyRight settleOnlyLeft
  simp only [hraise, right_mirror, height?_mirror, ← mirror_setHeight]
  cases (if h > bal then t.raiseLeft else t).left.height? <;> rfl

theorem settleOnlyLeft_mirror (bal h : ℤ) (t : AvlTree ν κ) :
    settleOnlyLeft bal h t.mirror = (settleOnlyRight bal h t).map mirror := by
  have hright := settleOnlyRight_mirror bal h t.mirror
  rw [mirror_mirror] at hright
  rw [hright, Option.map_map, show mirror ∘ mirror = id from funext mirror_mirror, Option.map_id]
  rfl

theorem settleLm_mirror (bal : ℤ) (t : AvlTree ν κ) :
    t.mirror.settleLm bal = (t.settleRm bal).map mirror := by
  rcases t with _ | ⟨_ | ⟨ll, y, ky, hl, lr⟩, x, k, h, _ | ⟨rl, z, kz, hr, rr⟩⟩
  · rfl
  · rfl
  · exact settleOnlyLeft_mirror bal hr (node nil x k h (node rl z kz hr rr))
  · exact settleOnlyRight_mirror bal hl (node (node ll y ky hl lr) x k h nil)
  · have hraise := raiseRight_mirror (node (node ll y ky hl lr) x k h (node rl z kz hr rr))
    simp only [mirror_node] at hraise
    simp only [mirror_node, settleLm, settleRm, Option.map_some, hraise, mirror_setHeight]
    split_ifs
    · rw [maxChildHeight_mirror]
    · rw [← maxChildHeight_mirror]
      rfl

theorem deleteLmRc_mirror (bal : ℤ) (t : AvlTree ν κ) :
    deleteLmRc bal none t.mirror =
      (deleteRmRc bal none t).map fun r => (r.1.mirror, r.2.mirror) := by
  induction t with
  | nil => rfl
  | node l x k h r _ ih =>
    cases r with
    | nil =>
      cases l with
      | nil => rfl
      | node ll y ky hl lr =>
        have hfill := fillFromRight_mirror bal h (node ll y ky hl lr) nil
        simp only [mirror_node, mirror_nil] at hfill
        simp only [mirror_node, mirror_nil, deleteLmRc, deleteRmRc, replaceNode, hfill]
        cases fillFromLeft bal (node ll y ky hl lr) h nil with
        | none => rfl
        | some t =>
          have hsettle := settleLm_mirror bal t
          simp only [Option.map_some, Option.bind_eq_bind, Option.bind_some, hsettle]
          cases t.settleRm bal <;> rfl
    | node rl z kz hr rr =>
      simp only [mirror_node] at ih
      simp only [mirror_node, deleteLmRc, deleteRmRc, ih]
      cases deleteRmRc bal none (node rl z kz hr rr) with
      | none => rfl
      | some r =>
        have hsettle := settleLm_mirror bal (node l x k h r.1)
        simp only [mirror_node] at hsettle
        simp only [Option.map_some, Option.bind_eq_bind, Option.bind_some, hsettle]
        cases (node l x k h r.1).settleRm bal <;> rfl

end AvlTree

end MpegtsReader
