import MpegtsReader.AvlShrink

/-!
# Deletions that keep the heights

A deletion from a good tree leaves a good one exactly under the conditions on the heights before.
Each step on the way back leaves the subtree that was deleted from as it is, so that a wrong height
in it stays (`good_left_of_settleLeft` and the others), and with right heights there it is one of
the rotations or none (`settleLeft_eq` and the others).
-/

namespace MpegtsReader

namespace AvlTree

variable {ν κ : Type} {t t' l r l' r' leaf deleted : AvlTree ν κ} {x : ν} {k key : κ}
  {bal h d s : ℤ} {keeps shrinks : Prop}

/-! ## The end of a step -/

theorem settleLeft_eq (hbal : 1 ≤ bal) (hl : l.Exact) (hr : r.Exact) :
    settleLeft bal (node l x k h r) =
      if l.depth + bal < r.depth then raiseRight (node l x k (max l.depth r.depth + 1) r)
      else node l x k (max l.depth r.depth + 1) r := by
  rw [settleLeft_stored ((Int.le_of_lt Int.zero_lt_one).trans hbal) hl.posHeights hr.posHeights,
    hl.stored, hr.stored]

theorem settleTakeLeft_eq (hbal : 1 ≤ bal) (hl : l.Exact) (hr : r.Exact) :
    settleTakeLeft bal (node l x k h r) =
      if l.depth + bal < r.depth then rotateLeft (node l x k h r)
      else node l x k (if r.depth = 0 then l.depth + 1 else h) r := by
  rcases l with _ | ⟨ll, y, ky, hy, lr⟩ <;> rcases r with _ | ⟨rl, z, kz, hz, rr⟩
  · rw [depth_nil, if_neg (by omega), if_pos rfl]
    rfl
  · have hpos := depth_pos (t := node rl z kz hz rr) node_ne_nil
    have hheight : hz = (node rl z kz hz rr).depth := hr.1
    rw [depth_nil, zero_add, if_neg (by omega : ¬ (node rl z kz hz rr).depth = 0), ← hheight]
    rfl
  · have hnonneg := depth_nonneg (node ll y ky hy lr)
    have hheight : hy = (node ll y ky hy lr).depth := hl.1
    rw [depth_nil, if_neg (by omega), if_pos rfl, ← hheight]
    rfl
  · have hpos := depth_pos (t := node rl z kz hz rr) node_ne_nil
    have hleft : hy = (node ll y ky hy lr).depth := hl.1
    have hright : hz = (node rl z kz hz rr).depth := hr.1
    rw [settleTakeLeft, if_neg (by omega : ¬ (node rl z kz hz rr).depth = 0), ← hleft, ← hright]
    exact if_congr (by omega) rfl rfl

/-- The raised node has a node on its right, which its height is taken from. -/
theorem setHeight_raiseRight (hl : l.Exact) (hr : Good bal r)
    (hhigh : 1 < r.depth) :
    ∃ s, (raiseRight (node l x k h r)).right.height? = some s ∧
      (raiseRight (node l x k h r)).setHeight (s + 1) = raiseRight (node l x k h r) := by
  rcases r with _ | ⟨cl, y, ky, hy, _ | ⟨crl, z, kz, hz, crr⟩⟩
  · rw [depth_nil] at hhigh
    omega
  · rcases cl with _ | ⟨gl, z, kz, hz, gr⟩
    · rw [depth_node, depth_nil] at hhigh
      omega
    · have hnil : Exact (nil : AvlTree ν κ) := trivial
      obtain ⟨-, hgl, hgr⟩ := (good_node_iff.mp hr).2.2.1.exact
      rw [raiseRight, doubleLeft_eq hl hgl hgr hnil]
      refine ⟨_, rfl, ?_⟩
      rw [setHeight, add_assoc]
      rfl
  · obtain ⟨-, -, hcl, hcr⟩ := good_node_iff.mp hr
    rw [raiseRight_single, rotateLeft_eq hcr.exact hcl.exact hl]
    exact ⟨_, hcr.exact.height? node_ne_nil, rfl⟩

theorem settleLm_plain (hl : l.Exact) (hr : r.Exact) (hnear : Near bal l r) :
    settleLm bal (node l x k h r) = some (node l x k (max l.depth r.depth + 1) r) := by
  obtain ⟨hlr, hrl⟩ := hnear
  have hsettle := @settleLm_stored _ _ l r x k bal h hl.posHeights hr.posHeights
  rw [hl.stored, hr.stored] at hsettle
  exact hsettle hrl (by omega)

theorem settleLm_raise (hl : l.Exact) (hr : r.Exact) (hne : l ≠ nil)
    (hhigh : l.depth + bal < r.depth) (hbal : 1 ≤ bal) :
    settleLm bal (node l x k h r) = some ((raiseRight (node l x k h r)).setHeight
      ((raiseRight (node l x k h r)).maxChildHeight + 1)) := by
  rcases l with _ | ⟨ll, y, ky, hy, lr⟩
  · exact (hne rfl).elim
  · have hnonneg := depth_nonneg (node ll y ky hy lr)
    have hleft : hy = (node ll y ky hy lr).depth := hl.1
    rcases r with _ | ⟨rl, z, kz, hz, rr⟩
    · rw [depth_nil] at hhigh
      omega
    · have hright : hz = (node rl z kz hz rr).depth := hr.1
      rw [settleLm, if_pos (by omega)]

theorem settleLm_raise_nil (hr : Good bal r) (hhigh : bal < r.depth) (hbal : 1 ≤ bal) :
    settleLm bal (node nil x k h r) = some (raiseRight (node nil x k h r)) := by
  have hnil : Exact (nil : AvlTree ν κ) := trivial
  obtain ⟨s, hs, hset⟩ := setHeight_raiseRight (x := x) (k := k) (h := h) hnil hr
    (hbal.trans_lt hhigh)
  rcases r with _ | ⟨rl, z, kz, hz, rr⟩
  · rw [depth_nil] at hhigh
    omega
  · have hright : hz = (node rl z kz hz rr).depth := hr.exact.1
    rw [settleLm, settleOnlyRight, if_pos (by omega)]
    simp only [hs, hset, Option.bind_eq_bind, Option.bind_some]

/-! ## A wrong height stays -/

theorem good_left_of_rotateLeft (ht : Good bal ((rotateLeft (node l x k h r)).setHeight s)) :
    Good bal l := by
  cases r with
  | nil => exact ht.left
  | node rl y ky hy rr => exact ht.left.left

theorem good_left_of_raiseRight (ht : Good bal ((raiseRight (node l x k h r)).setHeight s)) :
    Good bal l := by
  rcases r with _ | ⟨rl, y, ky, hy, _ | ⟨rrl, z, kz, hz, rrr⟩⟩
  · exact ht.left
  · exact good_left_of_rotateLeft ht
  · rw [raiseRight_single] at ht
    exact good_left_of_rotateLeft ht

/-- A height may be read as one that is stored anew. -/
theorem exists_setHeight_eq (t : AvlTree ν κ) : ∃ s, t.setHeight s = t := by
  cases t with
  | nil => exact ⟨0, rfl⟩
  | node l x k h r => exact ⟨h, rfl⟩

theorem good_left_of_settleLeft (ht : Good bal (settleLeft bal (node l x k h r))) :
    Good bal l := by
  rcases l with _ | ⟨ll, y, ky, hy, lr⟩
  · exact good_nil
  · rcases r with _ | ⟨rl, z, kz, hz, rr⟩
    · exact ht.left
    · by_cases hlean : hz - hy > bal
      · rw [settleLeft, if_pos hlean] at ht
        obtain ⟨s, hs⟩ := exists_setHeight_eq (raiseRight (node (node ll y ky hy lr) x k
          (if hz > hy then hz + 1 else hy + 1) (node rl z kz hz rr)))
        rw [← hs] at ht
        exact good_left_of_raiseRight ht
      · rw [settleLeft, if_neg hlean] at ht
        exact ht.left

theorem good_left_of_settleTakeLeft (ht : Good bal (settleTakeLeft bal (node l x k h r))) :
    Good bal l := by
  rcases l with _ | ⟨ll, y, ky, hy, lr⟩
  · exact good_nil
  · rcases r with _ | ⟨rl, z, kz, hz, rr⟩
    · exact ht.left
    · by_cases hlean : hz - hy > bal
      · rw [settleTakeLeft, if_pos hlean] at ht
        obtain ⟨s, hs⟩ := exists_setHeight_eq (rotateLeft (node (node ll y ky hy lr) x k h
          (node rl z kz hz rr)))
        rw [← hs] at ht
        exact good_left_of_rotateLeft ht
      · rw [settleTakeLeft, if_neg hlean] at ht
        exact ht.left

/-- With one child there is no rotation, as long as that one is not stored as too high. -/
theorem good_left_of_settleLm (hlow : ∀ s ∈ l.height?, r = nil → s ≤ bal)
    (hsettle : settleLm bal (node l x k h r) = some t') (ht : Good bal t') : Good bal l := by
  rcases l with _ | ⟨ll, y, ky, hy, lr⟩
  · exact good_nil
  · rcases r with _ | ⟨rl, z, kz, hz, rr⟩
    · rw [settleLm, settleOnlyLeft, if_neg (not_lt.mpr (hlow hy rfl rfl))] at hsettle
      obtain rfl := Option.some.inj hsettle
      exact ht.left
    · rw [settleLm] at hsettle
      obtain rfl := Option.some.inj hsettle
      split_ifs at ht
      · exact good_left_of_raiseRight ht
      · exact ht.left

/-! ## Stored heights do not grow -/

/-- The height that is stored at the top is `b` at most. -/
def Low (b : ℤ) (t : AvlTree ν κ) : Prop := ∀ s ∈ t.height?, s ≤ b

theorem low_nil (b : ℤ) : (nil : AvlTree ν κ).Low b := nofun

theorem low_node {b : ℤ} : (node l x k h r).Low b ↔ h ≤ b :=
  ⟨fun hlow => hlow h rfl, fun hle _ hs => Option.some.inj hs ▸ hle⟩

theorem Low.mono {b c : ℤ} (ht : t.Low b) (hle : b ≤ c) : t.Low c := fun s hs =>
  (ht s hs).trans hle

theorem Exact.low (ht : t.Exact) : t.Low t.depth := by
  cases t with
  | nil => exact low_nil _
  | node l x k h r => exact low_node.mpr ht.1.le

theorem low_setHeight {b : ℤ} (hle : h ≤ b) : (t.setHeight h).Low b := by
  cases t with
  | nil => exact low_nil _
  | node l x k h' r => exact low_node.mpr hle

theorem maxChildHeight_le {b : ℤ} (hb : 0 ≤ b) (hl : l.Low b) (hr : r.Low b) :
    (node l x k h r).maxChildHeight ≤ b := by
  rcases l with _ | ⟨ll, y, ky, hy, lr⟩ <;> rcases r with _ | ⟨rl, z, kz, hz, rr⟩
  · exact hb
  · exact low_node.mp hr
  · exact low_node.mp hl
  · rw [low_node] at hl hr
    rw [maxChildHeight]
    split_ifs
    · exact hr
    · exact hl

theorem low_rotateLeft (hr : r.Exact) (hne : r ≠ nil) :
    (rotateLeft (node l x k h r)).Low r.depth := by
  rcases r with _ | ⟨rl, y, ky, hy, rr⟩
  · exact (hne rfl).elim
  · have hpos := depth_nonneg rl
    have hheight := hr.2.2.low
    cases rr with
    | nil =>
      refine low_node.mpr (show (1 : ℤ) ≤ _ from ?_)
      rw [depth_node]
      omega
    | node rrl z kz hz rrr =>
      have hle := low_node.mp hheight
      refine low_node.mpr (show hz + 1 ≤ _ from ?_)
      rw [depth_node]
      omega

/-- The children of the raised node are no higher than the higher side was. -/
theorem low_raiseRight (hr : r.Exact) (hne : r ≠ nil) (hl : l.Low (r.depth - 1)) :
    (raiseRight (node l x k h r)).left.Low r.depth ∧
      (raiseRight (node l x k h r)).right.Low (r.depth - 1) := by
  have hchild {m : AvlTree ν κ} (hm : m.Exact) (hle : m.depth ≤ r.depth - 1) :
      (node l x k h m).maxChildHeight + 1 ≤ r.depth := by
    have hnonneg := depth_nonneg m
    have hmax := maxChildHeight_le (x := x) (k := k) (h := h) (by omega) hl (hm.low.mono hle)
    omega
  rcases r with _ | ⟨rl, y, ky, hy, _ | ⟨rrl, z, kz, hz, rrr⟩⟩
  · exact (hne rfl).elim
  · rcases rl with _ | ⟨gl, z, kz, hz, gr⟩
    · exact ⟨low_node.mpr (hchild (m := nil) trivial (by simp)), low_nil _⟩
    · obtain ⟨-, ⟨-, hgl, hgr⟩, -⟩ := hr
      have hnil : Exact (nil : AvlTree ν κ) := trivial
      have hpos := depth_nonneg gl
      rw [raiseRight, rotateRight_eq hgl hgr hnil]
      refine ⟨low_node.mpr (hchild hgl ?_), low_node.mpr ?_⟩ <;>
        simp only [depth_node, depth_nil] <;> omega
  · obtain ⟨-, hrl, hrr⟩ := hr
    rw [raiseRight_single]
    exact ⟨low_node.mpr (hchild hrl (by rw [depth_node]; omega)),
      hrr.low.mono (by rw [depth_node (l := rl)]; omega)⟩

theorem low_settleTakeLeft (hl : l.Low (h - 1)) (hr : r.Exact) (hlt : r.depth < h) :
    (settleTakeLeft bal (node l x k h r)).Low h := by
  have hnonneg := depth_nonneg r
  have hself : (node l x k h r).Low h := low_node.mpr (le_refl h)
  have hrotate (hne : r ≠ nil) := (low_rotateLeft (l := l) (x := x) (k := k) (h := h) hr hne).mono
    hlt.le
  rcases l with _ | ⟨ll, y, ky, hy, lr⟩ <;> rcases r with _ | ⟨rl, z, kz, hz, rr⟩
  · exact low_node.mpr (by omega)
  · rw [settleTakeLeft]
    split_ifs
    · exact hrotate node_ne_nil
    · exact hself
  · have hle := low_node.mp hl
    exact low_node.mpr (by omega)
  · rw [settleTakeLeft]
    split_ifs
    · exact hrotate node_ne_nil
    · exact hself

theorem low_takeLeftmostRc (bal : ℤ) (ht : t.Exact) : (takeLeftmostRc bal t).1.Low t.depth := by
  induction t with
  | nil => exact low_nil _
  | node l x k h r ihl _ =>
    obtain ⟨rfl, hl, hr⟩ := ht
    rw [depth_node]
    cases l with
    | nil => exact hr.low.mono (by omega)
    | node ll y ky hy lr =>
      exact low_settleTakeLeft ((ihl hl).mono (by omega)) hr (by omega)

/-- Where the place of the smallest node is filled there is no rotation. -/
theorem settleLm_only_right (hlow : r.Low bal) :
    settleLm bal (node nil x k h r) =
      some (node nil x k ((node nil x k h r).maxChildHeight + 1) r) := by
  cases r with
  | nil => rfl
  | node rl z kz hz rr =>
    rw [settleLm, settleOnlyRight, if_neg (not_lt.mpr (low_node.mp hlow))]
    rfl

theorem low_settleLm (hl : l.Low (h - 1)) (hr : r.Exact) (hlt : r.depth < h)
    (honly : r = nil → h ≤ bal + 1) (hbal : 1 ≤ bal)
    (hsettle : settleLm bal (node l x k h r) = some t') : t'.Low h := by
  have hnonneg := depth_nonneg r
  rcases l with _ | ⟨ll, y, ky, hy, lr⟩ <;> rcases r with _ | ⟨rl, z, kz, hz, rr⟩
  · obtain rfl := Option.some.inj hsettle
    exact low_node.mpr (by omega)
  · have hraise := low_raiseRight (x := x) (k := k) (h := h) hr node_ne_nil (low_nil _)
    have hself := hr.low
    rw [settleLm, settleOnlyRight] at hsettle
    obtain ⟨s, hs, hset⟩ := Option.bind_eq_some_iff.mp hsettle
    obtain rfl := Option.some.inj hset
    refine low_setHeight ?_
    split_ifs at hs
    · have hle := hraise.2 s hs
      omega
    · have hle := hself s hs
      omega
  · have hle := low_node.mp hl
    have hroom := honly rfl
    rw [settleLm, settleOnlyLeft, if_neg (by omega)] at hsettle
    obtain rfl := Option.some.inj hsettle
    exact low_node.mpr (by omega)
  · have hle := low_node.mp hl
    have hright : hz = (node rl z kz hz rr).depth := hr.1
    rw [settleLm] at hsettle
    obtain rfl := Option.some.inj hsettle
    refine low_setHeight ?_
    split_ifs with hlean
    · have hraise := low_raiseRight (l := node ll y ky hy lr) (x := x) (k := k) (h := h) hr
        node_ne_nil (low_node.mpr (by omega))
      have hmax : (raiseRight (node (node ll y ky hy lr) x k h
          (node rl z kz hz rr))).maxChildHeight ≤ (node rl z kz hz rr).depth := by
        generalize raiseRight (node (node ll y ky hy lr) x k h (node rl z kz hz rr)) = t at hraise
        cases t with
        | nil => exact hnonneg
        | node l x k h r => exact maxChildHeight_le hnonneg hraise.1 (hraise.2.mono (by omega))
      omega
    · have hmax := maxChildHeight_le (l := node ll y ky hy lr) (x := x) (k := k) (h := h)
        (by omega) hl (hr.low.mono (by omega))
      omega

/-! ## One step of the way back -/

section Steps

variable (hbal : 1 ≤ bal) (hr : Good bal r) (hnear : Near bal l r)

include hr hnear

/-- Without a rotation the height of the node is stored anew. -/
theorem Removed.plain (hrem : Removed bal keeps shrinks l.depth l') (hkeeps : keeps)
    (hstays : ¬ (shrinks ∧ r.depth = l.depth + bal)) :
    r.depth ≤ l'.depth + bal ∧ l'.depth ≤ r.depth + bal ∧
      Removed bal True (shrinks ∧ r.depth < l.depth) (max l.depth r.depth + 1)
        (node l' x k (max l'.depth r.depth + 1) r) := by
  obtain ⟨hlr, hrl⟩ := hnear
  have hl' : Good bal l' := hrem.good_iff.mpr hkeeps
  by_cases hshrinks : shrinks
  · have hdepth := hrem.lower hkeeps hshrinks
    have hclose : r.depth ≠ l.depth + bal := fun hfar => hstays ⟨hshrinks, hfar⟩
    refine ⟨by omega, by omega, (removed_node hl' hr ⟨by omega, by omega⟩ (by omega)).congr Iff.rfl
      fun _ => ?_⟩
    rw [and_iff_right hshrinks]
    omega
  · have hdepth := hrem.same hkeeps hshrinks
    refine ⟨by omega, by omega, (removed_node hl' hr ⟨by omega, by omega⟩ (by omega)).congr Iff.rfl
      fun _ => iff_of_false (by omega) fun h => hshrinks h.1⟩

include hbal

theorem Removed.settleLeft (hrem : Removed bal keeps shrinks l.depth l') :
    Removed bal (keeps ∧ (shrinks → r.depth = l.depth + bal → r.Raisable))
      (shrinks ∧ (r.depth < l.depth ∨ r.depth = l.depth + bal)) (max l.depth r.depth + 1)
      (settleLeft bal (node l' x k h r)) := by
  by_cases hkeeps : keeps
  · have hl' : Good bal l' := hrem.good_iff.mpr hkeeps
    rw [settleLeft_eq hbal hl'.exact hr.exact, and_iff_right hkeeps]
    by_cases hlift : shrinks ∧ r.depth = l.depth + bal
    · obtain ⟨hshrinks, hfar⟩ := hlift
      have hdepth := hrem.lower hkeeps hshrinks
      rw [if_pos (by omega), max_eq_right (by omega : l.depth ≤ r.depth)]
      exact (removed_raiseRight hbal hl' hr (by omega)).congr
        ⟨fun h _ _ => h, fun h => h hshrinks hfar⟩ fun _ =>
        iff_of_true trivial ⟨hshrinks, .inr hfar⟩
    · obtain ⟨hrl, -, hplain⟩ := hrem.plain hr hnear (x := x) (k := k) hkeeps hlift
      rw [if_neg (not_lt.mpr hrl)]
      exact hplain.congr (iff_of_true trivial fun hs hfar => (hlift ⟨hs, hfar⟩).elim) fun _ =>
        ⟨fun ⟨hs, hlt⟩ => ⟨hs, .inl hlt⟩, fun ⟨hs, hor⟩ =>
          ⟨hs, hor.resolve_right fun hfar => hlift ⟨hs, hfar⟩⟩⟩
  · exact .spoilt (fun hgood => hkeeps (hrem.good_iff.mp (good_left_of_settleLeft hgood)))
      fun h => hkeeps h.1

/-- Where there is no rotation and there are both children, the height of the node stays. -/
theorem Removed.settleTakeLeft (hrem : Removed bal keeps shrinks l.depth l') :
    Removed bal (keeps ∧ (shrinks → (r.depth < l.depth → r.depth = 0) ∧
        (r.depth = l.depth + bal → r.left.depth < r.right.depth)))
      (shrinks ∧ (r.depth < l.depth ∨ r.depth = l.depth + bal)) (max l.depth r.depth + 1)
      (settleTakeLeft bal (node l' x k (max l.depth r.depth + 1) r)) := by
  by_cases hkeeps : keeps
  · have hl' : Good bal l' := hrem.good_iff.mpr hkeeps
    rw [settleTakeLeft_eq hbal hl'.exact hr.exact, and_iff_right hkeeps]
    by_cases hlift : shrinks ∧ r.depth = l.depth + bal
    · obtain ⟨hshrinks, hfar⟩ := hlift
      have hdepth := hrem.lower hkeeps hshrinks
      rw [if_pos (by omega), max_eq_right (by omega : l.depth ≤ r.depth)]
      exact (removed_rotateLeft hbal hl' hr (by omega)).congr
        ⟨fun h _ => ⟨fun _ => by omega, fun _ => h⟩, fun h => (h hshrinks).2 hfar⟩ fun _ =>
        iff_of_true trivial ⟨hshrinks, .inr hfar⟩
    · obtain ⟨hrl, -, hplain⟩ := hrem.plain hr hnear (x := x) (k := k) hkeeps hlift
      have hclose (hs : shrinks) : r.depth ≠ l.depth + bal := fun hfar => hlift ⟨hs, hfar⟩
      have hsides : shrinks ∧ r.depth < l.depth ↔
          shrinks ∧ (r.depth < l.depth ∨ r.depth = l.depth + bal) :=
        and_congr_right fun hs => (or_iff_left (hclose hs)).symm
      rw [if_neg (not_lt.mpr hrl)]
      by_cases honly : r.depth = 0
      · have hnonneg := depth_nonneg l'
        rw [if_pos honly, show l'.depth = max l'.depth r.depth by omega]
        exact hplain.congr (iff_of_true trivial fun hs => ⟨fun _ => honly, fun hfar =>
          (hclose hs hfar).elim⟩) fun _ => hsides
      · rw [if_neg honly]
        by_cases hstale : shrinks ∧ r.depth < l.depth
        · obtain ⟨hshrinks, hlt⟩ := hstale
          have hdepth := hrem.lower hkeeps hshrinks
          refine .spoilt (fun hgood => ?_) fun h => honly ((h hshrinks).1 hlt)
          have hexact := (good_node_iff.mp hgood).1
          omega
        · have hmax : max l.depth r.depth = max l'.depth r.depth := by
            by_cases hshrinks : shrinks
            · have hdepth := hrem.lower hkeeps hshrinks
              have hge : ¬ r.depth < l.depth := fun hlt => hstale ⟨hshrinks, hlt⟩
              omega
            · rw [hrem.same hkeeps hshrinks]
          have hnode : node l' x k (max l.depth r.depth + 1) r =
              node l' x k (max l'.depth r.depth + 1) r := by rw [hmax]
          rw [hnode]
          exact hplain.congr (iff_of_true trivial fun hs => ⟨fun hlt =>
            (hstale ⟨hs, hlt⟩).elim, fun hfar => (hclose hs hfar).elim⟩) fun _ => hsides
  · exact .spoilt (fun hgood => hkeeps (hrem.good_iff.mp (good_left_of_settleTakeLeft hgood)))
      fun h => hkeeps h.1

theorem Removed.settleLm (hrem : Removed bal keeps shrinks l.depth l') (hne : l ≠ nil)
    (hlow : l'.Low l.depth) (hsettle : settleLm bal (node l' x k h r) = some t') :
    Removed bal (keeps ∧ (shrinks → r.depth = l.depth + bal →
        if l.depth = 1 then r.Raisable else r.left.depth < r.right.depth + bal))
      (shrinks ∧ (r.depth < l.depth ∨
        r.depth = l.depth + bal ∧ (l.depth = 1 ∨ r.left.depth < r.right.depth)))
      (max l.depth r.depth + 1) t' := by
  have hpos := depth_pos hne
  by_cases hkeeps : keeps
  · have hl' : Good bal l' := hrem.good_iff.mpr hkeeps
    rw [and_iff_right hkeeps]
    by_cases hlift : shrinks ∧ r.depth = l.depth + bal
    · obtain ⟨hshrinks, hfar⟩ := hlift
      have hdepth := hrem.lower hkeeps hshrinks
      rw [max_eq_right (by omega : l.depth ≤ r.depth)]
      by_cases hlast : l.depth = 1
      · obtain rfl : l' = nil := depth_eq_zero_iff.mp (by omega)
        rw [settleLm_raise_nil hr (by omega) hbal] at hsettle
        obtain rfl := Option.some.inj hsettle
        rw [if_pos hlast]
        exact (removed_raiseRight hbal hl' hr (by omega)).congr
          ⟨fun h _ _ => h, fun h => h hshrinks hfar⟩ fun _ =>
          iff_of_true trivial ⟨hshrinks, .inr ⟨hfar, .inl hlast⟩⟩
      · have hne' : l' ≠ nil := by
          rintro rfl
          rw [depth_nil] at hdepth
          omega
        rw [settleLm_raise hl'.exact hr.exact hne' (by omega) hbal] at hsettle
        obtain rfl := Option.some.inj hsettle
        rw [if_neg hlast]
        refine (removed_raiseRight_max hbal hl' hr (by omega) hne').congr
          ⟨fun h _ _ => h, fun h => h hshrinks hfar⟩ fun _ => ⟨fun hlt =>
          ⟨hshrinks, .inr ⟨hfar, .inr hlt⟩⟩, fun ⟨_, hor⟩ => ?_⟩
        rcases hor with hlt | ⟨-, hor⟩
        · omega
        · exact hor.resolve_left hlast
    · obtain ⟨hrl, hlr, hplain⟩ := hrem.plain hr hnear (x := x) (k := k) hkeeps hlift
      rw [settleLm_plain hl'.exact hr.exact ⟨hlr, hrl⟩] at hsettle
      obtain rfl := Option.some.inj hsettle
      exact hplain.congr (iff_of_true trivial fun hs hfar => (hlift ⟨hs, hfar⟩).elim) fun _ =>
        ⟨fun ⟨hs, hlt⟩ => ⟨hs, .inl hlt⟩, fun ⟨hs, hor⟩ =>
          ⟨hs, hor.resolve_right fun hfar => hlift ⟨hs, hfar.1⟩⟩⟩
  · refine .spoilt (fun hgood => hkeeps (hrem.good_iff.mp ?_)) fun h => hkeeps h.1
    refine good_left_of_settleLm (fun s hs hnil => ?_) hsettle hgood
    have hle := hlow s hs
    have hfar := hnear.1
    rw [hnil, depth_nil] at hfar
    omega

end Steps

/-! ## The deletions -/

theorem removed_takeLeftmostRc (hbal : 1 ≤ bal) (ht : Good bal t) (hne : t ≠ nil) :
    Removed bal (t.LeftmostKeeps bal) (t.LeftmostShrinks bal) t.depth
      (takeLeftmostRc bal t).1 := by
  induction t with
  | nil => exact (hne rfl).elim
  | node l x k h r ihl _ =>
    obtain ⟨rfl, hnear, hl, hr⟩ := good_node_iff.mp ht
    cases l with
    | nil =>
      have hnonneg := depth_nonneg r
      refine ⟨iff_of_true hr ⟨trivial, nofun⟩, fun _ _ => ?_, fun _ h => (h (.inl rfl)).elim⟩
      rw [depth_node, depth_nil, max_eq_right hnonneg]
      rfl
    | node ll y ky hy lr =>
      have hpos := depth_pos (t := node ll y ky hy lr) node_ne_nil
      refine ((ihl hl nofun).settleTakeLeft hbal hr hnear).congr Iff.rfl fun _ => ?_
      exact (or_iff_right (by omega)).symm

theorem exists_fillFromRight_eq (bal h : ℤ) (l : AvlTree ν κ) (hr : r ≠ nil) :
    ∃ y ky, fillFromRight bal l h r = some (node l y ky h (takeLeftmostRc bal r).1) := by
  obtain ⟨r', leaf, y, heq, hleaf, -⟩ := exists_takeLeftmostRc bal hr
  cases leaf with
  | nil => cases hleaf
  | node ll y ky hy lr =>
    rw [fillFromRight, heq]
    exact ⟨y, ky, rfl⟩

theorem exists_fillFromLeft_eq (bal h : ℤ) (r : AvlTree ν κ) (hl : l ≠ nil) :
    ∃ y ky, fillFromLeft bal l h r = some (node (takeRightmostRc bal l).1 y ky h r) := by
  obtain ⟨y, ky, hfill⟩ := exists_fillFromRight_eq bal h r.mirror (mirror_ne_nil hl)
  rw [fillFromRight_mirror, takeLeftmostRc_mirror, ← mirror_node, Option.map_eq_some_iff] at hfill
  obtain ⟨t, hfill, ht⟩ := hfill
  have hback := congrArg mirror ht
  rw [mirror_mirror, mirror_mirror] at hback
  exact ⟨y, ky, hback ▸ hfill⟩

/-- A node with a child on the right only gives its place to the first node there. -/
theorem exists_deleteLmRc_fill (hr : r ≠ nil) (hlow : (takeLeftmostRc bal r).1.Low bal) :
    ∃ y ky, deleteLmRc bal none (node nil x k h r) =
      some (node nil y ky ((node nil y ky h (takeLeftmostRc bal r).1).maxChildHeight + 1)
        (takeLeftmostRc bal r).1, node nil x k h nil) := by
  obtain ⟨y, ky, hfill⟩ := exists_fillFromRight_eq bal h nil hr
  refine ⟨y, ky, ?_⟩
  have hsettle := settleLm_only_right (x := y) (k := ky) (h := h) hlow
  cases r with
  | nil => exact (hr rfl).elim
  | node rl z kz hz rr => simp [deleteLmRc, replaceNode, hfill, hsettle]

/-- The node that fills a place, with its height stored anew. -/
theorem Removed.fill (hl : Good bal l) (hnear : Near bal l r)
    (hrem : Removed bal keeps shrinks r.depth r') :
    Removed bal (keeps ∧ (shrinks → l.depth ≠ r.depth + bal)) (shrinks ∧ l.depth < r.depth)
      (max l.depth r.depth + 1) (node l x k ((node l x k h r').maxChildHeight + 1) r') := by
  obtain ⟨hlr, hrl⟩ := hnear
  by_cases hkeeps : keeps
  · have hr' : Good bal r' := hrem.good_iff.mpr hkeeps
    rw [maxChildHeight_eq hl.exact hr'.exact, and_iff_right hkeeps]
    by_cases hshrinks : shrinks
    · have hdepth := hrem.lower hkeeps hshrinks
      by_cases hfar : l.depth = r.depth + bal
      · refine .spoilt (fun hgood => ?_) fun h => h hshrinks hfar
        have hclose := (good_node_iff.mp hgood).2.1.1
        omega
      · refine (removed_node hl hr' ⟨by omega, by omega⟩ (by omega)).congr
          (iff_of_true trivial fun _ => hfar) fun _ => ?_
        rw [and_iff_right hshrinks]
        omega
    · have hdepth := hrem.same hkeeps hshrinks
      exact (removed_node hl hr' ⟨by omega, by omega⟩ (by omega)).congr
        (iff_of_true trivial fun hs => (hshrinks hs).elim) fun _ =>
        iff_of_false (by omega) fun h => hshrinks h.1
  · exact .spoilt (fun hgood => hkeeps (hrem.good_iff.mp hgood.right)) fun h => hkeeps h.1

theorem removed_deleteLmRc (hbal : 1 ≤ bal) (ht : Good bal t) (hne : t ≠ nil)
    (hdel : deleteLmRc bal none t = some (t', deleted)) :
    Removed bal (t.MinKeeps bal) (t.MinShrinks bal) t.depth t' ∧ t'.Low t.depth := by
  induction t generalizing t' deleted with
  | nil => exact (hne rfl).elim
  | node l x k h r ihl _ =>
    obtain ⟨rfl, hnear, hl, hr⟩ := good_node_iff.mp ht
    rw [depth_node]
    by_cases hnil : l = nil
    · subst hnil
      have hzero : (nil : AvlTree ν κ).depth = 0 := rfl
      simp only [MinKeeps, MinShrinks, if_pos hzero]
      by_cases hempty : r = nil
      · subst hempty
        obtain ⟨rfl, -⟩ := Prod.mk.inj (Option.some.inj hdel)
        exact ⟨⟨iff_of_true good_nil trivial, fun _ _ => rfl, fun _ h => (h (.inl rfl)).elim⟩,
          low_nil _⟩
      · have hpos := depth_pos hempty
        have hrem := removed_takeLeftmostRc hbal hr hempty
        have hlow := low_takeLeftmostRc bal hr.exact
        have hfar := hnear.2
        rw [hzero] at hfar
        obtain ⟨y, ky, heq⟩ := exists_deleteLmRc_fill hempty (hlow.mono (by omega))
        rw [heq] at hdel
        obtain ⟨rfl, -⟩ := Prod.mk.inj (Option.some.inj hdel)
        refine ⟨(hrem.fill hl hnear).congr (and_iff_left fun _ => ?_) fun _ => ?_, low_node.mpr ?_⟩
        · omega
        · rw [or_iff_right (by omega), and_iff_left (by omega)]
        · have hmax := maxChildHeight_le (x := y) (k := ky)
            (h := max (nil : AvlTree ν κ).depth r.depth + 1) (by omega) (low_nil r.depth) hlow
          omega
    · have hpos := depth_pos hnil
      have hzero : ¬ l.depth = 0 := by omega
      simp only [MinKeeps, MinShrinks, if_neg hzero]
      rw [deleteLmRc_left hnil] at hdel
      obtain ⟨⟨l', deleted'⟩, heq, hmap⟩ := Option.bind_eq_some_iff.mp hdel
      obtain ⟨u, hsettle, hu⟩ := Option.map_eq_some_iff.mp hmap
      obtain ⟨rfl, rfl⟩ := Prod.mk.inj hu
      obtain ⟨hrem, hlow⟩ := ihl hl hnil heq
      refine ⟨hrem.settleLm hbal hr hnear hnil hlow hsettle, ?_⟩
      refine low_settleLm (hlow.mono (by omega)) hr.exact (by omega) (fun hempty => ?_) hbal hsettle
      have hfar := hnear.1
      rw [hempty, depth_nil] at hfar ⊢
      omega

theorem removed_deleteRmRc (hbal : 1 ≤ bal) (ht : Good bal t) (hne : t ≠ nil)
    (hdel : deleteRmRc bal none t = some (t', deleted)) :
    Removed bal (t.mirror.MinKeeps bal) (t.mirror.MinShrinks bal) t.depth t' := by
  have hmirror := deleteLmRc_mirror bal t
  rw [hdel, Option.map_some] at hmirror
  have hrem := (removed_deleteLmRc hbal ((good_mirror t).mpr ht) (mirror_ne_nil hne) hmirror).1
  rwa [depth_mirror, removed_mirror] at hrem

/-! ## A node with a key -/

theorem deleteFound_right (hr : r ≠ nil) (hfill : fillFromRight bal l h r = some t) :
    deleteFound bal none (node l x k h r) =
      some (t.setHeight (t.maxChildHeight + 1), node nil x k h nil) := by
  cases r with
  | nil => exact (hr rfl).elim
  | node => cases l <;> simp [deleteFound, replaceNode, hfill]

theorem deleteFound_left (hl : l ≠ nil) (hfill : fillFromLeft bal l h nil = some t) :
    deleteFound bal none (node l x k h nil) =
      some (t.setHeight (t.maxChildHeight + 1), node nil x k h nil) := by
  cases l with
  | nil => exact (hl rfl).elim
  | node => simp [deleteFound, replaceNode, hfill]

theorem exists_deleteFound_removed (hbal : 1 ≤ bal) (hl : Good bal l) (hr : Good bal r)
    (hnear : Near bal l r) :
    ∃ t', deleteFound bal none (node l x k h r) = some (t', node nil x k h nil) ∧
      Removed bal
        (if r.depth = 0 then l.mirror.LeftmostKeeps bal
          else r.LeftmostKeeps bal ∧ (r.LeftmostShrinks bal → l.depth ≠ r.depth + bal))
        (if r.depth = 0 then l.depth = 0 ∨ l.mirror.LeftmostShrinks bal
          else r.LeftmostShrinks bal ∧ l.depth < r.depth) (max l.depth r.depth + 1) t' := by
  by_cases hempty : r = nil
  · subst hempty
    have hzero : (nil : AvlTree ν κ).depth = 0 := rfl
    rw [if_pos hzero, if_pos hzero]
    by_cases hnil : l = nil
    · subst hnil
      exact ⟨nil, rfl, iff_of_true good_nil trivial, fun _ _ => rfl,
        fun _ h => (h (.inl rfl)).elim⟩
    · have hpos := depth_pos hnil
      obtain ⟨y, ky, hfill⟩ := exists_fillFromLeft_eq bal h nil hnil
      refine ⟨_, deleteFound_left hnil hfill, removed_mirror.mp ?_⟩
      have hrem := removed_takeLeftmostRc hbal ((good_mirror l).mpr hl) (mirror_ne_nil hnil)
      rw [takeLeftmostRc_mirror] at hrem
      have hfilled := hrem.fill (x := y) (k := ky) (h := h) hr (near_mirror.mpr hnear)
      have hmax := maxChildHeight_mirror (node (takeRightmostRc bal l).1 y ky h nil)
      rw [mirror_node, mirror_nil] at hmax
      rw [depth_mirror, hzero, hmax, max_comm] at hfilled
      refine hfilled.congr (and_iff_left fun _ => by omega) fun _ => ?_
      rw [or_iff_right (by omega), and_iff_left (by omega)]
  · have hpos := depth_pos hempty
    obtain ⟨y, ky, hfill⟩ := exists_fillFromRight_eq bal h l hempty
    have hzero : ¬ r.depth = 0 := by omega
    rw [if_neg hzero, if_neg hzero]
    exact ⟨_, deleteFound_right hempty hfill,
      (removed_takeLeftmostRc hbal hr hempty).fill (x := y) (k := ky) (h := h) hl hnear⟩

theorem Removed.settleRight (hbal : 1 ≤ bal) (hl : Good bal l) (hnear : Near bal l r)
    (hrem : Removed bal keeps shrinks r.depth r') :
    Removed bal (keeps ∧ (shrinks → l.depth = r.depth + bal → l.mirror.Raisable))
      (shrinks ∧ (l.depth < r.depth ∨ l.depth = r.depth + bal)) (max l.depth r.depth + 1)
      (settleRight bal (node l x k h r')) := by
  rw [← depth_mirror r, ← removed_mirror] at hrem
  have hleft := hrem.settleLeft (x := x) (k := k) (h := h) hbal ((good_mirror l).mpr hl)
    (near_mirror.mpr hnear)
  rw [depth_mirror, depth_mirror, max_comm] at hleft
  rw [← removed_mirror, ← mirror_mirror (node l x k h r'), settleRight_mirror, mirror_mirror]
  exact hleft

theorem exists_deleteRc_removed [LinearOrder κ] (hbal : 1 ≤ bal) (key : κ) (ht : Good bal t) :
    ∃ t' deleted, deleteRc bal key none t = some (t', deleted) ∧
      Removed bal (t.DeleteKeeps bal key) (t.DeleteShrinks bal key) t.depth t' := by
  induction t with
  | nil => exact ⟨nil, nil, rfl, iff_of_true good_nil trivial, fun _ => False.elim, fun _ _ => rfl⟩
  | node l x k h r ihl ihr =>
    obtain ⟨rfl, hnear, hl, hr⟩ := good_node_iff.mp ht
    rw [depth_node]
    rcases lt_trichotomy key k with hlt | rfl | hgt
    · obtain ⟨l', deleted, heq, hrem⟩ := ihl hl
      simp only [DeleteKeeps, DeleteShrinks, if_pos hlt]
      refine ⟨settleLeft bal (node l' x k (max l.depth r.depth + 1) r), deleted, ?_,
        hrem.settleLeft hbal hr hnear⟩
      rw [deleteRc, if_pos hlt, heq]
      rfl
    · have hirr := lt_irrefl key
      obtain ⟨t', heq, hrem⟩ := exists_deleteFound_removed (x := x) (k := key)
        (h := max l.depth r.depth + 1) hbal hl hr hnear
      simp only [DeleteKeeps, DeleteShrinks, if_neg hirr]
      refine ⟨t', node nil x key (max l.depth r.depth + 1) nil, ?_, hrem⟩
      rw [deleteRc, if_neg hirr, if_neg hirr, heq]
    · obtain ⟨r', deleted, heq, hrem⟩ := ihr hr
      simp only [DeleteKeeps, DeleteShrinks, if_neg hgt.not_gt, if_pos hgt]
      refine ⟨settleRight bal (node l x k (max l.depth r.depth + 1) r'), deleted, ?_,
        hrem.settleRight hbal hl hnear⟩
      rw [deleteRc, if_neg hgt.not_gt, if_pos hgt, heq]
      rfl

theorem Exact.lowLeaves (ht : t.Exact) : t.LowLeaves := by
  induction t with
  | nil => trivial
  | node l x k h r ihl ihr =>
    obtain ⟨hh, hl, hr⟩ := ht
    refine ⟨?_, ihl hl, ihr hr⟩
    rintro rfl rfl
    exact hh.le

end AvlTree

section Root

open AvlTree

variable {ν κ : Type} [LinearOrder κ] {bal : ℤ}

/-- The deletions leave a good tree if and only if the heights before meet their conditions: by key,
of the smallest node, and of the largest one, for which the tree is turned round. -/
theorem good_delete_iff (hbal : 1 ≤ bal) {t : AvlTree ν κ} (ht : Good bal t) :
    (∀ key, ∃ t' deleted, cdslAvltreeDelete ⟨t, bal⟩ key = some (⟨t', bal⟩, deleted) ∧
      (Good bal t' ↔ t.DeleteKeeps bal key)) ∧
    (∃ t' deleted, cdslAvltreeDeleteMin ⟨t, bal⟩ = some (⟨t', bal⟩, deleted) ∧
      (Good bal t' ↔ t.MinKeeps bal)) ∧
    ∃ t' deleted, cdslAvltreeDeleteMax ⟨t, bal⟩ = some (⟨t', bal⟩, deleted) ∧
      (Good bal t' ↔ t.mirror.MinKeeps bal) := by
  refine ⟨fun key => ?_, ?_, ?_⟩
  · obtain ⟨t', deleted, heq, hrem⟩ := exists_deleteRc_removed hbal key ht
    refine ⟨t', deleted, ?_, hrem.good_iff⟩
    simp [cdslAvltreeDelete, cdslAvltreeDeleteReplace, heq]
  · obtain ⟨t', deleted, heq, -⟩ := exists_deleteLmRc hbal ht.exact.lowLeaves
    refine ⟨t', deleted, ?_, ?_⟩
    · simp [cdslAvltreeDeleteMin, cdslAvltreeDeleteMinReplace, heq]
    · by_cases hne : t = nil
      · subst hne
        obtain ⟨rfl, -⟩ := Prod.mk.inj (Option.some.inj heq)
        exact iff_of_true good_nil trivial
      · exact (removed_deleteLmRc hbal ht hne heq).1.good_iff
  · obtain ⟨t', deleted, heq, -⟩ := exists_deleteRmRc hbal ht.exact.lowLeaves
    refine ⟨t', deleted, ?_, ?_⟩
    · simp [cdslAvltreeDeleteMax, cdslAvltreeDeleteMaxReplace, heq]
    · by_cases hne : t = nil
      · subst hne
        obtain ⟨rfl, -⟩ := Prod.mk.inj (Option.some.inj heq)
        exact iff_of_true good_nil trivial
      · exact (removed_deleteRmRc hbal ht hne heq).good_iff

/-- A node with a higher right side, whose only node on the left is deleted. -/
theorem good_deleteRaised :
    (∃ t' deleted, cdslAvltreeDelete ⟨node (node nil 1 1 1 nil) 2 2 3
        (node nil 4 4 2 (node nil 5 5 1 nil)), 1⟩ 1 = some (⟨t', 1⟩, deleted) ∧ Good 1 t') ∧
      (∃ t' deleted, cdslAvltreeDeleteMin ⟨node (node nil 1 1 1 nil) 2 2 3
        (node nil 4 4 2 (node nil 5 5 1 nil)), 1⟩ = some (⟨t', 1⟩, deleted) ∧ Good 1 t') ∧
      ∃ t' deleted, cdslAvltreeDeleteMax ⟨node (node nil 1 1 1 nil) 2 2 3
        (node nil 4 4 2 (node nil 5 5 1 nil)), 1⟩ = some (⟨t', 1⟩, deleted) ∧ Good 1 t' := by
  obtain ⟨hkey, ⟨tmin, dmin, hmin, hmin'⟩, tmax, dmax, hmax, hmax'⟩ :=
    @good_delete_iff ℕ ℕ _ 1 (le_refl 1)
      (node (node nil 1 1 1 nil) 2 2 3 (node nil 4 4 2 (node nil 5 5 1 nil))) (by decide)
  obtain ⟨t', deleted, hdel, hdel'⟩ := hkey 1
  exact ⟨⟨t', deleted, hdel, hdel'.mpr (by decide)⟩, ⟨tmin, dmin, hmin, hmin'.mpr (by decide)⟩,
    tmax, dmax, hmax, hmax'.mpr (by decide)⟩

/-- Both sides of the higher child are of one height: the raised node takes its height from the
right one, and its left child is higher. -/
theorem not_good_evenSides :
    ¬ ∀ bal : ℤ, 1 ≤ bal → ∀ t : AvlTree ℕ ℕ, t.InOrder → Good bal t →
      (∀ (key : ℕ) (root : AvlRoot ℕ ℕ) (deleted : AvlTree ℕ ℕ),
        cdslAvltreeDelete ⟨t, bal⟩ key = some (root, deleted) → Good bal root.entry) ∧
      (∀ (root : AvlRoot ℕ ℕ) (deleted : AvlTree ℕ ℕ),
        cdslAvltreeDeleteMin ⟨t, bal⟩ = some (root, deleted) → Good bal root.entry) ∧
      ∀ (root : AvlRoot ℕ ℕ) (deleted : AvlTree ℕ ℕ),
        cdslAvltreeDeleteMax ⟨t, bal⟩ = some (root, deleted) → Good bal root.entry := by
  intro h
  have hgood := (h 1 (le_refl 1)
    (node (node nil 1 1 1 nil) 2 2 3 (node (node nil 3 3 1 nil) 4 4 2 (node nil 5 5 1 nil)))
    (by unfold InOrder OrderedBag.Ordered; decide) (by decide)).1 1 _ _ rfl
  revert hgood
  decide

end Root

end MpegtsReader
