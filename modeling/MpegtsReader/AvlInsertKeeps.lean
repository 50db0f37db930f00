import MpegtsReader.AvlForecast

/-!
# The condition on an insertion

At every node on the way the side that is entered is to be the higher one afterwards
(`EnteredHigher`). `keeps_left` and `keeps_right` say what that is in the heights before at one
node, and `enteredHigher_iff` puts them together.
-/

namespace MpegtsReader

namespace AvlTree

variable {ν κ : Type} [LinearOrder κ] {t l r : AvlTree ν κ} {x : ν} {k key : κ} {bal h : ℤ}
  {isSet : Bool}

/-- A grown tree was the higher one on the side that it was entered. -/
theorem Grows.left (ht : t.Grows bal key isSet) (hturn : turnOf key isSet t = .left) :
    t.left.Grows bal key isSet ∧ t.right.depth ≤ t.left.depth := by
  cases t with
  | nil => cases hturn
  | node l x k h r =>
    rw [turnOf] at hturn
    simp only [Grows, hturn] at ht
    exact ⟨ht.1, ht.2.1⟩

theorem Grows.right (ht : t.Grows bal key isSet) (hturn : turnOf key isSet t = .right) :
    t.right.Grows bal key isSet ∧ t.left.depth ≤ t.right.depth := by
  cases t with
  | nil => cases hturn
  | node l x k h r =>
    rw [turnOf] at hturn
    simp only [Grows, hturn] at ht
    exact ⟨ht.1, ht.2.1⟩

theorem ne_nil_of_turn (hturn : turnOf key isSet t ≠ .stop) : t ≠ nil := by
  rintro rfl
  exact hturn rfl

/-- The sides of a grown tree. -/
theorem Forecast.grown (ht : Forecast bal key isSet t) (hg : t.Grows bal key isSet) :
    (turnOf key isSet t = .left → (halves bal key isSet t).1.left = t.left.depth + 1) ∧
      (turnOf key isSet t = .right → (halves bal key isSet t).1.right = t.right.depth + 1) ∧
      (turnOf key isSet t = .stop → t.depth = 0 ∧ (halves bal key isSet t).1 = ⟨0, 0⟩) := by
  have hheight := ht.grows hg
  refine ⟨fun hturn => ?_, fun hturn => ?_, fun hturn => ?_⟩
  · obtain ⟨-, -, hstrict⟩ := ht.grownLeft hg hturn
    have hdepth := depth_eq (ne_nil_of_turn (by rw [hturn]; rintro ⟨⟩))
    have hle := (hg.left hturn).2
    rw [Halves.height] at hheight
    omega
  · obtain ⟨-, -, hstrict⟩ := ht.grownRight hg hturn
    have hdepth := depth_eq (ne_nil_of_turn (by rw [hturn]; rintro ⟨⟩))
    have hle := (hg.right hturn).2
    rw [Halves.height] at hheight
    omega
  · obtain rfl := hg.eq_nil hturn
    exact ⟨rfl, rfl⟩

/-- A grown left side is lifted. The side that is entered can be the lower one afterwards only when
its inner child is split. -/
theorem higher_afterLeft_iff (hbal : 1 ≤ bal) (hl : Good bal l)
    (hall : EnteredHigher bal key isSet l) (hgrows : l.Grows bal key isSet)
    (hfull : l.depth = r.depth + bal)
    (hlift : LiftsLeft bal (turnOf key isSet l) (halves bal key isSet l).1 r.depth) :
    (afterLeft bal (turnOf key isSet l) (halves bal key isSet l).1 (halves bal key isSet l).2
        r.depth).right ≤
      (afterLeft bal (turnOf key isSet l) (halves bal key isSet l).1 (halves bal key isSet l).2
        r.depth).left ↔
      (turnOf key isSet l = .right → turnOf key isSet l.right = .right →
        l.right.right.depth < l.left.depth) := by
  have hf := forecast hbal hl hall
  have hheight := hf.grows hgrows
  have hnonneg := depth_nonneg r
  unfold afterLeft
  rw [if_pos hlift]
  cases hnext : turnOf key isSet l with
  | left =>
    obtain ⟨-, -, hstrict⟩ := hf.grownLeft hgrows hnext
    rw [Halves.height] at hheight
    rw [if_neg (by rintro ⟨⟩)]
    exact iff_of_true (by simp only; omega) (by rintro ⟨⟩)
  | right =>
    obtain ⟨hinner, houter, hstrict⟩ := hf.grownRight hgrows hnext
    obtain ⟨hbelow, -, heq⟩ := hall.right hnext
    obtain ⟨hlr, -⟩ := hgrows.right hnext
    have hg := forecast hbal hl.right hbelow
    obtain ⟨-, hgr, hstop⟩ := hg.grown hlr
    rw [heq] at hinner ⊢
    rw [if_pos rfl, houter]
    rw [Halves.height] at hheight hinner
    simp only
    cases hdeep : turnOf key isSet l.right with
    | left =>
      obtain ⟨-, -, hdeeper⟩ := hg.grownLeft hlr hdeep
      exact iff_of_true (by omega) (by rintro - ⟨⟩)
    | right =>
      have hright := hgr hdeep
      obtain ⟨-, -, hdeeper⟩ := hg.grownRight hlr hdeep
      refine ⟨fun hle _ _ => by omega, fun hle => ?_⟩
      have houter := hle trivial rfl
      omega
    | stop =>
      obtain ⟨-, hforms⟩ := hstop hdeep
      rw [hforms] at hinner ⊢
      simp only at hinner ⊢
      exact iff_of_true (by omega) (by rintro - ⟨⟩)
  | stop => exact (hlift.1 hnext).elim

theorem keeps_left (hbal : 1 ≤ bal) (hl : Good bal l) (hnear : Near bal l r)
    (hturn : turn key isSet k = .left) (hall : EnteredHigher bal key isSet l) :
    (halves bal key isSet (node l x k h r)).1.right ≤
        (halves bal key isSet (node l x k h r)).1.left ↔
      (l.Grows bal key isSet → r.depth ≤ l.depth + 1 ∧
        (l.depth = r.depth + bal → turnOf key isSet l = .right →
          turnOf key isSet l.right = .right → l.right.right.depth < l.left.depth)) ∧
      (¬ l.Grows bal key isSet → r.depth ≤ l.depth) ∧
      (l.Sinks bal key isSet → r.depth < l.depth) := by
  have hf := forecast hbal hl hall
  have hnonneg := depth_nonneg r
  have hfar := hnear.1
  rw [halves_left hturn]
  by_cases hgrows : l.Grows bal key isSet
  · have hheight := hf.grows hgrows
    have hns : ¬ l.Sinks bal key isSet := fun hs => by
      have hlow := hf.sinks hs
      omega
    simp only [hgrows, hns, forall_const, not_true_eq_false, false_implies, and_true]
    by_cases hlift : LiftsLeft bal (turnOf key isSet l) (halves bal key isSet l).1 r.depth
    · have hfull : l.depth = r.depth + bal := by
        have hhigh := hlift.2
        omega
      rw [higher_afterLeft_iff hbal hl hall hgrows hfull hlift, imp_iff_right hfull]
      exact (and_iff_right (by omega)).symm
    · rw [afterLeft_plain hlift]
      have hroom : l.depth ≠ r.depth + bal := fun hfull => hlift ⟨fun hstop => by
        rw [hgrows.eq_nil hstop, depth_nil] at hfull
        omega, by omega⟩
      exact ⟨fun hle => ⟨by simp only at hle; omega, fun hfull => (hroom hfull).elim⟩,
        fun hle => by simp only; omega⟩
  · have hstays : ¬ LiftsLeft bal (turnOf key isSet l) (halves bal key isSet l).1 r.depth :=
      fun hlift => hgrows (hf.grows_of_lt (by
        have hhigh := hlift.2
        omega))
    rw [afterLeft_plain hstays]
    by_cases hsinks : l.Sinks bal key isSet
    · have hheight := hf.sinks hsinks
      simp only [hgrows, hsinks, forall_const, not_false_eq_true, false_implies, true_and]
      omega
    · have hheight := hf.same hgrows hsinks
      simp only [hgrows, hsinks, forall_const, not_false_eq_true, false_implies, true_and, and_true,
        hheight]

/-- A right side that is rotated although it has not grown, on the way to the left. -/
theorem needless_left (hbal : 1 ≤ bal) (hr : Good bal r) (hall : EnteredHigher bal key isSet r)
    (hfull : r.depth = bal) (hheight : (halves bal key isSet r).1.height = bal)
    (hnext : turnOf key isSet r = .left) :
    max 0 (halves bal key isSet r).2.left ≤
        max (halves bal key isSet r).2.right (halves bal key isSet r).1.right ↔
      r.NeedlessKeeps bal key isSet := by
  have hf := forecast hbal hr hall
  obtain ⟨hbelow, hside, heq⟩ := hall.left hnext
  have hg := forecast hbal hr.left hbelow
  have hdepth := depth_eq (ne_nil_of_turn (t := r) (by rw [hnext]; rintro ⟨⟩))
  have hposr := depth_nonneg r.right
  rw [hf.low hnext hfull.le, heq] at hheight hside
  rw [hf.low hnext hfull.le, heq, NeedlessKeeps, hnext]
  simp only at hheight hside ⊢
  have hinner : max (halves bal key isSet r.left).1.left (halves bal key isSet r.left).1.right + 2 =
      bal := by
    simp only [Halves.height] at hheight hside
    omega
  by_cases hhigh : bal ≤ r.right.depth + 2
  · exact iff_of_true (by omega) (.inr (.inr hhigh))
  · cases hdeep : turnOf key isSet r.left with
    | left =>
      have hforms := hg.low hdeep (by omega)
      have hhigher := (hbelow.left hdeep).2.1
      have hright : (halves bal key isSet r.left).1.right = r.left.right.depth := by rw [hforms]
      refine ⟨fun hle => .inr (.inl (by omega)), fun hor => ?_⟩
      rcases hor with hor | hor | hor
      · cases hor
      · omega
      · omega
    | right =>
      have hhigher := (hbelow.right hdeep).2.1
      exact iff_of_true (by omega) (.inl rfl)
    | stop =>
      rw [halves_of_stop hdeep] at hinner ⊢
      simp only at hinner ⊢
      refine ⟨fun hle => .inr (.inl (by omega)), fun hor => ?_⟩
      rcases hor with hor | hor | hor
      · cases hor
      · omega
      · omega

/-- The same on the way to the right, where `r` may have been rotated itself. -/
theorem needless_right (hbal : 1 ≤ bal) (hr : Good bal r) (hall : EnteredHigher bal key isSet r)
    (hfull : r.depth = bal) (hheight : (halves bal key isSet r).1.height = bal)
    (hnext : turnOf key isSet r = .right) :
    (halves bal key isSet r).1.left + 1 ≤ (halves bal key isSet r).1.right ↔
      r.NeedlessKeeps bal key isSet := by
  obtain ⟨hbelow, hside, -⟩ := hall.right hnext
  have hg := forecast hbal hr.right hbelow
  have hle := hg.le
  have hdepth := depth_eq (ne_nil_of_turn (t := r) (by rw [hnext]; rintro ⟨⟩))
  have hposl := depth_nonneg r.left
  have hforms : (halves bal key isSet r).1 = afterRight bal (turnOf key isSet r.right) r.left.depth
      (halves bal key isSet r.right).1 (halves bal key isSet r.right).2 := by
    cases r with
    | nil => cases hnext
    | node l x k h r => exact congrArg Prod.fst (halves_right hnext)
  rw [NeedlessKeeps, hnext]
  simp only
  by_cases hlift : LiftsRight bal (turnOf key isSet r.right) r.left.depth
      (halves bal key isSet r.right).1
  · have hhigh := hlift.2
    have hzero : r.left.depth = 0 := by
      split_ifs at hhigh with hzero
      · exact hzero
      · omega
    rw [if_pos hzero] at hhigh
    have hgrows : r.right.Grows bal key isSet := hg.grows_of_lt (by omega)
    rw [hforms, if_pos hzero, forall_prop_of_true hgrows]
    have hheight := hg.grows hgrows
    unfold afterRight
    rw [if_pos hlift]
    cases hdeep : turnOf key isSet r.right with
    | left =>
      obtain ⟨hbelow', -, heq⟩ := hbelow.left hdeep
      have hg' := forecast hbal hr.right.left hbelow'
      obtain ⟨hinner, hlow, hstrict⟩ := hg.grownLeft hgrows hdeep
      have hdepth' := depth_eq (ne_nil_of_turn (t := r.right) (by rw [hdeep]; rintro ⟨⟩))
      have hside' := (hgrows.left hdeep).2
      rw [heq] at hinner ⊢
      rw [if_pos rfl, if_pos rfl]
      simp only [Halves.height] at hheight hinner ⊢
      cases hlast : turnOf key isSet r.right.left with
      | left =>
        obtain ⟨-, -, hstrict'⟩ := hg'.grownLeft (hgrows.left hdeep).1 hlast
        exact iff_of_false (by omega) (by rintro ⟨⟩)
      | right =>
        obtain ⟨-, houter', hstrict'⟩ := hg'.grownRight (hgrows.left hdeep).1 hlast
        have hpos := depth_nonneg r.right.left.left
        exact iff_of_true (by omega) rfl
      | stop =>
        obtain ⟨hnil, hzeros⟩ := (hg'.grown (hgrows.left hdeep).1).2.2 hlast
        rw [hzeros] at hinner ⊢
        simp only at hinner ⊢
        exact iff_of_false (by omega) (by rintro ⟨⟩)
    | right =>
      obtain ⟨-, houter, hstrict⟩ := hg.grownRight hgrows hdeep
      have hpos := depth_nonneg r.right.left
      rw [if_neg (by rintro ⟨⟩), if_neg (by rintro ⟨⟩), houter]
      rw [Halves.height] at hheight hhigh
      simp only
      omega
    | stop => exact (hlift.1 hdeep).elim
  · have hposr := depth_nonneg r.right
    rw [hforms, afterRight_plain hlift] at hheight hside ⊢
    rw [Halves.height] at hheight
    simp only at hheight hside ⊢
    by_cases hzero : r.left.depth = 0
    · rw [if_pos hzero]
      have hng : ¬ r.right.Grows bal key isSet := fun hgrows => by
        have hgrown := hg.grows hgrows
        omega
      refine iff_of_true ?_ fun hgrows => (hng hgrows).elim
      by_contra hlow
      exact hng (by
        rw [depth_eq_zero_iff.mp (by omega : r.right.depth = 0)]
        trivial)
    · rw [if_neg hzero]
      omega

/-- A grown right side is lifted. -/
theorem higher_afterRight_iff (hbal : 1 ≤ bal) (hr : Good bal r)
    (hall : EnteredHigher bal key isSet r) (hgrows : r.Grows bal key isSet)
    (hlow : l.depth < r.depth)
    (hlift : LiftsRight bal (turnOf key isSet r) l.depth (halves bal key isSet r).1) :
    (afterRight bal (turnOf key isSet r) l.depth (halves bal key isSet r).1
        (halves bal key isSet r).2).left ≤
      (afterRight bal (turnOf key isSet r) l.depth (halves bal key isSet r).1
        (halves bal key isSet r).2).right ↔
      (turnOf key isSet r = .left → turnOf key isSet r.left = .left →
        r.left.left.depth < r.right.depth) := by
  have hf := forecast hbal hr hall
  have hheight := hf.grows hgrows
  have hnonneg := depth_nonneg l
  unfold afterRight
  rw [if_pos hlift]
  cases hnext : turnOf key isSet r with
  | left =>
    obtain ⟨hinner, houter, hstrict⟩ := hf.grownLeft hgrows hnext
    obtain ⟨hbelow, -, heq⟩ := hall.left hnext
    obtain ⟨hrl, -⟩ := hgrows.left hnext
    have hg := forecast hbal hr.left hbelow
    obtain ⟨hgl, -, hstop⟩ := hg.grown hrl
    rw [heq] at hinner ⊢
    rw [if_pos rfl, houter]
    rw [Halves.height] at hheight hinner
    simp only
    cases hdeep : turnOf key isSet r.left with
    | left =>
      have hleft := hgl hdeep
      obtain ⟨-, -, hdeeper⟩ := hg.grownLeft hrl hdeep
      refine ⟨fun hle _ _ => by omega, fun hle => ?_⟩
      have houter := hle trivial rfl
      omega
    | right =>
      obtain ⟨-, -, hdeeper⟩ := hg.grownRight hrl hdeep
      exact iff_of_true (by omega) (by rintro - ⟨⟩)
    | stop =>
      obtain ⟨-, hforms⟩ := hstop hdeep
      rw [hforms] at hinner ⊢
      simp only at hinner ⊢
      exact iff_of_true (by omega) (by rintro - ⟨⟩)
  | right =>
    obtain ⟨-, -, hstrict⟩ := hf.grownRight hgrows hnext
    rw [Halves.height] at hheight
    rw [if_neg (by rintro ⟨⟩)]
    exact iff_of_true (by simp only; omega) (by rintro ⟨⟩)
  | stop => exact (hlift.1 hnext).elim

/-- A right side that is lifted without having grown. -/
theorem higher_needless_iff (hbal : 1 ≤ bal) (hr : Good bal r)
    (hall : EnteredHigher bal key isSet r) (hempty : l.depth = 0) (hfull : r.depth = bal)
    (hheight : (halves bal key isSet r).1.height = bal)
    (hlift : LiftsRight bal (turnOf key isSet r) l.depth (halves bal key isSet r).1) :
    (afterRight bal (turnOf key isSet r) l.depth (halves bal key isSet r).1
        (halves bal key isSet r).2).left ≤
      (afterRight bal (turnOf key isSet r) l.depth (halves bal key isSet r).1
        (halves bal key isSet r).2).right ↔
      r.NeedlessKeeps bal key isSet := by
  unfold afterRight
  rw [if_pos hlift, hempty]
  cases hnext : turnOf key isSet r with
  | left =>
    rw [if_pos rfl, ← needless_left hbal hr hall hfull hheight hnext]
    exact add_le_add_iff_right 1
  | right =>
    rw [if_neg (by rintro ⟨⟩), ← needless_right hbal hr hall hfull hheight hnext,
      max_eq_right (halves_nonneg r).1]
  | stop => exact (hlift.1 hnext).elim

theorem keeps_right (hbal : 1 ≤ bal) (hr : Good bal r) (hnear : Near bal l r)
    (hturn : turn key isSet k = .right) (hall : EnteredHigher bal key isSet r) :
    (halves bal key isSet (node l x k h r)).1.left ≤
        (halves bal key isSet (node l x k h r)).1.right ↔
      (r.Grows bal key isSet → l.depth ≤ r.depth + 1 ∧
        ((if l.depth = 0 then bal ≤ r.depth + 1 else r.depth = l.depth + bal) →
          turnOf key isSet r = .left → turnOf key isSet r.left = .left →
          r.left.left.depth < r.right.depth)) ∧
      (¬ r.Grows bal key isSet → l.depth ≤ r.depth) ∧
      (r.Sinks bal key isSet → l.depth < r.depth) ∧
      (l.depth = 0 → r.depth = bal → ¬ r.Grows bal key isSet → ¬ r.Sinks bal key isSet →
        r.NeedlessKeeps bal key isSet) := by
  have hf := forecast hbal hr hall
  have hnonneg := depth_nonneg l
  have hfar := hnear.2
  rw [halves_right hturn]
  by_cases hgrows : r.Grows bal key isSet
  · have hheight := hf.grows hgrows
    have hns : ¬ r.Sinks bal key isSet := fun hs => by
      have hlow := hf.sinks hs
      omega
    simp only [hgrows, hns, forall_const, not_true_eq_false, false_implies, implies_true, and_true]
    by_cases hlift : LiftsRight bal (turnOf key isSet r) l.depth (halves bal key isSet r).1
    · have hhigh := hlift.2
      have hposr : r.depth ≠ 0 := fun hzero => hlift.1 (by
        rw [depth_eq_zero_iff.mp hzero, turnOf])
      have hfull : if l.depth = 0 then bal ≤ r.depth + 1 else r.depth = l.depth + bal := by
        split_ifs at hhigh ⊢ <;> omega
      have hlow : l.depth < r.depth := by split_ifs at hhigh <;> omega
      rw [higher_afterRight_iff hbal hr hall hgrows hlow hlift, imp_iff_right hfull]
      exact (and_iff_right (by omega)).symm
    · rw [afterRight_plain hlift]
      simp only [hheight]
      refine ⟨fun hle => ⟨hle, fun hfull hnext => ?_⟩, fun hle => hle.1⟩
      refine (hlift ⟨by rw [hnext]; rintro ⟨⟩, ?_⟩).elim
      split_ifs at hfull ⊢ <;> omega
  · have hle : (halves bal key isSet r).1.height ≤ r.depth :=
      not_lt.mp (mt hf.grows_of_lt hgrows)
    by_cases hlift : LiftsRight bal (turnOf key isSet r) l.depth (halves bal key isSet r).1
    · have hhigh := hlift.2
      obtain ⟨hempty, hfull⟩ : l.depth = 0 ∧ r.depth = bal := by
        split_ifs at hhigh <;> omega
      rw [if_pos hempty] at hhigh
      have hns : ¬ r.Sinks bal key isSet := fun hs => by
        have hlow := hf.sinks hs
        omega
      have hheight := (hf.same hgrows hns).trans hfull
      rw [higher_needless_iff hbal hr hall hempty hfull hheight hlift]
      exact ⟨fun h => ⟨fun hg => (hgrows hg).elim, fun _ => by omega, fun hs => (hns hs).elim,
        fun _ _ _ _ => h⟩, fun h => h.2.2.2 hempty hfull hgrows hns⟩
    · have hneedless (hempty : l.depth = 0) (hfull : r.depth = bal)
          (hns : ¬ r.Sinks bal key isSet) : r.NeedlessKeeps bal key isSet := by
        have hheight := hf.same hgrows hns
        have hnext : turnOf key isSet r = .stop := by
          by_contra hnext
          exact hlift ⟨hnext, by rw [if_pos hempty]; omega⟩
        rw [NeedlessKeeps, hnext]
        trivial
      rw [afterRight_plain hlift]
      by_cases hsinks : r.Sinks bal key isSet
      · have hheight := hf.sinks hsinks
        refine ⟨fun hle => ⟨fun hg => (hgrows hg).elim, fun _ => ?_, fun _ => ?_,
          fun _ _ _ hns => (hns hsinks).elim⟩, fun h => ?_⟩
        · simp only at hle
          omega
        · simp only at hle
          omega
        · have hlt := h.2.2.1 hsinks
          simp only
          omega
      · have hheight := hf.same hgrows hsinks
        simp only [hheight]
        exact ⟨fun hle => ⟨fun hg => (hgrows hg).elim, fun _ => hle, fun hs => (hsinks hs).elim,
          fun hempty hfull _ hns => hneedless hempty hfull hns⟩, fun h => h.2.1 hgrows⟩

/-- **The condition in the heights before.** -/
theorem enteredHigher_iff (hbal : 1 ≤ bal) (ht : Good bal t) :
    EnteredHigher bal key isSet t ↔ t.InsertKeeps bal key isSet := by
  induction t with
  | nil => exact Iff.rfl
  | node l x k h r ihl ihr =>
    obtain ⟨-, hnear, hl, hr⟩ := good_node_iff.mp ht
    cases hturn : turn key isSet k with
    | left =>
      rw [enteredHigher_left hturn, ihl hl, and_congr_right fun hkeeps =>
        keeps_left hbal hl hnear hturn ((ihl hl).mpr hkeeps)]
      simp only [InsertKeeps, hturn]
    | right =>
      rw [enteredHigher_right hturn, ihr hr, and_congr_right fun hkeeps =>
        keeps_right hbal hr hnear hturn ((ihr hr).mpr hkeeps)]
      simp only [InsertKeeps, hturn]
    | stop => simp only [EnteredHigher, InsertKeeps, hturn]

end AvlTree

end MpegtsReader
