import MpegtsReader.AvlBag
import MpegtsReader.AvlInsertKeeps

/-!
# Insertions that keep the heights

An insertion in a good tree leaves a good one exactly if the side that is entered is the higher one
at every node of the way (`EnteredHigher`, in the heights before `InsertKeeps`). `Inserted` is what
the step at a node has to know of the side that was entered, `Spoilt` what it knows when a height
below is wrong already: that one is too low, so no rotation follows, and it stays.
-/

namespace MpegtsReader

namespace AvlTree

open HeightBalance

variable {ν κ : Type} {t t' l r l' r' : AvlTree ν κ} {x : ν} {k : κ} {bal h s : ℤ} {c g : Halves}
  {next : Turn}

/-! ## One step of the way back -/

/-- The heights of the subtrees of a node. -/
structure Sides (t : AvlTree ν κ) (c : Halves) : Prop where
  ne_nil : t ≠ nil
  left : t.left.depth = c.left
  right : t.right.depth = c.right

theorem Sides.exists_node (ht : Sides t c) :
    ∃ l x k h r, t = node l x k h r ∧ l.depth = c.left ∧ r.depth = c.right := by
  obtain ⟨hne, hleft, hright⟩ := ht
  cases t with
  | nil => exact (hne rfl).elim
  | node l x k h r => exact ⟨l, x, k, h, r, rfl, hleft, hright⟩

theorem Sides.depth (ht : Sides t c) : t.depth = c.height := by
  obtain ⟨l, x, k, h, r, rfl, hl, hr⟩ := ht.exists_node
  rw [depth_node, hl, hr, Halves.height]

/-- An insertion that has left the heights right, with `c` below the first node and `g` below the
child of it that was entered. A tree that is higher than before is so on the side that was
entered. -/
structure Inserted (bal : ℤ) (next : Turn) (c g : Halves) (t t' : AvlTree ν κ) : Prop where
  good : Good bal t'
  sides : Sides t' c
  le : t'.depth ≤ t.depth + 1
  stop : next = .stop → t'.depth ≤ max 1 t.depth
  grownLeft : next = .left → t'.depth = t.depth + 1 → c.right < c.left
  grownRight : next = .right → t'.depth = t.depth + 1 → c.left < c.right
  belowLeft : next = .left → t'.depth = t.depth + 1 ∨ t.depth ≤ bal → Sides t'.left g
  belowRight : next = .right → t'.depth = t.depth + 1 → Sides t'.right g

/-- An insertion that has left a wrong height. The height at the top is less than before. -/
structure Spoilt (bal : ℤ) (t t' : AvlTree ν κ) : Prop where
  not_good : ¬ Good bal t'
  low : ∃ s, t'.height? = some s ∧ s < t.depth

/-- What an insertion makes of the heights, as far as `higher` decides. -/
def Outcome (bal : ℤ) (next : Turn) (c g : Halves) (higher : Prop) (t t' : AvlTree ν κ) : Prop :=
  (higher → Inserted bal next c g t t') ∧ (¬ higher → Spoilt bal t t')

theorem Outcome.congr {p q : Prop} (hpq : p ↔ q) (ht : Outcome bal next c g p t t') :
    Outcome bal next c g q t t' :=
  ⟨fun hq => ht.1 (hpq.mpr hq), fun hq => ht.2 (mt hpq.mp hq)⟩

section Left

variable (hbal : 1 ≤ bal) (hr : Good bal r) (hnear : Near bal l r)

include hbal hr hnear

theorem Inserted.plainLeft (hins : Inserted bal next c g l l')
    (hlift : ¬ LiftsLeft bal next c r.depth) :
    Outcome bal .left ⟨c.height, r.depth⟩ c (r.depth ≤ c.height) (node l x k h r)
      (node l' x k (l'.depth + 1) r) := by
  have hle := hins.le
  have hdepth := hins.sides.depth
  have hlow : l'.depth ≤ r.depth + bal := by
    by_cases hstop : next = .stop
    · have hmax := hins.stop hstop
      have hnonneg := depth_nonneg r
      have hfar := hnear.1
      omega
    · exact le_of_not_gt fun hlt => hlift ⟨hstop, hdepth ▸ hlt⟩
  rw [← hdepth]
  constructor
  · intro hhigher
    exact {
      good := good_fromLeft_iff.mpr ⟨hhigher, hlow, hins.good, hr⟩
      sides := ⟨node_ne_nil, rfl, rfl⟩
      le := by simp only [depth_node]; omega
      stop := by rintro ⟨⟩
      grownLeft := fun _ hgrown => by simp only [depth_node] at hgrown ⊢; omega
      grownRight := by rintro ⟨⟩
      belowLeft := fun _ _ => hins.sides
      belowRight := by rintro ⟨⟩ }
  · intro hhigher
    exact ⟨fun hgood => hhigher (good_fromLeft_iff.mp hgood).1, _, rfl, by
      rw [depth_node]
      omega⟩

/-- A single rotation leaves the heights right. -/
theorem Inserted.singleLeft (hins : Inserted bal .left c g l l')
    (hlift : r.depth + bal < c.height) :
    max c.right r.depth + 1 ≤ c.left ∧
      Inserted bal .left ⟨c.left, max c.right r.depth + 1⟩ c (node l x k h r)
        (rotateRight (node l' x k s r)) := by
  have hle := hins.le
  have hdepth := hins.sides.depth
  have hstrict := hins.grownLeft rfl
  have hnonneg := depth_nonneg r
  obtain ⟨hfar, -⟩ := hnear
  obtain ⟨ll, y, ky, hy, lr, rfl, hll, hlr⟩ := hins.sides.exists_node
  obtain ⟨-, ⟨hnl, hnr⟩, hgll, hglr⟩ := good_node_iff.mp hins.good
  simp only [Halves.height, depth_node] at hdepth hle hlift hstrict ⊢
  have hsub : Good bal (node lr x k (max lr.depth r.depth + 1) r) :=
    good_node_iff.mpr ⟨rfl, ⟨by omega, by omega⟩, hglr, hr⟩
  rw [rotateRight_eq hgll.exact hglr.exact hr.exact]
  refine ⟨by omega, ?_⟩
  exact {
    good := good_fromLeft_iff.mpr ⟨by rw [depth_node]; omega, by rw [depth_node]; omega, hgll, hsub⟩
    sides := ⟨node_ne_nil, hll, by rw [right, depth_node, hlr]⟩
    le := by simp only [depth_node]; omega
    stop := by rintro ⟨⟩
    grownLeft := fun _ hgrown => by simp only [depth_node] at hgrown ⊢; omega
    grownRight := by rintro ⟨⟩
    belowLeft := fun _ hgrown => by simp only [depth_node] at hgrown; omega
    belowRight := by rintro ⟨⟩ }

/-- A double rotation leaves the heights right unless the raised node is the higher one on its
right. -/
theorem Inserted.doubleLeft (hins : Inserted bal .right c g l l')
    (hlift : r.depth + bal < c.height) :
    Outcome bal .left ⟨max c.left g.left + 1, max g.right r.depth + 1⟩ c
      (max g.right r.depth + 1 ≤ max c.left g.left + 1) (node l x k h r)
      (rotateRight (node (rotateLeft l') x k s r)) := by
  have hle := hins.le
  have hdepth := hins.sides.depth
  have hstrict := hins.grownRight rfl
  have hnonneg := depth_nonneg r
  obtain ⟨hfar, -⟩ := hnear
  have hbelow := hins.belowRight rfl (by omega)
  obtain ⟨ll, y, ky, hy, lr, rfl, hll, hlr⟩ := hins.sides.exists_node
  obtain ⟨gl, z, kz, hz, gr, rfl, hgl, hgr⟩ := hbelow.exists_node
  obtain ⟨-, ⟨hnl, hnr⟩, hgll, hglr⟩ := good_node_iff.mp hins.good
  obtain ⟨-, ⟨hnl', hnr'⟩, hggl, hggr⟩ := good_node_iff.mp hglr
  simp only [Halves.height, depth_node] at hdepth hle hlift hstrict hlr hnl hnr
  rw [doubleRight_eq hgll.exact hggl.exact hggr.exact hr.exact]
  have hleft : Good bal (node ll y ky (max ll.depth gl.depth + 1) gl) :=
    good_node_iff.mpr ⟨rfl, ⟨by omega, by omega⟩, hgll, hggl⟩
  have hright : Good bal (node gr x k (max gr.depth r.depth + 1) r) :=
    good_node_iff.mpr ⟨rfl, ⟨by omega, by omega⟩, hggr, hr⟩
  rw [show max ll.depth gl.depth + 2 =
    (node ll y ky (max ll.depth gl.depth + 1) gl).depth + 1 by rw [depth_node]; omega]
  constructor
  · intro hhigher
    exact {
      good := good_fromLeft_iff.mpr
        ⟨by simp only [depth_node]; omega, by simp only [depth_node]; omega, hleft, hright⟩
      sides := ⟨node_ne_nil, by rw [left, depth_node, hll, hgl], by rw [right, depth_node, hgr]⟩
      le := by simp only [depth_node]; omega
      stop := by rintro ⟨⟩
      grownLeft := fun _ hgrown => by simp only [depth_node] at hgrown ⊢; omega
      grownRight := by rintro ⟨⟩
      belowLeft := fun _ hgrown => by simp only [depth_node] at hgrown; omega
      belowRight := by rintro ⟨⟩ }
  · intro hhigher
    refine ⟨fun hgood => hhigher ?_, _, rfl, by simp only [depth_node]; omega⟩
    have hside := (good_fromLeft_iff.mp hgood).1
    simp only [depth_node] at hside
    omega

end Left

section Right

variable (hbal : 1 ≤ bal) (hl : Good bal l) (hnear : Near bal l r)

include hbal hl hnear

theorem Inserted.plainRight (hins : Inserted bal next c g r r')
    (hlift : ¬ LiftsRight bal next l.depth c) :
    Outcome bal .right ⟨l.depth, c.height⟩ c (l.depth ≤ c.height) (node l x k h r)
      (node l x k (r'.depth + 1) r') := by
  have hle := hins.le
  have hdepth := hins.sides.depth
  have hnonneg := depth_nonneg l
  have hlow : r'.depth ≤ l.depth + bal := by
    by_cases hstop : next = .stop
    · have hmax := hins.stop hstop
      have hfar := hnear.2
      omega
    · have hout := not_and.mp hlift hstop
      split_ifs at hout <;> omega
  rw [← hdepth]
  constructor
  · intro hhigher
    exact {
      good := good_fromRight_iff.mpr ⟨hhigher, hlow, hl, hins.good⟩
      sides := ⟨node_ne_nil, rfl, rfl⟩
      le := by simp only [depth_node]; omega
      stop := by rintro ⟨⟩
      grownLeft := by rintro ⟨⟩
      grownRight := fun _ hgrown => by simp only [depth_node] at hgrown ⊢; omega
      belowLeft := by rintro ⟨⟩
      belowRight := fun _ _ => hins.sides }
  · intro hhigher
    exact ⟨fun hgood => hhigher (good_fromRight_iff.mp hgood).1, _, rfl, by
      rw [depth_node]
      omega⟩

/-- Without a node on the left a rotation may follow an insertion that made nothing higher. -/
theorem Inserted.singleRight (hins : Inserted bal .right c g r r')
    (hlift : LiftsRight bal .right l.depth c) :
    Outcome bal .right ⟨max l.depth c.left + 1, c.right⟩ c (max l.depth c.left + 1 ≤ c.right)
      (node l x k h r) (rotateLeft (node l x k s r')) := by
  have hle := hins.le
  have hdepth := hins.sides.depth
  have hstrict := hins.grownRight rfl
  have hnonneg := depth_nonneg l
  have hlift := hlift.2
  obtain ⟨-, hfar⟩ := hnear
  obtain ⟨rl, y, ky, hy, rr, rfl, hrl, hrr⟩ := hins.sides.exists_node
  have hposl := depth_nonneg rl
  obtain ⟨-, ⟨hnl, hnr⟩, hgrl, hgrr⟩ := good_node_iff.mp hins.good
  simp only [Halves.height, depth_node] at hdepth hle hlift hstrict
  rw [rotateLeft_eq hgrr.exact hgrl.exact hl.exact]
  have hsub : Good bal (node l x k (max l.depth rl.depth + 1) rl) :=
    good_node_iff.mpr ⟨rfl, by split_ifs at hlift <;> exact ⟨by omega, by omega⟩, hl, hgrl⟩
  constructor
  · intro hhigher
    exact {
      good := good_fromRight_iff.mpr
        ⟨by rw [depth_node]; omega, by rw [depth_node]; split_ifs at hlift <;> omega, hsub, hgrr⟩
      sides := ⟨node_ne_nil, by rw [left, depth_node, hrl], hrr⟩
      le := by simp only [depth_node]; split_ifs at hlift <;> omega
      stop := by rintro ⟨⟩
      grownLeft := by rintro ⟨⟩
      grownRight := fun _ hgrown => by simp only [depth_node] at hgrown ⊢; omega
      belowLeft := by rintro ⟨⟩
      belowRight := fun _ hgrown => by
        simp only [depth_node] at hgrown
        split_ifs at hlift <;> omega }
  · intro hhigher
    refine ⟨fun hgood => hhigher ?_, _, rfl, ?_⟩
    · have hside := (good_fromRight_iff.mp hgood).1
      simp only [depth_node] at hside
      omega
    · simp only [depth_node]
      split_ifs at hlift <;> omega

theorem Inserted.doubleRight (hins : Inserted bal .left c g r r')
    (hlift : LiftsRight bal .left l.depth c) :
    Outcome bal .right ⟨max l.depth g.left + 1, max g.right c.right + 1⟩ c
      (max l.depth g.left + 1 ≤ max g.right c.right + 1) (node l x k h r)
      (rotateLeft (node l x k s (rotateRight r'))) := by
  have hle := hins.le
  have hdepth := hins.sides.depth
  have hstrict := hins.grownLeft rfl
  have hnonneg := depth_nonneg l
  have hlift := hlift.2
  obtain ⟨-, hfar⟩ := hnear
  have hbelow := hins.belowLeft rfl (by split_ifs at hlift <;> omega)
  obtain ⟨rl, y, ky, hy, rr, rfl, hrl, hrr⟩ := hins.sides.exists_node
  obtain ⟨gl, z, kz, hz, gr, rfl, hgl, hgr⟩ := hbelow.exists_node
  have hposl := depth_nonneg gl
  have hposr := depth_nonneg gr
  obtain ⟨-, ⟨hnl, hnr⟩, hgrl, hgrr⟩ := good_node_iff.mp hins.good
  obtain ⟨-, ⟨hnl', hnr'⟩, hggl, hggr⟩ := good_node_iff.mp hgrl
  simp only [Halves.height, depth_node] at hdepth hle hlift hstrict hrl hnl hnr
  rw [doubleLeft_eq hl.exact hggl.exact hggr.exact hgrr.exact]
  have hleft : Good bal (node l x k (max l.depth gl.depth + 1) gl) :=
    good_node_iff.mpr ⟨rfl, by split_ifs at hlift <;> exact ⟨by omega, by omega⟩, hl, hggl⟩
  have hright : Good bal (node gr y ky (max gr.depth rr.depth + 1) rr) :=
    good_node_iff.mpr ⟨rfl, by split_ifs at hlift <;> exact ⟨by omega, by omega⟩, hggr, hgrr⟩
  rw [show max gr.depth rr.depth + 2 =
    (node gr y ky (max gr.depth rr.depth + 1) rr).depth + 1 by rw [depth_node]; omega]
  constructor
  · intro hhigher
    exact {
      good := good_fromRight_iff.mpr ⟨by simp only [depth_node]; omega, by
        simp only [depth_node]
        split_ifs at hlift <;> omega, hleft, hright⟩
      sides := ⟨node_ne_nil, by rw [left, depth_node, hgl], by rw [right, depth_node, hgr, hrr]⟩
      le := by simp only [depth_node]; split_ifs at hlift <;> omega
      stop := by rintro ⟨⟩
      grownLeft := by rintro ⟨⟩
      grownRight := fun _ hgrown => by
        simp only [depth_node] at hgrown ⊢
        split_ifs at hlift <;> omega
      belowLeft := by rintro ⟨⟩
      belowRight := fun _ hgrown => by
        simp only [depth_node] at hgrown
        split_ifs at hlift <;> omega }
  · intro hhigher
    refine ⟨fun hgood => hhigher ?_, _, rfl, ?_⟩
    · have hside := (good_fromRight_iff.mp hgood).1
      simp only [depth_node] at hside
      omega
    · simp only [depth_node]
      split_ifs at hlift <;> omega

end Right

theorem Inserted.height? (hins : Inserted bal next c g t t') : t'.height? = some t'.depth :=
  hins.good.exact.height? hins.sides.ne_nil

theorem Inserted.back_left (hbal : 1 ≤ bal) (hr : Good bal r) (hnear : Near bal l r)
    (hins : Inserted bal next c g l l') :
    Outcome bal .left (afterLeft bal next c g r.depth) c
      ((afterLeft bal next c g r.depth).right ≤ (afterLeft bal next c g r.depth).left)
      (node l x k h r)
      (if next ≠ .stop ∧ r.depth + bal < l'.depth then liftLeft next l' x k (l'.depth + 1) r
        else node l' x k (l'.depth + 1) r) := by
  have hlifts : (next ≠ .stop ∧ r.depth + bal < l'.depth) ↔ LiftsLeft bal next c r.depth := by
    rw [hins.sides.depth, LiftsLeft]
  unfold afterLeft liftLeft
  by_cases hlift : LiftsLeft bal next c r.depth
  · rw [if_pos hlift, if_pos (hlifts.mpr hlift)]
    cases next with
    | left =>
      rw [if_neg nofun, if_neg nofun]
      obtain ⟨hhigher, hsingle⟩ := hins.singleLeft hbal hr hnear hlift.2
      exact ⟨fun _ => hsingle, fun hlow => (hlow hhigher).elim⟩
    | right =>
      rw [if_pos rfl, if_pos rfl]
      exact hins.doubleLeft hbal hr hnear hlift.2
    | stop => exact (hlift.1 rfl).elim
  · rw [if_neg hlift, if_neg (mt hlifts.mp hlift)]
    exact hins.plainLeft hbal hr hnear hlift

theorem Inserted.back_right (hbal : 1 ≤ bal) (hl : Good bal l) (hnear : Near bal l r)
    (hins : Inserted bal next c g r r') :
    Outcome bal .right (afterRight bal next l.depth c g) c
      ((afterRight bal next l.depth c g).left ≤ (afterRight bal next l.depth c g).right)
      (node l x k h r)
      (if next ≠ .stop ∧
          (if l.depth = 0 then bal < r'.depth + 1 else l.depth + bal < r'.depth) then
        liftRight next l x k (r'.depth + 1) r' else node l x k (r'.depth + 1) r') := by
  have hlifts : (next ≠ .stop ∧
      (if l.depth = 0 then bal < r'.depth + 1 else l.depth + bal < r'.depth)) ↔
      LiftsRight bal next l.depth c := by
    rw [hins.sides.depth, LiftsRight]
  unfold afterRight liftRight
  by_cases hlift : LiftsRight bal next l.depth c
  · rw [if_pos hlift, if_pos (hlifts.mpr hlift)]
    cases next with
    | left =>
      rw [if_pos rfl, if_pos rfl]
      exact hins.doubleRight hbal hl hnear hlift
    | right =>
      rw [if_neg nofun, if_neg nofun]
      exact hins.singleRight hbal hl hnear hlift
    | stop => exact (hlift.1 rfl).elim
  · rw [if_neg hlift, if_neg (mt hlifts.mp hlift)]
    exact hins.plainRight hbal hl hnear hlift

/-- No rotation follows where the height is too low already. -/
theorem Spoilt.back_left (hnear : Near bal l r) (hins : Spoilt bal l l')
    (hl : l'.height? = some s) :
    Spoilt bal (node l x k h r)
      (if next ≠ .stop ∧ r.depth + bal < s then liftLeft next l' x k (s + 1) r
        else node l' x k (s + 1) r) := by
  obtain ⟨hbad, low, hlow, hlt⟩ := hins
  obtain rfl : low = s := Option.some.inj (hlow.symm.trans hl)
  have hfar := hnear.1
  rw [if_neg (by omega)]
  exact ⟨fun hgood => hbad hgood.left, _, rfl, by rw [depth_node]; omega⟩

theorem Spoilt.back_right (hnear : Near bal l r) (hins : Spoilt bal r r')
    (hr : r'.height? = some s) :
    Spoilt bal (node l x k h r)
      (if next ≠ .stop ∧ (if l.depth = 0 then bal < s + 1 else l.depth + bal < s) then
        liftRight next l x k (s + 1) r' else node l x k (s + 1) r') := by
  obtain ⟨hbad, low, hlow, hlt⟩ := hins
  obtain rfl : low = s := Option.some.inj (hlow.symm.trans hr)
  have hfar := hnear.2
  have hstays : ¬ (if l.depth = 0 then bal < low + 1 else l.depth + bal < low) := by
    split_ifs <;> omega
  rw [if_neg fun hlift => hstays hlift.2]
  exact ⟨fun hgood => hbad hgood.right, _, rfl, by rw [depth_node]; omega⟩

/-! ## The insertion -/

section Insertion

variable [LinearOrder κ]

/-- What an insertion makes of a good tree. -/
theorem exists_insertRc_outcome (hbal : 1 ≤ bal) (y : ν) (key : κ) (isSet : Bool)
    (ht : Good bal t) :
    ∃ t' dir' replaced, insertRc bal (cdslAvltreeNodeInit y key) 0 isSet t =
        some (t', dir', replaced) ∧
      dir' &&& patternMask = (turnOf key isSet t).code <<< 2 ∧
      Outcome bal (turnOf key isSet t) (halves bal key isSet t).1 (halves bal key isSet t).2
        (EnteredHigher bal key isSet t) t t' := by
  induction t with
  | nil =>
    refine ⟨_, _, _, rfl, by rw [turnOf]; rfl, fun _ => ?_, fun h => (h trivial).elim⟩
    exact {
      good := Good.leaf (by omega) y key
      sides := ⟨node_ne_nil, rfl, rfl⟩
      le := by simp [cdslAvltreeNodeInit, setHeight]
      stop := fun _ => by simp [cdslAvltreeNodeInit, setHeight]
      grownLeft := by rintro ⟨⟩
      grownRight := by rintro ⟨⟩
      belowLeft := by rintro ⟨⟩
      belowRight := by rintro ⟨⟩ }
  | node l x k h r ihl ihr =>
    obtain ⟨hh, hnear, hl, hr⟩ := good_node_iff.mp ht
    cases hturn : turn key isSet k with
    | left =>
      obtain ⟨l', dirl, replaced, hins, hdir, hhigher, hspoilt⟩ := ihl hl
      rw [insertRc_left hturn, hins]
      simp only [turnOf, halves, EnteredHigher, hturn]
      by_cases hbelow : EnteredHigher bal key isSet l
      · have hout := hhigher hbelow
        obtain ⟨dir', hdir', hback⟩ := backFromLeft_eq bal x k replaced
          hout.height? hr.exact hdir
        exact ⟨_, dir', _, hback, hdir', (hout.back_left hbal hr hnear).congr
          (and_iff_right hbelow).symm⟩
      · have hout := hspoilt hbelow
        obtain ⟨s, hs, -⟩ := hout.low
        obtain ⟨dir', hdir', hback⟩ := backFromLeft_eq bal x k replaced
          hs hr.exact hdir
        exact ⟨_, dir', _, hback, hdir', fun hall => (hbelow hall.1).elim,
          fun _ => hout.back_left hnear hs⟩
    | right =>
      obtain ⟨r', dirr, replaced, hins, hdir, hhigher, hspoilt⟩ := ihr hr
      rw [insertRc_right hturn, hins]
      simp only [turnOf, halves, EnteredHigher, hturn]
      by_cases hbelow : EnteredHigher bal key isSet r
      · have hout := hhigher hbelow
        obtain ⟨dir', hdir', hback⟩ := backFromRight_eq bal x k replaced
          hl.exact hout.height? hdir
        exact ⟨_, dir', _, hback, hdir', (hout.back_right hbal hl hnear).congr
          (and_iff_right hbelow).symm⟩
      · have hout := hspoilt hbelow
        obtain ⟨s, hs, -⟩ := hout.low
        obtain ⟨dir', hdir', hback⟩ := backFromRight_eq bal x k replaced
          hl.exact hs hdir
        exact ⟨_, dir', _, hback, hdir', fun hall => (hbelow hall.1).elim,
          fun _ => hout.back_right hnear hs⟩
    | stop =>
      rw [insertRc_stop hturn]
      simp only [turnOf, halves, EnteredHigher, hturn]
      refine ⟨_, _, _, rfl, rfl, fun _ => ?_, fun h => (h trivial).elim⟩
      exact {
        good := good_node_iff.mpr ⟨hh, hnear, hl, hr⟩
        sides := ⟨node_ne_nil, rfl, rfl⟩
        le := by simp only [depth_node]; omega
        stop := fun _ => by simp only [depth_node]; omega
        grownLeft := by rintro ⟨⟩
        grownRight := by rintro ⟨⟩
        belowLeft := by rintro ⟨⟩
        belowRight := by rintro ⟨⟩ }

end Insertion

theorem numNodes_shape (t : AvlTree ν κ) : t.shape.numNodes = t.nodes.length := by
  induction t with
  | nil => rfl
  | node l x k h r ihl ihr =>
    rw [shape, BinaryTree.numNodes, ihl, ihr, nodes_node, List.length_append, List.length_cons,
      add_assoc]

/-- What the heights say about the number of nodes. -/
theorem Good.heightBound (hbal : 1 ≤ bal) (ht : Good bal t) :
    HeightBound bal.toNat t.shape.height t.nodes.length := by
  obtain ⟨b, rfl⟩ := Int.eq_ofNat_of_zero_le (by omega : 0 ≤ bal)
  rw [← numNodes_shape]
  exact ht.balanced.within.heightBound

end AvlTree

/-! ## Runs of insertions -/

section Runs

open AvlTree HeightBalance

variable {ν κ : Type} [LinearOrder κ] {root : AvlRoot ν κ} {bal : ℤ}

/-- An insertion that keeps the heights. -/
def KeepsHeights (root : AvlRoot ν κ) (op : OrderedBag.Op (ν × κ) κ) : Prop :=
  ∃ item isSet, op = .insert item isSet ∧
    root.entry.InsertKeeps root.balanceFactor item.2 isSet

theorem exists_cdslAvltreeInsert_good {t : AvlTree ν κ} (hbal : 1 ≤ bal) (ht : Good bal t) (y : ν)
    (key : κ) (isSet : Bool) :
    ∃ t' replaced, cdslAvltreeInsert ⟨t, bal⟩ (cdslAvltreeNodeInit y key) isSet =
        some (⟨t', bal⟩, replaced) ∧
      (Good bal t' ↔ t.InsertKeeps bal key isSet) := by
  obtain ⟨t', dir, replaced, hins, -, hhigher, hspoilt⟩ :=
    exists_insertRc_outcome hbal y key isSet ht
  rw [← enteredHigher_iff hbal ht]
  refine ⟨t', replaced, ?_, fun hgood => ?_, fun hall => (hhigher hall).good⟩
  · rw [cdslAvltreeNodeInit] at hins
    simp [cdslAvltreeInsert, cdslAvltreeNodeInit, hins]
  · by_contra hlow
    exact (hspoilt hlow).not_good hgood

theorem good_of_reachable (hbal : 1 ≤ bal)
    (hreach : Transition.Reachable goAvl KeepsHeights ⟨nil, bal⟩ root) :
    root.balanceFactor = bal ∧ Good bal root.entry := by
  refine hreach.invariant (P := fun root => root.balanceFactor = bal ∧ Good bal root.entry)
    ⟨rfl, good_nil⟩ ?_
  rintro ⟨t, _⟩ op root' ⟨rfl, hgood⟩ ⟨⟨y, key⟩, isSet, rfl, hkeeps⟩ hstep
  obtain ⟨t', replaced, hins, hiff⟩ := exists_cdslAvltreeInsert_good hbal hgood y key isSet
  rw [goAvl, avlStep, hins] at hstep
  obtain rfl := Option.some.inj hstep
  exact ⟨rfl, hiff.mpr hkeeps⟩

/-- An insertion in a good tree leaves a good one if and only if the heights before meet the
condition, and a tree that is built by such insertions alone is good and no higher than its number
of nodes allows. -/
theorem good_insert_iff (hbal : 1 ≤ bal) :
    (∀ t : AvlTree ν κ, Good bal t → ∀ (y : ν) (key : κ) (isSet : Bool), ∃ t' replaced,
      cdslAvltreeInsert ⟨t, bal⟩ (cdslAvltreeNodeInit y key) isSet =
        some (⟨t', bal⟩, replaced) ∧
      (Good bal t' ↔ t.InsertKeeps bal key isSet)) ∧
      ∀ root : AvlRoot ν κ, Transition.Reachable goAvl KeepsHeights ⟨nil, bal⟩ root →
        Good bal root.entry ∧
          HeightBound bal.toNat root.entry.shape.height root.entry.nodes.length := by
  refine ⟨fun t ht y key isSet => exists_cdslAvltreeInsert_good hbal ht y key isSet,
    fun root hreach => ?_⟩
  have hgood := (good_of_reachable hbal hreach).2
  exact ⟨hgood, hgood.heightBound hbal⟩

/-- Three nodes, the last of which makes the first one go down on the left. -/
theorem good_threeInserts :
    ∃ root : AvlRoot ℕ ℕ, root.entry = node (node nil 1 1 1 nil) 2 2 2 (node nil 3 3 1 nil) ∧
      Good 1 root.entry ∧ HeightBound 1 root.entry.shape.height root.entry.nodes.length ∧
      ∃ t' replaced, cdslAvltreeInsert ⟨root.entry, 1⟩ (cdslAvltreeNodeInit 4 4) false =
        some (⟨t', 1⟩, replaced) ∧ Good 1 t' := by
  have hrun := (@good_insert_iff ℕ ℕ _ 1 (le_refl 1)).2 _
    (.next (a := .insert (3, 3) false) (.next (a := .insert (2, 2) false)
      (.next (a := .insert (1, 1) false) .start ⟨_, _, rfl, by decide⟩ rfl)
      ⟨_, _, rfl, by decide⟩ rfl) ⟨_, _, rfl, by decide⟩ rfl)
  obtain ⟨t', replaced, hins, hiff⟩ := (@good_insert_iff ℕ ℕ _ 1 (le_refl 1)).1 _ hrun.1
    4 4 false
  exact ⟨_, rfl, hrun.1, hrun.2, t', replaced, hins, hiff.mpr (by decide)⟩

/-- The insertion of 1 makes the left side no higher, and the right side is the higher one: the
height of the root becomes 3. -/
theorem not_good_lowSide :
    ¬ ∀ bal : ℤ, 1 ≤ bal → ∀ t : AvlTree ℕ ℕ, t.InOrder → Good bal t →
      ∀ (y key : ℕ) (isSet : Bool) (root : AvlRoot ℕ ℕ) (replaced : AvlTree ℕ ℕ),
        cdslAvltreeInsert ⟨t, bal⟩ (cdslAvltreeNodeInit y key) isSet = some (root, replaced) →
          Good bal root.entry := by
  intro h
  have hgood := h 1 (le_refl 1)
    (node (node nil 2 2 2 (node nil 3 3 1 nil)) 4 4 4
      (node (node nil 5 5 1 nil) 6 6 3 (node nil 7 7 2 (node nil 8 8 1 nil))))
    (by unfold InOrder OrderedBag.Ordered; decide) (by decide) 1 1 false _ _ rfl
  revert hgood
  decide

end Runs

end MpegtsReader
