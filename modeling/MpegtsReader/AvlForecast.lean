import MpegtsReader.AvlGrowth

/-!
# The heights before an insertion

What an insertion makes of the heights, from the heights before alone. A tree grows where the side
that is entered grows, is not the lower one, and no rotation follows. Where there is no node on the
left, `insert_rc` rotates although the right side is only `bal` high: such a rotation may make the
tree lower. `InsertKeeps` puts together what has to hold on the way down (`enteredHigher_iff`).
-/

namespace MpegtsReader

namespace AvlTree

variable {ν κ : Type} [LinearOrder κ] {t l r : AvlTree ν κ} {x : ν} {k key : κ} {bal h : ℤ}
  {isSet : Bool}

/-- The insertion makes the tree higher. -/
def Grows (bal : ℤ) (key : κ) (isSet : Bool) : AvlTree ν κ → Prop
  | nil => True
  | node l _ k _ r =>
    match turn key isSet k with
    | .left => l.Grows bal key isSet ∧ r.depth ≤ l.depth ∧ l.depth < r.depth + bal
    | .right => r.Grows bal key isSet ∧ l.depth ≤ r.depth ∧
        if l.depth = 0 then r.depth = 0 ∨ r.depth + 1 < bal else r.depth < l.depth + bal
    | .stop => False

/-- The insertion makes the tree lower, by a rotation that is not needed: there is no node on the
left, and the right side is `bal` high and stays so. -/
def Sinks (bal : ℤ) (key : κ) (isSet : Bool) : AvlTree ν κ → Prop
  | nil => False
  | node l _ k _ r =>
    match turn key isSet k with
    | .left => l.Sinks bal key isSet ∧ r.depth < l.depth
    | .right => r.Sinks bal key isSet ∧ l.depth < r.depth ∨
        l.depth = 0 ∧ r.depth = bal ∧ turnOf key isSet r ≠ .stop ∧ ¬ r.Grows bal key isSet ∧
          ¬ r.Sinks bal key isSet ∧ (turnOf key isSet r = .left → r.right.depth + 1 < bal)
    | .stop => False

/-- A right side `r` of the height `bal` is rotated although it has not grown, and the heights stay
right. -/
def NeedlessKeeps (bal : ℤ) (key : κ) (isSet : Bool) (r : AvlTree ν κ) : Prop :=
  match turnOf key isSet r with
  | .left => turnOf key isSet r.left = .right ∨ bal ≤ r.left.right.depth + 2 ∨
      bal ≤ r.right.depth + 2
  | .right =>
    if r.left.depth = 0 then r.right.Grows bal key isSet →
      if turnOf key isSet r.right = .left then turnOf key isSet r.right.left = .right
      else r.right.left.depth + 2 < bal
    else r.left.depth + 1 < bal
  | .stop => True

/-- The insertion keeps the heights right: at every node on the way the side that is entered ends
up no lower than the other one, a double rotation does not raise a node that is higher on the inner
side, and a rotation that is not needed does no harm. -/
def InsertKeeps (bal : ℤ) (key : κ) (isSet : Bool) : AvlTree ν κ → Prop
  | nil => True
  | node l _ k _ r =>
    match turn key isSet k with
    | .left => l.InsertKeeps bal key isSet ∧
        (l.Grows bal key isSet → r.depth ≤ l.depth + 1 ∧
          (l.depth = r.depth + bal → turnOf key isSet l = .right →
            turnOf key isSet l.right = .right → l.right.right.depth < l.left.depth)) ∧
        (¬ l.Grows bal key isSet → r.depth ≤ l.depth) ∧
        (l.Sinks bal key isSet → r.depth < l.depth)
    | .right => r.InsertKeeps bal key isSet ∧
        (r.Grows bal key isSet → l.depth ≤ r.depth + 1 ∧
          ((if l.depth = 0 then bal ≤ r.depth + 1 else r.depth = l.depth + bal) →
            turnOf key isSet r = .left → turnOf key isSet r.left = .left →
            r.left.left.depth < r.right.depth)) ∧
        (¬ r.Grows bal key isSet → l.depth ≤ r.depth) ∧
        (r.Sinks bal key isSet → l.depth < r.depth) ∧
        (l.depth = 0 → r.depth = bal → ¬ r.Grows bal key isSet → ¬ r.Sinks bal key isSet →
          r.NeedlessKeeps bal key isSet)
    | .stop => True

instance decidableGrows (bal : ℤ) (key : κ) (isSet : Bool) :
    (t : AvlTree ν κ) → Decidable (t.Grows bal key isSet)
  | nil => isTrue trivial
  | node l x k h r => by
    have := decidableGrows bal key isSet l
    have := decidableGrows bal key isSet r
    unfold Grows
    exact match turn key isSet k with
      | .left => inferInstanceAs (Decidable (_ ∧ _))
      | .right => inferInstanceAs (Decidable (_ ∧ _))
      | .stop => isFalse id

instance decidableSinks (bal : ℤ) (key : κ) (isSet : Bool) :
    (t : AvlTree ν κ) → Decidable (t.Sinks bal key isSet)
  | nil => isFalse id
  | node l x k h r => by
    have := decidableSinks bal key isSet l
    have := decidableSinks bal key isSet r
    unfold Sinks
    exact match turn key isSet k with
      | .left => inferInstanceAs (Decidable (_ ∧ _))
      | .right => inferInstanceAs (Decidable (_ ∨ _))
      | .stop => isFalse id

instance (bal : ℤ) (key : κ) (isSet : Bool) (r : AvlTree ν κ) :
    Decidable (r.NeedlessKeeps bal key isSet) := by
  unfold NeedlessKeeps
  exact match turnOf key isSet r with
    | .left => inferInstanceAs (Decidable (_ ∨ _))
    | .right => inferInstanceAs (Decidable (@ite Prop _ _ _ _))
    | .stop => isTrue trivial

instance decidableInsertKeeps (bal : ℤ) (key : κ) (isSet : Bool) :
    (t : AvlTree ν κ) → Decidable (t.InsertKeeps bal key isSet)
  | nil => isTrue trivial
  | node l x k h r => by
    have := decidableInsertKeeps bal key isSet l
    have := decidableInsertKeeps bal key isSet r
    unfold InsertKeeps
    exact match turn key isSet k with
      | .left => inferInstanceAs (Decidable (_ ∧ _))
      | .right => inferInstanceAs (Decidable (_ ∧ _))
      | .stop => isTrue trivial

/-! ## The heights afterwards -/

theorem halves_left (hturn : turn key isSet k = .left) :
    halves bal key isSet (node l x k h r) =
      (afterLeft bal (turnOf key isSet l) (halves bal key isSet l).1 (halves bal key isSet l).2
        r.depth, (halves bal key isSet l).1) := by
  simp only [halves, hturn]

theorem halves_right (hturn : turn key isSet k = .right) :
    halves bal key isSet (node l x k h r) =
      (afterRight bal (turnOf key isSet r) l.depth (halves bal key isSet r).1
        (halves bal key isSet r).2, (halves bal key isSet r).1) := by
  simp only [halves, hturn]

theorem halves_stop (hturn : turn key isSet k = .stop) :
    halves bal key isSet (node l x k h r) = (⟨l.depth, r.depth⟩, ⟨0, 0⟩) := by
  simp only [halves, hturn]

theorem halves_of_stop (hturn : turnOf key isSet t = .stop) :
    (halves bal key isSet t).1 = ⟨t.left.depth, t.right.depth⟩ := by
  cases t with
  | nil => rfl
  | node l x k h r => exact congrArg Prod.fst (halves_stop hturn)

theorem halves_nonneg (t : AvlTree ν κ) :
    0 ≤ (halves bal key isSet t).1.left ∧ 0 ≤ (halves bal key isSet t).1.right := by
  induction t with
  | nil => exact ⟨le_refl 0, le_refl 0⟩
  | node l x k h r ihl ihr =>
    have hl := depth_nonneg l
    have hr := depth_nonneg r
    cases hturn : turn key isSet k with
    | left =>
      rw [halves_left hturn]
      unfold afterLeft Halves.height
      split_ifs <;> exact ⟨by simp only; omega, by simp only; omega⟩
    | right =>
      rw [halves_right hturn]
      unfold afterRight Halves.height
      split_ifs <;> exact ⟨by simp only; omega, by simp only; omega⟩
    | stop =>
      rw [halves_stop hturn]
      exact ⟨hl, hr⟩

/-- A tree that grows is entered. -/
theorem Grows.eq_nil (ht : t.Grows bal key isSet) (hturn : turnOf key isSet t = .stop) :
    t = nil := by
  cases t with
  | nil => rfl
  | node l x k h r =>
    rw [turnOf] at hturn
    simp only [Grows, hturn] at ht

/-- What the heights before say about the heights afterwards. -/
structure Forecast (bal : ℤ) (key : κ) (isSet : Bool) (t : AvlTree ν κ) : Prop where
  grows : t.Grows bal key isSet → (halves bal key isSet t).1.height = t.depth + 1
  sinks : t.Sinks bal key isSet → (halves bal key isSet t).1.height + 1 = t.depth
  same : ¬ t.Grows bal key isSet → ¬ t.Sinks bal key isSet →
    (halves bal key isSet t).1.height = t.depth
  grownLeft : t.Grows bal key isSet → turnOf key isSet t = .left →
    (halves bal key isSet t).1.left = (halves bal key isSet t).2.height ∧
      (halves bal key isSet t).1.right = t.right.depth ∧
      (halves bal key isSet t).1.right < (halves bal key isSet t).1.left
  grownRight : t.Grows bal key isSet → turnOf key isSet t = .right →
    (halves bal key isSet t).1.right = (halves bal key isSet t).2.height ∧
      (halves bal key isSet t).1.left = t.left.depth ∧
      (halves bal key isSet t).1.left < (halves bal key isSet t).1.right
  low : turnOf key isSet t = .left → t.depth ≤ bal →
    (halves bal key isSet t).1 = ⟨(halves bal key isSet t).2.height, t.right.depth⟩

theorem Forecast.le (ht : Forecast bal key isSet t) :
    (halves bal key isSet t).1.height ≤ t.depth + 1 := by
  by_cases hgrows : t.Grows bal key isSet
  · exact (ht.grows hgrows).le
  · by_cases hsinks : t.Sinks bal key isSet
    · have hheight := ht.sinks hsinks
      omega
    · have hheight := ht.same hgrows hsinks
      omega

/-- Where a tree does not grow it is no higher. -/
theorem Forecast.grows_of_lt (ht : Forecast bal key isSet t)
    (hlt : t.depth < (halves bal key isSet t).1.height) : t.Grows bal key isSet := by
  by_contra hgrows
  by_cases hsinks : t.Sinks bal key isSet
  · have hheight := ht.sinks hsinks
    omega
  · have hheight := ht.same hgrows hsinks
    omega

section Sides

variable {next : Turn} {c g : Halves} {d : ℤ}

theorem afterLeft_plain (hstays : ¬ LiftsLeft bal next c d) :
    afterLeft bal next c g d = ⟨c.height, d⟩ := if_neg hstays

theorem afterRight_plain (hstays : ¬ LiftsRight bal next d c) :
    afterRight bal next d c g = ⟨d, c.height⟩ := if_neg hstays

/-- A needed rotation leaves the height of the side that was entered. -/
theorem height_afterLeft (hlift : LiftsLeft bal next c d) (hleft : next = .left → c.right < c.left)
    (hright : next = .right → c.right = g.height ∧ c.left < c.right)
    (hhigher : (afterLeft bal next c g d).right ≤ (afterLeft bal next c g d).left) :
    (afterLeft bal next c g d).height = c.height := by
  unfold afterLeft at hhigher ⊢
  rw [if_pos hlift] at hhigher ⊢
  cases next with
  | left =>
    have hstrict := hleft rfl
    rw [if_neg nofun] at hhigher ⊢
    simp only [Halves.height] at hhigher ⊢
    omega
  | right =>
    obtain ⟨hbelow, hstrict⟩ := hright rfl
    rw [if_pos rfl] at hhigher ⊢
    simp only [Halves.height] at hhigher hbelow ⊢
    omega
  | stop => exact (hlift.1 rfl).elim

theorem height_afterRight (hlift : LiftsRight bal next d c)
    (hleft : next = .left → c.left = g.height ∧ c.right < c.left)
    (hhigher : (afterRight bal next d c g).left ≤ (afterRight bal next d c g).right) :
    (afterRight bal next d c g).height = c.height := by
  unfold afterRight at hhigher ⊢
  rw [if_pos hlift] at hhigher ⊢
  cases next with
  | left =>
    obtain ⟨hbelow, hstrict⟩ := hleft rfl
    rw [if_pos rfl] at hhigher ⊢
    simp only [Halves.height] at hhigher hbelow ⊢
    omega
  | right =>
    rw [if_neg nofun] at hhigher ⊢
    simp only [Halves.height] at hhigher ⊢
    omega
  | stop => exact (hlift.1 rfl).elim

end Sides

section Step

theorem grows_left (hturn : turn key isSet k = .left) :
    (node l x k h r).Grows bal key isSet ↔
      l.Grows bal key isSet ∧ r.depth ≤ l.depth ∧ l.depth < r.depth + bal := by
  simp only [Grows, hturn]

theorem sinks_left (hturn : turn key isSet k = .left) :
    (node l x k h r).Sinks bal key isSet ↔ l.Sinks bal key isSet ∧ r.depth < l.depth := by
  simp only [Sinks, hturn]

theorem grows_right (hturn : turn key isSet k = .right) :
    (node l x k h r).Grows bal key isSet ↔
      r.Grows bal key isSet ∧ l.depth ≤ r.depth ∧
        if l.depth = 0 then r.depth = 0 ∨ r.depth + 1 < bal else r.depth < l.depth + bal := by
  simp only [Grows, hturn]

theorem sinks_right (hturn : turn key isSet k = .right) :
    (node l x k h r).Sinks bal key isSet ↔
      r.Sinks bal key isSet ∧ l.depth < r.depth ∨
        l.depth = 0 ∧ r.depth = bal ∧ turnOf key isSet r ≠ .stop ∧ ¬ r.Grows bal key isSet ∧
          ¬ r.Sinks bal key isSet ∧ (turnOf key isSet r = .left → r.right.depth + 1 < bal) := by
  simp only [Sinks, hturn]

/-- A node that is lifted on the left keeps its height. -/
theorem forecast_left_lifted (hbal : 1 ≤ bal) (hnear : Near bal l r)
    (hturn : turn key isSet k = .left) (hl : Forecast bal key isSet l)
    (hhigher : (halves bal key isSet (node l x k h r)).1.right ≤
      (halves bal key isSet (node l x k h r)).1.left)
    (hlift : LiftsLeft bal (turnOf key isSet l) (halves bal key isSet l).1 r.depth) :
    Forecast bal key isSet (node l x k h r) := by
  have hle := hl.le
  have hfar := hnear.1
  have hhigh := hlift.2
  have hlgrows : l.Grows bal key isSet := hl.grows_of_lt (by omega)
  have hheight := hl.grows hlgrows
  rw [halves_left hturn] at hhigher
  have htop := height_afterLeft hlift (fun hnext => (hl.grownLeft hlgrows hnext).2.2)
    (fun hnext => ⟨(hl.grownRight hlgrows hnext).1, (hl.grownRight hlgrows hnext).2.2⟩) hhigher
  have hng : ¬ (node l x k h r).Grows bal key isSet := fun hg => by
    have hroom := ((grows_left hturn).mp hg).2.2
    omega
  have hns : ¬ (node l x k h r).Sinks bal key isSet := fun hs => by
    have hlow := hl.sinks ((sinks_left hturn).mp hs).1
    omega
  have hnonneg := depth_nonneg r
  refine ⟨fun h => (hng h).elim, fun h => (hns h).elim, fun _ _ => ?_, fun h => (hng h).elim,
    fun h => (hng h).elim, fun _ hlow => ?_⟩
  · rw [halves_left hturn, htop, depth_node]
    omega
  · rw [depth_node] at hlow
    omega

theorem forecast_left_plain (hbal : 1 ≤ bal) (hnear : Near bal l r)
    (hturn : turn key isSet k = .left) (hl : Forecast bal key isSet l)
    (hhigher : (halves bal key isSet (node l x k h r)).1.right ≤
      (halves bal key isSet (node l x k h r)).1.left)
    (hstays : ¬ LiftsLeft bal (turnOf key isSet l) (halves bal key isSet l).1 r.depth) :
    Forecast bal key isSet (node l x k h r) := by
  have hle := hl.le
  have hnonneg := depth_nonneg r
  have hfar := hnear.1
  have hnode : turnOf key isSet (node l x k h r) = .left := hturn
  rw [halves_left hturn, afterLeft_plain hstays] at hhigher
  have hforms : halves bal key isSet (node l x k h r) =
      (⟨(halves bal key isSet l).1.height, r.depth⟩, (halves bal key isSet l).1) := by
    rw [halves_left hturn, afterLeft_plain hstays]
  have htop : (halves bal key isSet (node l x k h r)).1.height =
      (halves bal key isSet l).1.height + 1 := by
    rw [hforms, Halves.height, max_eq_left hhigher]
  simp only at hhigher
  refine ⟨fun h => ?_, fun h => ?_, fun hng hns => ?_, fun h _ => ?_, fun _ hright => ?_,
    fun _ _ => by rw [hforms, right]⟩
  · obtain ⟨hlgrows, hle, -⟩ := (grows_left hturn).mp h
    have hheight := hl.grows hlgrows
    rw [htop, depth_node]
    omega
  · obtain ⟨hlsinks, hlt⟩ := (sinks_left hturn).mp h
    have hheight := hl.sinks hlsinks
    rw [htop, depth_node]
    omega
  · rw [htop, depth_node]
    by_cases hlgrows : l.Grows bal key isSet
    · have hheight := hl.grows hlgrows
      have hroom : ¬ l.depth = r.depth + bal := fun hfar => hstays ⟨fun hstop => by
        rw [hlgrows.eq_nil hstop, depth_nil] at hfar
        omega, by omega⟩
      have hlow : ¬ r.depth ≤ l.depth := fun hle =>
        hng ((grows_left hturn).mpr ⟨hlgrows, hle, by omega⟩)
      omega
    · by_cases hlsinks : l.Sinks bal key isSet
      · have hheight := hl.sinks hlsinks
        have hlow : ¬ r.depth < l.depth := fun hlt =>
          hns ((sinks_left hturn).mpr ⟨hlsinks, hlt⟩)
        omega
      · have hheight := hl.same hlgrows hlsinks
        omega
  · obtain ⟨hlgrows, hle, -⟩ := (grows_left hturn).mp h
    have hheight := hl.grows hlgrows
    rw [hforms]
    exact ⟨rfl, rfl, by simp only; omega⟩
  · cases hnode.symm.trans hright

theorem forecast_left (hbal : 1 ≤ bal) (hnear : Near bal l r) (hturn : turn key isSet k = .left)
    (hl : Forecast bal key isSet l)
    (hhigher : (halves bal key isSet (node l x k h r)).1.right ≤
      (halves bal key isSet (node l x k h r)).1.left) :
    Forecast bal key isSet (node l x k h r) := by
  by_cases hlift : LiftsLeft bal (turnOf key isSet l) (halves bal key isSet l).1 r.depth
  · exact forecast_left_lifted hbal hnear hturn hl hhigher hlift
  · exact forecast_left_plain hbal hnear hturn hl hhigher hlift

/-- A lifted node has not grown. -/
theorem not_grows_of_lifted (hnear : Near bal l r) (hturn : turn key isSet k = .right)
    (hr : Forecast bal key isSet r)
    (hlift : LiftsRight bal (turnOf key isSet r) l.depth (halves bal key isSet r).1) :
    ¬ (node l x k h r).Grows bal key isSet := by
  intro hg
  have hfar := hnear.2
  have hhigh := hlift.2
  have hposr : r.depth ≠ 0 := fun hzero => hlift.1 (by rw [depth_eq_zero_iff.mp hzero, turnOf])
  obtain ⟨hrgrows, -, hroom⟩ := (grows_right hturn).mp hg
  have hheight := hr.grows hrgrows
  split_ifs at hroom hhigh <;> omega

theorem forecast_right_lifted (hbal : 1 ≤ bal) (hnear : Near bal l r)
    (hturn : turn key isSet k = .right) (hr : Forecast bal key isSet r)
    (hhigher : (halves bal key isSet (node l x k h r)).1.left ≤
      (halves bal key isSet (node l x k h r)).1.right)
    (hlift : LiftsRight bal (turnOf key isSet r) l.depth (halves bal key isSet r).1)
    (hrgrows : r.Grows bal key isSet) :
    Forecast bal key isSet (node l x k h r) := by
  have hnonneg := depth_nonneg l
  have hfar := hnear.2
  have hhigh := hlift.2
  have hnode : turnOf key isSet (node l x k h r) = .right := hturn
  have hposr : r.depth ≠ 0 := fun hzero => hlift.1 (by rw [depth_eq_zero_iff.mp hzero, turnOf])
  have hng := not_grows_of_lifted (x := x) (h := h) hnear hturn hr hlift
  have hheight := hr.grows hrgrows
  rw [halves_right hturn] at hhigher
  have htop := height_afterRight hlift (fun hnext => ⟨(hr.grownLeft hrgrows hnext).1,
    (hr.grownLeft hrgrows hnext).2.2⟩) hhigher
  have hns : ¬ (node l x k h r).Sinks bal key isSet := fun hs => by
    rcases (sinks_right hturn).mp hs with ⟨hrsinks, -⟩ | ⟨-, -, -, hrng, -⟩
    · have hlow := hr.sinks hrsinks
      omega
    · exact hrng hrgrows
  refine ⟨fun h => (hng h).elim, fun h => (hns h).elim, fun _ _ => ?_, fun h => (hng h).elim,
    fun h => (hng h).elim, fun hleft => by cases hnode.symm.trans hleft⟩
  rw [halves_right hturn, htop, depth_node]
  split_ifs at hhigh <;> omega

/-- The rotation is not needed: the node may sink. -/
theorem forecast_right_needless (hbal : 1 ≤ bal) (hnear : Near bal l r)
    (hturn : turn key isSet k = .right) (hr : Forecast bal key isSet r)
    (hside : turnOf key isSet r = .left →
      (halves bal key isSet r).1.right ≤ (halves bal key isSet r).1.left)
    (hhigher : (halves bal key isSet (node l x k h r)).1.left ≤
      (halves bal key isSet (node l x k h r)).1.right)
    (hlift : LiftsRight bal (turnOf key isSet r) l.depth (halves bal key isSet r).1)
    (hrgrows : ¬ r.Grows bal key isSet) :
    Forecast bal key isSet (node l x k h r) := by
  have hle := hr.le
  have hnonneg := depth_nonneg l
  have hfar := hnear.2
  have hhigh := hlift.2
  have hnode : turnOf key isSet (node l x k h r) = .right := hturn
  have hng := not_grows_of_lifted (x := x) (h := h) hnear hturn hr hlift
  have hstill : (halves bal key isSet r).1.height ≤ r.depth :=
    not_lt.mp (mt hr.grows_of_lt hrgrows)
  obtain ⟨hempty, hfull⟩ : l.depth = 0 ∧ r.depth = bal := by
    split_ifs at hhigh <;> omega
  rw [if_pos hempty] at hhigh
  have hrns : ¬ r.Sinks bal key isSet := fun hs => by
    have hlow := hr.sinks hs
    omega
  have hheight := hr.same hrgrows hrns
  have hsinks : (node l x k h r).Sinks bal key isSet ↔
      (turnOf key isSet r = .left → r.right.depth + 1 < bal) := by
    rw [sinks_right hturn, or_iff_right fun hs => hrns hs.1]
    exact ⟨fun hs => hs.2.2.2.2.2, fun hs => ⟨hempty, hfull, hlift.1, hrgrows, hrns, hs⟩⟩
  rw [halves_right hturn] at hhigher
  cases hnext : turnOf key isSet r with
  | left =>
    have hsides := hside hnext
    have hraise : afterRight bal (turnOf key isSet r) l.depth (halves bal key isSet r).1
        (halves bal key isSet r).2 = ⟨max l.depth (halves bal key isSet r).2.left + 1,
          max (halves bal key isSet r).2.right (halves bal key isSet r).1.right + 1⟩ := by
      unfold afterRight
      rw [if_pos hlift, if_pos hnext]
    have hroot : (halves bal key isSet (node l x k h r)).1.height =
        max (halves bal key isSet r).2.right r.right.depth + 2 ∧
        (halves bal key isSet r).2.left ≤
          max (halves bal key isSet r).2.right r.right.depth ∧
        max (halves bal key isSet r).2.left (halves bal key isSet r).2.right + 2 = bal ∧
        r.right.depth + 1 ≤ bal := by
      rw [halves_right hturn, hraise]
      rw [hraise] at hhigher
      rw [hr.low hnext hfull.le] at hhigher hsides hheight ⊢
      simp only [Halves.height] at hhigher hsides hheight ⊢
      refine ⟨?_, ?_, ?_, ?_⟩ <;> omega
    obtain ⟨htop, houter, hinner, hroom⟩ := hroot
    refine ⟨fun h => (hng h).elim, fun hs => ?_, fun _ hns => ?_, fun h => (hng h).elim,
      fun h => (hng h).elim, fun hleft => (nomatch hnode.symm.trans hleft)⟩
    · have hlow := hsinks.mp hs hnext
      rw [htop, depth_node]
      omega
    · have hlow : ¬ r.right.depth + 1 < bal := fun hlow => hns (hsinks.mpr fun _ => hlow)
      rw [htop, depth_node]
      omega
  | right =>
    have hs := hsinks.mpr fun hleft => (nomatch hnext.symm.trans hleft)
    have htop := height_afterRight hlift (fun hleft => (nomatch hnext.symm.trans hleft)) hhigher
    refine ⟨fun h => (hng h).elim, fun _ => ?_, fun _ hns => (hns hs).elim,
      fun h => (hng h).elim, fun h => (hng h).elim,
      fun hleft => (nomatch hnode.symm.trans hleft)⟩
    rw [halves_right hturn, htop, depth_node]
    omega
  | stop => exact (hlift.1 hnext).elim

theorem forecast_right_plain (hbal : 1 ≤ bal) (hnear : Near bal l r)
    (hturn : turn key isSet k = .right) (hr : Forecast bal key isSet r)
    (hhigher : (halves bal key isSet (node l x k h r)).1.left ≤
      (halves bal key isSet (node l x k h r)).1.right)
    (hlift : ¬ LiftsRight bal (turnOf key isSet r) l.depth (halves bal key isSet r).1) :
    Forecast bal key isSet (node l x k h r) := by
  have hle := hr.le
  have hnonneg := depth_nonneg l
  have hfar := hnear.2
  have hnode : turnOf key isSet (node l x k h r) = .right := hturn
  rw [halves_right hturn, afterRight_plain hlift] at hhigher
  have hforms : halves bal key isSet (node l x k h r) =
      (⟨l.depth, (halves bal key isSet r).1.height⟩, (halves bal key isSet r).1) := by
    rw [halves_right hturn, afterRight_plain hlift]
  have htop : (halves bal key isSet (node l x k h r)).1.height =
      (halves bal key isSet r).1.height + 1 := by
    rw [hforms, Halves.height, max_eq_right hhigher]
  simp only at hhigher
  have hstays := not_and.mp hlift
  refine ⟨fun h => ?_, fun h => ?_, fun hng hns => ?_, fun _ hleft => ?_, fun h _ => ?_,
    fun hleft => (nomatch hnode.symm.trans hleft)⟩
  · obtain ⟨hrgrows, hle, -⟩ := (grows_right hturn).mp h
    have hheight := hr.grows hrgrows
    rw [htop, depth_node]
    omega
  · rcases (sinks_right hturn).mp h with ⟨hrsinks, hlt⟩ | ⟨hempty, hfull, hnext, hrng, hrns, -⟩
    · have hheight := hr.sinks hrsinks
      rw [htop, depth_node]
      omega
    · have hheight := hr.same hrng hrns
      have hout := hstays hnext
      rw [if_pos hempty] at hout
      omega
  · rw [htop, depth_node]
    by_cases hrgrows : r.Grows bal key isSet
    · have hheight := hr.grows hrgrows
      have hroom : if l.depth = 0 then r.depth = 0 ∨ r.depth + 1 < bal
          else r.depth < l.depth + bal := by
        by_cases hnext : turnOf key isSet r = .stop
        · have hzero : r.depth = 0 := depth_eq_zero_iff.mpr (hrgrows.eq_nil hnext)
          split_ifs <;> omega
        · have hout := hstays hnext
          split_ifs at hout ⊢ <;> omega
      have hlow : ¬ l.depth ≤ r.depth := fun hle =>
        hng ((grows_right hturn).mpr ⟨hrgrows, hle, hroom⟩)
      omega
    · by_cases hrsinks : r.Sinks bal key isSet
      · have hheight := hr.sinks hrsinks
        have hlow : ¬ l.depth < r.depth := fun hlt =>
          hns ((sinks_right hturn).mpr (.inl ⟨hrsinks, hlt⟩))
        omega
      · have hheight := hr.same hrgrows hrsinks
        omega
  · exact (nomatch hnode.symm.trans hleft)
  · obtain ⟨hrgrows, hle, -⟩ := (grows_right hturn).mp h
    have hheight := hr.grows hrgrows
    rw [hforms]
    exact ⟨rfl, rfl, by simp only; omega⟩

theorem forecast_right (hbal : 1 ≤ bal) (hnear : Near bal l r) (hturn : turn key isSet k = .right)
    (hr : Forecast bal key isSet r)
    (hside : turnOf key isSet r = .left →
      (halves bal key isSet r).1.right ≤ (halves bal key isSet r).1.left)
    (hhigher : (halves bal key isSet (node l x k h r)).1.left ≤
      (halves bal key isSet (node l x k h r)).1.right) :
    Forecast bal key isSet (node l x k h r) := by
  by_cases hlift : LiftsRight bal (turnOf key isSet r) l.depth (halves bal key isSet r).1
  · by_cases hrgrows : r.Grows bal key isSet
    · exact forecast_right_lifted hbal hnear hturn hr hhigher hlift hrgrows
    · exact forecast_right_needless hbal hnear hturn hr hside hhigher hlift hrgrows
  · exact forecast_right_plain hbal hnear hturn hr hhigher hlift

end Step

theorem enteredHigher_left (hturn : turn key isSet k = .left) :
    EnteredHigher bal key isSet (node l x k h r) ↔ EnteredHigher bal key isSet l ∧
      (halves bal key isSet (node l x k h r)).1.right ≤
        (halves bal key isSet (node l x k h r)).1.left := by
  simp only [EnteredHigher, halves, hturn]

theorem enteredHigher_right (hturn : turn key isSet k = .right) :
    EnteredHigher bal key isSet (node l x k h r) ↔ EnteredHigher bal key isSet r ∧
      (halves bal key isSet (node l x k h r)).1.left ≤
        (halves bal key isSet (node l x k h r)).1.right := by
  simp only [EnteredHigher, halves, hturn]

/-- The side that is entered is the higher one, and the same holds below. -/
theorem EnteredHigher.left (ht : EnteredHigher bal key isSet t)
    (hturn : turnOf key isSet t = .left) :
    EnteredHigher bal key isSet t.left ∧
      (halves bal key isSet t).1.right ≤ (halves bal key isSet t).1.left ∧
      (halves bal key isSet t).2 = (halves bal key isSet t.left).1 := by
  cases t with
  | nil => cases hturn
  | node l x k h r =>
    rw [turnOf] at hturn
    obtain ⟨hl, hhigher⟩ := (enteredHigher_left hturn).mp ht
    exact ⟨hl, hhigher, by rw [halves_left hturn, AvlTree.left]⟩

theorem EnteredHigher.right (ht : EnteredHigher bal key isSet t)
    (hturn : turnOf key isSet t = .right) :
    EnteredHigher bal key isSet t.right ∧
      (halves bal key isSet t).1.left ≤ (halves bal key isSet t).1.right ∧
      (halves bal key isSet t).2 = (halves bal key isSet t.right).1 := by
  cases t with
  | nil => cases hturn
  | node l x k h r =>
    rw [turnOf] at hturn
    obtain ⟨hr, hhigher⟩ := (enteredHigher_right hturn).mp ht
    exact ⟨hr, hhigher, by rw [halves_right hturn, AvlTree.right]⟩

theorem forecast (hbal : 1 ≤ bal) (ht : Good bal t) (hall : EnteredHigher bal key isSet t) :
    Forecast bal key isSet t := by
  induction t with
  | nil => exact ⟨fun _ => rfl, False.elim, fun h => (h trivial).elim, nofun, nofun, nofun⟩
  | node l x k h r ihl ihr =>
    obtain ⟨-, hnear, hl, hr⟩ := good_node_iff.mp ht
    cases hturn : turn key isSet k with
    | left =>
      obtain ⟨hbelow, hhigher⟩ := (enteredHigher_left hturn).mp hall
      exact forecast_left hbal hnear hturn (ihl hl hbelow) hhigher
    | right =>
      obtain ⟨hbelow, hhigher⟩ := (enteredHigher_right hturn).mp hall
      exact forecast_right hbal hnear hturn (ihr hr hbelow) (fun hnext => (hbelow.left hnext).2.1)
        hhigher
    | stop =>
      have hnode : turnOf key isSet (node l x k h r) = .stop := hturn
      have hng : ¬ (node l x k h r).Grows bal key isSet := by
        simp only [Grows, hturn, not_false_iff]
      have hns : ¬ (node l x k h r).Sinks bal key isSet := by
        simp only [Sinks, hturn, not_false_iff]
      refine ⟨fun h => (hng h).elim, fun h => (hns h).elim, fun _ _ => ?_, fun h => (hng h).elim,
        fun h => (hng h).elim, fun hleft => (nomatch hnode.symm.trans hleft)⟩
      rw [halves_stop hturn]
      rfl

end AvlTree

end MpegtsReader
