import MpegtsReader.AvlBag

/-!
# The tree under any balance factor

What holds of a tree that is used from its initialisation on, with a balance factor of 0 as well
(`treeInv_of_reachable`): the keys are in order, each node is in the tree once, and the height that
is stored in a node is at least one (`PosHeights`), since it is one more than a height below.
With the factor 0 a deletion of a smallest or largest node may fail; what is said of it here is said
of one that succeeds. `settleLeft_stored` and `settleLm_stored` say from the stored heights what is
done on the way back.
-/

namespace MpegtsReader

namespace AvlTree

open OrderedBag

variable {ν κ : Type} {t t' l r d : AvlTree ν κ} {x : ν} {k : κ} {bal h : ℤ}

/-! ## Stored heights -/

/-- The stored heights are one at least. -/
def PosHeights : AvlTree ν κ → Prop
  | nil => True
  | node l _ _ h r => 1 ≤ h ∧ l.PosHeights ∧ r.PosHeights

@[simp] theorem posHeights_nil : (nil : AvlTree ν κ).PosHeights := trivial

theorem posHeights_node :
    (node l x k h r).PosHeights ↔ 1 ≤ h ∧ l.PosHeights ∧ r.PosHeights := Iff.rfl

theorem posHeights_mirror (t : AvlTree ν κ) : t.mirror.PosHeights ↔ t.PosHeights := by
  induction t with
  | nil => rfl
  | node l x k h r ihl ihr =>
    rw [mirror_node, posHeights_node, posHeights_node, ihl, ihr, and_comm (a := r.PosHeights)]

theorem PosHeights.one_le (ht : t.PosHeights) (hh : t.height? = some h) : 1 ≤ h := by
  cases t with
  | nil => cases hh
  | node l x k h' r =>
    obtain rfl : h' = h := Option.some.inj hh
    exact ht.1

/-- The height that is stored in the first node, and 0 where there is none. -/
def stored : AvlTree ν κ → ℤ
  | nil => 0
  | node _ _ _ h _ => h

@[simp] theorem stored_nil : (nil : AvlTree ν κ).stored = 0 := rfl

@[simp] theorem stored_node : (node l x k h r).stored = h := rfl

theorem stored_mirror (t : AvlTree ν κ) : t.mirror.stored = t.stored := by cases t <;> rfl

theorem PosHeights.stored_nonneg (ht : t.PosHeights) : 0 ≤ t.stored := by
  cases t with
  | nil => exact le_refl 0
  | node l x k h r => exact (Int.le_of_lt Int.zero_lt_one).trans ht.1

theorem maxChildHeight_stored (hl : l.PosHeights) (hr : r.PosHeights) :
    (node l x k h r).maxChildHeight = max l.stored r.stored := by
  rcases l with _ | ⟨ll, y, ky, hy, lr⟩ <;> rcases r with _ | ⟨rl, z, kz, hz, rr⟩
  · rfl
  · exact (max_eq_right hr.stored_nonneg).symm
  · exact (max_eq_left hl.stored_nonneg).symm
  · rw [maxChildHeight, stored_node, stored_node]
    split_ifs <;> omega

theorem posHeights_setMax (hl : t.left.PosHeights) (hr : t.right.PosHeights) :
    (t.setHeight (t.maxChildHeight + 1)).PosHeights := by
  cases t with
  | nil => trivial
  | node l x k h r =>
    have hmax := @maxChildHeight_stored _ _ l r x k h hl hr
    have hnonneg : 0 ≤ l.stored := hl.stored_nonneg
    exact posHeights_node.mpr ⟨by omega, hl, hr⟩

theorem PosHeights.left (ht : t.PosHeights) : t.left.PosHeights := by
  cases t with
  | nil => trivial
  | node l x k h r => exact ht.2.1

theorem PosHeights.right (ht : t.PosHeights) : t.right.PosHeights := by
  cases t with
  | nil => trivial
  | node l x k h r => exact ht.2.2

theorem PosHeights.setHeight (ht : t.PosHeights) (hh : 1 ≤ h) : (t.setHeight h).PosHeights := by
  cases t with
  | nil => trivial
  | node l x k h' r => exact ⟨hh, ht.2⟩

theorem posHeights_rotateLeft (ht : t.PosHeights) : t.rotateLeft.PosHeights := by
  rcases t with _ | ⟨l, x, k, h, _ | ⟨rl, y, ky, hy, rr⟩⟩
  · trivial
  · exact ht
  · obtain ⟨-, hl, -, hrl, hrr⟩ := ht
    refine ⟨?_, posHeights_setMax hl hrl, hrr⟩
    cases rr with
    | nil => exact le_refl 1
    | node rrl z kz hz rrr =>
      have hpos : 1 ≤ hz := hrr.1
      show 1 ≤ hz + 1
      omega

theorem posHeights_rotateRight (ht : t.PosHeights) : t.rotateRight.PosHeights := by
  have hleft := posHeights_rotateLeft ((posHeights_mirror t).mpr ht)
  rwa [rotateLeft_mirror, posHeights_mirror] at hleft

theorem posHeights_raiseRight (ht : t.PosHeights) : t.raiseRight.PosHeights := by
  unfold raiseRight
  split
  · exact posHeights_rotateLeft ⟨ht.1, ht.2.1, posHeights_rotateRight ht.2.2⟩
  · exact posHeights_rotateLeft ht

theorem PosHeights.ite {p : Prop} [Decidable p] (ht' : t'.PosHeights) (ht : t.PosHeights) :
    (if p then t' else t).PosHeights := by
  split
  · exact ht'
  · exact ht

/-! ## Insertion -/

section Insertion

variable {dir dir' : UInt8} {item replaced : AvlTree ν κ}

theorem posHeights_switchPattern (ht : t.PosHeights) (heq : t.switchPattern bal dir = some t') :
    t'.PosHeights := by
  have hsame : some t = some t' → t'.PosHeights := fun h => Option.some.inj h ▸ ht
  unfold switchPattern at heq
  split_ifs at heq
  · obtain ⟨lean, -, heq⟩ := Option.bind_eq_some_iff.mp heq
    cases t with
    | nil => cases heq
    | node l x k h r =>
      have hdouble : (node l x k h r.rotateRight).PosHeights :=
        ⟨ht.1, ht.2.1, posHeights_rotateRight ht.2.2⟩
      exact Option.some.inj heq ▸ (posHeights_rotateLeft hdouble).ite ht
  · obtain ⟨lean, -, heq⟩ := Option.bind_eq_some_iff.mp heq
    exact Option.some.inj heq ▸ (posHeights_rotateLeft ht).ite ht
  · obtain ⟨lean, -, heq⟩ := Option.bind_eq_some_iff.mp heq
    exact Option.some.inj heq ▸ (posHeights_rotateRight ht).ite ht
  · obtain ⟨lean, -, heq⟩ := Option.bind_eq_some_iff.mp heq
    cases t with
    | nil => cases heq
    | node l x k h r =>
      have hdouble : (node l.rotateLeft x k h r).PosHeights :=
        ⟨ht.1, posHeights_rotateLeft ht.2.1, ht.2.2⟩
      exact Option.some.inj heq ▸ (posHeights_rotateRight hdouble).ite ht
  · exact hsame heq

theorem posHeights_backFromLeft (hl : l.PosHeights) (hr : r.PosHeights)
    (heq : backFromLeft bal x k r (l, dir, d) = some (t', dir', replaced)) : t'.PosHeights := by
  obtain ⟨hh, hheight, heq⟩ := Option.bind_eq_some_iff.mp heq
  obtain ⟨t, hswitch, heq⟩ := Option.bind_eq_some_iff.mp heq
  obtain ⟨rfl, -⟩ := Prod.mk.inj (Option.some.inj heq)
  have hpos := hl.one_le hheight
  exact posHeights_switchPattern (posHeights_node.mpr ⟨by omega, hl, hr⟩) hswitch

theorem posHeights_backFromRight (hl : l.PosHeights) (hr : r.PosHeights)
    (heq : backFromRight bal l x k (r, dir, d) = some (t', dir', replaced)) : t'.PosHeights := by
  obtain ⟨hh, hheight, heq⟩ := Option.bind_eq_some_iff.mp heq
  obtain ⟨t, hswitch, heq⟩ := Option.bind_eq_some_iff.mp heq
  obtain ⟨rfl, -⟩ := Prod.mk.inj (Option.some.inj heq)
  have hpos := hr.one_le hheight
  exact posHeights_switchPattern (posHeights_node.mpr ⟨by omega, hl, hr⟩) hswitch

theorem posHeights_insertRc [LinearOrder κ] {y : ν} {key : κ} {isSet : Bool} (ht : t.PosHeights)
    (heq : insertRc bal (cdslAvltreeNodeInit y key) dir isSet t = some (t', dir', replaced)) :
    t'.PosHeights := by
  induction t generalizing t' dir' replaced with
  | nil =>
    obtain ⟨rfl, -⟩ := Prod.mk.inj (Option.some.inj heq)
    exact ⟨le_refl 1, trivial, trivial⟩
  | node l x k h r ihl ihr =>
    obtain ⟨hpos, hl, hr⟩ := ht
    rw [cdslAvltreeNodeInit, insertRc] at heq
    simp only [top, Option.bind_eq_bind, Option.bind_some] at heq
    split_ifs at heq
    · obtain ⟨⟨l', dir'', replaced'⟩, hins, hback⟩ := Option.bind_eq_some_iff.mp heq
      exact posHeights_backFromLeft (ihl hl hins) hr hback
    · obtain ⟨⟨r', dir'', replaced'⟩, hins, hback⟩ := Option.bind_eq_some_iff.mp heq
      exact posHeights_backFromRight hl (ihr hr hins) hback
    · obtain ⟨rfl, -⟩ := Prod.mk.inj (Option.some.inj heq)
      exact ⟨hpos, hl, hr⟩
    · obtain ⟨⟨l', dir'', replaced'⟩, hins, hback⟩ := Option.bind_eq_some_iff.mp heq
      exact posHeights_backFromLeft (ihl hl hins) hr hback

end Insertion

/-! ## Deletion -/

/-- Behind a deletion on the left: the node on the right is raised, or the height is taken anew. -/
theorem settleLeft_stored (hbal : 0 ≤ bal) (hl : l.PosHeights) (hr : r.PosHeights) :
    settleLeft bal (node l x k h r) =
      if l.stored + bal < r.stored then raiseRight (node l x k (max l.stored r.stored + 1) r)
      else node l x k (max l.stored r.stored + 1) r := by
  have hnonnegl := hl.stored_nonneg
  have hnonnegr := hr.stored_nonneg
  rcases l with _ | ⟨ll, y, ky, hy, lr⟩ <;> rcases r with _ | ⟨rl, z, kz, hz, rr⟩
  · rw [stored_nil, if_neg (by omega)]
    rfl
  · rw [stored_nil, Int.zero_add, max_eq_right hnonnegr]
    rfl
  · rw [stored_nil, max_eq_left hnonnegl, if_neg (by omega)]
    rfl
  · have hmax : (if hz > hy then hz + 1 else hy + 1) = max hy hz + 1 := by split_ifs <;> omega
    rw [settleLeft, hmax, stored_node, stored_node]
    exact if_congr (by omega) rfl rfl

theorem posHeights_settleTakeLeft (ht : t.PosHeights) : (settleTakeLeft bal t).PosHeights := by
  rcases t with _ | ⟨_ | ⟨ll, y, ky, hl, lr⟩, x, k, h, _ | ⟨rl, z, kz, hr, rr⟩⟩
  · trivial
  · exact ⟨le_refl 1, trivial, trivial⟩
  · exact (posHeights_rotateLeft ht).ite ht
  · have hpos : 1 ≤ hl := ht.2.1.1
    exact posHeights_node.mpr ⟨by omega, ht.2⟩
  · exact (posHeights_rotateLeft ht).ite ht

theorem posHeights_settleLeft (hl : t.left.PosHeights) (hr : t.right.PosHeights) :
    (settleLeft bal t).PosHeights := by
  rcases t with _ | ⟨_ | ⟨ll, y, ky, hy, lr⟩, x, k, h, _ | ⟨rl, z, kz, hz, rr⟩⟩
  · trivial
  · exact ⟨le_refl 1, trivial, trivial⟩
  · have hpos : 1 ≤ hz := hr.1
    have ht : (node nil x k (hz + 1) (node rl z kz hz rr)).PosHeights :=
      posHeights_node.mpr ⟨by omega, trivial, hr⟩
    exact (posHeights_raiseRight ht).ite ht
  · have hpos : 1 ≤ hy := hl.1
    exact posHeights_node.mpr ⟨by omega, hl, trivial⟩
  · have hposl : 1 ≤ hy := hl.1
    have hposr : 1 ≤ hz := hr.1
    have ht : (node (node ll y ky hy lr) x k (if hz > hy then hz + 1 else hy + 1)
        (node rl z kz hz rr)).PosHeights :=
      posHeights_node.mpr ⟨by split_ifs <;> omega, hl, hr⟩
    exact (posHeights_raiseRight ht).ite ht

theorem posHeights_settleRight (hl : t.left.PosHeights) (hr : t.right.PosHeights) :
    (settleRight bal t).PosHeights := by
  have hmirror := settleRight_mirror bal t.mirror
  rw [mirror_mirror] at hmirror
  rw [hmirror, posHeights_mirror]
  cases t with
  | nil => trivial
  | node l x k h r =>
    exact posHeights_settleLeft ((posHeights_mirror r).mpr hr) ((posHeights_mirror l).mpr hl)

theorem posHeights_takeLeftmostRc (ht : t.PosHeights) : (takeLeftmostRc bal t).1.PosHeights := by
  induction t with
  | nil => trivial
  | node l x k h r ih =>
    cases l with
    | nil => exact ht.2.2
    | node ll y ky hl lr => exact posHeights_settleTakeLeft ⟨ht.1, ih ht.2.1, ht.2.2⟩

theorem posHeights_setLinks {nroot : AvlTree ν κ} (hl : l.PosHeights) (hh : 1 ≤ h)
    (hr : r.PosHeights) (heq : setLinks l h r nroot = some t) : t.PosHeights := by
  cases nroot with
  | nil => cases heq
  | node => exact Option.some.inj heq ▸ ⟨hh, hl, hr⟩

theorem posHeights_fillFromRight (hl : l.PosHeights) (hh : 1 ≤ h) (hr : r.PosHeights)
    (heq : fillFromRight bal l h r = some t) : t.PosHeights :=
  posHeights_setLinks hl hh (posHeights_takeLeftmostRc hr) heq

theorem posHeights_fillFromLeft (hl : l.PosHeights) (hh : 1 ≤ h) (hr : r.PosHeights)
    (heq : fillFromLeft bal l h r = some t) : t.PosHeights := by
  have hmirror := fillFromRight_mirror bal h l r
  rw [heq] at hmirror
  exact (posHeights_mirror t).mp (posHeights_fillFromRight ((posHeights_mirror r).mpr hr) hh
    ((posHeights_mirror l).mpr hl) hmirror)

theorem posHeights_deleteFound (ht : (node l x k h r).PosHeights)
    (heq : deleteFound bal none (node l x k h r) = some (t', d)) : t'.PosHeights := by
  obtain ⟨hh, hl, hr⟩ := ht
  rcases r with _ | ⟨rl, z, kz, hz, rr⟩
  · rcases l with _ | ⟨ll, y, ky, hy, lr⟩
    · obtain ⟨rfl, -⟩ := Prod.mk.inj (Option.some.inj heq)
      trivial
    · obtain ⟨t, hfill, heq⟩ := Option.bind_eq_some_iff.mp heq
      obtain ⟨rfl, -⟩ := Prod.mk.inj (Option.some.inj heq)
      have hpos := posHeights_fillFromLeft hl hh hr hfill
      exact posHeights_setMax hpos.left hpos.right
  · have hright : (fillFromRight bal l h (node rl z kz hz rr)).bind (fun t =>
        some (t.setHeight (t.maxChildHeight + 1), node nil x k h nil)) = some (t', d) := by
      cases l <;> exact heq
    obtain ⟨t, hfill, heq⟩ := Option.bind_eq_some_iff.mp hright
    obtain ⟨rfl, -⟩ := Prod.mk.inj (Option.some.inj heq)
    have hpos := posHeights_fillFromRight hl hh hr hfill
    exact posHeights_setMax hpos.left hpos.right

theorem posHeights_deleteRc [LinearOrder κ] {key : κ} (ht : t.PosHeights)
    (heq : deleteRc bal key none t = some (t', d)) : t'.PosHeights := by
  induction t generalizing t' d with
  | nil =>
    obtain ⟨rfl, -⟩ := Prod.mk.inj (Option.some.inj heq)
    trivial
  | node l x k h r ihl ihr =>
    obtain ⟨hh, hl, hr⟩ := ht
    rw [deleteRc] at heq
    split_ifs at heq
    · obtain ⟨⟨l', d'⟩, hdel, heq⟩ := Option.bind_eq_some_iff.mp heq
      obtain ⟨rfl, -⟩ := Prod.mk.inj (Option.some.inj heq)
      exact posHeights_settleLeft (ihl hl hdel) hr
    · obtain ⟨⟨r', d'⟩, hdel, heq⟩ := Option.bind_eq_some_iff.mp heq
      obtain ⟨rfl, -⟩ := Prod.mk.inj (Option.some.inj heq)
      exact posHeights_settleRight hl (ihr hr hdel)
    · exact posHeights_deleteFound ⟨hh, hl, hr⟩ heq

/-! ## The smallest and the largest node -/

/-- No child is raised when neither the right one nor an only one is too high. -/
theorem settleLm_stored (hl : l.PosHeights) (hr : r.PosHeights)
    (hrl : r.stored ≤ l.stored + bal) (honly : r.stored = 0 → l.stored ≤ bal) :
    settleLm bal (node l x k h r) = some (node l x k (max l.stored r.stored + 1) r) := by
  have hnonnegl := hl.stored_nonneg
  have hnonnegr := hr.stored_nonneg
  have hmax := @maxChildHeight_stored _ _ l r x k h hl hr
  rcases l with _ | ⟨ll, y, ky, hy, lr⟩ <;> rcases r with _ | ⟨rl, z, kz, hz, rr⟩
  · rfl
  · rw [stored_nil, Int.zero_add, stored_node] at hrl
    rw [stored_nil, max_eq_right hnonnegr, settleLm, settleOnlyRight, if_neg (not_lt.mpr hrl)]
    rfl
  · have hlow : hy ≤ bal := honly rfl
    rw [stored_nil, max_eq_left hnonnegl, settleLm, settleOnlyLeft, if_neg (not_lt.mpr hlow)]
    rfl
  · rw [stored_node, stored_node] at hrl
    rw [settleLm, if_neg (by omega), hmax.symm]
    rfl

theorem deleteLmRc_left {replacer : Option (Replacer ν κ)} (hl : l ≠ nil) :
    deleteLmRc bal replacer (node l x k h r) =
      (deleteLmRc bal replacer l).bind fun p => ((node p.1 x k h r).settleLm bal).map (·, p.2) := by
  cases l with
  | nil => exact (hl rfl).elim
  | node ll y ky hy lr =>
    rw [deleteLmRc]
    refine congrArg (Option.bind _) (funext fun p => ?_)
    simp only [Option.bind_eq_bind, Option.map_eq_bind]
    rfl

theorem deleteRmRc_right {replacer : Option (Replacer ν κ)} (hr : r ≠ nil) :
    deleteRmRc bal replacer (node l x k h r) =
      (deleteRmRc bal replacer r).bind fun p => ((node l x k h p.1).settleRm bal).map (·, p.2) := by
  cases r with
  | nil => exact (hr rfl).elim
  | node rl y ky hy rr =>
    rw [deleteRmRc]
    refine congrArg (Option.bind _) (funext fun p => ?_)
    simp only [Option.bind_eq_bind, Option.map_eq_bind]
    rfl

/-- A tree with the same nodes in order, and stored heights of one at least if they were. -/
structure Settled (t t' : AvlTree ν κ) : Prop where
  nodes : t'.nodes = t.nodes
  pos : t.PosHeights → t'.PosHeights

theorem Settled.mirror (ht : Settled t t') : Settled t.mirror t'.mirror where
  nodes := by rw [nodes_mirror, nodes_mirror, ht.nodes]
  pos := by
    rw [posHeights_mirror, posHeights_mirror]
    exact ht.pos

theorem settled_settleOnlyRight {hr : ℤ} (heq : settleOnlyRight bal hr t = some t') :
    Settled t t' := by
  have hraise := (rearranges_raiseRight t).ite (p := hr > bal)
  obtain ⟨hh, hheight, heq⟩ := Option.bind_eq_some_iff.mp heq
  obtain rfl := Option.some.inj heq
  refine ⟨by rw [nodes_setHeight, hraise.nodes], fun ht => ?_⟩
  have hpos := (posHeights_raiseRight ht).ite (p := hr > bal) ht
  have hone := hpos.right.one_le hheight
  exact hpos.setHeight (by omega)

theorem settled_settleOnlyLeft {hl : ℤ} (heq : settleOnlyLeft bal hl t = some t') :
    Settled t t' := by
  have hmirror := settleOnlyRight_mirror bal hl t
  rw [heq] at hmirror
  have hsettled := (settled_settleOnlyRight hmirror).mirror
  rwa [mirror_mirror, mirror_mirror] at hsettled

theorem settled_settleLm (heq : t.settleLm bal = some t') : Settled t t' := by
  rcases t with _ | ⟨_ | ⟨ll, y, ky, hl, lr⟩, x, k, h, _ | ⟨rl, z, kz, hr, rr⟩⟩
  · cases heq
  · exact Option.some.inj heq ▸ ⟨rfl, fun _ => ⟨le_refl 1, trivial, trivial⟩⟩
  · exact settled_settleOnlyRight heq
  · exact settled_settleOnlyLeft heq
  · obtain rfl := Option.some.inj heq
    refine ⟨by rw [nodes_setHeight, (rearranges_raiseRight _).ite.nodes], fun ht => ?_⟩
    have hpos := (posHeights_raiseRight ht).ite (p := hr - hl > bal) ht
    exact posHeights_setMax hpos.left hpos.right

/-- A smallest node that is deleted is the first of the nodes. -/
structure MinDeleted (t t' d : AvlTree ν κ) : Prop where
  nodes : t'.nodes = t.nodes.tail
  top : d.top = t.nodes.head?
  pos : t.PosHeights → t'.PosHeights

theorem minDeleted_deleteLmRc (heq : deleteLmRc bal none t = some (t', d)) :
    MinDeleted t t' d := by
  induction t generalizing t' d with
  | nil =>
    obtain ⟨rfl, rfl⟩ := Prod.mk.inj (Option.some.inj heq)
    exact ⟨rfl, rfl, id⟩
  | node l x k h r ih =>
    cases l with
    | nil =>
      cases r with
      | nil =>
        obtain ⟨rfl, rfl⟩ := Prod.mk.inj (Option.some.inj heq)
        exact ⟨rfl, rfl, fun _ => trivial⟩
      | node rl y ky hy rr =>
        obtain ⟨t, hfill, heq⟩ := Option.bind_eq_some_iff.mp heq
        obtain ⟨u, hsettle, heq⟩ := Option.bind_eq_some_iff.mp heq
        obtain ⟨rfl, rfl⟩ := Prod.mk.inj (Option.some.inj heq)
        have hsettled := settled_settleLm hsettle
        obtain ⟨t₁, hfill₁, hnodes, -⟩ := exists_fillFromRight bal h nil
          (r := node rl y ky hy rr) nofun
        obtain rfl : t₁ = t := Option.some.inj (hfill₁.symm.trans hfill)
        refine ⟨by rw [hsettled.nodes, hnodes]; rfl, rfl, fun ht => hsettled.pos ?_⟩
        exact posHeights_fillFromRight posHeights_nil ht.1 ht.2.2 hfill
    | node ll y ky hy lr =>
      obtain ⟨⟨l', d'⟩, hdel, heq⟩ := Option.bind_eq_some_iff.mp heq
      obtain ⟨u, hsettle, heq⟩ := Option.bind_eq_some_iff.mp heq
      obtain ⟨rfl, rfl⟩ := Prod.mk.inj (Option.some.inj heq)
      have hsettled := settled_settleLm hsettle
      obtain ⟨hnodes, htop, hpos⟩ := ih hdel
      obtain ⟨z, m, hl⟩ := List.exists_cons_of_ne_nil
        (mt (nodes_eq_nil_iff (t := node ll y ky hy lr)).mp nofun)
      rw [hl] at hnodes htop
      refine ⟨?_, ?_, fun ht => hsettled.pos ⟨ht.1, hpos ht.2.1, ht.2.2⟩⟩
      · rw [hsettled.nodes, nodes_node, hnodes, nodes_node (l := node ll y ky _ lr), hl]
        rfl
      · rw [htop, nodes_node (l := node ll y ky _ lr), hl]
        rfl

/-- A largest node that is deleted is the last of the nodes. -/
structure MaxDeleted (t t' d : AvlTree ν κ) : Prop where
  nodes : t'.nodes = t.nodes.dropLast
  top : d.top = t.nodes.getLast?
  pos : t.PosHeights → t'.PosHeights

theorem maxDeleted_deleteRmRc (heq : deleteRmRc bal none t = some (t', d)) :
    MaxDeleted t t' d := by
  have hmirror := deleteLmRc_mirror bal t
  rw [heq] at hmirror
  obtain ⟨hnodes, htop, hpos⟩ := minDeleted_deleteLmRc hmirror
  simp only [nodes_mirror, top_mirror, posHeights_mirror, List.tail_reverse,
    List.head?_reverse] at hnodes htop hpos
  exact ⟨List.reverse_injective hnodes, htop, hpos⟩

end AvlTree

/-! ## Reachable trees -/

section Reachable

open AvlTree OrderedBag

variable {ν κ : Type} [LinearOrder κ] {root root' : AvlRoot ν κ} {bal : ℤ} {op : Op (ν × κ) κ}
  {node : AvlTree ν κ}

/-- What every operation that succeeds keeps. -/
structure TreeInv (bal : ℤ) (root : AvlRoot ν κ) : Prop where
  factor : root.balanceFactor = bal
  inOrder : root.entry.InOrder
  once : (root.bag.map Prod.fst).Nodup
  pos : root.entry.PosHeights

theorem TreeInv.step (hinv : TreeInv bal root) (hfresh : Fresh root op)
    (hstep : avlStep root op = some (root', node)) : TreeInv bal root' := by
  obtain ⟨rfl, hin, honce, hpos⟩ := hinv
  have hnodup := fun (heffect : Effect Prod.snd root.bag root'.bag node.top op) =>
    heffect.nodup_map hfresh honce
  cases op with
  | insert item isSet =>
    obtain ⟨t, dir, replaced, heq, hins, -⟩ := exists_insertRc root.balanceFactor item.1 item.2 0
      isSet hin
    have hpos' := posHeights_insertRc hpos heq
    rw [cdslAvltreeNodeInit] at heq
    simp only [avlStep, cdslAvltreeInsert, cdslAvltreeNodeInit, heq, Option.bind_eq_bind,
      Option.bind_some, Option.some.injEq, Prod.mk.injEq] at hstep
    obtain ⟨rfl, rfl⟩ := hstep
    exact ⟨rfl, hins.ordered hin, hnodup hins.effect, hpos'⟩
  | delete key =>
    obtain ⟨t, deleted, heq, hdel, -⟩ := exists_deleteRc root.balanceFactor key hin
    have hpos' := posHeights_deleteRc hpos heq
    simp only [avlStep, cdslAvltreeDelete, cdslAvltreeDeleteReplace, heq, Option.bind_eq_bind,
      Option.bind_some, Option.some.injEq, Prod.mk.injEq] at hstep
    obtain ⟨rfl, rfl⟩ := hstep
    exact ⟨rfl, hdel.ordered hin, hnodup hdel.effect, hpos'⟩
  | deleteMin =>
    obtain ⟨⟨t, deleted⟩, heq, hstep⟩ := Option.bind_eq_some_iff.mp hstep
    obtain ⟨rfl, rfl⟩ := Prod.mk.inj (Option.some.inj hstep)
    obtain ⟨hnodes, htop, hpos'⟩ := minDeleted_deleteLmRc heq
    have heffect := effect_deleteMin hin
    rw [← hnodes, ← htop] at heffect
    refine ⟨rfl, ?_, hnodup heffect, hpos' hpos⟩
    rw [InOrder, hnodes]
    exact hin.sublist (List.tail_sublist _)
  | deleteMax =>
    obtain ⟨⟨t, deleted⟩, heq, hstep⟩ := Option.bind_eq_some_iff.mp hstep
    obtain ⟨rfl, rfl⟩ := Prod.mk.inj (Option.some.inj hstep)
    obtain ⟨hnodes, htop, hpos'⟩ := maxDeleted_deleteRmRc heq
    have heffect := effect_deleteMax hin
    rw [← hnodes, ← htop] at heffect
    refine ⟨rfl, ?_, hnodup heffect, hpos' hpos⟩
    rw [InOrder, hnodes]
    exact hin.sublist (List.dropLast_sublist _)

/-- An insertion adds one node at most. -/
theorem TreeInv.bag_insert {item b : ν × κ} {isSet : Bool} (hinv : TreeInv bal root)
    (hstep : goAvl root (.insert item isSet) = some root') (hb : b ∈ root'.bag) :
    b = item ∨ b ∈ root.bag := by
  obtain ⟨t, dir, replaced, heq, hins, -⟩ := exists_insertRc root.balanceFactor item.1 item.2 0
    isSet hinv.inOrder
  rw [cdslAvltreeNodeInit] at heq
  simp only [goAvl, avlStep, cdslAvltreeInsert, cdslAvltreeNodeInit, heq, Option.bind_eq_bind,
    Option.bind_some, Option.map_some, Option.some.injEq] at hstep
  obtain rfl := hstep
  obtain ⟨s, hs, hs', -⟩ := hins.effect
  have hcons : b ∈ item ::ₘ s := hs' ▸ hb
  refine (Multiset.mem_cons.mp hcons).imp_right fun hmem => ?_
  have hbag : root.bag = s + replaced.top.toList := hs
  rw [hbag]
  exact Multiset.mem_add.mpr (.inl hmem)

theorem treeInv_of_reachable {factor : UInt8}
    (hreach : Transition.Reachable goAvl Fresh (cdslAvltreeRootInit factor) root) :
    TreeInv factor.toNat root := by
  refine hreach.invariant ⟨rfl, .nil, Multiset.nodup_zero, trivial⟩ ?_
  intro root op root' hinv hfresh hstep
  obtain ⟨⟨root'', node⟩, heq, rfl⟩ := Option.map_eq_some_iff.mp hstep
  exact hinv.step hfresh heq

/-- Distinct nodes that are not in the tree may be inserted one after another. -/
theorem reachable_inserts_of_new {factor : UInt8} {start : AvlRoot ν κ} {items : List (ν × κ)}
    {isSet : Bool} (hreach : Transition.Reachable goAvl Fresh (cdslAvltreeRootInit factor) start)
    (hitems : (items.map Prod.fst).Nodup) (hnew : ∀ i ∈ items, i.1 ∉ start.bag.map Prod.fst)
    (hrun : Transition.run goAvl start (items.map (.insert · isSet)) = some root) :
    Transition.Reachable goAvl Fresh (cdslAvltreeRootInit factor) root := by
  induction items generalizing start with
  | nil => exact Option.some.inj hrun ▸ hreach
  | cons i items ih =>
    obtain ⟨hi, hitems⟩ := List.nodup_cons.mp hitems
    obtain ⟨u, hstep, hrun⟩ := Transition.run_cons.mp hrun
    have hfresh : Fresh start (.insert i isSet) := by
      rintro _ _ ⟨⟩
      exact hnew i List.mem_cons_self
    refine ih (hreach.next hfresh hstep) hitems (fun j hj hmem => ?_) hrun
    obtain ⟨b, hb, hname⟩ := Multiset.mem_map.mp hmem
    rcases (treeInv_of_reachable hreach).bag_insert hstep hb with rfl | hb
    · exact hi (hname ▸ List.mem_map_of_mem hj)
    · exact hnew j (List.mem_cons_of_mem i hj) (Multiset.mem_map.mpr ⟨b, hb, hname⟩)

/-- The insertion of distinct nodes in a new tree. -/
theorem reachable_inserts {factor : UInt8} (items : List (ν × κ)) (isSet : Bool)
    (hitems : (items.map Prod.fst).Nodup)
    (hrun : Transition.run goAvl (cdslAvltreeRootInit factor) (items.map (.insert · isSet)) =
      some root) :
    Transition.Reachable goAvl Fresh (cdslAvltreeRootInit factor) root :=
  reachable_inserts_of_new .start hitems nofun hrun

end Reachable

end MpegtsReader
