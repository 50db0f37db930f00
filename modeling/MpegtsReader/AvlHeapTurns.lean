import MpegtsReader.AvlHeapHolds
import MpegtsReader.AvlMirror

/-!
# Rotations in memory

The rotations of nodes in memory make the rotations of the tree that they hold. On the left they
are those on the right in the mirror image of the memory.
-/

namespace MpegtsReader

namespace AvlHeap

open AvlTree

variable {α κ : Type} [DecidableEq α] {h h' : AvlHeap α κ} {p : Option α}
  {t l r r' : AvlTree α κ} {a c : α} {k : κ} {v : ℤ}

/-- The stores of `rotate_right`, but for the last one. -/
theorem makes_turn {ll lr : AvlTree α κ} {y : α} {ky : κ} {hy w : ℤ}
    (ht : Holds h (some c) (node (node ll y ky hy lr) c k v r)) :
    Makes h (((h.setLeft c (h.right y)).setRight y (some c)).setHeight y w)
      (node (node ll y ky hy lr) c k v r).items (some y) (node ll y ky w (node lr c k v r)) := by
  obtain ⟨-, hapart, _, pr, hc, ⟨rfl, hapart', pll, plr, hy, hll, hlr⟩, hr⟩ := ht
  have hyc : y ≠ c := by grind
  have hcell (a : α) : (((h.setLeft c (h.right y)).setRight y (some c)).setHeight y w).cell a =
      if a = y then ⟨pll, some c, ky, w⟩ else if a = c then ⟨plr, pr, k, v⟩ else h.cell a := by
    simp only [setHeight, setRight, setLeft, cell_set, right, hy, hc, if_neg hyc]
    split_ifs <;> rfl
  refine ⟨⟨rfl, ?_, pll, some c, ?_, hll.congr ?_, rfl, ?_, plr, pr, ?_, hlr.congr ?_,
    hr.congr ?_⟩, ?_, ?_⟩
  all_goals grind

theorem makes_rotateRight (ht : Holds h p t) :
    Makes h (h.rotateRight p).1 t.items (h.rotateRight p).2 t.rotateRight := by
  rcases t with _ | ⟨_ | ⟨ll, y, ky, vy, lr⟩, c, k, v, r⟩
  · obtain rfl := ht
    exact Holds.makes rfl
  · obtain rfl := ht.1
    have hleft : h.left c = none := ht.left
    simp only [rotateRight, hleft]
    exact ht.makes
  · obtain rfl := ht.1
    obtain ⟨hleft, -, pll, plr, hy, hll, -⟩ := ht.left
    have hyc : y ≠ c := by
      have hapart := ht.2.1
      grind
    have hleft' : ((h.setLeft c (h.right y)).setRight y (some c)).left y = pll := by
      simp [left, setRight, setLeft, hyc, hy]
    -- the height of `nroot` is read off the node that was below it before
    have hmakes (w : ℤ) : Makes h
        ((((h.setLeft c (h.right y)).setRight y (some c)).setHeight y w).setMax c)
        (node (node ll y ky vy lr) c k v r).items (some y)
        (node ll y ky w ((node lr c k v r).setHeight ((node lr c k v r).maxChildHeight + 1))) := by
      have hturn := makes_turn (w := w) ht
      have hright : Holds _ _ (node lr c k v r) := hturn.holds.right
      have hc := hright.1
      rw [hc] at hright
      exact hturn.trans (hturn.holds.inRight hc (makes_setMax hright))
    simp only [rotateRight, hleft, hleft']
    cases ll with
    | nil =>
      obtain rfl := hll
      exact hmakes 1
    | node lll z kz vz llr =>
      obtain ⟨rfl, -, _, _, hz, -⟩ := hll
      have hzc : z ≠ c ∧ z ≠ y := by
        have hapart := ht.2.1
        have hapart' := ht.left.2.1
        grind
      have hheight : ((h.setLeft c (h.right y)).setRight y (some c)).height z = vz := by
        simp [height, setRight, setLeft, hzc, hz]
      simp only [hheight]
      exact hmakes (vz + 1)

omit [DecidableEq α] in
theorem mirror_maxChildHeight (h : AvlHeap α κ) (node : α) :
    h.mirror.maxChildHeight node = h.maxChildHeight node := by
  unfold maxChildHeight
  simp only [left_mirror, right_mirror, height_mirror]
  cases h.left node <;> cases h.right node
  · rfl
  · rfl
  · rfl
  · simp only
    split_ifs <;> omega

theorem mirror_setMax (h : AvlHeap α κ) (node : α) :
    h.mirror.setMax node = (h.setMax node).mirror := by
  rw [setMax, setMax, mirror_setHeight, mirror_maxChildHeight]

theorem mirror_rotateRight (h : AvlHeap α κ) (p : Option α) :
    h.mirror.rotateRight p = Prod.map mirror id (h.rotateLeft p) := by
  cases p with
  | none => rfl
  | some c =>
    simp only [rotateRight, rotateLeft, left_mirror, right_mirror]
    cases h.right c with
    | none => rfl
    | some y =>
      simp only [← mirror_setRight, ← mirror_setLeft, left_mirror]
      cases (((h.setRight c (h.left y)).setLeft y (some c)).right y) with
      | none => simp only [← mirror_setHeight, mirror_setMax, Prod.map, id]
      | some z => simp only [← mirror_setHeight, mirror_setMax, height_mirror, Prod.map, id]

theorem mirror_rotateLeft (h : AvlHeap α κ) (p : Option α) :
    h.mirror.rotateLeft p = Prod.map mirror id (h.rotateRight p) := by
  have hmirror := mirror_rotateRight h.mirror p
  rw [mirror_mirror] at hmirror
  rw [hmirror]
  rfl

theorem makes_rotateLeft (ht : Holds h p t) :
    Makes h (h.rotateLeft p).1 t.items (h.rotateLeft p).2 t.rotateLeft := by
  have hmakes := makes_rotateRight ht.mirror
  rw [mirror_rotateRight, rotateRight_mirror] at hmakes
  exact hmakes.of_mirror

theorem makes_doubleLeft (ht : Holds h (some c) (node l c k v r)) :
    Makes h (h.doubleLeft c).1 (node l c k v r).items (h.doubleLeft c).2
      (node l c k v r.rotateRight).rotateLeft := by
  have hright := Makes.onRight ht (makes_rotateRight ht.right)
  exact hright.trans (makes_rotateLeft hright.holds)

theorem makes_doubleRight (ht : Holds h (some c) (node l c k v r)) :
    Makes h (h.doubleRight c).1 (node l c k v r).items (h.doubleRight c).2
      (node l.rotateLeft c k v r).rotateRight := by
  have hleft := Makes.onLeft ht (makes_rotateLeft ht.left)
  exact hleft.trans (makes_rotateRight hleft.holds)

theorem makes_raiseRight {y : α} (ht : Holds h (some c) t) (hy : h.right c = some y) :
    Makes h (h.raiseRight c y).1 t.items (h.raiseRight c y).2 t.raiseRight := by
  rcases t with _ | ⟨l, c', k, v, _ | ⟨rl, y', ky, vy, rr⟩⟩
  · cases ht
  · cases hy.symm.trans ht.right
  · obtain rfl := Option.some.inj ht.1
    have hright := ht.right
    obtain rfl := Option.some.inj (hy.symm.trans hright.1)
    rw [hy] at hright
    have hrr := hright.right
    unfold raiseRight
    cases rr with
    | nil =>
      have hnone : h.right y = none := hrr
      rw [hnone]
      exact makes_doubleLeft ht
    | node rrl z kz vz rrr =>
      rw [hrr.1]
      exact makes_rotateLeft ht

theorem mirror_doubleLeft (h : AvlHeap α κ) (c : α) :
    h.mirror.doubleLeft c = Prod.map mirror id (h.doubleRight c) := by
  simp only [doubleLeft, doubleRight, right_mirror, mirror_rotateRight, Prod.map, id,
    ← mirror_setLeft, mirror_rotateLeft]

theorem mirror_raiseRight (h : AvlHeap α κ) (c y : α) :
    h.mirror.raiseRight c y = Prod.map mirror id (h.raiseLeft c y) := by
  rw [raiseRight, raiseLeft, right_mirror, mirror_doubleLeft, mirror_rotateLeft]
  split_ifs <;> rfl

end AvlHeap

end MpegtsReader
