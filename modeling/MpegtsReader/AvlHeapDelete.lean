import MpegtsReader.AvlHeapTurns

/-!
# Deletion in memory

`delete_rc` on trees and on pointers. A node that is taken from one end of a subtree fills the place
of the deleted one.
-/

namespace MpegtsReader

namespace AvlTree

variable {α κ : Type}

theorem settleLeft_mirror (bal : ℤ) (t : AvlTree α κ) :
    settleLeft bal t.mirror = (settleRight bal t).mirror := by
  have hright := settleRight_mirror bal t.mirror
  rw [mirror_mirror] at hright
  rw [hright, mirror_mirror]

end AvlTree

namespace AvlHeap

open AvlTree

variable {α κ : Type} {h h' h'' : AvlHeap α κ} {p p' pl pr : Option α}
  {t t' d l l' r r' leaf : AvlTree α κ} {a c : α} {k key : κ} {v bal : ℤ} {S : List α}

variable [DecidableEq α]

/-- A node is out of a subtree. -/
theorem Yields.onRight (ht : Holds h (some c) (node l c k v r)) (hm : Yields h h' r.items p r' d) :
    Yields h (h'.setRight c p) (node l c k v r).items (some c) (node l c k v r') d := by
  rw [items_node]
  exact Yields.storeRight ht hm ht.apart_right

theorem Yields.onLeft (ht : Holds h (some c) (node l c k v r)) (hm : Yields h h' l.items p l' d) :
    Yields h (h'.setLeft c p) (node l c k v r).items (some c) (node l' c k v r) d := by
  have hleft := Yields.storeLeft ht hm ht.apart_left
  exact hleft.mono fun a => mem_items_swap.mp

/-! ## The node that fills the place -/

theorem makes_settleTakeLeft (bal : ℤ) (ht : Holds h (some c) t) :
    Makes h (h.settleTakeLeft bal c).1 t.items (h.settleTakeLeft bal c).2
      (AvlTree.settleTakeLeft bal t) := by
  have hl := ht.left
  have hr := ht.right
  unfold settleTakeLeft
  rcases t with _ | ⟨_ | ⟨ll, y, ky, vy, lr⟩, x, k, v, _ | ⟨rl, z, kz, vz, rr⟩⟩
  · cases ht
  · rw [show h.left c = none from hl, show h.right c = none from hr]
    exact makes_setHeight ht 1
  · rw [show h.left c = none from hl, hr.1]
    simp only [hr.height_eq, AvlTree.settleTakeLeft]
    split_ifs
    · exact makes_rotateLeft ht
    · exact ht.makes
  · rw [hl.1, show h.right c = none from hr]
    simp only [hl.height_eq]
    exact makes_setHeight ht (vy + 1)
  · rw [hl.1, hr.1]
    simp only [hl.height_eq, hr.height_eq, AvlTree.settleTakeLeft]
    split_ifs
    · exact makes_rotateLeft ht
    · exact ht.makes

/-- A tree is made, and the node `a` is out of it. -/
structure Takes (h h' : AvlHeap α κ) (S : List α) (p : Option α) (t leaf : AvlTree α κ) (a : α) :
    Prop extends Makes h h' S p t where
  mem : a ∈ S
  notMem : a ∉ t.items
  top : leaf.top = some (a, h'.key a)

theorem exists_takeLeftmostRc (bal : ℤ) (ht : Holds h p t) (hne : t ≠ nil) :
    ∃ h' p' a, (∀ fuel > t.items.length, takeLeftmostRc bal fuel h p = some (h', p', some a)) ∧
      Takes h h' t.items p' (AvlTree.takeLeftmostRc bal t).1 (AvlTree.takeLeftmostRc bal t).2
        a := by
  induction t generalizing p with
  | nil => exact absurd rfl hne
  | node l c k v r ih _ =>
    have hapart := ht.2.1
    obtain rfl := ht.1
    have hl := ht.left
    cases l with
    | nil =>
      have hleft : h.left c = none := hl
      have hr : Holds h (h.right c) r := ht.right
      refine ⟨h, h.right c, c, fun fuel hfuel => ?_,
        hr.makes.mono fun a ha => by simp [ha], by simp, hapart.2.1, ?_⟩
      · obtain ⟨fuel, rfl⟩ := Nat.exists_eq_add_one_of_ne_zero (Nat.ne_zero_of_lt hfuel)
        rw [takeLeftmostRc, hleft]
        rfl
      · rw [ht.key_eq]
        rfl
    | node ll y ky vy lr =>
      have hleft : h.left c = some y := hl.1
      rw [hleft] at hl
      obtain ⟨h₁, pl, a, hheap, htakes⟩ := ih hl node_ne_nil
      have hstore := Makes.onLeft ht htakes.toMakes
      have hsettle := makes_settleTakeLeft bal hstore.holds
      obtain ⟨-, hmem, hnot, htop⟩ := htakes
      have hac : a ≠ c := (ht.apart_left a hmem).1
      have hout : a ∉ (node (AvlTree.takeLeftmostRc bal (node ll y ky vy lr)).1 c k v r).items := by
        grind
      refine ⟨_, _, a, fun fuel hfuel => ?_, hstore.trans hsettle, by grind,
        mt (hsettle.sub a) hout, ?_⟩
      · obtain ⟨fuel, rfl⟩ := Nat.exists_eq_add_one_of_ne_zero (Nat.ne_zero_of_lt hfuel)
        rw [takeLeftmostRc, hleft, hheap fuel (length_left_lt hfuel)]
        rfl
      · have hkey : ((h₁.setLeft c pl).settleTakeLeft bal c).1.key a = h₁.key a := by
          rw [AvlHeap.key, hsettle.frame a hout, setLeft, cell_set, if_neg hac]
          rfl
        rw [hkey]
        exact htop

theorem mirror_settleTakeLeft (h : AvlHeap α κ) (bal : ℤ) (c : α) :
    h.mirror.settleTakeLeft bal c = Prod.map mirror id (h.settleTakeRight bal c) := by
  unfold settleTakeLeft settleTakeRight
  simp only [left_mirror, right_mirror, height_mirror, ← mirror_setHeight, mirror_rotateLeft]
  cases h.left c <;> cases h.right c
  · rfl
  · rfl
  · simp only
    split_ifs <;> rfl
  · simp only
    split_ifs <;> rfl

theorem mirror_takeLeftmostRc (bal : ℤ) (fuel : ℕ) (h : AvlHeap α κ) (p : Option α) :
    takeLeftmostRc bal fuel h.mirror p =
      (takeRightmostRc bal fuel h p).map (Prod.map mirror id) := by
  induction fuel generalizing h p with
  | zero => rfl
  | succ fuel ih =>
    cases p with
    | none => rfl
    | some c =>
      rw [takeLeftmostRc, takeRightmostRc, left_mirror, right_mirror, ih]
      split_ifs
      · rfl
      · cases takeRightmostRc bal fuel h (h.right c) with
        | none => rfl
        | some r => simp [← mirror_setRight, mirror_settleTakeLeft]

/-- A node that was taken from the right fills the place of `c`. -/
theorem yields_moveLinks (ht : Holds h (some c) (node l c k v r))
    (hm : Takes h h' r.items p r' leaf a) (hleaf : setLinks l v r' leaf = some t') :
    Yields h ((h'.setRight c p).moveLinks c a) (node l c k v r).items (some a) t'
      (node nil c k v nil) := by
  rcases leaf with _ | ⟨ll, a', ka, va, lr⟩
  · cases hleaf
  obtain ⟨rfl, hka⟩ := Prod.mk.inj (Option.some.inj hm.top)
  cases hleaf
  obtain ⟨-, hapart, pl, pr, hc, hl, -⟩ := ht
  obtain ⟨⟨hr', hsub, hframe⟩, hmem, hnot, -⟩ := hm
  have hac : a' ≠ c := by grind
  have hc' : h'.cell c = ⟨pl, pr, k, v⟩ := (hframe c hapart.2.1).trans hc
  have hcell (b : α) : ((h'.setRight c p).moveLinks c a').cell b =
      if b = a' then ⟨pl, p, ka, v⟩ else if b = c then ⟨none, none, k, v⟩ else h'.cell b := by
    simp only [moveLinks, setHeight, setRight, setLeft, cell_set, left, right, height, hc',
      if_neg hac, if_neg hac.symm, if_true, hka, AvlHeap.key]
    split_ifs <;> simp_all
  refine ⟨⟨⟨rfl, by grind, pl, p, ?_, hl.congr ?_, hr'.congr ?_⟩, ?_, ?_⟩, ?_, ?_⟩
  all_goals grind [Shows, pointer, top]

theorem exists_fillFromRight (ht : Holds h (some c) (node l c k v r)) (hne : r ≠ nil)
    (heq : AvlTree.fillFromRight bal l v r = some t') :
    ∃ h' a, (∀ fuel > r.items.length, h.fillFromRight bal fuel c = some (h', a)) ∧
      Yields h h' (node l c k v r).items (some a) t' (node nil c k v nil) := by
  have hr : Holds h (h.right c) r := ht.right
  obtain ⟨h₁, p, a, hheap, htakes⟩ := exists_takeLeftmostRc bal hr hne
  refine ⟨_, a, fun fuel hfuel => ?_, yields_moveLinks ht htakes heq⟩
  rw [fillFromRight, hheap fuel hfuel]
  rfl

theorem mirror_moveLinks (h : AvlHeap α κ) (c a : α) :
    (h.moveLinks c a).mirror = h.mirror.moveLinks c a := by
  ext b : 2
  simp only [moveLinks, setHeight, setRight, setLeft, AvlHeap.mirror, left, right, height,
    AvlHeap.key, cell_set]
  split_ifs <;> simp_all

theorem mirror_fillFromRight (h : AvlHeap α κ) (bal : ℤ) (fuel : ℕ) (c : α) :
    h.mirror.fillFromRight bal fuel c =
      (h.fillFromLeft bal fuel c).map (Prod.map mirror id) := by
  rw [fillFromRight, fillFromLeft, right_mirror, mirror_takeLeftmostRc]
  rcases takeRightmostRc bal fuel h (h.left c) with _ | ⟨h₁, p, _ | a⟩
  · rfl
  · rfl
  · simp [← mirror_setLeft, mirror_moveLinks]

theorem exists_fillFromLeft (ht : Holds h (some c) (node l c k v r)) (hne : l ≠ nil)
    (heq : AvlTree.fillFromLeft bal l v r = some t') :
    ∃ h' a, (∀ fuel > l.items.length, h.fillFromLeft bal fuel c = some (h', a)) ∧
      Yields h h' (node l c k v r).items (some a) t' (node nil c k v nil) := by
  have hmirror := fillFromRight_mirror bal v l r
  rw [heq] at hmirror
  obtain ⟨h', a, hheap, hyields⟩ := exists_fillFromRight ht.mirror (mirror_ne_nil hne) hmirror
  refine ⟨h'.mirror, a, fun fuel hfuel => ?_,
    Yields.of_mirror (t := node l c k v r) (d := node nil c k v nil) hyields⟩
  rw [← map_mirror_eq_some, ← mirror_fillFromRight]
  exact hheap fuel (length_items_mirror l ▸ hfuel)

/-! ## Deletion -/

/-- The place of the deleted node is filled, and the height is set. -/
theorem exists_fill_setMax {bound : ℕ} {fill : ℕ → Option (AvlHeap α κ × α)}
    {fill' : Option (AvlTree α κ)}
    (hfill : ∀ t, fill' = some t → ∃ h' a, (∀ fuel > bound, fill fuel = some (h', a)) ∧
      Yields h h' S (some a) t (node nil c k v nil))
    (heq : (do
      let t ← fill'
      some (t.setHeight (t.maxChildHeight + 1), node nil c k v nil)) = some (t', d)) :
    ∃ h' p', (∀ fuel > bound, (do
        let (h, c) ← fill fuel
        some (h.setMax c, some c)) = some (h', p')) ∧ d.pointer = some c ∧
      Yields h h' S p' t' d := by
  obtain ⟨t, ht, hres⟩ := Option.bind_eq_some_iff.mp heq
  cases hres
  obtain ⟨h₁, a, hheap, hyields⟩ := hfill t ht
  refine ⟨_, _, fun fuel hfuel => ?_, rfl, hyields.trans (makes_setMax hyields.holds)⟩
  rw [hheap fuel hfuel]
  rfl

theorem exists_deleteFound (ht : Holds h (some c) t)
    (heq : AvlTree.deleteFound bal none t = some (t', d)) :
    ∃ h' p', (∀ fuel ≥ t.items.length, h.deleteFound bal fuel c = some (h', p')) ∧
      d.pointer = some c ∧ Yields h h' t.items p' t' d := by
  have hl := ht.left
  have hr := ht.right
  unfold deleteFound
  rcases t with _ | ⟨l, x, k, v, r⟩
  · cases ht
  obtain rfl := Option.some.inj ht.1
  rcases l with _ | ⟨ll, y, ky, vy, lr⟩ <;> rcases r with _ | ⟨rl, z, kz, vz, rr⟩
  · rw [show h.left c = none from hl, show h.right c = none from hr]
    cases heq
    exact ⟨h, none, fun _ _ => rfl, rfl, ⟨rfl, nofun, fun _ _ => rfl⟩, ht.shows,
      fun a ha => mem_pointer_node.mp ha ▸ ⟨by simp, nofun⟩⟩
  · rw [show h.left c = none from hl, hr.1]
    obtain ⟨h', p', hheap, hrest⟩ := exists_fill_setMax
      (fun _ => exists_fillFromRight ht node_ne_nil) heq
    exact ⟨h', p', fun fuel hfuel => hheap fuel (length_right_lt (Nat.lt_succ_of_le hfuel)), hrest⟩
  · rw [hl.1, show h.right c = none from hr]
    obtain ⟨h', p', hheap, hrest⟩ := exists_fill_setMax
      (fun _ => exists_fillFromLeft ht node_ne_nil) heq
    exact ⟨h', p', fun fuel hfuel => hheap fuel (length_left_lt (Nat.lt_succ_of_le hfuel)), hrest⟩
  · rw [hl.1, hr.1]
    obtain ⟨h', p', hheap, hrest⟩ := exists_fill_setMax
      (fun _ => exists_fillFromRight ht node_ne_nil) heq
    exact ⟨h', p', fun fuel hfuel => hheap fuel (length_right_lt (Nat.lt_succ_of_le hfuel)), hrest⟩

theorem makes_settleLeft (bal : ℤ) (ht : Holds h (some c) t) :
    Makes h (h.settleLeft bal c).1 t.items (h.settleLeft bal c).2
      (AvlTree.settleLeft bal t) := by
  have hl := ht.left
  have hr := ht.right
  unfold settleLeft
  rcases t with _ | ⟨_ | ⟨ll, y, ky, vy, lr⟩, x, k, v, _ | ⟨rl, z, kz, vz, rr⟩⟩
  · cases ht
  · rw [show h.left c = none from hl, show h.right c = none from hr]
    exact makes_setHeight ht 1
  · rw [show h.left c = none from hl, hr.1]
    have hset := makes_setHeight ht (vz + 1)
    have hr' := hset.holds.right
    simp only [hr.height_eq, AvlTree.settleLeft, hr'.height_eq]
    split_ifs
    · exact hset.trans (makes_raiseRight hset.holds hr'.1)
    · exact hset
  · rw [hl.1, show h.right c = none from hr]
    simp only [hl.height_eq]
    exact makes_setHeight ht (vy + 1)
  · rw [hl.1, hr.1]
    simp only [hl.height_eq, hr.height_eq, AvlTree.settleLeft]
    generalize (if vz > vy then vz + 1 else vy + 1) = w
    have hset := makes_setHeight ht w
    have hl' := hset.holds.left
    have hr' := hset.holds.right
    simp only [hl'.height_eq, hr'.height_eq]
    split_ifs
    · exact hset.trans (makes_raiseRight hset.holds hr'.1)
    · exact hset

theorem mirror_settleLeft (h : AvlHeap α κ) (bal : ℤ) (c : α) :
    h.mirror.settleLeft bal c = Prod.map mirror id (h.settleRight bal c) := by
  unfold settleLeft settleRight
  simp only [left_mirror, right_mirror]
  rcases h.left c with _ | y <;> rcases h.right c with _ | z
  · simp [← mirror_setHeight]
  · simp [← mirror_setHeight, height_mirror]
  · simp only [height_mirror, ← mirror_setHeight, mirror_raiseRight]
    split_ifs <;> rfl
  · have hmax : (if h.mirror.height y > h.mirror.height z then h.mirror.height y + 1
        else h.mirror.height z + 1) =
        if h.height z > h.height y then h.height z + 1 else h.height y + 1 := by
      rw [height_mirror, height_mirror]
      split_ifs <;> omega
    dsimp only
    rw [hmax]
    generalize (if h.height z > h.height y then h.height z + 1 else h.height y + 1) = w
    simp only [height_mirror, ← mirror_setHeight, mirror_raiseRight]
    split_ifs <;> rfl

theorem makes_settleRight (bal : ℤ) (ht : Holds h (some c) t) :
    Makes h (h.settleRight bal c).1 t.items (h.settleRight bal c).2
      (AvlTree.settleRight bal t) := by
  have hmakes := makes_settleLeft bal ht.mirror
  rw [mirror_settleLeft, settleLeft_mirror] at hmakes
  exact hmakes.of_mirror

/-- **Deletion.** Where it has a result on trees, it has it in memory. -/
theorem exists_deleteRc [LinearOrder κ] (ht : Holds h p t)
    (heq : AvlTree.deleteRc bal key none t = some (t', d)) :
    ∃ h' p', (∀ fuel > t.items.length, deleteRc bal key fuel h p = some (h', p', d.pointer)) ∧
      Yields h h' t.items p' t' d := by
  induction t generalizing p t' d with
  | nil =>
    obtain rfl := ht
    cases heq
    refine ⟨h, none, fun fuel hfuel => ?_, ⟨rfl, nofun, fun _ _ => rfl⟩, trivial, nofun⟩
    obtain ⟨fuel, rfl⟩ := Nat.exists_eq_add_one_of_ne_zero (Nat.ne_zero_of_lt hfuel)
    rfl
  | node l c k v r ihl ihr =>
    obtain rfl := ht.1
    have hkey := ht.key_eq
    simp only [AvlTree.deleteRc] at heq
    split_ifs at heq with hgt hlt
    · obtain ⟨⟨l', d'⟩, hrec, hres⟩ := Option.bind_eq_some_iff.mp heq
      cases hres
      obtain ⟨h₁, pl, hheap, hyields⟩ := ihl ht.left hrec
      have hstore := hyields.onLeft ht
      refine ⟨_, _, fun fuel hfuel => ?_, hstore.trans (makes_settleLeft bal hstore.holds)⟩
      obtain ⟨fuel, rfl⟩ := Nat.exists_eq_add_one_of_ne_zero (Nat.ne_zero_of_lt hfuel)
      rw [deleteRc, hkey, if_pos hgt, hheap fuel (length_left_lt hfuel)]
      rfl
    · obtain ⟨⟨r', d'⟩, hrec, hres⟩ := Option.bind_eq_some_iff.mp heq
      cases hres
      obtain ⟨h₁, pr, hheap, hyields⟩ := ihr ht.right hrec
      have hstore := hyields.onRight ht
      refine ⟨_, _, fun fuel hfuel => ?_, hstore.trans (makes_settleRight bal hstore.holds)⟩
      obtain ⟨fuel, rfl⟩ := Nat.exists_eq_add_one_of_ne_zero (Nat.ne_zero_of_lt hfuel)
      rw [deleteRc, hkey, if_neg hgt, if_pos hlt, hheap fuel (length_right_lt hfuel)]
      rfl
    · obtain ⟨h', p', hheap, hpointer, hyields⟩ := exists_deleteFound ht heq
      refine ⟨h', p', fun fuel hfuel => ?_, hyields⟩
      obtain ⟨fuel, rfl⟩ := Nat.exists_eq_add_one_of_ne_zero (Nat.ne_zero_of_lt hfuel)
      rw [deleteRc, hkey, if_neg hgt, if_neg hlt, hheap fuel (Nat.le_of_lt_succ hfuel), hpointer]
      rfl

end AvlHeap

end MpegtsReader
