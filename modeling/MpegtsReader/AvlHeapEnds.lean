import MpegtsReader.AvlHeapDelete
import MpegtsReader.AvlDelete

/-!
# Deletion at the ends, in memory

`delete_lm_rc` and `delete_rm_rc` on trees and on pointers. The pointer to the deleted node is
handed down, so that the call on `NULL` leaves it as it is.
-/

namespace MpegtsReader

namespace AvlTree

variable {α κ : Type} {t : AvlTree α κ}

theorem raiseRight_ne_nil (ht : t ≠ nil) : t.raiseRight ≠ nil := by
  rw [ne_eq, ← nodes_eq_nil_iff, (rearranges_raiseRight t).nodes, nodes_eq_nil_iff]
  exact ht

end AvlTree

namespace AvlHeap

open AvlTree

variable {α κ : Type} [DecidableEq α] {h h' : AvlHeap α κ} {p p' : Option α}
  {t t' u d l r : AvlTree α κ} {c y : α} {k : κ} {v bal : ℤ} {S : List α}

omit [DecidableEq α] in
/-- A rotation that is made or not. -/
theorem makes_ite {q : Prop} [Decidable q] {turned : AvlHeap α κ × Option α}
    (hturned : Makes h turned.1 S turned.2 u) (hkept : Makes h h S p t) :
    Makes h (if q then turned else (h, p)).1 S (if q then turned else (h, p)).2
      (if q then u else t) := by
  split_ifs
  · exact hturned
  · exact hkept

theorem exists_settleOnlyRight (ht : Holds h (some c) t) (hy : h.right c = some y)
    (heq : AvlTree.settleOnlyRight bal (h.height y) t = some t') :
    ∃ h' p', h.settleOnlyRight bal c y = some (h', p') ∧ Makes h h' t.items p' t' := by
  have hmakes := makes_ite (q := h.height y > bal) (makes_raiseRight ht hy) ht.makes
  obtain ⟨w, hw, hres⟩ := Option.bind_eq_some_iff.mp heq
  cases hres
  simp only [settleOnlyRight]
  generalize (if h.height y > bal then t.raiseRight else t) = u at hmakes hw ⊢
  generalize (if h.height y > bal then h.raiseRight c y else (h, some c)) = res at hmakes ⊢
  obtain ⟨h₁, p₁⟩ := res
  rcases u with _ | ⟨l, c₁, k, v, _ | ⟨rl, z, kz, vz, rr⟩⟩
  · cases hw
  · cases hw
  · obtain rfl := Option.some.inj hw
    obtain rfl : p₁ = some c₁ := hmakes.holds.1
    have hright := hmakes.holds.right
    simp only [Option.bind_eq_bind, Option.bind_some, hright.1, hright.height_eq]
    exact ⟨_, _, rfl, hmakes.trans (makes_setHeight hmakes.holds (vz + 1))⟩

theorem mirror_settleOnlyRight (h : AvlHeap α κ) (bal : ℤ) (c y : α) :
    h.mirror.settleOnlyRight bal c y =
      (h.settleOnlyLeft bal c y).map (Prod.map mirror id) := by
  have hraise : (if h.mirror.height y > bal then h.mirror.raiseRight c y else (h.mirror, some c)) =
      Prod.map mirror id (if h.height y > bal then h.raiseLeft c y else (h, some c)) := by
    rw [height_mirror, mirror_raiseRight]
    split_ifs <;> rfl
  simp only [settleOnlyRight, settleOnlyLeft, hraise]
  generalize (if h.height y > bal then h.raiseLeft c y else (h, some c)) = res
  rcases res with ⟨h₁, _ | c₁⟩
  · rfl
  · simp only [Prod.map, id, Option.bind_eq_bind, Option.bind_some, right_mirror, height_mirror,
      ← mirror_setHeight]
    cases h₁.left c₁ <;> rfl

theorem exists_settleOnlyLeft (ht : Holds h (some c) t) (hy : h.left c = some y)
    (heq : AvlTree.settleOnlyLeft bal (h.height y) t = some t') :
    ∃ h' p', h.settleOnlyLeft bal c y = some (h', p') ∧ Makes h h' t.items p' t' := by
  have hmirror := settleOnlyRight_mirror bal (h.height y) t
  rw [heq] at hmirror
  obtain ⟨h', p', hheap, hmakes⟩ := exists_settleOnlyRight ht.mirror hy hmirror
  rw [mirror_settleOnlyRight] at hheap
  obtain ⟨⟨h₁, p₁⟩, hleft, hres⟩ := Option.map_eq_some_iff.mp hheap
  cases hres
  exact ⟨h₁, _, hleft, hmakes.of_mirror⟩

theorem exists_settleLm (ht : Holds h (some c) t) (heq : t.settleLm bal = some t') :
    ∃ h' p', h.settleLm bal c = some (h', p') ∧ Makes h h' t.items p' t' := by
  have hl := ht.left
  have hr := ht.right
  unfold settleLm
  rcases t with _ | ⟨_ | ⟨ll, y, ky, vy, lr⟩, x, k, v, _ | ⟨rl, z, kz, vz, rr⟩⟩
  · cases ht
  · rw [show h.left c = none from hl, show h.right c = none from hr]
    cases heq
    exact ⟨_, _, rfl, makes_setHeight ht 1⟩
  · rw [show h.left c = none from hl, hr.1]
    exact exists_settleOnlyRight ht hr.1 (by rwa [hr.height_eq])
  · rw [hl.1, show h.right c = none from hr]
    exact exists_settleOnlyLeft ht hl.1 (by rwa [hl.height_eq])
  · have hmakes := makes_ite (q := vz - vy > bal) (makes_raiseRight ht hr.1) ht.makes
    cases heq
    simp only [hl.1, hr.1, hl.height_eq, hr.height_eq]
    generalize hu : (if vz - vy > bal then AvlTree.raiseRight _ else _) = u at hmakes ⊢
    generalize (if vz - vy > bal then h.raiseRight c z else (h, some c)) = res at hmakes ⊢
    obtain ⟨h₁, p₁⟩ := res
    cases u with
    | nil =>
      split_ifs at hu
      exact absurd hu (raiseRight_ne_nil node_ne_nil)
    | node ul c₁ ku vu ur =>
      obtain rfl : p₁ = some c₁ := hmakes.holds.1
      exact ⟨_, _, rfl, hmakes.trans (makes_setMax hmakes.holds)⟩

theorem mirror_settleOnlyLeft (h : AvlHeap α κ) (bal : ℤ) (c y : α) :
    h.mirror.settleOnlyLeft bal c y =
      (h.settleOnlyRight bal c y).map (Prod.map mirror id) := by
  have hright := mirror_settleOnlyRight h.mirror bal c y
  rw [mirror_mirror] at hright
  rw [hright]
  cases h.mirror.settleOnlyLeft bal c y <;> rfl

theorem mirror_settleLm (h : AvlHeap α κ) (bal : ℤ) (c : α) :
    h.mirror.settleLm bal c = (h.settleRm bal c).map (Prod.map mirror id) := by
  unfold settleLm settleRm
  simp only [left_mirror, right_mirror]
  rcases h.left c with _ | y <;> rcases h.right c with _ | z
  · simp [← mirror_setHeight]
  · exact mirror_settleOnlyLeft h bal c z
  · exact mirror_settleOnlyRight h bal c y
  · have hraise : (if h.mirror.height y - h.mirror.height z > bal then h.mirror.raiseRight c y
        else (h.mirror, some c)) =
        Prod.map mirror id (if h.height y - h.height z > bal then h.raiseLeft c y
          else (h, some c)) := by
      rw [height_mirror, height_mirror, mirror_raiseRight]
      split_ifs <;> rfl
    simp only [hraise]
    generalize (if h.height y - h.height z > bal then h.raiseLeft c y else (h, some c)) = res
    rcases res with ⟨h₁, _ | c₁⟩
    · rfl
    · simp [mirror_setMax]

omit [DecidableEq α] in
theorem eq_of_fillFromRight_nil {a : α} (ht : Holds h (some a) t)
    (heq : AvlTree.fillFromRight bal nil v r = some t) :
    ∃ ka r', t = node nil a ka v r' := by
  have hlinks : setLinks nil v (AvlTree.takeLeftmostRc bal r).1 (AvlTree.takeLeftmostRc bal r).2 =
      some t := heq
  generalize (AvlTree.takeLeftmostRc bal r).2 = leaf at hlinks
  cases leaf with
  | nil => cases hlinks
  | node ll a' ka va lr =>
    cases hlinks
    obtain rfl := Option.some.inj ht.1
    exact ⟨ka, _, rfl⟩

/-- **Deletion of a smallest node.** Where it has a result on trees, it has it in memory. -/
theorem exists_deleteLmRc (ht : Holds h p t)
    (heq : AvlTree.deleteLmRc bal none t = some (t', d)) :
    ∃ h' p', (∀ fuel > t.items.length, deleteLmRc bal fuel h p none = some (h', p', d.pointer)) ∧
      Yields h h' t.items p' t' d := by
  induction t generalizing p t' d with
  | nil =>
    obtain rfl := ht
    cases heq
    refine ⟨h, none, fun fuel hfuel => ?_, ⟨rfl, nofun, fun _ _ => rfl⟩, trivial, nofun⟩
    obtain ⟨fuel, rfl⟩ := Nat.exists_eq_add_one_of_ne_zero (Nat.ne_zero_of_lt hfuel)
    rfl
  | node l c k v r ih _ =>
    obtain rfl := ht.1
    have hl := ht.left
    have hr := ht.right
    cases l with
    | nil =>
      have hleft : h.left c = none := hl
      cases r with
      | nil =>
        have hright : h.right c = none := hr
        cases heq
        refine ⟨h, none, fun fuel hfuel => ?_, ⟨rfl, nofun, fun _ _ => rfl⟩, ht.shows,
          fun a ha => mem_pointer_node.mp ha ▸ ⟨by simp, nofun⟩⟩
        obtain ⟨fuel, rfl⟩ := Nat.exists_eq_add_one_of_ne_zero (Nat.ne_zero_of_lt hfuel)
        rw [deleteLmRc, hleft, hright]
        rfl
      | node rl z kz vz rr =>
        obtain ⟨t₁, hfill, hrest⟩ := Option.bind_eq_some_iff.mp heq
        obtain ⟨t₂, hsettle, hres⟩ := Option.bind_eq_some_iff.mp hrest
        cases hres
        obtain ⟨h₁, a, hheap, hyields⟩ := exists_fillFromRight ht node_ne_nil hfill
        -- on the left of the node that fills the place there is nothing to delete
        obtain ⟨ka, r', rfl⟩ := eq_of_fillFromRight_nil hyields.holds hfill
        have hnone : h₁.left a = none := hyields.holds.left
        have hstore := hyields.trans (Makes.onLeft hyields.holds (Holds.makes (t := nil) rfl))
        obtain ⟨h₂, p', hheap', hmakes⟩ := exists_settleLm hstore.holds hsettle
        refine ⟨h₂, p', fun fuel hfuel => ?_, hstore.trans hmakes⟩
        obtain ⟨fuel, rfl⟩ := Nat.exists_eq_add_one_of_ne_zero (Nat.ne_zero_of_lt hfuel)
        have hfuel' : (node rl z kz vz rr).items.length < fuel := length_right_lt hfuel
        rw [deleteLmRc, hleft, hr.1]
        simp only [hheap fuel hfuel', Option.bind_eq_bind, Option.bind_some, hnone]
        obtain ⟨fuel, rfl⟩ := Nat.exists_eq_add_one_of_ne_zero (Nat.ne_zero_of_lt hfuel')
        simp only [deleteLmRc, Option.bind_some, hheap']
        rfl
    | node ll y ky vy lr =>
      have hleft : h.left c = some y := hl.1
      rw [hleft] at hl
      obtain ⟨⟨l', d'⟩, hrec, hrest⟩ := Option.bind_eq_some_iff.mp heq
      obtain ⟨t₂, hsettle, hres⟩ := Option.bind_eq_some_iff.mp hrest
      cases hres
      obtain ⟨h₁, pl, hheap, hyields⟩ := ih hl hrec
      have hstore := hyields.onLeft ht
      obtain ⟨h₂, p', hheap', hmakes⟩ := exists_settleLm hstore.holds hsettle
      refine ⟨h₂, p', fun fuel hfuel => ?_, hstore.trans hmakes⟩
      obtain ⟨fuel, rfl⟩ := Nat.exists_eq_add_one_of_ne_zero (Nat.ne_zero_of_lt hfuel)
      rw [deleteLmRc, hleft, hheap fuel (length_left_lt hfuel)]
      simp [hheap']

/-- From the recursive call on. -/
theorem mirror_store_settleLm (res : Option (AvlHeap α κ × Option α × Option α)) (bal : ℤ) (c : α) :
    (do
      let (h, l, deleted) ← res.map (Prod.map mirror id)
      let (h, p) ← (h.setLeft c l).settleLm bal c
      some (h, p, deleted)) =
    (do
      let (h, r, deleted) ← res
      let (h, p) ← (h.setRight c r).settleRm bal c
      some (h, p, deleted)).map (Prod.map mirror id) := by
  rcases res with _ | ⟨h, r, deleted⟩
  · rfl
  · simp only [Option.map_some, Option.bind_eq_bind, Option.bind_some, Prod.map, id,
      ← mirror_setRight, mirror_settleLm]
    cases (h.setRight c r).settleRm bal c <;> rfl

theorem mirror_deleteLmRc (bal : ℤ) (fuel : ℕ) (h : AvlHeap α κ) (p q : Option α) :
    deleteLmRc bal fuel h.mirror p q =
      (deleteRmRc bal fuel h p q).map (Prod.map mirror id) := by
  induction fuel generalizing h p q with
  | zero => rfl
  | succ fuel ih =>
    cases p with
    | none => rfl
    | some c =>
      unfold deleteLmRc deleteRmRc
      simp only [left_mirror, right_mirror, mirror_fillFromRight, ih]
      rcases h.right c with _ | z
      · rcases h.left c with _ | y
        · rfl
        · cases h.fillFromLeft bal fuel c with
          | none => rfl
          | some r =>
            simp only [Option.map_some, Option.bind_eq_bind, Option.bind_some, Prod.map, id,
              left_mirror, ih]
            exact mirror_store_settleLm _ bal r.2
      · rcases h.left c with _ | y <;> exact mirror_store_settleLm _ bal c

/-- **Deletion of a largest node.** -/
theorem exists_deleteRmRc (ht : Holds h p t)
    (heq : AvlTree.deleteRmRc bal none t = some (t', d)) :
    ∃ h' p', (∀ fuel > t.items.length, deleteRmRc bal fuel h p none = some (h', p', d.pointer)) ∧
      Yields h h' t.items p' t' d := by
  have hmirror := AvlTree.deleteLmRc_mirror bal t
  rw [heq] at hmirror
  obtain ⟨h', p', hheap, hyields⟩ := exists_deleteLmRc ht.mirror hmirror
  refine ⟨h'.mirror, p', fun fuel hfuel => ?_, hyields.of_mirror⟩
  rw [← map_mirror_eq_some, ← mirror_deleteLmRc, ← pointer_mirror]
  exact hheap fuel (length_items_mirror t ▸ hfuel)

end AvlHeap

end MpegtsReader
