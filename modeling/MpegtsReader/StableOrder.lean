import Mathlib.Data.List.Induction
import Mathlib.Data.List.Perm.Lattice
import Mathlib.Data.List.TakeWhile

/-!
# Stable order by priority

`le a b` says that the priority of `b` is at least that of `a`. `IsStable le arrivals q` says that
`q` has the elements of `arrivals` by descending priority, and those of equal priority in the order
in which they arrived. There is one such sequence (`isStable_unique`), and it is kept up by putting
a new element before the first whose priority is lower (`isStable_order`).
-/

namespace StableOrder

variable {α : Type} {le : α → α → Prop}

/-- The elements by descending priority, and in the order of arrival where that is equal. -/
structure IsStable (le : α → α → Prop) (arrivals q : List α) : Prop where
  perm : q.Perm arrivals
  sorted : q.Pairwise fun a b => le b a
  stable : q.Pairwise fun a b => le a b → [a, b].Sublist arrivals

section Insert

variable [DecidableRel le]

/-- Put an element before the first of lower priority. -/
def insert (le : α → α → Prop) [DecidableRel le] (x : α) (q : List α) : List α :=
  q.takeWhile (fun a => le x a) ++ x :: q.dropWhile (fun a => le x a)

/-- The elements in the order in which they are served. -/
def order (le : α → α → Prop) [DecidableRel le] (arrivals : List α) : List α :=
  arrivals.foldl (fun q x => insert le x q) []

theorem order_concat (arrivals : List α) (x : α) :
    order le (arrivals ++ [x]) = insert le x (order le arrivals) := by
  rw [order, List.foldl_append]
  rfl

theorem perm_insert (x : α) (q : List α) : (insert le x q).Perm (x :: q) := by
  refine List.perm_middle.trans ?_
  rw [List.takeWhile_append_dropWhile]

/-- The same place is found by any test that agrees on the elements. -/
theorem insert_eq {x : α} {q : List α} {p : α → Bool} (hp : ∀ a ∈ q, p a = true ↔ le x a) :
    q.takeWhile p ++ x :: q.dropWhile p = insert le x q := by
  induction q with
  | nil => rfl
  | cons c q ih =>
    rw [List.forall_mem_cons] at hp
    have hq := ih hp.2
    rw [insert] at hq ⊢
    by_cases hxc : le x c
    · simpa [hxc, hp.1.mpr hxc] using hq
    · have hpc : p c = false := Bool.eq_false_iff.mpr (mt hp.1.mp hxc)
      simp [hxc, hpc]

theorem forall_mem_takeWhile {x a : α} {q : List α} (ha : a ∈ q.takeWhile (fun a => le x a)) :
    le x a := by
  simpa using List.mem_takeWhile_imp ha

/-- In a sorted sequence the elements from the first of lower priority on are all of lower
priority. -/
theorem not_le_of_mem_dropWhile (htrans : ∀ a b c, le a b → le b c → le a c) {x b : α}
    {q : List α} (hsorted : q.Pairwise fun a b => le b a)
    (hb : b ∈ q.dropWhile (fun a => le x a)) : ¬le x b := by
  induction q with
  | nil => cases hb
  | cons c q ih =>
    obtain ⟨hc, hq⟩ := List.pairwise_cons.mp hsorted
    by_cases hxc : le x c
    · rw [List.dropWhile_cons, if_pos (decide_eq_true hxc)] at hb
      exact ih hq hb
    · rw [List.dropWhile_cons, if_neg (by simpa using hxc)] at hb
      rcases List.mem_cons.mp hb with rfl | hb
      · exact hxc
      · exact fun hxb => hxc (htrans x b c hxb (hc b hb))

theorem IsStable.insert (htotal : ∀ a b, le a b ∨ le b a)
    (htrans : ∀ a b c, le a b → le b c → le a c) {arrivals q : List α}
    (hq : IsStable le arrivals q) (x : α) :
    IsStable le (arrivals ++ [x]) (StableOrder.insert le x q) := by
  have hlower : ∀ b ∈ q.dropWhile (fun a => le x a), ¬le x b := fun b hb =>
    not_le_of_mem_dropWhile htrans hq.sorted hb
  have hsplit : q = q.takeWhile (fun a => le x a) ++ q.dropWhile (fun a => le x a) :=
    List.takeWhile_append_dropWhile.symm
  refine ⟨?_, ?_, ?_⟩
  · exact (perm_insert x q).trans ((List.Perm.cons x hq.perm).trans
      (List.perm_append_singleton x arrivals).symm)
  · have hsorted := hq.sorted
    rw [hsplit, List.pairwise_append] at hsorted
    obtain ⟨htake, hdrop, hacross⟩ := hsorted
    refine List.pairwise_append.mpr ⟨htake, List.pairwise_cons.mpr ⟨fun b hb => ?_, hdrop⟩,
      fun a ha b hb => ?_⟩
    · exact (htotal x b).resolve_left (hlower b hb)
    · rcases List.mem_cons.mp hb with rfl | hb
      · exact forall_mem_takeWhile ha
      · exact hacross a ha b hb
  · have hstable : q.Pairwise fun a b => le a b → [a, b].Sublist (arrivals ++ [x]) :=
      hq.stable.imp fun h hab => (h hab).trans (List.sublist_append_left arrivals [x])
    rw [hsplit, List.pairwise_append] at hstable
    obtain ⟨htake, hdrop, hacross⟩ := hstable
    refine List.pairwise_append.mpr ⟨htake, List.pairwise_cons.mpr ⟨fun b hb => ?_, hdrop⟩,
      fun a ha b hb => ?_⟩
    · exact fun hxb => absurd hxb (hlower b hb)
    · rcases List.mem_cons.mp hb with rfl | hb
      · have harr : a ∈ arrivals := hq.perm.subset (List.takeWhile_subset _ ha)
        exact fun _ => (List.singleton_sublist.mpr harr).append (List.Sublist.refl [b])
      · exact hacross a ha b hb

/-- The elements are served in stable order. -/
theorem isStable_order (htotal : ∀ a b, le a b ∨ le b a)
    (htrans : ∀ a b c, le a b → le b c → le a c) (arrivals : List α) :
    IsStable le arrivals (order le arrivals) := by
  induction arrivals using List.reverseRecOn with
  | nil => exact ⟨.nil, .nil, .nil⟩
  | append_singleton arrivals x ih =>
    rw [order_concat]
    exact ih.insert htotal htrans x

end Insert

/-! ## The order is unique -/

theorem pair_antisymm {l : List α} {a b : α} (hnodup : l.Nodup) (hab : [a, b].Sublist l)
    (hba : [b, a].Sublist l) : a = b := by
  induction l with
  | nil => cases hab
  | cons c l ih =>
    obtain ⟨hc, hl⟩ := List.nodup_cons.mp hnodup
    cases hab with
    | cons _ hab =>
      cases hba with
      | cons _ hba => exact ih hl hab hba
      | cons_cons _ hba => exact absurd (hab.subset (by simp)) hc
    | cons_cons _ hab =>
      cases hba with
      | cons _ hba => exact absurd (hba.subset (by simp)) hc
      | cons_cons _ hba => rfl

theorem isStable_unique {arrivals q q' : List α} (hnodup : arrivals.Nodup)
    (hq : IsStable le arrivals q) (hq' : IsStable le arrivals q') : q = q' := by
  refine List.Perm.eq_of_pairwise (fun a b _ _ hab hba => ?_) (hq.sorted.and hq.stable)
    (hq'.sorted.and hq'.stable) (hq.perm.trans hq'.perm.symm)
  exact pair_antisymm hnodup (hab.2 hba.1) (hba.2 hab.1)

/-- Without the first element the others are in stable order. -/
theorem IsStable.erase [DecidableEq α] {arrivals q : List α} {a : α} (hnodup : arrivals.Nodup)
    (hq : IsStable le arrivals (a :: q)) : IsStable le (arrivals.erase a) q := by
  have ha : a ∉ q := (List.nodup_cons.mp (hq.perm.nodup_iff.mpr hnodup)).1
  refine ⟨?_, (List.pairwise_cons.mp hq.sorted).2, ?_⟩
  · have hperm := hq.perm.erase a
    rwa [List.erase_cons_head] at hperm
  · refine (List.pairwise_cons.mp hq.stable).2.imp_of_mem fun {b c} hb hc hbc hle => ?_
    have hsub := (hbc hle).erase a
    rwa [List.erase_of_not_mem] at hsub
    rintro hmem
    rcases List.mem_cons.mp hmem with rfl | hmem
    · exact ha hb
    · exact ha (List.mem_singleton.mp hmem ▸ hc)

theorem order_erase [DecidableEq α] [DecidableRel le] (htotal : ∀ a b, le a b ∨ le b a)
    (htrans : ∀ a b c, le a b → le b c → le a c) {arrivals q : List α} {a : α}
    (hnodup : arrivals.Nodup) (horder : order le arrivals = a :: q) :
    order le (arrivals.erase a) = q := by
  have hstable := isStable_order htotal htrans arrivals
  rw [horder] at hstable
  exact isStable_unique (hnodup.erase a) (isStable_order htotal htrans _) (hstable.erase hnodup)

end StableOrder
