import MpegtsReader.Chain
import MpegtsReader.Slist

/-!
# What the operations on a singly linked list do

The list at the entry `e` has the nodes `l` when the chain from `e` goes through them and ends.
There is one theorem for each operation, with what it returns, what it makes of the nodes, and the
only fields that it stores to.
-/

namespace MpegtsReader

namespace Slist

open Links
open Function (update update_self update_of_ne)

variable {α : Type} [DecidableEq α] {h : Nexts α} {e a c p x : α} {l l₁ l₂ r : List α} {fuel : ℕ}

theorem chain_entryInit (h : Nexts α) (e : α) :
    Chain (cdslSlistEntryInit h (some e)) none [e] ∧
      ∀ a ≠ e, cdslSlistEntryInit h (some e) a = h a :=
  ⟨chain_singleton.mpr (update_self ..), fun _ ha => update_of_ne ha ..⟩

/-! ## Insertion -/

theorem putHead_eq (h : Nexts α) (e x : α) :
    cdslSlistPutHead h (some e) (some x) = (update (update h x (h e)) e (some x), 0) := by
  rw [cdslSlistPutHead]
  cases h e <;> rfl

theorem chain_putHead (hl : Chain h none (e :: l)) (hx : x ∉ e :: l) :
    ∃ h', cdslSlistPutHead h (some e) (some x) = (h', 0) ∧ Chain h' none (e :: x :: l) ∧
      ∀ a, a ≠ e → a ≠ x → h' a = h a := by
  have hxe : x ≠ e := fun hxe => hx (hxe ▸ List.mem_cons_self)
  have hframe : ∀ a, a ≠ e → a ≠ x → update (update h x (h e)) e (some x) a = h a :=
    fun a hae hax => by rw [update_of_ne hae, update_of_ne hax]
  refine ⟨_, putHead_eq h e x, chain_link (q := []) hl hx (update_self ..) ?_ hframe, hframe⟩
  rw [update_of_ne hxe, update_self, hl.head]

theorem chain_insertAfter (hl : Chain h none (l₁ ++ a :: l₂)) (hx : x ∉ l₁ ++ a :: l₂) :
    Chain (cdslSlistInsertAfter h (some a) (some x)) none (l₁ ++ a :: x :: l₂) ∧
      ∀ b, b ≠ a → b ≠ x → cdslSlistInsertAfter h (some a) (some x) b = h b := by
  have hxa : x ≠ a := by
    rintro rfl
    exact hx (List.mem_append_right _ List.mem_cons_self)
  have hframe : ∀ b, b ≠ a → b ≠ x → update (update h x (h a)) a (some x) b = h b :=
    fun b hba hbx => by rw [update_of_ne hba, update_of_ne hbx]
  have heq : cdslSlistInsertAfter h (some a) (some x) = update (update h x (h a)) a (some x) := rfl
  rw [heq]
  refine ⟨chain_link hl hx (update_self ..) ?_ hframe, hframe⟩
  rw [update_of_ne hxa, update_self, hl.next_eq]

theorem putTailLoop_eq (x : α) (i : ℤ) (hr : Chain h none (c :: r)) (hfuel : r.length < fuel) :
    putTailLoop h x fuel c i = some (update h (r.getLastD c) (some x), i + r.length) := by
  induction r generalizing c i fuel with
  | nil =>
    obtain ⟨fuel, rfl⟩ := Nat.exists_eq_add_one.mpr (Nat.zero_lt_of_lt hfuel)
    simp [putTailLoop, hr.head]
  | cons b r ih =>
    obtain ⟨fuel, rfl⟩ := Nat.exists_eq_add_one.mpr (Nat.zero_lt_of_lt hfuel)
    rw [putTailLoop, hr.head]
    refine (ih (i + 1) hr.2 (Nat.lt_of_succ_lt_succ hfuel)).trans ?_
    have hidx : i + 1 + (r.length : ℤ) = i + ((b :: r).length : ℤ) := by
      rw [List.length_cons]
      omega
    rw [List.getLastD_cons, hidx]

theorem chain_putTail (hl : Chain h none (e :: l)) (hx : x ∉ e :: l) :
    ∃ h', (∀ fuel > l.length,
        cdslSlistPutTail fuel h (some e) (some x) = some (h', (l.length : ℤ))) ∧
      Chain h' none (e :: (l ++ [x])) ∧ ∀ a ∉ e :: l, a ≠ x → h' a = h a := by
  have hl' : Chain (update h x none) none (e :: l) :=
    hl.congr fun a ha => update_of_ne (ne_of_mem_of_not_mem ha hx) ..
  refine ⟨_, fun fuel hfuel => (putTailLoop_eq x 0 hl' hfuel).trans (by rw [Int.zero_add]), ?_,
    fun a ha hax => ?_⟩
  · exact chain_extend hl' (chain_singleton.mpr (update_self ..))
      (List.disjoint_singleton.mpr hx)
  · rw [update_of_ne (ne_of_mem_of_not_mem (getLastD_mem e l) ha).symm, update_of_ne hax]

/-! ## Removal -/

omit [DecidableEq α] in
theorem head_ne_none (hl : Chain h none (e :: (l₁ ++ x :: l₂))) : h e ≠ none := by
  rw [hl.head]
  simp

theorem dequeue_nil (hl : Chain h none [e]) : cdslSlistDequeue h (some e) = (h, none) := by
  have hhead : h e = none := hl.head
  simp [cdslSlistDequeue, hhead]

theorem chain_dequeue (hl : Chain h none (e :: a :: l)) :
    ∃ h', cdslSlistDequeue h (some e) = (h', some a) ∧ Chain h' none (e :: l) ∧
      ∀ b ≠ e, h' b = h b := by
  have hhead : h e = some a := hl.head
  have hframe : ∀ b ≠ e, update h e (h a) b = h b := fun b hb => update_of_ne hb ..
  refine ⟨update h e (h a), by simp [cdslSlistDequeue, hhead], ?_, hframe⟩
  refine chain_unlink (q := []) hl ?_ fun b hbe _ => hframe b hbe
  rw [update_self, hl.2.head]

omit [DecidableEq α] in
/-- The loop of `cdsl_slistRemoveTail` ends at the link to the last node. -/
theorem removeTailLoop_eq {lentry : Option α} {cnode : LinkAddr α} {y : α}
    (hload : cnode.load h lentry = some c) (hr : Chain h none (c :: (r ++ [y])))
    (hfuel : r.length + 1 < fuel) :
    removeTailLoop h lentry fuel cnode = some (.next (r.getLastD c)) := by
  induction r generalizing c cnode fuel with
  | nil =>
    obtain ⟨fuel, rfl⟩ : ∃ k, fuel = k + 1 + 1 := Nat.exists_eq_add_of_le' hfuel
    have hc : h c = some y := hr.head
    have hy : h y = none := hr.2.head
    have hlast : (LinkAddr.next c).load h lentry = some y := hc
    simp [removeTailLoop, hload, hc, hlast, hy]
  | cons b r ih =>
    obtain ⟨fuel, rfl⟩ := Nat.exists_eq_add_one.mpr (Nat.zero_lt_of_lt hfuel)
    have hc : h c = some b := hr.head
    have hloop : removeTailLoop h lentry (fuel + 1) cnode =
        removeTailLoop h lentry fuel (.next c) := by
      simp [removeTailLoop, hload, hc]
    have hload : (LinkAddr.next c).load h lentry = some b := hc
    rw [hloop, ih hload hr.2 (Nat.lt_of_succ_lt_succ hfuel), List.getLastD_cons]

theorem removeTail_nil (hl : Chain h none [e]) (fuel : ℕ) :
    cdslSlistRemoveTail fuel h (some e) = some (h, none) := by
  have hhead : h e = none := hl.head
  simp [cdslSlistRemoveTail, hhead]

theorem chain_removeTail {y : α} (hl : Chain h none (e :: (l ++ [y]))) :
    ∃ h', (∀ fuel > l.length + 1, cdslSlistRemoveTail fuel h (some e) = some (h', some y)) ∧
      Chain h' none (e :: l) ∧ ∀ a ∉ e :: l, h' a = h a := by
  have hy : h y = none := by
    rw [← List.cons_append] at hl
    exact hl.next_eq
  refine ⟨update h (l.getLastD e) none, fun fuel hfuel => ?_, ?_, fun a ha => ?_⟩
  · have hload : LinkAddr.lentry.load h (some e) = some e := rfl
    have hloop := removeTailLoop_eq hload hl hfuel
    have hlast : h (l.getLastD e) = some y := hl.next_getLastD
    generalize l.getLastD e = p at hloop hlast ⊢
    simp [cdslSlistRemoveTail, head_ne_none hl, hloop, LinkAddr.store, LinkAddr.load, hlast]
  · have hskip := chain_skip hl
    rwa [hy, List.append_nil] at hskip
  · exact update_of_ne (ne_of_mem_of_not_mem (getLastD_mem e l) ha).symm ..

theorem removeLoop_of_mem (hr : Chain h none (c :: (l₁ ++ x :: l₂))) (hx : x ∉ l₁)
    (hfuel : l₁.length < fuel) :
    removeLoop h x fuel c = some (update h (l₁.getLastD c) (h x), true) := by
  induction l₁ generalizing c fuel with
  | nil =>
    obtain ⟨fuel, rfl⟩ := Nat.exists_eq_add_one.mpr (Nat.zero_lt_of_lt hfuel)
    have hc : h c = some x := hr.head
    simp [removeLoop, hc]
  | cons b l₁ ih =>
    obtain ⟨fuel, rfl⟩ := Nat.exists_eq_add_one.mpr (Nat.zero_lt_of_lt hfuel)
    obtain ⟨hxb, hx⟩ := not_or.mp (mt List.mem_cons.mpr hx)
    have hc : h c = some b := hr.head
    rw [removeLoop, hc]
    refine (if_neg (Ne.symm hxb)).trans ?_
    rw [ih hr.2 hx (Nat.lt_of_succ_lt_succ hfuel), List.getLastD_cons]

theorem removeLoop_of_not_mem (hr : Chain h none (c :: l)) (hx : x ∉ l) (hfuel : l.length < fuel) :
    removeLoop h x fuel c = some (h, false) := by
  induction l generalizing c fuel with
  | nil =>
    obtain ⟨fuel, rfl⟩ := Nat.exists_eq_add_one.mpr (Nat.zero_lt_of_lt hfuel)
    have hc : h c = none := hr.head
    simp [removeLoop, hc]
  | cons b l ih =>
    obtain ⟨fuel, rfl⟩ := Nat.exists_eq_add_one.mpr (Nat.zero_lt_of_lt hfuel)
    obtain ⟨hxb, hx⟩ := not_or.mp (mt List.mem_cons.mpr hx)
    have hc : h c = some b := hr.head
    rw [removeLoop, hc]
    exact (if_neg (Ne.symm hxb)).trans (ih hr.2 hx (Nat.lt_of_succ_lt_succ hfuel))

theorem chain_remove (hl : Chain h none (e :: (l₁ ++ x :: l₂))) :
    ∃ h', (∀ fuel > l₁.length, cdslSlistRemove fuel h (some e) (some x) = some (h', true)) ∧
      Chain h' none (e :: (l₁ ++ l₂)) ∧ ∀ a ∉ e :: l₁, h' a = h a := by
  have hx : x ∉ l₁ := fun hx =>
    (List.nodup_append.mp (List.nodup_cons.mp hl.nodup).2).2.2 x hx x List.mem_cons_self rfl
  refine ⟨update h (l₁.getLastD e) (h x), fun fuel hfuel => ?_, chain_skip hl, fun a ha => ?_⟩
  · simp [cdslSlistRemove, head_ne_none hl, removeLoop_of_mem hl hx hfuel]
  · exact update_of_ne (ne_of_mem_of_not_mem (getLastD_mem e l₁) ha).symm ..

theorem remove_of_not_mem (hl : Chain h none (e :: l)) (hx : x ∉ l) (hfuel : l.length < fuel) :
    cdslSlistRemove fuel h (some e) (some x) = some (h, false) := by
  rw [cdslSlistRemove, removeLoop_of_not_mem hl hx hfuel, ite_self]

omit [DecidableEq α] in
/-- The loop of `cdsl_slistRemoveAt` goes to the node before the position. -/
theorem removeAtLoop_eq {i : ℕ} (hr : Chain h none (c :: r)) (hi : i ≤ r.length)
    (hfuel : i < fuel) : removeAtLoop h fuel i (some c) = (c :: r)[i]? := by
  induction i generalizing c r fuel with
  | zero =>
    obtain ⟨fuel, rfl⟩ := Nat.exists_eq_add_one.mpr hfuel
    rfl
  | succ i ih =>
    obtain ⟨fuel, rfl⟩ := Nat.exists_eq_add_one.mpr (Nat.zero_lt_of_lt hfuel)
    cases r with
    | nil => cases hi
    | cons b r =>
      have hc : h c = some b := hr.head
      have hne : ((i + 1 : ℕ) : ℤ) ≠ 0 := by omega
      have hsub : ((i + 1 : ℕ) : ℤ) - 1 = i := by omega
      rw [removeAtLoop, if_neg hne, hsub]
      show removeAtLoop h fuel i (h c) = _
      rw [hc]
      exact ih hr.2 (Nat.le_of_succ_le_succ hi) (Nat.lt_of_succ_lt_succ hfuel)

theorem chain_removeAt (hl : Chain h none (e :: (l₁ ++ x :: l₂))) :
    ∃ h', (∀ fuel > l₁.length,
        cdslSlistRemoveAt fuel h (some e) l₁.length = some (h', some x)) ∧
      Chain h' none (e :: (l₁ ++ l₂)) ∧ ∀ a ∉ e :: l₁, h' a = h a := by
  have hpos := getElem?_length_cons_append e l₁ (x :: l₂)
  have hlast : h (l₁.getLastD e) = some x := hl.next_getLastD
  refine ⟨update h (l₁.getLastD e) (h x), fun fuel hfuel => ?_, chain_skip hl, fun a ha => ?_⟩
  · have hloop := (removeAtLoop_eq hl (by simp) hfuel).trans hpos
    generalize l₁.getLastD e = p at hloop hlast ⊢
    simp [cdslSlistRemoveAt, head_ne_none hl, hloop, hlast]
  · exact update_of_ne (ne_of_mem_of_not_mem (getLastD_mem e l₁) ha).symm ..

/-! ## A merge -/

omit [DecidableEq α] in
theorem mergeLoop_eq (hr : Chain h none (c :: r)) (hfuel : r.length < fuel) :
    mergeLoop h fuel c = some (r.getLastD c) := by
  induction r generalizing c fuel with
  | nil =>
    obtain ⟨fuel, rfl⟩ := Nat.exists_eq_add_one.mpr (Nat.zero_lt_of_lt hfuel)
    simp [mergeLoop, hr.head]
  | cons b r ih =>
    obtain ⟨fuel, rfl⟩ := Nat.exists_eq_add_one.mpr (Nat.zero_lt_of_lt hfuel)
    rw [mergeLoop, hr.head]
    exact (ih hr.2 (Nat.lt_of_succ_lt_succ hfuel)).trans (by rw [List.getLastD_cons])

/-- A merge into an empty list dereferences its head. -/
theorem merge_nil {f : α} (hl : Chain h none [e]) (fuel : ℕ) :
    cdslSlistMerge fuel h (some e) (some f) = none := by
  have hhead : h e = none := hl.head
  simp [cdslSlistMerge, hhead]

theorem merge_cons {m : List α} {f : α} (hl : Chain h none (e :: a :: l))
    (hm : Chain h none (f :: m)) (hfuel : l.length < fuel) :
    cdslSlistMerge fuel h (some e) (some f) =
      some (update (update h (l.getLastD a) m.head?) f none) := by
  have hhead : h e = some a := hl.head
  simp [cdslSlistMerge, hhead, mergeLoop_eq hl.2 hfuel, hm.head]

end Slist

end MpegtsReader
