import MpegtsReader.DlistRow
import MpegtsReader.SlistChain

/-!
# Removal behind an iterator

`cdsl_dlistIterRemove`, `cdsl_slistIterRemove` and `cdsl_iterRemove` of `utils/cdsl_dlist.c`,
`utils/cdsl_slist.c` and `utils/base_list.c`. The node to be removed is the one behind the node that
the iterator returned last. The last two only know the field `next`, and leave out the node; the
first stores the address of the node where it stood before.
-/

namespace MpegtsReader

open Links
open Function (update update_self update_of_ne)

namespace Dlist

variable {α : Type} [DecidableEq α]

/-- `cdsl_dlistIterRemove`. -/
def cdslDlistIterRemove (h : Links α) : Option (LinkIter α) → Links α
  | none => h
  | some iter =>
    match iter.entry, iter.prev with
    | some _, some prev =>
      match h.next prev with
      | none => h
      | some tobrmv =>
        let h := h.setNext prev (some tobrmv)
        h.setPrev tobrmv (some prev)
    | _, _ => h

/-- `cdsl_slistIterRemove`. -/
def cdslSlistIterRemove (h : Slist.Nexts α) : Option (LinkIter α) → Slist.Nexts α
  | none => h
  | some iter =>
    match iter.entry, iter.prev with
    | some _, some prev =>
      match h prev with
      | none => h
      | some tobrmv => update h prev (h tobrmv)
    | _, _ => h

/-- `cdsl_iterRemove`: the heap, the iterator and the node that is returned. -/
def cdslIterRemove (h : Slist.Nexts α) :
    Option (LinkIter α) → Option (Slist.Nexts α × Option (LinkIter α) × Option α)
  | none => some (h, none, none)
  | some iter => do
    let iter := if iter.prev.isNone then { iter with prev := iter.entry } else iter
    let prev ← iter.prev
    let cur ← h prev
    let h := update h prev (h cur)
    let h := update h cur none
    some (h, some iter, some cur)

omit [DecidableEq α] in
/-- Several calls of `cdsl_iterNext`. -/
def iterNexts (h : Links α) : ℕ → LinkIter α → Option (LinkIter α)
  | 0, iter => some iter
  | k + 1, iter => do
    let (iter, _) ← iter.cdslIterNext h
    iterNexts h k iter

/-- The node behind `c` is left out of the list at `e`, and the one after it has `c` before it. -/
structure LeavesOut (h : Links α) (e c : α) (l₁ l₂ : List α) : Prop where
  next : Chain h.next none (e :: (l₁ ++ c :: l₂))
  prev : ∀ y, l₂.head? = some y → h.prev y = some c

variable {h : Links α} {e c x : α} {l l₁ l₂ : List α} {t : Option α} {iter : LinkIter α} {k : ℕ}

/-- The iterator is one over the list, at its start or at a node. -/
structure AtNode (e : α) (l : List α) (iter : LinkIter α) : Prop where
  entry : iter.entry = some e
  prev : ∀ c, iter.prev = some c → c ∈ l

omit [DecidableEq α] in
theorem atNode_init (e : α) (l : List α) : AtNode e l (LinkIter.cdslIterInit (some e)) where
  entry := rfl
  prev c hc := by cases hc

omit [DecidableEq α] in
theorem AtNode.iterNext {iter' : LinkIter α} {node : Option α} (hat : AtNode e l iter)
    (hchain : Chain h.next none (e :: l)) (hnext : iter.cdslIterNext h = some (iter', node)) :
    AtNode e l iter' := by
  obtain ⟨entry, prev⟩ := iter
  obtain rfl : entry = some e := hat.entry
  cases prev with
  | none =>
    obtain ⟨rfl, -⟩ := Prod.mk.inj (Option.some.inj hnext)
    exact ⟨rfl, fun c hc => hchain.mem_of_next List.mem_cons_self hc⟩
  | some p =>
    obtain ⟨rfl, -⟩ := Prod.mk.inj (Option.some.inj hnext)
    exact ⟨rfl, fun c hc => hchain.mem_of_next (List.mem_cons_of_mem e (hat.prev p rfl)) hc⟩

omit [DecidableEq α] in
theorem AtNode.iterNexts {iter' : LinkIter α} (hat : AtNode e l iter)
    (hchain : Chain h.next none (e :: l)) (hiter : Dlist.iterNexts h k iter = some iter') :
    AtNode e l iter' := by
  induction k generalizing iter with
  | zero => exact Option.some.inj hiter ▸ hat
  | succ k ih =>
    obtain ⟨⟨iter₁, node⟩, hnext, hrest⟩ := Option.bind_eq_some_iff.mp hiter
    exact ih (hat.iterNext hchain hnext) hrest

/-! ## The lists with one direction -/

section Forward

variable {n : Slist.Nexts α}

omit [DecidableEq α] in
theorem next_behind (hn : Chain n none ((e :: l₁) ++ c :: x :: l₂)) :
    n c = some x ∧ n x = l₂.head? := by
  refine ⟨hn.next_eq, ?_⟩
  rw [List.append_cons] at hn
  exact hn.next_eq

theorem chain_slistIterRemove (hn : Chain n none ((e :: l₁) ++ c :: x :: l₂)) :
    Chain (cdslSlistIterRemove n (some ⟨some e, some c⟩)) none (e :: (l₁ ++ c :: l₂)) := by
  obtain ⟨hc, hx⟩ := next_behind hn
  have heq : cdslSlistIterRemove n (some ⟨some e, some c⟩) = update n c (n x) := by
    simp [cdslSlistIterRemove, hc]
  rw [heq]
  exact chain_unlink hn ((update_self ..).trans hx) fun a hac _ => update_of_ne hac ..

theorem chain_iterRemove (hn : Chain n none ((e :: l₁) ++ c :: x :: l₂)) :
    ∃ n', cdslIterRemove n (some ⟨some e, some c⟩) =
        some (n', some ⟨some e, some c⟩, some x) ∧ Chain n' none (e :: (l₁ ++ c :: l₂)) := by
  obtain ⟨hc, hx⟩ := next_behind hn
  have hcx : c ≠ x := by
    rintro rfl
    exact (List.nodup_cons.mp (List.nodup_append.mp hn.nodup).2.1).1 List.mem_cons_self
  refine ⟨update (update n c (n x)) x none, by simp [cdslIterRemove, hc], ?_⟩
  refine chain_unlink hn ?_ fun a hac hax => ?_
  · rw [update_of_ne hcx, update_self, hx]
  · rw [update_of_ne hax, update_of_ne hac]

end Forward

/-! ## The list with both -/

/-- The stores are of the values that are there. -/
theorem dlistIterRemove_eq (hl : DlistHolds h e (l₁ ++ c :: x :: l₂) t) :
    cdslDlistIterRemove h (some ⟨some e, some c⟩) = h := by
  have hrow : Row h none ((e :: l₁) ++ c :: x :: l₂) := hl.row
  have hnext : h.next c = some x := hl.next_eq
  have hprev : h.prev x = some c := hrow.prev_eq
  have heq : cdslDlistIterRemove h (some ⟨some e, some c⟩) =
      (h.setNext c (some x)).setPrev x (some c) := by
    simp [cdslDlistIterRemove, hnext]
  rw [heq, setPrev, setNext, ← hnext, ← hprev]
  simp

/-- **Removal behind an iterator.** However far the iterator went, `cdsl_dlistIterRemove` leaves the
node where it is. From the same position the other two leave it out. -/
theorem not_leavesOut_dlistIterRemove (hl : DlistHolds h e l t)
    (hiter : iterNexts h (k + 1) (LinkIter.cdslIterInit (some e)) = some iter)
    (hc : iter.prev = some c) (hx : h.next c = some x) :
    ∃ l₁ l₂, l = l₁ ++ c :: x :: l₂ ∧
      ¬LeavesOut (cdslDlistIterRemove h (some iter)) e c l₁ l₂ ∧
      Chain (cdslSlistIterRemove h.next (some iter)) none (e :: (l₁ ++ c :: l₂)) ∧
      ∃ n, cdslIterRemove h.next (some iter) = some (n, some iter, some x) ∧
        Chain n none (e :: (l₁ ++ c :: l₂)) := by
  have hat := (atNode_init e l).iterNexts hl.row.chain hiter
  obtain ⟨l₁, r, rfl⟩ := List.append_of_mem (hat.prev c hc)
  obtain ⟨l₂, rfl⟩ := List.head?_eq_some_iff.mp (hl.next_eq.symm.trans hx)
  obtain ⟨entry, prev⟩ := iter
  obtain rfl : entry = some e := hat.entry
  obtain rfl : prev = some c := hc
  refine ⟨l₁, l₂, rfl, fun hout => ?_, chain_slistIterRemove hl.row.chain,
    chain_iterRemove hl.row.chain⟩
  have hchain := hout.next
  rw [dlistIterRemove_eq hl] at hchain
  have hlen := congrArg List.length (chain_unique hchain hl.row.chain)
  simp only [List.length_append, List.length_cons] at hlen
  omega

/-- A list of three nodes. -/
def threeNodes : Links ℕ where
  next a := if a < 3 then some (a + 1) else none
  prev a := if 0 < a then some (a - 1) else some 3

theorem holds_threeNodes : DlistHolds threeNodes 0 [1, 2, 3] (some 3) :=
  ⟨by simp [row_cons, threeNodes], rfl⟩

/-- The iterator is at the first of the nodes. -/
theorem not_leavesOut_threeNodes :
    ∃ l₁ l₂, [1, 2, 3] = l₁ ++ 1 :: 2 :: l₂ ∧
      ¬LeavesOut (cdslDlistIterRemove threeNodes (some ⟨some 0, some 1⟩)) 0 1 l₁ l₂ ∧
      Chain (cdslSlistIterRemove threeNodes.next (some ⟨some 0, some 1⟩)) none
        (0 :: (l₁ ++ 1 :: l₂)) ∧
      ∃ n, cdslIterRemove threeNodes.next (some ⟨some 0, some 1⟩) =
          some (n, some ⟨some 0, some 1⟩, some 2) ∧ Chain n none (0 :: (l₁ ++ 1 :: l₂)) :=
  not_leavesOut_dlistIterRemove (k := 0) holds_threeNodes rfl rfl rfl

/-- The second node is still there, and its place before the third as well. -/
theorem dlistIterRemove_threeNodes :
    iterNexts threeNodes 1 (LinkIter.cdslIterInit (some 0)) = some ⟨some 0, some 1⟩ ∧
      Chain (cdslDlistIterRemove threeNodes (some ⟨some 0, some 1⟩)).next none [0, 1, 2, 3] ∧
      (cdslDlistIterRemove threeNodes (some ⟨some 0, some 1⟩)).prev 3 = some 2 ∧
      ¬LeavesOut (cdslDlistIterRemove threeNodes (some ⟨some 0, some 1⟩)) 0 1 [] [3] := by
  have hnext : (cdslDlistIterRemove threeNodes (some ⟨some 0, some 1⟩)).next 1 = some 2 := rfl
  refine ⟨rfl, ⟨rfl, rfl, rfl, rfl, trivial⟩, rfl, fun hout => ?_⟩
  exact absurd (hnext.symm.trans hout.next.2.1) (by decide)

end Dlist

end MpegtsReader
