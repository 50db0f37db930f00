import MpegtsReader.DlistOps
import MpegtsReader.Stream

/-!
# What the traversals of a list see

The size, the membership test and the iteration of `utils/base_list.c` are those of the sequence of
nodes (`DlistHolds.sees`). The iterator on the links goes through the positions of the iterator on
the sequence (`hasNext_ofPosition`, `iterNext_ofPosition`).

With insertions and removals at the ends only, a list that is not empty always has its last node in
the tail, and `deque_of_run` follows. The tail of an empty list may be anything.
-/

namespace MpegtsReader

namespace Dlist

open Links

variable {α : Type} [DecidableEq α] {h : Links α} {e c : α} {l : List α} {t : Option α}

/-- The traversals of the list at `e` see the nodes `l`, each once and in order. -/
structure Sees (h : Links α) (e : α) (l : List α) : Prop where
  size : ∀ fuel > l.length, cdslListSize fuel h (some e) = some l.length
  contain : ∀ item, ∀ fuel > l.length,
    cdslListContain fuel h (some e) item = some (item.any (· ∈ l))
  iter : ∀ fuel > l.length, (LinkIter.cdslIterInit (some e)).nodes h fuel = some l
  nodup : l.Nodup

/-! ## The loops -/

omit [DecidableEq α] in
theorem sizeLoop_eq {fuel n : ℕ} (hrow : Row h none (c :: l)) (hfuel : l.length < fuel) :
    sizeLoop h fuel c n = some (n + l.length) := by
  induction l generalizing c n fuel with
  | nil =>
    obtain ⟨fuel, rfl⟩ := Nat.exists_eq_add_one.mpr (Nat.zero_lt_of_lt hfuel)
    have hnext : h.next c = none := hrow.1
    simp [sizeLoop, hnext]
  | cons b l ih =>
    obtain ⟨fuel, rfl⟩ := Nat.exists_eq_add_one.mpr (Nat.zero_lt_of_lt hfuel)
    have hnext : h.next c = some b := hrow.1
    rw [sizeLoop, hnext]
    refine (ih hrow.2.2 (Nat.lt_of_succ_lt_succ hfuel)).trans (congrArg some ?_)
    rw [List.length_cons]
    omega

theorem containLoop_eq {fuel : ℕ} (item : Option α) (hrow : Row h none (c :: l))
    (hfuel : l.length < fuel) : containLoop h item fuel c = some (item.any (· ∈ l)) := by
  induction l generalizing c fuel with
  | nil =>
    obtain ⟨fuel, rfl⟩ := Nat.exists_eq_add_one.mpr (Nat.zero_lt_of_lt hfuel)
    have hnext : h.next c = none := hrow.1
    simp [containLoop, hnext]
  | cons b l ih =>
    obtain ⟨fuel, rfl⟩ := Nat.exists_eq_add_one.mpr (Nat.zero_lt_of_lt hfuel)
    have hnext : h.next c = some b := hrow.1
    rw [containLoop, hnext]
    show (if some b = item then _ else _) = _
    by_cases hb : some b = item
    · rw [if_pos hb, ← hb]
      simp
    · rw [if_neg hb, ih hrow.2.2 (Nat.lt_of_succ_lt_succ hfuel)]
      cases item with
      | none => rfl
      | some a =>
        have hab : a ≠ b := fun hab => hb (congrArg some hab.symm)
        simp [hab]

/-! ## The iterator -/

/-- The iterator on the links at a position of the sequence. -/
def LinkIter.ofPosition (e : α) (l : List α) (iter : ListIter) : LinkIter α :=
  ⟨some e, iter.prev.bind (l[·]?)⟩

omit [DecidableEq α] in
theorem hasNext_ofPosition (hrow : Row h none (e :: l)) {iter : ListIter}
    (hiter : iter.next ≤ l.length) :
    (LinkIter.ofPosition e l iter).cdslIterHasNext h = some (cdslIterHasNext l iter) := by
  obtain ⟨_ | i⟩ := iter
  · have hnext : h.next e = l.head? := by
      rw [hrow.chain.next_getElem (i := 0) rfl, List.head?_eq_getElem?]
    cases l <;> simp [LinkIter.ofPosition, LinkIter.cdslIterHasNext, cdslIterHasNext, hnext]
  · have hlt : i < l.length := hiter
    have hnext : h.next l[i] = l[i + 1]? :=
      hrow.chain.next_getElem (i := i + 1) (List.getElem?_eq_getElem hlt)
    have hsome : l[i + 1]?.isSome = decide (i + 1 < l.length) := by
      rw [Bool.eq_iff_iff, isSome_getElem?, decide_eq_true_iff]
    simp [LinkIter.ofPosition, LinkIter.cdslIterHasNext, cdslIterHasNext, hlt, hnext, hsome]

omit [DecidableEq α] in
theorem iterNext_ofPosition (hrow : Row h none (e :: l)) {iter : ListIter}
    (hiter : iter.next ≤ l.length) :
    (LinkIter.ofPosition e l iter).cdslIterNext h =
      some (LinkIter.ofPosition e l (cdslIterNext iter), l[iter.next]?) := by
  obtain ⟨_ | i⟩ := iter
  · have hnext : h.next e = l[0]? := hrow.chain.next_getElem (i := 0) rfl
    simp [LinkIter.ofPosition, LinkIter.cdslIterNext, cdslIterNext, ListIter.next, hnext]
  · have hlt : i < l.length := hiter
    have hnext : h.next l[i] = l[i + 1]? :=
      hrow.chain.next_getElem (i := i + 1) (List.getElem?_eq_getElem hlt)
    simp [LinkIter.ofPosition, LinkIter.cdslIterNext, cdslIterNext, ListIter.next, hlt, hnext]

omit [DecidableEq α] in
theorem nodes_ofPosition (hrow : Row h none (e :: l)) (iter : ListIter) {fuel : ℕ}
    (hiter : iter.next ≤ l.length) (hfuel : l.length < fuel + iter.next) :
    (LinkIter.ofPosition e l iter).nodes h fuel = some (l.drop iter.next) := by
  induction fuel generalizing iter with
  | zero => omega
  | succ fuel ih =>
    rw [LinkIter.nodes, hasNext_ofPosition hrow hiter]
    by_cases hlt : iter.next < l.length
    · have hrest : (LinkIter.ofPosition e l (cdslIterNext iter)).nodes h fuel = _ :=
        ih (cdslIterNext iter) hlt (by rw [next_cdslIterNext]; omega)
      rw [next_cdslIterNext] at hrest
      simp [cdslIterHasNext_iff.mpr hlt, iterNext_ofPosition hrow hiter, hlt, hrest]
    · have hend : cdslIterHasNext l iter = false :=
        Bool.eq_false_iff.mpr (mt cdslIterHasNext_iff.mp hlt)
      simp [hend, List.drop_eq_nil_of_le (Nat.le_of_not_lt hlt)]

/-! ## The whole list -/

theorem DlistHolds.sees (hl : DlistHolds h e l t) : Sees h e l where
  size fuel hfuel := by
    have hloop := sizeLoop_eq (n := 0) hl.row hfuel
    have hhead := hl.head
    cases l with
    | nil => simp [cdslListSize, hhead]
    | cons b l => simpa [cdslListSize, hhead] using hloop
  contain item fuel hfuel := by
    have hloop := containLoop_eq item hl.row hfuel
    have hhead := hl.head
    cases l with
    | nil => cases item <;> simp [cdslListContain, hhead]
    | cons b l => simpa [cdslListContain, hhead] using hloop
  iter fuel hfuel := nodes_ofPosition hl.row cdslIterInit (Nat.zero_le _) hfuel
  nodup := hl.nodup

/-! ## A double-ended sequence -/

/-- The operations of a double-ended sequence. -/
def DlistOp.AtEnds : DlistOp α → Prop
  | .putHead _ | .putTail _ | .dequeue | .removeHead => True
  | _ => False

/-- The sequence after the operations, and what they return. -/
def sequence : List α → List (DlistOp α) → List α × List (Option α)
  | l, [] => (l, [])
  | l, op :: ops => ((sequence (op.apply l) ops).1, op.returns l :: (sequence (op.apply l) ops).2)

/-- After an operation at the ends, the last node is in the tail again. -/
theorem tailAfter_atEnds {op : DlistOp α} (hends : op.AtEnds) (hlast : l ≠ [] → t = l.getLast?)
    (hne : op.apply l ≠ []) : op.tailAfter l t = (op.apply l).getLast? := by
  have hlen (hne : l.tail ≠ []) : l.length ≠ 1 := fun hlen =>
    hne (List.eq_nil_of_length_eq_zero (by rw [List.length_tail, hlen]))
  have htail (hne : l.tail ≠ []) : t = l.tail.getLast? := by
    rw [List.getLast?_tail, if_neg (hlen hne)]
    exact hlast (mt (congrArg List.tail) hne)
  cases op with
  | putHead item => exact tailAfter_putHead hlast
  | putTail item => exact (List.getLast?_concat ..).symm
  | dequeue => exact htail hne
  | removeHead => exact (if_neg (hlen hne)).trans (htail hne)
  | _ => exact hends.elim

theorem DlistHolds.run {ops : List (DlistOp α)} (hl : DlistHolds h e l t)
    (hlast : l ≠ [] → t = l.getLast?) (hends : ∀ op ∈ ops, op.AtEnds)
    (hops : PermittedAll e l ops) :
    ∃ h', runDlist e h ops = some (h', (sequence l ops).2) ∧ Sees h' e (sequence l ops).1 := by
  induction ops generalizing h l t with
  | nil => exact ⟨h, rfl, hl.sees⟩
  | cons op ops ih =>
    obtain ⟨hop, hops⟩ := hops
    obtain ⟨hend, hends⟩ := List.forall_mem_cons.mp hends
    have hnever : op = .removeTail → l = [] → t = none := by
      rintro rfl
      exact hend.elim
    obtain ⟨h₁, heq₁, hl₁⟩ := hl.step hop hlast hnever
    obtain ⟨h₂, heq₂, hsees⟩ := ih hl₁ (tailAfter_atEnds hend hlast) hends hops
    refine ⟨h₂, ?_, hsees⟩
    rw [runDlist, heq₁]
    show (runDlist e h₁ ops).bind _ = _
    rw [heq₂]
    rfl

/-- A list used at its ends is a double-ended sequence, from its initialisation on: the removals
return the nodes that the sequence returns, and the traversals see the sequence. -/
theorem deque_of_run (h : Links α) (e : α) (ops : List (DlistOp α))
    (hends : ∀ op ∈ ops, op.AtEnds) (hops : PermittedAll e [] ops) :
    ∃ h', runDlist e (cdslDlistEntryInit h (some e)) ops = some (h', (sequence [] ops).2) ∧
      Sees h' e (sequence [] ops).1 :=
  (holds_entryInit h e).run (fun hne => (hne rfl).elim) hends hops

/-- The list is emptied by either removal and filled again. -/
theorem deque_refilled :
    ∃ h', runDlist 0 (cdslDlistEntryInit ⟨fun _ => none, fun _ => none⟩ (some 0))
        [.putTail 1, .putHead 2, .dequeue, .dequeue, .dequeue, .putTail 1, .removeHead, .putHead 3,
          .putTail 2] =
        some (h', [none, none, some 2, some 1, none, none, some 1, none, none]) ∧
      Sees h' (0 : ℕ) [3, 2] :=
  deque_of_run _ 0 _ (by simp [DlistOp.AtEnds])
    (by simp [PermittedAll, DlistOp.Permitted, DlistOp.apply])

end Dlist

end MpegtsReader
