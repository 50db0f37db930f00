import MpegtsReader.Dlist

/-!
# What the list operations do

`DlistHolds h e l t`: from the entry `e` the links go through the nodes `l`, forward and back, and
the field `tail` is `t`. There is one theorem for each operation, with what it makes of the nodes
and of the tail; several operations do not have the entry and leave the tail as it is.
-/

namespace MpegtsReader

namespace Dlist

open Links

variable {α : Type} {h : Links α} {e a x : α} {l l₁ l₂ : List α} {t : Option α}

/-- The list at `e` has the nodes `l`, and its tail is `t`. -/
structure DlistHolds (h : Links α) (e : α) (l : List α) (t : Option α) : Prop where
  row : Row h none (e :: l)
  tail : h.prev e = t

theorem DlistHolds.head (hl : DlistHolds h e l t) : h.next e = l.head? := by
  have hhead := hl.row.1
  rwa [Option.or_none] at hhead

theorem DlistHolds.next_eq (hl : DlistHolds h e (l₁ ++ a :: l₂) t) : h.next a = l₂.head? := by
  have hrow : Row h none ((e :: l₁) ++ a :: l₂) := hl.row
  have hnext := hrow.next_eq
  rwa [Option.or_none] at hnext

/-- The node before a node of the list. -/
theorem DlistHolds.exists_prev (hl : DlistHolds h e (l₁ ++ a :: l₂) t) :
    ∃ q p, e :: l₁ = q ++ [p] ∧ (q ++ [p]).head? = some e ∧ h.prev a = some p ∧
      Row h none (q ++ p :: a :: l₂) := by
  obtain ⟨q, p, hqp⟩ : ∃ q p, e :: l₁ = q ++ [p] :=
    ⟨_, _, (List.dropLast_append_getLast (List.cons_ne_nil e l₁)).symm⟩
  have hrow : Row h none (q ++ p :: a :: l₂) := by
    have hrow := hl.row
    rwa [← List.cons_append, hqp, List.append_assoc] at hrow
  exact ⟨q, p, hqp, hqp ▸ List.head?_cons, hrow.prev_eq, hrow⟩

theorem DlistHolds.nodup (hl : DlistHolds h e l t) : l.Nodup := (List.nodup_cons.mp hl.row.nodup).2

/-- Stores elsewhere keep a list. -/
theorem DlistHolds.frame {h' : Links α} (hl : DlistHolds h e l t)
    (hnext : ∀ a ∈ e :: l, h'.next a = h.next a) (hprev : ∀ a ∈ e :: l, h'.prev a = h.prev a) :
    DlistHolds h' e l t := by
  refine ⟨hl.row.congr hnext fun b hb => hprev b ?_,
    (hprev e List.mem_cons_self).trans hl.tail⟩
  rw [Option.toList_none, List.append_nil] at hb
  exact List.mem_cons_of_mem e hb

variable [DecidableEq α]

theorem DlistHolds.nodeInit (hl : DlistHolds h e l t) (hx : x ∉ e :: l) :
    DlistHolds (cdslDlistNodeInit h (some x)) e l t := by
  refine hl.frame (fun a ha => ?_) fun a ha => ?_
  · unfold cdslDlistNodeInit
    rw [next_setPrev, next_setNext, if_neg (ne_of_mem_of_not_mem ha hx)]
  · unfold cdslDlistNodeInit
    rw [prev_setPrev, if_neg (ne_of_mem_of_not_mem ha hx), prev_setNext]

theorem holds_entryInit (h : Links α) (e : α) :
    DlistHolds (cdslDlistEntryInit h (some e)) e [] none := by
  refine ⟨row_singleton.mpr ⟨?_, nofun⟩, ?_⟩
  · unfold cdslDlistEntryInit
    rw [next_setPrev, next_setNext, if_pos rfl]
  · unfold cdslDlistEntryInit
    rw [prev_setPrev, if_pos rfl]

/-! ## Insertion -/

theorem DlistHolds.putHead (hl : DlistHolds h e l t) (hx : x ∉ e :: l) :
    ∃ h', cdslDlistPutHead h (some e) (some x) = some h' ∧
      DlistHolds h' e (x :: l) (if l = [] then some x else t) := by
  have hnodup := hl.row.nodup
  have hnext := hl.head
  cases l with
  | nil =>
    refine ⟨(((h.setNext x none).setPrev e (some x)).setPrev x (some e)).setNext e (some x),
      ?_, ?_, ?_⟩
    · simp [cdslDlistPutHead, hnext, next_setNext]
    · refine row_link (q := []) (m := []) (r := []) hl.row rfl hx ?_ ?_ ?_ ?_ ?_ ?_ <;> grind
    · grind
  | cons b l =>
    refine ⟨(((h.setNext x (some b)).setPrev b (some x)).setPrev x (some e)).setNext e (some x),
      ?_, ?_, ?_⟩
    · simp [cdslDlistPutHead, hnext, next_setNext]
    · refine row_link (q := []) (m := []) (r := b :: l) hl.row rfl hx ?_ ?_ ?_ ?_ ?_ ?_ <;> grind
    · grind [hl.tail]

theorem DlistHolds.putTail (hl : DlistHolds h e l t) (ht : l ≠ [] → t = l.getLast?)
    (hx : x ∉ e :: l) :
    ∃ h', cdslDlistPutTail h (some e) (some x) = some h' ∧ DlistHolds h' e (l ++ [x]) (some x) := by
  have hnodup := hl.row.nodup
  have hnext := hl.head
  rcases List.eq_nil_or_concat' l with rfl | ⟨l, y, rfl⟩
  · refine ⟨((((h.setNext e (some x)).setPrev e (some x)).setPrev x (some e)).setNext x
      none).setPrev e (some x), ?_, ?_, ?_⟩
    · simp [cdslDlistPutTail, hnext]
    · refine row_link (q := []) (m := []) (r := []) hl.row rfl hx ?_ ?_ ?_ ?_ ?_ ?_ <;> grind
    · grind
  · have htail : h.prev e = some y := by
      rw [hl.tail, ht (by simp), List.getLast?_concat]
    refine ⟨(((h.setNext y (some x)).setPrev x (some y)).setNext x none).setPrev e (some x),
      ?_, ?_, ?_⟩
    · simp [cdslDlistPutTail, hnext, htail]
    · rw [List.append_assoc]
      refine row_link (q := e :: l) (m := []) (r := []) hl.row rfl hx ?_ ?_ ?_ ?_ ?_ ?_ <;> grind
    · grind

/-- What `cdsl_dlistPutTail` stores to: the entry, the new node, and the node in the tail. -/
theorem putTail_frame {h' : Links α} (heq : cdslDlistPutTail h (some e) (some x) = some h')
    (hae : a ≠ e) (hax : a ≠ x) :
    h'.prev a = h.prev a ∧ (h.prev e ≠ some a → h'.next a = h.next a) := by
  unfold cdslDlistPutTail at heq
  by_cases hhead : (h.next e).isSome
  · simp only [hhead, if_true, Option.bind_eq_bind, Option.bind_some, Option.bind_eq_some_iff,
      Option.some.injEq] at heq
    obtain ⟨tail, htail, rfl⟩ := heq
    refine ⟨by simp [prev_setPrev, hae, hax], fun hne => ?_⟩
    have hat : a ≠ tail := fun hat => hne (hat ▸ htail)
    simp [next_setNext, hax, hat]
  · simp only [hhead, Bool.false_eq_true, if_false, Option.bind_eq_bind, Option.bind_some,
      Option.some.injEq] at heq
    subst heq
    exact ⟨by simp [prev_setPrev, hae, hax], fun _ => by simp [next_setNext, hae, hax]⟩

theorem DlistHolds.insertAfter (hl : DlistHolds h e (l₁ ++ a :: l₂) t)
    (hx : x ∉ e :: (l₁ ++ a :: l₂)) :
    DlistHolds (cdslDlistInsertAfter h (some a) (some x)) e (l₁ ++ a :: x :: l₂) t := by
  have hnodup := hl.row.nodup
  have hnext := hl.next_eq
  have hxa : x ≠ a := by grind
  cases l₂ with
  | nil =>
    have heq : cdslDlistInsertAfter h (some a) (some x) =
        ((h.setNext x none).setPrev x (some a)).setNext a (some x) := by
      simp [cdslDlistInsertAfter, hnext, next_setNext, hxa]
    rw [heq]
    refine ⟨?_, ?_⟩
    · refine row_link (q := e :: l₁) (m := []) (r := []) hl.row rfl hx ?_ ?_ ?_ ?_ ?_ ?_ <;> grind
    · grind [hl.tail]
  | cons b l₂ =>
    have heq : cdslDlistInsertAfter h (some a) (some x) =
        (((h.setNext x (some b)).setPrev x (some a)).setNext a (some x)).setPrev b (some x) := by
      simp [cdslDlistInsertAfter, hnext, next_setNext, hxa]
    rw [heq]
    refine ⟨?_, ?_⟩
    · refine row_link (q := e :: l₁) (m := []) (r := b :: l₂) hl.row rfl hx ?_ ?_ ?_ ?_ ?_ ?_ <;>
        grind
    · grind [hl.tail]

/-- The rule does not put `item` before this node. -/
def staysAhead (rule : α → α → Option α) (item cnode : α) : Bool := rule cnode item ≠ some item

/-- The loop of `cdsl_dlistEnqueuePriority` goes on to the first node that `item` comes before. -/
theorem enqueueLoop_eq (rule : α → α → Option α) {q r : List α} {c : α}
    (hrow : Row h none (q ++ c :: r)) (he : (q ++ [c]).head? = some e) (hx : x ∉ q ++ c :: r) :
    ∃ h', (∀ fuel > r.length, enqueueLoop e x rule fuel h c = some h') ∧
      Row h' none (q ++ c :: (r.takeWhile (staysAhead rule x) ++
        x :: r.dropWhile (staysAhead rule x))) ∧
      h'.prev e = if r.dropWhile (staysAhead rule x) = [] ∧ (q ≠ [] ∨ r ≠ []) then some x
        else h.prev e := by
  have hnodup := hrow.nodup
  have hnext : h.next c = r.head? := by
    rw [hrow.next_eq, Option.or_none]
  have hxe : x ≠ e := by
    rintro rfl
    exact hx (List.append_cons q c r ▸ List.mem_append_left _ (List.mem_of_mem_head? he))
  induction r generalizing q c with
  | nil =>
    cases q with
    | nil =>
      obtain rfl : c = e := Option.some.inj he
      refine ⟨((h.setNext c (some x)).setPrev x (some c)).setNext x none, fun fuel hfuel => ?_,
        ?_, ?_⟩
      · obtain ⟨fuel, rfl⟩ := Nat.exists_eq_add_one.mpr (Nat.zero_lt_of_lt hfuel)
        simp [enqueueLoop, hnext]
      · refine row_link (q := []) (m := []) (r := []) hrow rfl hx ?_ ?_ ?_ ?_ ?_ ?_ <;> grind
      · grind
    | cons f q =>
      obtain rfl : f = e := Option.some.inj he
      have hcf : c ≠ f := by grind
      refine ⟨(((h.setNext c (some x)).setPrev x (some c)).setNext x none).setPrev f (some x),
        fun fuel hfuel => ?_, ?_, ?_⟩
      · obtain ⟨fuel, rfl⟩ := Nat.exists_eq_add_one.mpr (Nat.zero_lt_of_lt hfuel)
        simp [enqueueLoop, hnext, hcf]
      · refine row_link (m := []) (r := []) hrow rfl hx ?_ ?_ ?_ ?_ ?_ ?_ <;> grind
      · simp [prev_setPrev]
  | cons b r ih =>
    have hprev : h.prev b = some c := hrow.prev_eq
    have hbe : b ≠ e := by
      rintro rfl
      have hnodup : ((q ++ [c]) ++ b :: r).Nodup := by rwa [List.append_assoc]
      exact (List.nodup_append.mp hnodup).2.2 b (List.mem_of_mem_head? he) b List.mem_cons_self rfl
    by_cases hrule : rule b x = some x
    · have hstop : ¬ staysAhead rule x b = true := by simpa [staysAhead] using hrule
      refine ⟨(((h.setNext c (some x)).setPrev x (some c)).setNext x (some b)).setPrev b (some x),
        fun fuel hfuel => ?_, ?_, ?_⟩
      · obtain ⟨fuel, rfl⟩ := Nat.exists_eq_add_one.mpr (Nat.zero_lt_of_lt hfuel)
        simp [enqueueLoop, hnext, hrule, hprev]
      · rw [List.takeWhile_cons_of_neg hstop, List.dropWhile_cons_of_neg hstop]
        refine row_link (m := []) (r := b :: r) hrow he hx ?_ ?_ ?_ ?_ ?_ ?_ <;> grind
      · rw [List.dropWhile_cons_of_neg hstop]
        grind
    · have hgo : staysAhead rule x b = true := decide_eq_true hrule
      rw [List.append_cons] at hrow hnodup hx
      have hnext' : h.next b = r.head? := by
        rw [hrow.next_eq, Option.or_none]
      obtain ⟨h', heq, hrow', htail⟩ := ih hrow (by rw [List.head?_append, he]; rfl) hx hnodup
        hnext'
      refine ⟨h', fun fuel hfuel => ?_, ?_, ?_⟩
      · obtain ⟨fuel, rfl⟩ := Nat.exists_eq_add_one.mpr (Nat.zero_lt_of_lt hfuel)
        rw [← heq fuel (Nat.lt_of_succ_lt_succ hfuel)]
        simp [enqueueLoop, hnext, hrule]
      · rw [List.takeWhile_cons_of_pos hgo, List.dropWhile_cons_of_pos hgo]
        simpa using hrow'
      · rw [htail, List.dropWhile_cons_of_pos hgo]
        simp

theorem DlistHolds.enqueuePriority (rule : α → α → Option α) (hl : DlistHolds h e l t)
    (hx : x ∉ e :: l) :
    ∃ h', (∀ fuel > l.length, cdslDlistEnqueuePriority fuel h (some e) (some x) rule = some h') ∧
      DlistHolds h' e (l.takeWhile (staysAhead rule x) ++ x :: l.dropWhile (staysAhead rule x))
        (if l.dropWhile (staysAhead rule x) = [] ∧ l ≠ [] then some x else t) := by
  obtain ⟨h', heq, hrow, htail⟩ := enqueueLoop_eq rule (q := []) hl.row rfl hx
  refine ⟨h', heq, hrow, ?_⟩
  rw [htail, hl.tail]
  simp

/-! ## Removal -/

theorem DlistHolds.dequeue_nil (hl : DlistHolds h e [] t) :
    cdslDlistDequeue h (some e) = some (h, none) := by
  have hnext := hl.head
  simp [cdslDlistDequeue, hnext]

theorem DlistHolds.dequeue (hl : DlistHolds h e (a :: l) t) :
    ∃ h', cdslDlistDequeue h (some e) = some (h', some a) ∧ DlistHolds h' e l t := by
  have hnodup := hl.row.nodup
  have hhead := hl.head
  have hnext := DlistHolds.next_eq (show DlistHolds h e ([] ++ a :: l) t from hl)
  cases l with
  | nil =>
    refine ⟨(h.setNext e none).setNext e none, ?_, ?_, ?_⟩
    · simp [cdslDlistDequeue, hhead, hnext, next_setNext]
    · refine row_unlink (q := []) (m := [a]) (r := []) hl.row rfl ?_ ?_ ?_ ?_ <;> grind
    · grind [hl.tail]
  | cons b l =>
    refine ⟨(h.setNext e (some b)).setPrev b (some e), ?_, ?_, ?_⟩
    · simp [cdslDlistDequeue, hhead, hnext, next_setNext]
    · refine row_unlink (q := []) (m := [a]) (r := b :: l) hl.row rfl ?_ ?_ ?_ ?_ <;> grind
    · grind [hl.tail]

theorem DlistHolds.removeHead_nil (hl : DlistHolds h e [] t) :
    cdslDlistRemoveHead h (some e) = (h, none) := by
  have hnext := hl.head
  simp [cdslDlistRemoveHead, hnext]

theorem DlistHolds.removeHead (hl : DlistHolds h e (a :: l) t) :
    ∃ h', cdslDlistRemoveHead h (some e) = (h', some a) ∧
      DlistHolds h' e l (if l = [] then none else t) := by
  have hnodup := hl.row.nodup
  have hhead := hl.head
  have hnext := DlistHolds.next_eq (show DlistHolds h e ([] ++ a :: l) t from hl)
  cases l with
  | nil =>
    refine ⟨(h.setNext e none).setPrev e none, ?_, ?_, ?_⟩
    · simp [cdslDlistRemoveHead, hhead, hnext]
    · refine row_unlink (q := []) (m := [a]) (r := []) hl.row rfl ?_ ?_ ?_ ?_ <;> grind
    · grind
  | cons b l =>
    refine ⟨(h.setNext e (some b)).setPrev b (some e), ?_, ?_, ?_⟩
    · simp [cdslDlistRemoveHead, hhead, hnext]
    · refine row_unlink (q := []) (m := [a]) (r := b :: l) hl.row rfl ?_ ?_ ?_ ?_ <;> grind
    · grind [hl.tail]

theorem DlistHolds.removeTail_nil (hl : DlistHolds h e [] none) :
    cdslDlistRemoveTail h (some e) = some (h, none) := by
  simp [cdslDlistRemoveTail, hl.tail]

theorem DlistHolds.removeTail (hl : DlistHolds h e (l ++ [a]) (some a)) :
    ∃ h', cdslDlistRemoveTail h (some e) = some (h', some a) ∧ DlistHolds h' e l l.getLast? := by
  have hnodup := hl.row.nodup
  have htail := hl.tail
  rcases List.eq_nil_or_concat' l with rfl | ⟨l, w, rfl⟩
  · have hprev : h.prev a = some e := hl.row.2.1 a rfl
    refine ⟨(h.setPrev e none).setNext e none, ?_, ?_, ?_⟩
    · simp [cdslDlistRemoveTail, htail, hprev]
    · refine row_unlink (q := []) (m := [a]) (r := []) hl.row rfl ?_ ?_ ?_ ?_ <;> grind
    · grind
  · have hrow : Row h none (e :: l ++ w :: ([a] ++ [])) := by
      simpa using hl.row
    have hprev : h.prev a = some w := hrow.prev_eq
    have hwe : w ≠ e := by grind
    refine ⟨(h.setPrev e (some w)).setNext w none, ?_, ?_, ?_⟩
    · simp [cdslDlistRemoveTail, htail, hprev, hwe, prev_setPrev]
    · refine row_unlink hrow rfl ?_ ?_ ?_ ?_ <;> grind
    · grind

theorem DlistHolds.remove (hl : DlistHolds h e (l₁ ++ x :: l₂) t) :
    DlistHolds (cdslDlistRemove h (some x)).1 e (l₁ ++ l₂) t := by
  have hnodup := hl.row.nodup
  have hnext := hl.next_eq
  obtain ⟨q, p, hqp, he, hprev, hrow⟩ := hl.exists_prev
  have hpx : x ≠ p := by grind
  have hlist : e :: (l₁ ++ l₂) = q ++ p :: l₂ := by
    rw [← List.cons_append, hqp, List.append_assoc, List.singleton_append]
  cases l₂ with
  | nil =>
    have heq : (cdslDlistRemove h (some x)).1 = h.setNext p none := by
      simp [cdslDlistRemove, hprev, hnext, next_setNext, hpx]
    rw [heq]
    refine ⟨?_, ?_⟩
    · rw [hlist]
      refine row_unlink (m := [x]) (r := []) hrow he ?_ ?_ ?_ ?_ <;> grind
    · exact hl.tail
  | cons b l₂ =>
    have heq : (cdslDlistRemove h (some x)).1 =
        (h.setNext p (some b)).setPrev b (some p) := by
      simp [cdslDlistRemove, hprev, hnext, next_setNext, hpx]
    rw [heq]
    refine ⟨?_, ?_⟩
    · rw [hlist]
      refine row_unlink (m := [x]) (r := b :: l₂) hrow he ?_ ?_ ?_ ?_ <;> grind
    · grind [hl.tail]

theorem DlistHolds.replace {nu : α} (hl : DlistHolds h e (l₁ ++ a :: l₂) t)
    (hnu : nu ∉ e :: (l₁ ++ a :: l₂)) :
    DlistHolds (cdslDlistReplace h (some a) (some nu)) e (l₁ ++ nu :: l₂) t := by
  have hnext := hl.next_eq
  obtain ⟨q, p, hqp, he, hprev, hrow⟩ := hl.exists_prev
  have hlist : ∀ b, e :: (l₁ ++ b :: l₂) = q ++ p :: b :: l₂ := fun b => by
    rw [← List.cons_append, hqp, List.append_assoc, List.singleton_append]
  rw [hlist] at hnu
  have hnodup := (List.nodup_append.mp hrow.nodup).2.1
  have hnup : nu ≠ p ∧ nu ≠ a := by grind
  have hea : e ≠ a ∧ e ≠ nu := by grind [hl.row.nodup]
  cases l₂ with
  | nil =>
    have heq : cdslDlistReplace h (some a) (some nu) =
        ((((h.setNext nu none).setPrev nu (some p)).setNext p (some nu)).setPrev a none).setNext a
          none := by
      simp [cdslDlistReplace, hprev, hnext, next_setNext, prev_setPrev]
    rw [heq]
    refine ⟨?_, ?_⟩
    · rw [hlist]
      refine row_link (m := [a]) (r := []) hrow he hnu ?_ ?_ ?_ ?_ ?_ ?_ <;> grind
    · grind [hl.tail]
  | cons b l₂ =>
    have hnub : nu ≠ b := by grind
    have heb : e ≠ b := by grind [hl.row.nodup]
    have heq : cdslDlistReplace h (some a) (some nu) =
        (((((h.setNext nu (some b)).setPrev nu (some p)).setPrev b (some nu)).setNext p
          (some nu)).setPrev a none).setNext a none := by
      simp [cdslDlistReplace, hprev, hnext, next_setNext, prev_setPrev, hnub]
    rw [heq]
    refine ⟨?_, ?_⟩
    · rw [hlist]
      refine row_link (m := [a]) (r := b :: l₂) hrow he hnu ?_ ?_ ?_ ?_ ?_ ?_ <;>
        simp only [next_setNext, next_setPrev, prev_setNext, prev_setPrev] <;> grind
    · grind [hl.tail]

end Dlist

end MpegtsReader
