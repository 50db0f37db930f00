import MpegtsReader.Simulation
import MpegtsReader.SlistChain

/-!
# Runs of operations on singly linked lists

`Lists` are the sequences that the lists at several entries stand for, and `SlistOp.apply` is what
an operation makes of them. `ListsHold` relates them to the heap: the chain from each entry goes
through its sequence, and no two lists share a node. `ListsHold.step` is the simulation of one
operation, and it needs of a merge that the list that is appended to has a node.
-/

namespace MpegtsReader

namespace Slist

open Links Simulation
open Function (update update_self update_of_ne)

/-- The sequence of each list; other addresses are no entries. -/
abbrev Lists (α : Type) := α → Option (List α)

/-- The operations. -/
inductive SlistOp (α : Type)
  | entryInit (entry : α)
  | putHead (lentry item : α)
  | putTail (lentry item : α)
  | insertAfter (ahead item : α)
  | dequeue (lentry : α)
  | removeHead (lentry : α)
  | removeTail (lentry : α)
  | remove (lentry item : α)
  | removeAt (entry : α) (idx : ℕ)
  | merge (toEntry fromEntry : α)

/-- What an operation returns. -/
inductive SlistResult (α : Type)
  | void
  | int (n : ℤ)
  | node (p : Option α)
  | bool (b : Bool)

variable {α : Type} [DecidableEq α]

/-- One operation, and what it returns. -/
def slistStep (fuel : ℕ) (h : Nexts α) : SlistOp α → Option (Nexts α × SlistResult α)
  | .entryInit entry => some (cdslSlistEntryInit h (some entry), .void)
  | .putHead lentry item => some ((cdslSlistPutHead h (some lentry) (some item)).map id .int)
  | .putTail lentry item =>
    (cdslSlistPutTail fuel h (some lentry) (some item)).map (Prod.map id .int)
  | .insertAfter ahead item => some (cdslSlistInsertAfter h (some ahead) (some item), .void)
  | .dequeue lentry => some ((cdslSlistDequeue h (some lentry)).map id .node)
  | .removeHead lentry => some ((cdslSlistRemoveHead h (some lentry)).map id .node)
  | .removeTail lentry => (cdslSlistRemoveTail fuel h (some lentry)).map (Prod.map id .node)
  | .remove lentry item =>
    (cdslSlistRemove fuel h (some lentry) (some item)).map (Prod.map id .bool)
  | .removeAt entry idx => (cdslSlistRemoveAt fuel h (some entry) idx).map (Prod.map id .node)
  | .merge toEntry fromEntry =>
    (cdslSlistMerge fuel h (some toEntry) (some fromEntry)).map (·, .void)

/-- The node is in a list, or the entry of one. -/
def Lists.Uses (lists : Lists α) (a : α) : Prop := ∃ e l, lists e = some l ∧ a ∈ e :: l

/-- A change of one sequence. -/
def Lists.modify (lists : Lists α) (e : α) (f : List α → List α) : Lists α :=
  update lists e ((lists e).map f)

namespace SlistOp

/-- What the operation makes of the sequences. -/
def apply (lists : Lists α) : SlistOp α → Lists α
  | entryInit entry => update lists entry (some [])
  | putHead lentry item => lists.modify lentry (item :: ·)
  | putTail lentry item => lists.modify lentry (· ++ [item])
  | insertAfter ahead item => fun e =>
    (lists e).map (·.flatMap fun a => if a = ahead then [a, item] else [a])
  | dequeue lentry | removeHead lentry => lists.modify lentry List.tail
  | removeTail lentry => lists.modify lentry List.dropLast
  | remove lentry item => lists.modify lentry (·.erase item)
  | removeAt entry idx => lists.modify entry (·.eraseIdx idx)
  | merge toEntry fromEntry =>
    update (lists.modify toEntry (· ++ (lists fromEntry).getD [])) fromEntry (some [])

/-- What the operation returns for the sequences. -/
def returns (lists : Lists α) : SlistOp α → SlistResult α
  | entryInit _ | insertAfter _ _ | merge _ _ => .void
  | putHead _ _ => .int 0
  | putTail lentry _ => .int ((lists lentry).getD []).length
  | dequeue lentry | removeHead lentry => .node ((lists lentry).getD []).head?
  | removeTail lentry => .node ((lists lentry).getD []).getLast?
  | remove lentry item => .bool (item ∈ (lists lentry).getD [])
  | removeAt entry idx => .node ((lists entry).getD [])[idx]?

/-- An entry is initialised, and is no node of a list. A node that is inserted is not in use. The
index is below the length. -/
def Permitted (lists : Lists α) : SlistOp α → Prop
  | entryInit entry => ∀ e l, lists e = some l → entry ∉ l
  | putHead lentry item | putTail lentry item => (lists lentry).isSome ∧ ¬lists.Uses item
  | insertAfter ahead item => (∃ e l, lists e = some l ∧ ahead ∈ l) ∧ ¬lists.Uses item
  | dequeue lentry | removeHead lentry | removeTail lentry | remove lentry _ =>
    (lists lentry).isSome
  | removeAt entry idx => ∃ l, lists entry = some l ∧ idx < l.length
  | merge toEntry fromEntry => (lists toEntry).isSome ∧ (lists fromEntry).isSome

/-- A merge appends to a list that has a node. -/
def MergesIntoNode (lists : Lists α) : SlistOp α → Prop
  | merge toEntry _ => lists toEntry ≠ some []
  | _ => True

end SlistOp

/-- The chain from each entry goes through its sequence, and the lists are apart. -/
structure ListsHold (h : Nexts α) (lists : Lists α) : Prop where
  chain : ∀ {e l}, lists e = some l → Chain h none (e :: l)
  apart : ∀ {e l f m}, lists e = some l → lists f = some m → e ≠ f → (e :: l).Disjoint (f :: m)

variable {h h' : Nexts α} {lists : Lists α} {e a x : α} {l l' l₁ l₂ m : List α}

omit [DecidableEq α] in
theorem Lists.uses_of_mem (hle : lists e = some l) (ha : a ∈ e :: l) : lists.Uses a :=
  ⟨e, l, hle, ha⟩

omit [DecidableEq α] in
theorem not_mem_of_not_uses (hx : ¬lists.Uses x) (hle : lists e = some l) : x ∉ e :: l :=
  fun hmem => hx (Lists.uses_of_mem hle hmem)

theorem modify_eq (hle : lists e = some l) (f : List α → List α) :
    lists.modify e f = update lists e (some (f l)) := by
  rw [Lists.modify, hle]
  rfl

/-! ## One list changes -/

/-- A list gets nodes that no other list has, by stores that no other list sees. -/
theorem ListsHold.set (hold : ListsHold h lists) (hchain : Chain h' none (e :: l'))
    (hframe : ∀ f m, lists f = some m → f ≠ e → ∀ a ∈ f :: m, h' a = h a)
    (hapart : ∀ f m, lists f = some m → f ≠ e → (e :: l').Disjoint (f :: m)) :
    ListsHold h' (update lists e (some l')) where
  chain {f m} hf := by
    by_cases hfe : f = e
    · subst hfe
      rw [update_self] at hf
      exact Option.some.inj hf ▸ hchain
    · rw [update_of_ne hfe] at hf
      exact (hold.chain hf).congr (hframe f m hf hfe)
  apart {f m g k} hf hg hfg := by
    by_cases hfe : f = e
    · subst hfe
      rw [update_self] at hf
      rw [update_of_ne hfg.symm] at hg
      exact Option.some.inj hf ▸ hapart g k hg hfg.symm
    · rw [update_of_ne hfe] at hf
      by_cases hge : g = e
      · subst hge
        rw [update_self] at hg
        exact Option.some.inj hg ▸ fun a ha hb => hapart f m hf hfe hb ha
      · rw [update_of_ne hge] at hg
        exact hold.apart hf hg hfg

/-- The nodes of the new sequence are those of the old one, and some that were not in use. The
stores are to the nodes of the list, and to some that were not in use. -/
theorem ListsHold.change (hold : ListsHold h lists) (hle : lists e = some l)
    (hchain : Chain h' none (e :: l')) (hnew : ∀ a ∈ l', a ∈ l ∨ ¬lists.Uses a)
    (hframe : ∀ a ∉ e :: l, lists.Uses a → h' a = h a) :
    ListsHold h' (update lists e (some l')) := by
  have hother : ∀ f m, lists f = some m → f ≠ e → ∀ a ∈ f :: m, a ∉ e :: l :=
    fun f m hf hfe a ha hmem => hold.apart hf hle hfe ha hmem
  refine hold.set hchain (fun f m hf hfe a ha => ?_) fun f m hf hfe a ha hmem => ?_
  · exact hframe a (hother f m hf hfe a ha) (Lists.uses_of_mem hf ha)
  · refine hother f m hf hfe a hmem ?_
    rcases List.mem_cons.mp ha with rfl | ha
    · exact List.mem_cons_self
    · rcases hnew a ha with hl | hfree
      · exact List.mem_cons_of_mem e hl
      · exact absurd (Lists.uses_of_mem hf hmem) hfree

/-- A removal takes nodes out of the list and stores to its nodes only. -/
theorem ListsHold.shrink (hold : ListsHold h lists) (hle : lists e = some l)
    (hchain : Chain h' none (e :: l')) (hsub : l' ⊆ l) (hframe : ∀ a ∉ e :: l, h' a = h a) :
    ListsHold h' (update lists e (some l')) :=
  hold.change hle hchain (fun _ ha => .inl (hsub ha)) fun a ha _ => hframe a ha

/-- An insertion puts a node into the list that was not in use, and stores to it and to the others
of the list. -/
theorem ListsHold.grow (hold : ListsHold h lists) (hle : lists e = some l) (hx : ¬lists.Uses x)
    (hchain : Chain h' none (e :: l')) (hsub : l' ⊆ x :: l)
    (hframe : ∀ a ∉ e :: l, a ≠ x → h' a = h a) : ListsHold h' (update lists e (some l')) := by
  refine hold.change hle hchain (fun a ha => ?_) fun a ha huse => hframe a ha ?_
  · rcases List.mem_cons.mp (hsub ha) with rfl | ha
    · exact .inr hx
    · exact .inl ha
  · rintro rfl
    exact hx huse

omit [DecidableEq α] in
theorem not_mem_of_not_mem_append (ha : a ∉ e :: (l₁ ++ l₂)) : a ∉ e :: l₁ :=
  fun hmem => ha (List.mem_cons.mpr
    ((List.mem_cons.mp hmem).imp_right (List.mem_append_left l₂)))

/-! ## The operations -/

theorem ListsHold.entryInit (hold : ListsHold h lists) (he : ∀ f m, lists f = some m → e ∉ m) :
    ListsHold (cdslSlistEntryInit h (some e)) (update lists e (some [])) := by
  obtain ⟨hchain, hframe⟩ := chain_entryInit h e
  have hother : ∀ f m, lists f = some m → f ≠ e → e ∉ f :: m := fun f m hf hfe hmem =>
    (List.mem_cons.mp hmem).elim (fun hef => hfe hef.symm) (he f m hf)
  refine hold.set hchain (fun f m hf hfe a ha => ?_) fun f m hf hfe => ?_
  · exact hframe a (ne_of_mem_of_not_mem ha (hother f m hf hfe))
  · exact List.singleton_disjoint.mpr (hother f m hf hfe)

theorem apply_insertAfter (hold : ListsHold h lists) (hle : lists e = some (l₁ ++ a :: l₂))
    (ha : a ∉ l₁ ++ l₂) :
    (SlistOp.insertAfter a x).apply lists = update lists e (some (l₁ ++ a :: x :: l₂)) := by
  funext f
  show (lists f).map _ = _
  by_cases hfe : f = e
  · subst hfe
    rw [update_self, hle, Option.map_some, insertBehind_middle ha]
  · rw [update_of_ne hfe]
    cases hf : lists f with
    | none => rfl
    | some m =>
      have ham : a ∉ m := fun ham => hold.apart hf hle hfe (List.mem_cons_of_mem f ham)
        (List.mem_cons_of_mem e (List.mem_append_right l₁ List.mem_cons_self))
      rw [Option.map_some, insertBehind_of_not_mem ham]

theorem ListsHold.insertAfter (hold : ListsHold h lists) (hle : lists e = some l) (ha : a ∈ l)
    (hx : ¬lists.Uses x) :
    ListsHold (cdslSlistInsertAfter h (some a) (some x))
      ((SlistOp.insertAfter a x).apply lists) := by
  have hl := hold.chain hle
  obtain ⟨l₁, l₂, rfl, hnot⟩ := exists_split (List.nodup_cons.mp hl.nodup).2 ha
  have hl' : Chain h none ((e :: l₁) ++ a :: l₂) := hl
  obtain ⟨hchain, hframe⟩ := chain_insertAfter hl' (not_mem_of_not_uses hx hle)
  rw [apply_insertAfter hold hle hnot]
  refine hold.grow hle hx hchain (fun b hb => ?_) fun b hb hbx => hframe b ?_ hbx
  · simp only [List.mem_append, List.mem_cons] at hb ⊢
    tauto
  · rintro rfl
    exact hb (List.mem_cons_of_mem e (List.mem_append_right l₁ List.mem_cons_self))

/-- The nodes of the list that is taken from come behind those of the other. -/
theorem ListsHold.merge_apart {f b : α} (hold : ListsHold h lists)
    (hle : lists e = some (b :: l)) (hlf : lists f = some m) (hef : e ≠ f) :
    ListsHold (update (update h (l.getLastD b) m.head?) f none)
      ((SlistOp.merge e f).apply lists) := by
  have hfm := (hold.chain hlf).nodup
  have hapart := hold.apart hle hlf hef
  -- the nodes `m` are in no list once the entry `f` is empty
  have hempty : ListsHold (update h f none) (update lists f (some [])) :=
    hold.shrink hlf (chain_singleton.mpr (update_self ..)) (List.nil_subset m)
      fun a ha => update_of_ne (List.ne_of_not_mem_cons ha) ..
  have hle' : update lists f (some []) e = some (b :: l) := (update_of_ne hef ..).trans hle
  have hm : Chain (update h f none) none m := (hold.chain hlf).2.congr fun a ha =>
    update_of_ne (ne_of_mem_of_not_mem ha (List.nodup_cons.mp hfm).1) ..
  have hfree : ∀ a ∈ m, ¬Lists.Uses (update lists f (some [])) a := by
    rintro a ha ⟨g, k, hg, hak⟩
    by_cases hgf : g = f
    · subst hgf
      rw [update_self] at hg
      obtain rfl := Option.some.inj hg
      exact (List.nodup_cons.mp hfm).1 (List.mem_singleton.mp hak ▸ ha)
    · rw [update_of_ne hgf] at hg
      exact hold.apart hg hlf hgf hak (List.mem_cons_of_mem f ha)
  have hlast := List.mem_cons_of_mem e (getLastD_mem b l)
  have hheaps : update (update h (l.getLastD b) m.head?) f none =
      update (update h f none) (l.getLastD b) m.head? :=
    Function.update_comm (ne_of_mem_of_not_mem hlast fun hf => hapart hf List.mem_cons_self) ..
  have hlists : (SlistOp.merge e f).apply lists =
      update (update lists f (some [])) e (some (b :: l ++ m)) := by
    rw [SlistOp.apply, modify_eq hle, hlf, Function.update_comm hef]
    rfl
  have hextend := chain_extend (hempty.chain hle') hm fun a ha hmem =>
    hapart ha (List.mem_cons_of_mem f hmem)
  rw [List.getLastD_cons] at hextend
  rw [hheaps, hlists]
  refine hempty.change hle' hextend (fun a ha => ?_) fun a ha _ => ?_
  · exact (List.mem_append.mp ha).imp_right (hfree a)
  · exact update_of_ne (ne_of_mem_of_not_mem hlast ha).symm ..

/-- A list that is merged with itself ends empty. -/
theorem ListsHold.merge_self {b : α} (hold : ListsHold h lists) (hle : lists e = some (b :: l)) :
    ListsHold (update (update h (l.getLastD b) (some b)) e none)
      ((SlistOp.merge e e).apply lists) := by
  rw [SlistOp.apply, modify_eq hle, Function.update_idem]
  refine hold.shrink hle (chain_singleton.mpr (update_self ..)) (List.nil_subset _) fun a ha => ?_
  have hlast : a ≠ l.getLastD b :=
    (ne_of_mem_of_not_mem (List.mem_cons_of_mem e (getLastD_mem b l)) ha).symm
  rw [update_of_ne (List.ne_of_not_mem_cons ha), update_of_ne hlast]

theorem ListsHold.merge {f b : α} (hold : ListsHold h lists) (hle : lists e = some (b :: l))
    (hlf : lists f = some m) :
    ∃ h', (∀ fuel > l.length, cdslSlistMerge fuel h (some e) (some f) = some h') ∧
      ListsHold h' ((SlistOp.merge e f).apply lists) := by
  refine ⟨_, fun fuel hfuel => merge_cons (hold.chain hle) (hold.chain hlf) hfuel, ?_⟩
  by_cases hef : e = f
  · subst hef
    obtain rfl : b :: l = m := Option.some.inj (hle.symm.trans hlf)
    exact hold.merge_self hle
  · exact hold.merge_apart hle hlf hef

/-! ## One operation -/

/-- A step that changes the sequence of one list. -/
theorem stepSimulates_modify {op : SlistOp α} {f : List α → List α} (bound : ℕ)
    (h' : Nexts α) (hle : lists e = some l) (happly : op.apply lists = lists.modify e f)
    (hstep : ∀ fuel > bound, slistStep fuel h op = some (h', op.returns lists))
    (hold : ListsHold h' (update lists e (some (f l)))) :
    StepSimulates slistStep SlistOp.apply SlistOp.returns ListsHold h lists op := by
  refine ⟨bound, h', hstep, ?_⟩
  rw [happly, modify_eq hle]
  exact hold

/-- An operation does what it does to the sequences, when it is not a merge into an empty list. -/
theorem ListsHold.step (hold : ListsHold h lists) {op : SlistOp α} (hop : op.Permitted lists)
    (hmerge : op.MergesIntoNode lists) :
    StepSimulates slistStep SlistOp.apply SlistOp.returns ListsHold h lists op := by
  cases op with
  | entryInit e => exact ⟨0, _, fun _ _ => rfl, hold.entryInit hop⟩
  | putHead e x =>
    obtain ⟨he, hx⟩ := hop
    obtain ⟨l, hle⟩ := Option.isSome_iff_exists.mp he
    obtain ⟨h', heq, hchain, hframe⟩ :=
      chain_putHead (hold.chain hle) (not_mem_of_not_uses hx hle)
    refine stepSimulates_modify 0 h' hle rfl (fun _ _ => ?_)
      (hold.grow hle hx hchain (List.Subset.refl _)
        fun a ha hax => hframe a (List.ne_of_not_mem_cons ha) hax)
    simp [slistStep, heq, SlistOp.returns]
  | putTail e x =>
    obtain ⟨he, hx⟩ := hop
    obtain ⟨l, hle⟩ := Option.isSome_iff_exists.mp he
    obtain ⟨h', heq, hchain, hframe⟩ :=
      chain_putTail (hold.chain hle) (not_mem_of_not_uses hx hle)
    refine stepSimulates_modify l.length h' hle rfl (fun fuel hfuel => ?_)
      (hold.grow hle hx hchain (by simp) hframe)
    simp [slistStep, heq fuel hfuel, SlistOp.returns, hle]
  | insertAfter a x =>
    obtain ⟨⟨e, l, hle, ha⟩, hx⟩ := hop
    exact ⟨0, _, fun _ _ => rfl, hold.insertAfter hle ha hx⟩
  | dequeue e | removeHead e =>
    obtain ⟨l, hle⟩ := Option.isSome_iff_exists.mp hop
    cases l with
    | nil =>
      refine stepSimulates_modify 0 h hle rfl (fun _ _ => ?_)
        (hold.shrink hle (hold.chain hle) (List.Subset.refl _) fun _ _ => rfl)
      simp [slistStep, cdslSlistRemoveHead, dequeue_nil (hold.chain hle), SlistOp.returns, hle]
    | cons a l =>
      obtain ⟨h', heq, hchain, hframe⟩ := chain_dequeue (hold.chain hle)
      refine stepSimulates_modify 0 h' hle rfl (fun _ _ => ?_)
        (hold.shrink hle hchain (List.subset_cons_self a l)
          fun b hb => hframe b (List.ne_of_not_mem_cons hb))
      simp [slistStep, cdslSlistRemoveHead, heq, SlistOp.returns, hle]
  | removeTail e =>
    obtain ⟨l, hle⟩ := Option.isSome_iff_exists.mp hop
    rcases List.eq_nil_or_concat' l with rfl | ⟨l, y, rfl⟩
    · refine stepSimulates_modify 0 h hle rfl (fun _ _ => ?_)
        (hold.shrink hle (hold.chain hle) (List.Subset.refl _) fun _ _ => rfl)
      simp [slistStep, removeTail_nil (hold.chain hle), SlistOp.returns, hle]
    · obtain ⟨h', heq, hchain, hframe⟩ := chain_removeTail (hold.chain hle)
      refine stepSimulates_modify (l.length + 1) h' hle rfl (fun fuel hfuel => ?_) ?_
      · simp [slistStep, heq fuel hfuel, SlistOp.returns, hle]
      · rw [List.dropLast_concat]
        exact hold.shrink hle hchain (List.subset_append_left l [y])
          fun a ha => hframe a (not_mem_of_not_mem_append ha)
  | remove e x =>
    obtain ⟨l, hle⟩ := Option.isSome_iff_exists.mp hop
    by_cases hx : x ∈ l
    · obtain ⟨l₁, l₂, rfl, hnot⟩ :=
        exists_split (List.nodup_cons.mp (hold.chain hle).nodup).2 hx
      obtain ⟨h', heq, hchain, hframe⟩ := chain_remove (hold.chain hle)
      refine stepSimulates_modify l₁.length h' hle rfl (fun fuel hfuel => ?_) ?_
      · simp [slistStep, heq fuel hfuel, SlistOp.returns, hle]
      · rw [List.erase_append_right _ (mt (List.mem_append_left _) hnot), List.erase_cons_head]
        exact hold.shrink hle hchain (by simp) fun a ha => hframe a (not_mem_of_not_mem_append ha)
    · refine stepSimulates_modify l.length h hle rfl (fun fuel hfuel => ?_) ?_
      · simp [slistStep, remove_of_not_mem (hold.chain hle) hx hfuel, SlistOp.returns, hle, hx]
      · rw [List.erase_of_not_mem hx]
        exact hold.shrink hle (hold.chain hle) (List.Subset.refl _) fun _ _ => rfl
  | removeAt e idx =>
    obtain ⟨l, hle, hidx⟩ := hop
    obtain ⟨l₁, x, l₂, rfl, rfl⟩ : ∃ l₁ x l₂, l = l₁ ++ x :: l₂ ∧ idx = l₁.length :=
      ⟨l.take idx, l[idx], l.drop (idx + 1), by simp, by simp; omega⟩
    obtain ⟨h', heq, hchain, hframe⟩ := chain_removeAt (hold.chain hle)
    refine stepSimulates_modify l₁.length h' hle rfl (fun fuel hfuel => ?_) ?_
    · simp [slistStep, heq fuel hfuel, SlistOp.returns, hle]
    · rw [List.eraseIdx_append_of_length_le (Nat.le_refl _), Nat.sub_self]
      exact hold.shrink hle hchain (by simp) fun a ha => hframe a (not_mem_of_not_mem_append ha)
  | merge e f =>
    obtain ⟨l, hle⟩ := Option.isSome_iff_exists.mp hop.1
    obtain ⟨m, hlf⟩ := Option.isSome_iff_exists.mp hop.2
    cases l with
    | nil => exact absurd hle hmerge
    | cons b l =>
      obtain ⟨h', heq, hh'⟩ := hold.merge hle hlf
      exact ⟨l.length, h', fun fuel hfuel => by rw [slistStep, heq fuel hfuel]; rfl, hh'⟩

/-- A merge into an empty list dereferences `NULL`. -/
theorem ListsHold.step_eq_none (hold : ListsHold h lists) {op : SlistOp α}
    (hmerge : ¬op.MergesIntoNode lists) (fuel : ℕ) : slistStep fuel h op = none := by
  cases op with
  | merge e f =>
    have hle : lists e = some [] := Classical.not_not.mp hmerge
    rw [slistStep, merge_nil (hold.chain hle)]
    rfl
  | _ => exact absurd trivial hmerge

/-! ## Runs -/

omit [DecidableEq α] in
/-- Before the first list is initialised. -/
theorem holds_start (h : Nexts α) : ListsHold h (fun _ => none) where
  chain hle := by cases hle
  apart hle := by cases hle

/-- **Singly linked lists.** A run behaves as the reference sequences do exactly when each of its
merges appends to a list that has a node. -/
theorem slists_of_run (h : Nexts α) (ops : List (SlistOp α))
    (hops : EachTime SlistOp.apply SlistOp.Permitted (fun _ => none) ops) :
    Simulates slistStep SlistOp.apply SlistOp.returns ListsHold h (fun _ => none) ops ↔
      EachTime SlistOp.apply SlistOp.MergesIntoNode (fun _ => none) ops :=
  simulates_iff (fun _ _ _ hold hop hmerge => hold.step hop hmerge)
    (fun _ _ _ hold hmerge => hold.step_eq_none hmerge) (holds_start h) hops

/-- Lists that are filled, merged and emptied. -/
theorem slists_merged :
    Simulates slistStep SlistOp.apply SlistOp.returns ListsHold (fun _ => none) (fun _ => none)
      [.entryInit 0, .entryInit 1, .putTail 0 2, .putHead 1 (3 : ℕ), .merge 0 1, .removeTail 0,
        .putTail 1 3, .removeAt 0 0] := by
  refine (slists_of_run _ _ ?_).mpr ?_
  · simp [EachTime, SlistOp.Permitted, SlistOp.apply, Lists.Uses, Lists.modify, update]
    grind
  · simp [EachTime, SlistOp.MergesIntoNode, SlistOp.apply, Lists.modify, update]

/-- A list with one node is merged into an empty one. -/
theorem slists_merge_empty :
    EachTime SlistOp.apply SlistOp.Permitted (fun _ => none)
        [.entryInit 0, .entryInit 1, .putHead 1 (2 : ℕ), .merge 0 1] ∧
      ¬Simulates slistStep SlistOp.apply SlistOp.returns ListsHold (fun _ => none) (fun _ => none)
        [.entryInit 0, .entryInit 1, .putHead 1 (2 : ℕ), .merge 0 1] := by
  constructor
  · simp [EachTime, SlistOp.Permitted, SlistOp.apply, Lists.Uses, Lists.modify, update]
    grind
  · rintro ⟨bound, h', htrace, -⟩
    exact absurd (htrace (bound + 1) (Nat.lt_succ_self _)) nofun

end Slist

end MpegtsReader
