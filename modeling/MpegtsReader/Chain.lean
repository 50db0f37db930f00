import Mathlib.Data.List.Nodup
import Mathlib.Logic.Function.Basic

/-!
# Chained nodes

Nodes with a field `next`, which is a function from the nodes. `Chain next z l` says that it leads
through the nodes `l` in this order and then to `z`. A chain is split at any node (`chain_append`),
and stores that put other nodes in the place of some of it give the chain one expects
(`chain_splice`). A chain that ends is known from its first node (`chain_unique`) and comes to no
node twice (`Chain.nodup`).
-/

namespace Links

variable {α : Type} {next next' : α → Option α} {z : Option α} {a p x : α} {l l₁ l₂ q m r : List α}

/-- The nodes follow each other in this order, and `z` follows them. -/
def Chain (next : α → Option α) (z : Option α) : List α → Prop
  | [] => True
  | a :: l => next a = l.head?.or z ∧ Chain next z l

@[simp] theorem chain_nil : Chain next z [] := trivial

theorem chain_cons : Chain next z (a :: l) ↔ next a = l.head?.or z ∧ Chain next z l := Iff.rfl

@[simp] theorem chain_singleton : Chain next z [a] ↔ next a = z := by
  rw [chain_cons, List.head?_nil, Option.none_or, and_iff_left chain_nil]

/-- A chain is one chain after another. -/
theorem chain_append :
    Chain next z (l₁ ++ l₂) ↔ Chain next (l₂.head?.or z) l₁ ∧ Chain next z l₂ := by
  induction l₁ with
  | nil => simp
  | cons a l₁ ih =>
    rw [List.cons_append, chain_cons, chain_cons, ih, List.head?_append, Option.or_assoc, and_assoc]

theorem Chain.left (hchain : Chain next z (l₁ ++ l₂)) : Chain next (l₂.head?.or z) l₁ :=
  (chain_append.mp hchain).1

theorem Chain.right (hchain : Chain next z (l₁ ++ l₂)) : Chain next z l₂ :=
  (chain_append.mp hchain).2

/-- Who comes after a node. -/
theorem Chain.next_eq (hchain : Chain next none (l₁ ++ a :: l₂)) : next a = l₂.head? := by
  rw [hchain.right.1, Option.or_none]

theorem Chain.head (hchain : Chain next none (a :: l)) : next a = l.head? := by
  rw [hchain.1, Option.or_none]

/-- What follows a node of the chain stands behind the first. -/
theorem Chain.mem_of_next (hchain : Chain next none (a :: l)) (hp : p ∈ a :: l)
    (hx : next p = some x) : x ∈ l := by
  obtain ⟨q, r, hq⟩ := List.append_of_mem hp
  rw [hq] at hchain
  have hr : x ∈ r := List.mem_of_mem_head? (hchain.next_eq.symm.trans hx)
  cases q with
  | nil => exact (List.cons.inj hq).2 ▸ hr
  | cons b q =>
    rw [(List.cons.inj hq).2]
    exact List.mem_append_right q (List.mem_cons_of_mem p hr)

/-- The node at position `i`, the first of the chain being before the others. -/
theorem Chain.next_getElem (hchain : Chain next none (a :: l)) {i : ℕ}
    (hp : (a :: l)[i]? = some p) : next p = l[i]? := by
  induction l generalizing a i with
  | nil =>
    cases i with
    | zero =>
      obtain rfl : a = p := Option.some.inj hp
      exact hchain.head
    | succ i => simp at hp
  | cons b l ih =>
    cases i with
    | zero =>
      obtain rfl : a = p := Option.some.inj hp
      exact hchain.head
    | succ i => exact ih hchain.2 hp

/-- Stores elsewhere keep a chain. -/
theorem Chain.congr (hchain : Chain next z l) (hnext : ∀ a ∈ l, next' a = next a) :
    Chain next' z l := by
  induction l with
  | nil => trivial
  | cons a l ih =>
    rw [List.forall_mem_cons] at hnext
    exact ⟨hnext.1.trans hchain.1, ih hchain.2 hnext.2⟩

/-! ## Chains that end -/

theorem chain_unique (h₁ : Chain next none (a :: l₁)) (h₂ : Chain next none (a :: l₂)) :
    l₁ = l₂ := by
  induction l₁ generalizing a l₂ with
  | nil =>
    have hhead : l₂.head? = none := h₂.head.symm.trans h₁.head
    exact (List.head?_eq_none_iff.mp hhead).symm
  | cons b l₁ ih =>
    have hhead : l₂.head? = some b := h₂.head.symm.trans h₁.head
    obtain ⟨l₃, rfl⟩ := List.head?_eq_some_iff.mp hhead
    rw [ih h₁.2 h₂.2]

theorem Chain.nodup (hchain : Chain next none l) : l.Nodup := by
  induction l with
  | nil => exact List.nodup_nil
  | cons a l ih =>
    refine List.nodup_cons.mpr ⟨fun ha => ?_, ih hchain.2⟩
    -- the chain from the second visit would be as long as that from the first
    obtain ⟨l₁, l₂, rfl⟩ := List.append_of_mem ha
    have hchain' : Chain next none ((a :: l₁) ++ a :: l₂) := hchain
    have hlen := congrArg List.length (chain_unique hchain hchain'.right)
    rw [List.length_append, List.length_cons] at hlen
    omega

/-! ## Stores to a chain -/

/-- Behind `p` and before `r`, the nodes `m` make way for `m'`. -/
theorem chain_splice (m' : List α) (hchain : Chain next none (q ++ p :: (m ++ r)))
    (hnew : ∀ x ∈ m', x ∉ q ++ p :: (m ++ r)) (hmid : Chain next' r.head? (p :: m'))
    (hnext : ∀ a, a ≠ p → a ∉ m → a ∉ m' → next' a = next a) :
    Chain next' none (q ++ p :: (m' ++ r)) := by
  have hnodup := hchain.nodup
  have hq : Chain next' (some p) q := by
    refine hchain.left.congr fun a ha => hnext a ?_ ?_ fun hm' => ?_
    · rintro rfl
      exact (List.nodup_append.mp hnodup).2.2 a ha a List.mem_cons_self rfl
    · exact fun hm => (List.nodup_append.mp hnodup).2.2 a ha a
        (List.mem_cons_of_mem p (List.mem_append_left r hm)) rfl
    · exact hnew a hm' (List.mem_append_left _ ha)
  have hpmr := (List.nodup_append.mp hnodup).2.1
  have hr : Chain next' none r := by
    refine hchain.right.2.right.congr fun a ha => hnext a ?_ (fun hm => ?_) fun hm' => ?_
    · rintro rfl
      exact (List.nodup_cons.mp hpmr).1 (List.mem_append_right m ha)
    · exact (List.nodup_append.mp (List.nodup_cons.mp hpmr).2).2.2 a hm a ha rfl
    · exact hnew a hm' (List.mem_append_right q (List.mem_cons_of_mem p
        (List.mem_append_right m ha)))
  refine chain_append.mpr ⟨hq, ?_⟩
  rw [← List.cons_append, chain_append, Option.or_none]
  exact ⟨hmid, hr⟩

/-- A node comes behind `p`. -/
theorem chain_link (hchain : Chain next none (q ++ p :: r)) (hx : x ∉ q ++ p :: r)
    (hp : next' p = some x) (hxr : next' x = r.head?)
    (hnext : ∀ a, a ≠ p → a ≠ x → next' a = next a) : Chain next' none (q ++ p :: x :: r) :=
  chain_splice (m := []) [x] hchain (List.forall_mem_singleton.mpr hx)
    ⟨hp, chain_singleton.mpr hxr⟩ fun a hap _ hax => hnext a hap (mt List.mem_singleton.mpr hax)

/-- The node behind `p` is left out. -/
theorem chain_unlink (hchain : Chain next none (q ++ p :: x :: r)) (hp : next' p = r.head?)
    (hnext : ∀ a, a ≠ p → a ≠ x → next' a = next a) : Chain next' none (q ++ p :: r) :=
  chain_splice (m := [x]) [] hchain nofun (chain_singleton.mpr hp)
    fun a hap hax _ => hnext a hap (mt List.mem_singleton.mpr hax)

/-! ## Parts of a sequence -/

/-- A node of a sequence, and that it is there once. -/
theorem exists_split (hnodup : l.Nodup) (ha : a ∈ l) :
    ∃ l₁ l₂, l = l₁ ++ a :: l₂ ∧ a ∉ l₁ ++ l₂ := by
  obtain ⟨l₁, l₂, rfl⟩ := List.append_of_mem ha
  exact ⟨l₁, l₂, rfl, (List.nodup_middle.mp hnodup).notMem⟩

theorem insertBehind_of_not_mem [DecidableEq α] (ha : a ∉ l) :
    l.flatMap (fun c => if c = a then [c, x] else [c]) = l := by
  induction l with
  | nil => rfl
  | cons c l ih =>
    obtain ⟨hac, hl⟩ := not_or.mp (mt List.mem_cons.mpr ha)
    rw [List.flatMap_cons, ih hl, if_neg (Ne.symm hac), List.singleton_append]

theorem insertBehind_middle [DecidableEq α] (ha : a ∉ l₁ ++ l₂) :
    (l₁ ++ a :: l₂).flatMap (fun c => if c = a then [c, x] else [c]) = l₁ ++ a :: x :: l₂ := by
  obtain ⟨ha₁, ha₂⟩ := not_or.mp (mt List.mem_append.mpr ha)
  rw [List.flatMap_append, List.flatMap_cons, insertBehind_of_not_mem ha₁,
    insertBehind_of_not_mem ha₂, if_pos rfl]
  rfl

theorem exists_concat_getLastD (a : α) (l : List α) : ∃ q, a :: l = q ++ [l.getLastD a] := by
  refine ⟨(a :: l).dropLast, ?_⟩
  rw [← List.getLast_eq_getLastD (List.cons_ne_nil a l), List.dropLast_append_getLast]

theorem getLastD_mem (a : α) (l : List α) : l.getLastD a ∈ a :: l := by
  obtain ⟨q, hq⟩ := exists_concat_getLastD a l
  rw [hq]
  exact List.mem_append_right q (List.mem_singleton_self _)

/-- A list is split behind its first nodes at the last of them. -/
theorem exists_split_getLastD (a : α) (l₁ : List α) :
    ∃ q, q.length = l₁.length ∧ ∀ l₂, a :: (l₁ ++ l₂) = q ++ l₁.getLastD a :: l₂ := by
  obtain ⟨q, hq⟩ := exists_concat_getLastD a l₁
  refine ⟨q, ?_, fun l₂ => ?_⟩
  · have hlen := congrArg List.length hq
    rw [List.length_cons, List.length_append, List.length_singleton] at hlen
    exact (Nat.add_right_cancel hlen).symm
  · rw [← List.cons_append, hq, List.append_assoc, List.singleton_append]

theorem getElem?_length_cons_append (a : α) (l₁ l₂ : List α) :
    (a :: (l₁ ++ l₂))[l₁.length]? = some (l₁.getLastD a) := by
  obtain ⟨q, hlen, hq⟩ := exists_split_getLastD a l₁
  rw [hq, ← hlen, List.getElem?_append_right (Nat.le_refl _), Nat.sub_self]
  rfl

/-- Behind the last node of a part stands the first of the next one. -/
theorem Chain.next_getLastD (hchain : Chain next none (a :: (l₁ ++ l₂))) :
    next (l₁.getLastD a) = l₂.head? := by
  obtain ⟨q, -, hq⟩ := exists_split_getLastD a l₁
  rw [hq] at hchain
  exact hchain.next_eq

section Store

variable [DecidableEq α]

/-- Another chain comes behind the last node. -/
theorem chain_extend (hl : Chain next none (a :: l)) (hm : Chain next none m)
    (hdisj : (a :: l).Disjoint m) :
    Chain (Function.update next (l.getLastD a) m.head?) none (a :: (l ++ m)) := by
  have hp : l.getLastD a ∉ m := fun hp => hdisj (getLastD_mem a l) hp
  obtain ⟨q, -, hq⟩ := exists_split_getLastD a l
  have hl' : a :: l = q ++ l.getLastD a :: ([] ++ []) := by
    rw [List.append_nil, ← hq, List.append_nil]
  rw [hl'] at hl hdisj
  have hmid : Chain (Function.update next (l.getLastD a) m.head?) ([] : List α).head?
      (l.getLastD a :: m) :=
    ⟨by rw [Function.update_self, List.head?_nil, Option.or_none],
      hm.congr fun b hb => Function.update_of_ne (ne_of_mem_of_not_mem hb hp) ..⟩
  have hsplice := chain_splice m hl (fun x hxm hx => hdisj hx hxm) hmid
    fun b hbp _ _ => Function.update_of_ne hbp ..
  rwa [List.append_nil, ← hq] at hsplice

/-- A node that leads to the second part comes behind the first. -/
theorem chain_insert (hl : Chain next none (a :: (l₁ ++ l₂))) (hx : x ∉ a :: (l₁ ++ l₂))
    (hxn : next x = l₂.head?) :
    Chain (Function.update next (l₁.getLastD a) (some x)) none (a :: (l₁ ++ x :: l₂)) := by
  have hp : l₁.getLastD a ≠ x := by
    refine ne_of_mem_of_not_mem (getLastD_mem a l₁) fun hmem => hx ?_
    rw [← List.cons_append]
    exact List.mem_append_left l₂ hmem
  obtain ⟨q, -, hq⟩ := exists_split_getLastD a l₁
  rw [hq] at hl hx ⊢
  exact chain_link hl hx (Function.update_self ..) ((Function.update_of_ne hp.symm ..).trans hxn)
    fun b hbp _ => Function.update_of_ne hbp ..

/-- The link to a node is stored over with the one behind it. -/
theorem chain_skip (hl : Chain next none (a :: (l₁ ++ x :: l₂))) :
    Chain (Function.update next (l₁.getLastD a) (next x)) none (a :: (l₁ ++ l₂)) := by
  obtain ⟨q, -, hq⟩ := exists_split_getLastD a l₁
  have hx : next x = l₂.head? := by
    rw [← List.cons_append] at hl
    exact hl.next_eq
  rw [hq] at hl ⊢
  exact chain_unlink hl ((Function.update_self ..).trans hx)
    fun b hbp _ => Function.update_of_ne hbp ..

end Store

end Links
