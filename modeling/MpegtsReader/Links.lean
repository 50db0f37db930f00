import Mathlib.Logic.Relation
import MpegtsReader.Chain

/-!
# Linked nodes

A heap of nodes with the fields `next` and `prev`. `Row z l` says that the nodes `l` are linked in
this order and that `z` follows the last of them. A row is split at any node (`row_append`), and
stores that link other nodes in the place of some of it give the row one expects (`row_splice`).
Forward a row is a chain (`Row.chain`), so a row that ends is known from its first node
(`row_unique`) and visits no node twice (`Row.nodup`).
-/

/-- The fields of all nodes. -/
structure Links (α : Type) where
  next : α → Option α
  prev : α → Option α

namespace Links

variable {α : Type}

section Store

variable [DecidableEq α]

/-- A store to the field `next` of `p`. -/
def setNext (h : Links α) (p : α) (v : Option α) : Links α :=
  { h with next := Function.update h.next p v }

/-- A store to the field `prev` of `p`. -/
def setPrev (h : Links α) (p : α) (v : Option α) : Links α :=
  { h with prev := Function.update h.prev p v }

variable (h : Links α) (p a : α) (v : Option α)

@[grind =] theorem next_setNext : (h.setNext p v).next a = if a = p then v else h.next a :=
  Function.update_apply ..

@[grind =] theorem prev_setPrev : (h.setPrev p v).prev a = if a = p then v else h.prev a :=
  Function.update_apply ..

@[simp, grind =] theorem prev_setNext : (h.setNext p v).prev a = h.prev a := rfl

@[simp, grind =] theorem next_setPrev : (h.setPrev p v).next a = h.next a := rfl

end Store

/-- The nodes are linked in this order, and `z` follows. -/
def Row (h : Links α) (z : Option α) : List α → Prop
  | [] => True
  | a :: l => h.next a = l.head?.or z ∧ (∀ b, l.head?.or z = some b → h.prev b = some a) ∧ Row h z l

variable {h : Links α} {z : Option α} {a x : α} {l l₁ l₂ : List α} {v : Option α}

@[simp] theorem row_nil : Row h z [] := trivial

theorem row_cons : Row h z (a :: l) ↔
    h.next a = l.head?.or z ∧ (∀ b, l.head?.or z = some b → h.prev b = some a) ∧ Row h z l :=
  Iff.rfl

theorem row_singleton : Row h z [a] ↔ h.next a = z ∧ ∀ b, z = some b → h.prev b = some a := by
  rw [row_cons, List.head?_nil, Option.none_or, and_iff_left row_nil]

theorem row_pair : Row h z [a, x] ↔
    h.next a = some x ∧ h.prev x = some a ∧ h.next x = z ∧
      ∀ b, z = some b → h.prev b = some x := by
  rw [row_cons, row_singleton, List.head?_cons, Option.some_or]
  simp

/-- A row is one row after another. -/
theorem row_append : Row h z (l₁ ++ l₂) ↔ Row h (l₂.head?.or z) l₁ ∧ Row h z l₂ := by
  induction l₁ with
  | nil => simp
  | cons a l₁ ih =>
    rw [List.cons_append, row_cons, row_cons, ih, List.head?_append, Option.or_assoc, and_assoc,
      and_assoc]

theorem Row.left (hrow : Row h z (l₁ ++ l₂)) : Row h (l₂.head?.or z) l₁ := (row_append.mp hrow).1

theorem Row.right (hrow : Row h z (l₁ ++ l₂)) : Row h z l₂ := (row_append.mp hrow).2

/-- Who comes after a node. -/
theorem Row.next_eq (hrow : Row h z (l₁ ++ a :: l₂)) : h.next a = l₂.head?.or z := hrow.right.1

/-- Who comes before a node. -/
theorem Row.prev_eq (hrow : Row h z (l₁ ++ x :: a :: l₂)) : h.prev a = some x :=
  hrow.right.2.1 a rfl

theorem Row.congr {h' : Links α} (hrow : Row h z l) (hnext : ∀ a ∈ l, h'.next a = h.next a)
    (hprev : ∀ b ∈ l.tail ++ z.toList, h'.prev b = h.prev b) : Row h' z l := by
  induction l with
  | nil => trivial
  | cons a l ih =>
    obtain ⟨hrow₁, hrow₂, hrow⟩ := hrow
    rw [List.forall_mem_cons] at hnext
    refine ⟨hnext.1.trans hrow₁, fun b hb => ?_, ih hrow hnext.2 fun b hb => ?_⟩
    · have hmem : b ∈ l ++ z.toList := by
        cases l with
        | nil => exact Option.mem_toList.mpr hb
        | cons c l => exact Option.some.inj hb ▸ List.mem_cons_self
      exact (hprev b hmem).trans (hrow₂ b hb)
    · refine hprev b ?_
      rcases List.mem_append.mp hb with hb | hb
      · exact List.mem_append_left _ (List.mem_of_mem_tail hb)
      · exact List.mem_append_right _ hb

/-! ## Rows that end -/

/-- The links forward. -/
theorem Row.chain (hrow : Row h z l) : Chain h.next z l := by
  induction l with
  | nil => trivial
  | cons a l ih => exact ⟨hrow.1, ih hrow.2.2⟩

theorem row_unique (h₁ : Row h none (a :: l₁)) (h₂ : Row h none (a :: l₂)) : l₁ = l₂ :=
  chain_unique h₁.chain h₂.chain

theorem Row.nodup (hrow : Row h none l) : l.Nodup := hrow.chain.nodup

/-- The node `b` comes some way behind `a`. -/
def Linked (h : Links α) (a b : α) : Prop := Relation.TransGen (fun x y => h.next x = some y) a b

/-- Behind the first node of a row stand the others. -/
theorem Row.linked_iff {b : α} (hrow : Row h none (a :: l)) : Linked h a b ↔ b ∈ l := by
  constructor
  · intro hlink
    induction hlink with
    | single hnext =>
      rw [hrow.1, Option.or_none] at hnext
      exact List.mem_of_mem_head? hnext
    | tail _ hnext ih =>
      obtain ⟨l₁, l₂, rfl⟩ := List.append_of_mem ih
      have hrow' : Row h none ((a :: l₁) ++ _ :: l₂) := hrow
      rw [hrow'.next_eq, Option.or_none] at hnext
      exact List.mem_append_right _ (List.mem_cons_of_mem _ (List.mem_of_mem_head? hnext))
  · intro hb
    induction l generalizing a with
    | nil => cases hb
    | cons c l ih =>
      have hnext : h.next a = some c := hrow.1
      rcases List.mem_cons.mp hb with rfl | hb
      · exact .single hnext
      · exact .head hnext (ih hrow.2.2 hb)

/-! ## Stores to a row -/

section Splice

variable {h' : Links α} {q m r : List α} {e p : α}

/-- Between `p` and the row `r`, the nodes `m` make way for `m'`. The stores are to these nodes, to
the first of `r` and to `e`, which comes first. -/
theorem row_splice (m' : List α) (hrow : Row h none (q ++ p :: (m ++ r)))
    (he : (q ++ [p]).head? = some e)
    (hnew : ∀ x ∈ m', x ∉ q ++ p :: (m ++ r)) (hmid : Row h' r.head? (p :: m'))
    (hnext : ∀ a, a ≠ p → a ∉ m → a ∉ m' → h'.next a = h.next a)
    (hprev : ∀ b, b ≠ e → b ∉ m → b ∉ m' → r.head? ≠ some b → h'.prev b = h.prev b) :
    Row h' none (q ++ p :: (m' ++ r)) := by
  have hnodup : ((q ++ [p]) ++ (m ++ r)).Nodup := by
    rw [List.append_assoc]
    exact hrow.nodup
  obtain ⟨hqp, hmr, hapart⟩ := List.nodup_append.mp hnodup
  have hold : ∀ a ∈ (q ++ [p]) ++ (m ++ r), a ∉ m' := by
    intro a ha hm
    rw [List.append_assoc] at ha
    exact hnew a hm ha
  have hfirst : ∀ a ∈ q ++ [p], a ∉ m ∧ a ∉ m' ∧ a ∉ r := fun a ha =>
    ⟨fun hm => hapart a ha a (List.mem_append_left _ hm) rfl, hold a (List.mem_append_left _ ha),
      fun hr => hapart a ha a (List.mem_append_right _ hr) rfl⟩
  have hlast : ∀ a ∈ r, a ∉ m ∧ a ∉ m' := fun a ha =>
    ⟨fun hm => (List.nodup_append.mp hmr).2.2 a hm a ha rfl,
      hold a (List.mem_append_right _ (List.mem_append_right _ ha))⟩
  have hq' : Row h' (some p) q := by
    cases q with
    | nil => trivial
    | cons c q =>
      obtain rfl : c = e := Option.some.inj he
      refine hrow.left.congr (fun a ha => ?_) fun b hb => ?_
      · obtain ⟨ham, ham', -⟩ := hfirst a (List.mem_append_left _ ha)
        exact hnext a ((List.nodup_append.mp hqp).2.2 a ha p (List.mem_singleton_self p)) ham ham'
      · obtain ⟨hbm, hbm', hbr⟩ := hfirst b (List.mem_cons_of_mem c hb)
        exact hprev b (ne_of_mem_of_not_mem hb (List.nodup_cons.mp hqp).1) hbm hbm'
          fun hr => hbr (List.mem_of_mem_head? hr)
  have hr' : Row h' none r := by
    refine hrow.right.2.2.right.congr (fun a ha => ?_) fun b hb => ?_
    · have hap : a ≠ p := by
        rintro rfl
        exact (hfirst a (List.mem_append_right _ (List.mem_singleton_self a))).2.2 ha
      exact hnext a hap (hlast a ha).1 (hlast a ha).2
    · have hb : b ∈ r.tail := by rwa [Option.toList_none, List.append_nil] at hb
      have hbr := List.mem_of_mem_tail hb
      have hbe : b ≠ e := by
        rintro rfl
        exact (hfirst b (List.mem_of_mem_head? he)).2.2 hbr
      refine hprev b hbe (hlast b hbr).1 (hlast b hbr).2 fun hhead => ?_
      obtain ⟨r, rfl⟩ := List.head?_eq_some_iff.mp hhead
      exact (List.nodup_cons.mp (List.nodup_append.mp hmr).2.1).1 hb
  refine row_append.mpr ⟨hq', ?_⟩
  rw [← List.cons_append, row_append, Option.or_none]
  exact ⟨hmid, hr'⟩

/-- A node in the place of others. -/
theorem row_link (hrow : Row h none (q ++ p :: (m ++ r))) (he : (q ++ [p]).head? = some e)
    (hnew : x ∉ q ++ p :: (m ++ r)) (hp : h'.next p = some x) (hx : h'.prev x = some p)
    (hxr : h'.next x = r.head?) (hr : ∀ b, r.head? = some b → h'.prev b = some x)
    (hnext : ∀ a, a ≠ p → a ∉ m → a ≠ x → h'.next a = h.next a)
    (hprev : ∀ b, b ≠ e → b ∉ m → b ≠ x → r.head? ≠ some b → h'.prev b = h.prev b) :
    Row h' none (q ++ p :: x :: r) :=
  row_splice [x] hrow he (List.forall_mem_singleton.mpr hnew)
    (row_pair.mpr ⟨hp, hx, hxr, hr⟩)
    (fun a hap ham hax => hnext a hap ham (mt List.mem_singleton.mpr hax))
    fun b hbe hbm hbx => hprev b hbe hbm (mt List.mem_singleton.mpr hbx)

/-- Nodes that are left out. -/
theorem row_unlink (hrow : Row h none (q ++ p :: (m ++ r))) (he : (q ++ [p]).head? = some e)
    (hp : h'.next p = r.head?) (hr : ∀ b, r.head? = some b → h'.prev b = some p)
    (hnext : ∀ a, a ≠ p → a ∉ m → h'.next a = h.next a)
    (hprev : ∀ b, b ≠ e → b ∉ m → r.head? ≠ some b → h'.prev b = h.prev b) :
    Row h' none (q ++ p :: r) :=
  row_splice [] hrow he nofun (row_singleton.mpr ⟨hp, hr⟩)
    (fun a hap ham _ => hnext a hap ham) fun b hbe hbm _ => hprev b hbe hbm

end Splice

end Links
