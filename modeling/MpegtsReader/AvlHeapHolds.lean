import MpegtsReader.AvlHeap
import MpegtsReader.AvlOrder

/-!
# Trees in memory

`Holds h p t`: the pointer `p` leads to the nodes of the tree `t`, each of which is in it once, with
their keys and heights. `Makes` says what an operation comes to: from a heap to another one, it
stores to the nodes `S` only, and the pointer that it returns leads to a tree of such nodes; and
`Yields`, that it returns one more node, which is out of the tree. An operation on a subtree is one
on the tree as soon as its pointer is stored in the node above (`Yields.storeLeft`,
`Yields.storeRight`).
-/

namespace MpegtsReader

namespace AvlTree

variable {α κ : Type}

/-- The nodes, without their keys. -/
def items (t : AvlTree α κ) : List α := t.nodes.map Prod.fst

/-- The pointer to the node at the top. -/
def pointer (t : AvlTree α κ) : Option α := t.top.map Prod.fst

@[simp, grind =] theorem items_nil : (nil : AvlTree α κ).items = [] := rfl

@[simp, grind =] theorem items_node {l r : AvlTree α κ} {x : α} {k : κ} {v : ℤ} :
    (node l x k v r).items = l.items ++ x :: r.items := by
  simp [items]

@[simp, grind =] theorem mem_items_mirror {t : AvlTree α κ} {a : α} :
    a ∈ t.mirror.items ↔ a ∈ t.items := by
  simp [items]

/-- Fuel for a tree lasts for the trees below it after one step. -/
theorem length_left_lt {l r : AvlTree α κ} {x : α} {k : κ} {v : ℤ} {fuel : ℕ}
    (hfuel : (node l x k v r).items.length < fuel + 1) : l.items.length < fuel := by
  simp only [items_node, List.length_append, List.length_cons] at hfuel
  omega

theorem length_right_lt {l r : AvlTree α κ} {x : α} {k : κ} {v : ℤ} {fuel : ℕ}
    (hfuel : (node l x k v r).items.length < fuel + 1) : r.items.length < fuel := by
  simp only [items_node, List.length_append, List.length_cons] at hfuel
  omega

theorem mem_items_swap {l r : AvlTree α κ} {x a : α} {k : κ} {v : ℤ} :
    a ∈ r.items ++ x :: l.items ↔ a ∈ (node l x k v r).items := by
  simp only [items_node, List.mem_append, List.mem_cons]
  tauto

theorem mem_pointer_node {l r : AvlTree α κ} {x a : α} {k : κ} {v : ℤ} :
    a ∈ (node l x k v r).pointer ↔ x = a := Option.mem_some_iff

theorem length_items_mirror (t : AvlTree α κ) : t.mirror.items.length = t.items.length := by
  simp [items]

@[simp] theorem items_setHeight {t : AvlTree α κ} {v : ℤ} : (t.setHeight v).items = t.items := by
  simp [items]

end AvlTree

namespace AvlHeap

open AvlTree

variable {α κ : Type} {h h' h'' : AvlHeap α κ} {p p' : Option α} {t t' d l l' r r' : AvlTree α κ}
  {a c : α} {k : κ} {v : ℤ} {S S' : List α}

/-- The tree that a pointer leads to. -/
def Holds (h : AvlHeap α κ) : Option α → AvlTree α κ → Prop
  | p, nil => p = none
  | p, node l c k v r =>
    p = some c ∧ (c ∉ l.items ∧ c ∉ r.items ∧ ∀ a ∈ l.items, a ∉ r.items) ∧
      ∃ pl pr, h.cell c = ⟨pl, pr, k, v⟩ ∧ Holds h pl l ∧ Holds h pr r

/-- Stores elsewhere keep a tree. -/
theorem Holds.congr (ht : Holds h p t) (hcell : ∀ a ∈ t.items, h'.cell a = h.cell a) :
    Holds h' p t := by
  induction t generalizing p with
  | nil => exact ht
  | node l c k v r ihl ihr =>
    obtain ⟨hp, hapart, pl, pr, hc, hl, hr⟩ := ht
    refine ⟨hp, hapart, pl, pr, (hcell c (by simp)).trans hc, ihl hl fun a ha => ?_,
      ihr hr fun a ha => ?_⟩
    · exact hcell a (by simp [ha])
    · exact hcell a (by simp [ha])

/-- Each node is in a tree once. -/
theorem Holds.apart_left (ht : Holds h p (node l c k v r)) : ∀ a ∈ l.items, a ≠ c ∧ a ∉ r.items :=
  fun a ha => ⟨fun heq => ht.2.1.1 (heq ▸ ha), ht.2.1.2.2 a ha⟩

theorem Holds.apart_right (ht : Holds h p (node l c k v r)) : ∀ a ∈ r.items, a ≠ c ∧ a ∉ l.items :=
  fun a ha => ⟨fun heq => ht.2.1.2.1 (heq ▸ ha), fun hl => ht.2.1.2.2 a hl ha⟩

/-- The height and the key that are stored in the node at the end of a pointer. -/
theorem Holds.height_eq (ht : Holds h p (node l c k v r)) : h.height c = v := by
  obtain ⟨-, -, pl, pr, hc, -⟩ := ht
  exact congrArg AvlCell.height hc

theorem Holds.key_eq (ht : Holds h p (node l c k v r)) : h.key c = k := by
  obtain ⟨-, -, pl, pr, hc, -⟩ := ht
  exact congrArg AvlCell.key hc

theorem Holds.pointer_eq (ht : Holds h p t) : p = t.pointer := by
  cases t with
  | nil => exact ht
  | node l c k v r => exact ht.1

/-- In memory the first node of the tree is as the tree has it. -/
def Shows (h : AvlHeap α κ) : AvlTree α κ → Prop
  | nil => True
  | node l x k v r => h.cell x = ⟨l.pointer, r.pointer, k, v⟩

theorem Holds.shows (ht : Holds h p t) : Shows h t := by
  cases t with
  | nil => trivial
  | node l c k v r =>
    obtain ⟨-, -, pl, pr, hc, hl, hr⟩ := ht
    rw [hl.pointer_eq, hr.pointer_eq] at hc
    exact hc

theorem Shows.congr (ht : Shows h t) (hcell : ∀ a ∈ t.pointer, h'.cell a = h.cell a) :
    Shows h' t := by
  cases t with
  | nil => trivial
  | node l c k v r => exact (hcell c rfl).trans ht

/-- From `h` to `h'` there are stores to `S` only, and `p` leads to the tree `t` in `S`. -/
structure Makes (h h' : AvlHeap α κ) (S : List α) (p : Option α) (t : AvlTree α κ) : Prop where
  holds : Holds h' p t
  sub : ∀ a ∈ t.items, a ∈ S
  frame : ∀ a, a ∉ S → h'.cell a = h.cell a

theorem Holds.makes (ht : Holds h p t) : Makes h h t.items p t := ⟨ht, fun _ => id, fun _ _ => rfl⟩

theorem Makes.mono (hm : Makes h h' S p t) (hS : ∀ a ∈ S, a ∈ S') : Makes h h' S' p t :=
  ⟨hm.holds, fun a ha => hS a (hm.sub a ha), fun a ha => hm.frame a (mt (hS a) ha)⟩

theorem Makes.trans (hm : Makes h h' S p t) (hm' : Makes h' h'' t.items p' t') :
    Makes h h'' S p' t' where
  holds := hm'.holds
  sub a ha := hm.sub a (hm'.sub a ha)
  frame a ha := (hm'.frame a (mt (hm.sub a) ha)).trans (hm.frame a ha)

/-- The left and the right pointer of a node lead to the trees below it. -/
theorem Holds.left (ht : Holds h (some a) t) : Holds h (h.left a) t.left := by
  cases t with
  | nil => cases ht
  | node l c k v r =>
    obtain ⟨hp, -, pl, pr, hc, hl, -⟩ := ht
    obtain rfl := Option.some.inj hp
    rwa [AvlHeap.left, hc]

theorem Holds.right (ht : Holds h (some a) t) : Holds h (h.right a) t.right := by
  cases t with
  | nil => cases ht
  | node l c k v r =>
    obtain ⟨hp, -, pl, pr, hc, -, hr⟩ := ht
    obtain rfl := Option.some.inj hp
    rwa [AvlHeap.right, hc]

/-- A tree is made, and the first node of `d` is out of it. -/
structure Yields (h h' : AvlHeap α κ) (S : List α) (p : Option α) (t d : AvlTree α κ) : Prop
    extends Makes h h' S p t where
  shown : Shows h' d
  apart : ∀ a ∈ d.pointer, a ∈ S ∧ a ∉ t.items

theorem Yields.trans (hm : Yields h h' S p t d) (hm' : Makes h' h'' t.items p' t') :
    Yields h h'' S p' t' d where
  toMakes := hm.toMakes.trans hm'
  shown := hm.shown.congr fun a ha => hm'.frame a (hm.apart a ha).2
  apart a ha := ⟨(hm.apart a ha).1, mt (hm'.sub a) (hm.apart a ha).2⟩

theorem Yields.mono (hm : Yields h h' S p t d) (hS : ∀ a ∈ S, a ∈ S') : Yields h h' S' p t d :=
  ⟨hm.toMakes.mono hS, hm.shown, fun a ha => ⟨hS a (hm.apart a ha).1, (hm.apart a ha).2⟩⟩

/-- Nothing is out of a tree. -/
theorem Makes.yields (hm : Makes h h' S p t) : Yields h h' S p t nil := ⟨hm, trivial, nofun⟩

/-! ## Left and right -/

/-- The memory with left and right exchanged in each node. -/
def mirror (h : AvlHeap α κ) : AvlHeap α κ :=
  ⟨fun a => ⟨h.right a, h.left a, h.key a, h.height a⟩⟩

@[simp] theorem mirror_mirror (h : AvlHeap α κ) : h.mirror.mirror = h := rfl

/-- A result of the mirror image. -/
theorem map_mirror_eq_some {β : Type} {res : Option (AvlHeap α κ × β)} {b : β} :
    res.map (Prod.map mirror id) = some (h, b) ↔ res = some (h.mirror, b) := by
  rcases res with _ | ⟨h', b'⟩
  · exact iff_of_false nofun nofun
  · simp only [Option.map_some, Prod.map, id, Option.some.injEq, Prod.mk.injEq]
    exact and_congr_left fun _ => ⟨fun heq => heq ▸ rfl, fun heq => heq ▸ rfl⟩

theorem left_mirror (h : AvlHeap α κ) (a : α) : h.mirror.left a = h.right a := rfl

theorem right_mirror (h : AvlHeap α κ) (a : α) : h.mirror.right a = h.left a := rfl

theorem height_mirror (h : AvlHeap α κ) (a : α) : h.mirror.height a = h.height a := rfl

theorem Holds.mirror (ht : Holds h p t) : Holds h.mirror p t.mirror := by
  induction t generalizing p with
  | nil => exact ht
  | node l c k v r ihl ihr =>
    obtain ⟨hp, ⟨hcl, hcr, hlr⟩, pl, pr, hc, hl, hr⟩ := ht
    refine ⟨hp, ⟨?_, ?_, fun a ha hal => ?_⟩, pr, pl, ?_, ihr hr, ihl hl⟩
    · exact mt mem_items_mirror.mp hcr
    · exact mt mem_items_mirror.mp hcl
    · exact hlr a (mem_items_mirror.mp hal) (mem_items_mirror.mp ha)
    · simp [AvlHeap.mirror, AvlHeap.left, AvlHeap.right, AvlHeap.key, AvlHeap.height, hc]

theorem Makes.mirror (hm : Makes h h' S p t) : Makes h.mirror h'.mirror S p t.mirror where
  holds := hm.holds.mirror
  sub a ha := hm.sub a (mem_items_mirror.mp ha)
  frame a ha := by
    simp [AvlHeap.mirror, AvlHeap.left, AvlHeap.right, AvlHeap.key, AvlHeap.height, hm.frame a ha]

theorem pointer_mirror (t : AvlTree α κ) : t.mirror.pointer = t.pointer := by
  rw [pointer, top_mirror, pointer]

theorem Yields.mirror (hm : Yields h h' S p t d) :
    Yields h.mirror h'.mirror S p t.mirror d.mirror where
  toMakes := hm.toMakes.mirror
  shown := by
    have hd := hm.shown
    cases d with
    | nil => trivial
    | node l x k v r =>
      rw [Shows] at hd
      simp [Shows, AvlHeap.mirror, AvlHeap.left, AvlHeap.right, AvlHeap.key, AvlHeap.height, hd,
        pointer_mirror]
  apart a ha := by
    rw [pointer_mirror] at ha
    rw [mem_items_mirror]
    exact hm.apart a ha

theorem Yields.of_mirror (hm : Yields h.mirror h'.mirror t.mirror.items p t'.mirror d.mirror) :
    Yields h h' t.items p t' d := by
  have hm' := hm.mirror
  rw [AvlTree.mirror_mirror, AvlTree.mirror_mirror] at hm'
  exact hm'.mono fun a => mem_items_mirror.mp

/-- What is made in the mirror image is made. -/
theorem Makes.of_mirror (hm : Makes h.mirror h'.mirror t.mirror.items p t'.mirror) :
    Makes h h' t.items p t' := by
  have hm' := hm.mirror
  rw [AvlTree.mirror_mirror] at hm'
  exact hm'.mono fun a => mem_items_mirror.mp

/-! ## Stores -/

variable [DecidableEq α]

@[simp, grind =] theorem cell_set (h : AvlHeap α κ) (node : α) (c : AvlCell α κ) :
    (h.set node c).cell a = if a = node then c else h.cell a := Function.update_apply ..

theorem mirror_set (h : AvlHeap α κ) (node : α) (c : AvlCell α κ) :
    (h.set node c).mirror = h.mirror.set node ⟨c.right, c.left, c.key, c.height⟩ := by
  ext a : 2
  simp only [AvlHeap.mirror, AvlHeap.left, AvlHeap.right, AvlHeap.key, AvlHeap.height, cell_set]
  split_ifs <;> rfl

theorem mirror_setLeft (h : AvlHeap α κ) (node : α) (p : Option α) :
    (h.setLeft node p).mirror = h.mirror.setRight node p := mirror_set ..

theorem mirror_setRight (h : AvlHeap α κ) (node : α) (p : Option α) :
    (h.setRight node p).mirror = h.mirror.setLeft node p := mirror_set ..

theorem mirror_setHeight (h : AvlHeap α κ) (node : α) (v : ℤ) :
    (h.setHeight node v).mirror = h.mirror.setHeight node v := mirror_set ..

/-- What `p` leads to is stored on the right of a node. -/
theorem Makes.storeRight (ht : Holds h (some c) (node l c k v r)) (hm : Makes h h' S p r')
    (hS : ∀ a ∈ S, a ≠ c ∧ a ∉ l.items) :
    Makes h (h'.setRight c p) (l.items ++ c :: S) (some c) (node l c k v r') := by
  obtain ⟨-, ⟨hcl, -⟩, pl, pr, hc, hl, -⟩ := ht
  have hc' : h'.cell c = ⟨pl, pr, k, v⟩ := (hm.frame c fun hmem => (hS c hmem).1 rfl).trans hc
  refine ⟨⟨rfl, ⟨hcl, ?_, ?_⟩, pl, p, ?_, ?_, ?_⟩, ?_, ?_⟩
  · exact fun hmem => (hS c (hm.sub c hmem)).1 rfl
  · exact fun a hal har => (hS a (hm.sub a har)).2 hal
  · simp [setRight, hc']
  · refine hl.congr fun a ha => ?_
    have hac : a ≠ c := fun heq => hcl (heq ▸ ha)
    rw [setRight, cell_set, if_neg hac]
    exact hm.frame a fun hmem => (hS a hmem).2 ha
  · refine hm.holds.congr fun a ha => ?_
    rw [setRight, cell_set, if_neg (hS a (hm.sub a ha)).1]
  · have hsub := hm.sub
    grind
  · intro a ha
    rw [setRight, cell_set, if_neg (by grind)]
    exact hm.frame a (by grind)

/-- What `p` leads to is stored on the left of a node. -/
theorem Makes.storeLeft (ht : Holds h (some c) (node l c k v r)) (hm : Makes h h' S p l')
    (hS : ∀ a ∈ S, a ≠ c ∧ a ∉ r.items) :
    Makes h (h'.setLeft c p) (r.items ++ c :: S) (some c) (node l' c k v r) := by
  have hright := Makes.storeRight ht.mirror hm.mirror fun a ha =>
    ⟨(hS a ha).1, mt mem_items_mirror.mp (hS a ha).2⟩
  rw [← mirror_setLeft] at hright
  have hleft := hright.mirror
  simp only [mirror_node, AvlTree.mirror_mirror, mirror_mirror] at hleft
  refine hleft.mono fun a => ?_
  simp

theorem Yields.storeRight (ht : Holds h (some c) (node l c k v r)) (hm : Yields h h' S p r' d)
    (hS : ∀ a ∈ S, a ≠ c ∧ a ∉ l.items) :
    Yields h (h'.setRight c p) (l.items ++ c :: S) (some c) (node l c k v r') d := by
  refine ⟨Makes.storeRight ht hm.toMakes hS, hm.shown.congr fun a ha => ?_, fun a ha => ?_⟩
  · rw [setRight, cell_set, if_neg (hS a (hm.apart a ha).1).1]
  · have hmem := hm.apart a ha
    have hne := hS a hmem.1
    grind

theorem Yields.storeLeft (ht : Holds h (some c) (node l c k v r)) (hm : Yields h h' S p l' d)
    (hS : ∀ a ∈ S, a ≠ c ∧ a ∉ r.items) :
    Yields h (h'.setLeft c p) (r.items ++ c :: S) (some c) (node l' c k v r) d := by
  refine ⟨Makes.storeLeft ht hm.toMakes hS, hm.shown.congr fun a ha => ?_, fun a ha => ?_⟩
  · rw [setLeft, cell_set, if_neg (hS a (hm.apart a ha).1).1]
  · have hmem := hm.apart a ha
    have hne := hS a hmem.1
    grind

/-- A subtree is remade and stored. -/
theorem Makes.onRight (ht : Holds h (some c) (node l c k v r)) (hm : Makes h h' r.items p r') :
    Makes h (h'.setRight c p) (node l c k v r).items (some c) (node l c k v r') := by
  rw [items_node]
  exact Makes.storeRight ht hm ht.apart_right

theorem Makes.onLeft (ht : Holds h (some c) (node l c k v r)) (hm : Makes h h' l.items p l') :
    Makes h (h'.setLeft c p) (node l c k v r).items (some c) (node l' c k v r) := by
  have hleft := Makes.storeLeft ht hm ht.apart_left
  exact hleft.mono fun a => mem_items_swap.mp

/-- A subtree is remade under the pointer that leads to it. -/
theorem Holds.inRight (ht : Holds h (some c) (node l c k v r))
    (hp : h.right c = p) (hm : Makes h h' r.items p r') :
    Makes h h' (node l c k v r).items (some c) (node l c k v r') := by
  have hcell : h'.cell c = h.cell c := hm.frame c ht.2.1.2.1
  have heq : h'.setRight c p = h' := by
    ext a : 2
    rw [setRight, cell_set]
    split_ifs with hac
    · rw [hac, ← hp, AvlHeap.right, ← hcell]
    · rfl
  exact heq ▸ Makes.onRight ht hm

theorem makes_setHeight (ht : Holds h (some c) t) (v : ℤ) :
    Makes h (h.setHeight c v) t.items (some c) (t.setHeight v) := by
  cases t with
  | nil => cases ht
  | node l x k w r =>
    obtain ⟨hp, hapart, pl, pr, hc, hl, hr⟩ := ht
    obtain rfl := Option.some.inj hp
    refine ⟨⟨rfl, hapart, pl, pr, ?_, hl.congr ?_, hr.congr ?_⟩, ?_, ?_⟩
    · simp [AvlHeap.setHeight, hc]
    all_goals grind [AvlHeap.setHeight, AvlTree.setHeight]

/-! ## Rotations -/

omit [DecidableEq α] in
theorem maxChildHeight_eq (ht : Holds h (some c) t) : h.maxChildHeight c = t.maxChildHeight := by
  have hl := ht.left
  have hr := ht.right
  unfold maxChildHeight
  generalize h.left c = pl at hl ⊢
  generalize h.right c = pr at hr ⊢
  rcases t with _ | ⟨_ | ⟨ll, y, ky, hy, lr⟩, x, k, v, _ | ⟨rl, z, kz, hz, rr⟩⟩
  · cases ht
  · obtain rfl := hl
    obtain rfl := hr
    rfl
  · obtain rfl := hl
    obtain ⟨rfl, -, _, _, hz, -⟩ := hr
    simp [height, AvlTree.maxChildHeight, hz]
  · obtain ⟨rfl, -, _, _, hy, -⟩ := hl
    obtain rfl := hr
    simp [height, AvlTree.maxChildHeight, hy]
  · obtain ⟨rfl, -, _, _, hy, -⟩ := hl
    obtain ⟨rfl, -, _, _, hz, -⟩ := hr
    simp [height, AvlTree.maxChildHeight, hy, hz]

theorem makes_setMax (ht : Holds h (some c) t) :
    Makes h (h.setMax c) t.items (some c) (t.setHeight (t.maxChildHeight + 1)) := by
  rw [setMax, maxChildHeight_eq ht]
  exact makes_setHeight ht _

end AvlHeap

end MpegtsReader
