import Mathlib.Data.Multiset.MapFold
import Mathlib.Data.Multiset.Dedup
import Mathlib.Order.Defs.LinearOrder

/-!
# Ordered bags

A bag of items with keys. `Effect` says what an operation does to the bag and what it returns.

A search tree has its bag as a sequence in the order of the keys. `Insertion` and `Deletion` are an
insertion and a deletion there. They are local: a search that goes to one side of an item leaves the
other side as it is (`Insertion.left`, `Insertion.right`, `Deletion.left`, `Deletion.right`).
-/

namespace OrderedBag

variable {β κ γ : Type} [LinearOrder κ] {key : β → κ} {a b item : β} {l l' m m' : List β}
  {r : Option β} {k : κ} {isSet : Bool} {s s' : Multiset β}

/-! ## The operations on a bag -/

/-- The operations. An insertion in a set replaces an item with the same key. -/
inductive Op (β κ : Type)
  | insert (item : β) (isSet : Bool)
  | delete (k : κ)
  | deleteMin
  | deleteMax

/-- The operation turns the bag `s` into `s'` and returns `r`. -/
def Effect (key : β → κ) (s s' : Multiset β) (r : Option β) : Op β κ → Prop
  | .insert item isSet => ∃ t : Multiset β, s = t + r.toList ∧ s' = item ::ₘ t ∧
      (∀ b ∈ r, isSet = true ∧ key b = key item) ∧
      (isSet = true → r = none → ∀ b ∈ s, key b ≠ key item)
  | .delete k => s = s' + r.toList ∧ (∀ b ∈ r, key b = k) ∧ (r = none → ∀ b ∈ s, key b ≠ k)
  | .deleteMin => s = s' + r.toList ∧ (∀ b ∈ r, ∀ c ∈ s, key b ≤ key c) ∧ (r = none → s = 0)
  | .deleteMax => s = s' + r.toList ∧ (∀ b ∈ r, ∀ c ∈ s, key c ≤ key b) ∧ (r = none → s = 0)

/-- A lookup finds an item with the key if and only if there is one. -/
def Found (key : β → κ) (k : κ) (s : Multiset β) : Option β → Prop
  | none => ∀ b ∈ s, key b ≠ k
  | some b => b ∈ s ∧ key b = k

/-- Names that are given once stay so, when the item that is inserted has a new one. -/
theorem Effect.nodup_map {name : β → γ} {op : Op β κ} (h : Effect key s s' r op)
    (hnew : ∀ item isSet, op = .insert item isSet → name item ∉ s.map name)
    (hs : (s.map name).Nodup) : (s'.map name).Nodup := by
  have hrest : ∀ t : Multiset β, s = t + r.toList → (t.map name).Nodup := by
    rintro t rfl
    exact Multiset.nodup_of_le (Multiset.map_le_map (Multiset.le_add_right t _)) hs
  cases op with
  | insert item isSet =>
    obtain ⟨t, ht, rfl, -⟩ := h
    rw [Multiset.map_cons, Multiset.nodup_cons]
    refine ⟨fun hmem => hnew item isSet rfl ?_, hrest t ht⟩
    rw [ht, Multiset.map_add]
    exact Multiset.mem_add.mpr (.inl hmem)
  | delete k => exact hrest s' h.1
  | deleteMin => exact hrest s' h.1
  | deleteMax => exact hrest s' h.1

/-! ## Sequences in the order of the keys -/

/-- The keys do not decrease. -/
def Ordered (key : β → κ) (l : List β) : Prop := l.Pairwise fun a b => key a ≤ key b

theorem ordered_middle : Ordered key (l ++ a :: m) ↔
    Ordered key l ∧ Ordered key m ∧ (∀ b ∈ l, key b ≤ key a) ∧ ∀ b ∈ m, key a ≤ key b := by
  unfold Ordered
  rw [List.pairwise_append, List.pairwise_cons]
  constructor
  · rintro ⟨hl, ⟨ham, hm⟩, hlm⟩
    exact ⟨hl, hm, fun b hb => hlm b hb a List.mem_cons_self, ham⟩
  · rintro ⟨hl, hm, hla, ham⟩
    refine ⟨hl, ⟨ham, hm⟩, fun b hb => List.forall_mem_cons.mpr ⟨hla b hb, fun c hc => ?_⟩⟩
    exact (hla b hb).trans (ham c hc)

/-- An insertion in a sequence. -/
inductive Insertion (key : β → κ) (item : β) (isSet : Bool) :
    List β → Option β → List β → Prop
  | add {l m : List β} (hl : ∀ b ∈ l, key b < key item) (hm : ∀ b ∈ m, key item ≤ key b)
      (hnew : isSet = true → ∀ b ∈ m, key b ≠ key item) :
      Insertion key item isSet (l ++ m) none (l ++ item :: m)
  | swap {l m : List β} {a : β} (hset : isSet = true) (ha : key a = key item) :
      Insertion key item isSet (l ++ a :: m) (some a) (l ++ item :: m)

/-- A deletion from a sequence. -/
inductive Deletion (key : β → κ) (k : κ) : List β → Option β → List β → Prop
  | absent {l : List β} (h : ∀ b ∈ l, key b ≠ k) : Deletion key k l none l
  | present {l m : List β} {a : β} (ha : key a = k) :
      Deletion key k (l ++ a :: m) (some a) (l ++ m)

theorem Insertion.left (h : Insertion key item isSet l r l') (hm : ∀ b ∈ m, key item ≤ key b)
    (hnew : isSet = true → ∀ b ∈ m, key b ≠ key item) :
    Insertion key item isSet (l ++ m) r (l' ++ m) := by
  cases h with
  | add hl₁ hm₁ hnew₁ =>
    rw [List.append_assoc, List.append_assoc]
    exact .add hl₁ (List.forall_mem_append.mpr ⟨hm₁, hm⟩)
      fun hset => List.forall_mem_append.mpr ⟨hnew₁ hset, hnew hset⟩
  | swap hset ha =>
    rw [List.append_assoc, List.append_assoc]
    exact .swap hset ha

theorem Insertion.right (h : Insertion key item isSet m r m') (hl : ∀ b ∈ l, key b < key item) :
    Insertion key item isSet (l ++ m) r (l ++ m') := by
  cases h with
  | add hl₁ hm₁ hnew₁ =>
    rw [← List.append_assoc, ← List.append_assoc]
    exact .add (List.forall_mem_append.mpr ⟨hl, hl₁⟩) hm₁ hnew₁
  | swap hset ha =>
    rw [← List.append_assoc, ← List.append_assoc]
    exact .swap hset ha

omit [LinearOrder κ] in
theorem Deletion.left (h : Deletion key k l r l') (hm : ∀ b ∈ m, key b ≠ k) :
    Deletion key k (l ++ m) r (l' ++ m) := by
  cases h with
  | absent hl => exact .absent (List.forall_mem_append.mpr ⟨hl, hm⟩)
  | present ha =>
    rw [List.append_assoc, List.append_assoc]
    exact .present ha

omit [LinearOrder κ] in
theorem Deletion.right (h : Deletion key k m r m') (hl : ∀ b ∈ l, key b ≠ k) :
    Deletion key k (l ++ m) r (l ++ m') := by
  cases h with
  | absent hm => exact .absent (List.forall_mem_append.mpr ⟨hl, hm⟩)
  | present ha =>
    rw [← List.append_assoc, ← List.append_assoc]
    exact .present ha

omit [LinearOrder κ] in
theorem Found.left (h : Found key k (l : Multiset β) r) (hm : ∀ b ∈ m, key b ≠ k) :
    Found key k (↑(l ++ m) : Multiset β) r := by
  cases r with
  | none => exact List.forall_mem_append.mpr ⟨h, hm⟩
  | some b => exact ⟨List.mem_append_left m h.1, h.2⟩

omit [LinearOrder κ] in
theorem Found.right (h : Found key k (m : Multiset β) r) (hl : ∀ b ∈ l, key b ≠ k) :
    Found key k (↑(l ++ m) : Multiset β) r := by
  cases r with
  | none => exact List.forall_mem_append.mpr ⟨hl, h⟩
  | some b => exact ⟨List.mem_append_right l h.1, h.2⟩

theorem Insertion.ne_nil (h : Insertion key item isSet l r l') : l' ≠ [] := by cases h <;> simp

theorem Insertion.ordered (h : Insertion key item isSet l r l') (hl : Ordered key l) :
    Ordered key l' := by
  cases h with
  | add hl₁ hm₁ hnew =>
    obtain ⟨hl, hm, -⟩ := List.pairwise_append.mp hl
    exact ordered_middle.mpr ⟨hl, hm, fun b hb => (hl₁ b hb).le, hm₁⟩
  | swap hset ha =>
    obtain ⟨hl, hm, hla, ham⟩ := ordered_middle.mp hl
    rw [ha] at hla ham
    exact ordered_middle.mpr ⟨hl, hm, hla, ham⟩

theorem Deletion.ordered (h : Deletion key k l r l') (hl : Ordered key l) : Ordered key l' := by
  cases h with
  | absent _ => exact hl
  | present _ => exact hl.sublist ((List.sublist_cons_self _ _).append_left _)

/-! ## Sequences and bags -/

theorem Insertion.effect (h : Insertion key item isSet l r l') :
    Effect key (l : Multiset β) l' r (.insert item isSet) := by
  cases h with
  | @add l m hl hm hnew =>
    refine ⟨↑(l ++ m), (Multiset.add_zero _).symm, Multiset.coe_eq_coe.mpr List.perm_middle,
      nofun, ?_⟩
    intro hset _ b hb
    rcases List.mem_append.mp hb with hb | hb
    · exact (hl b hb).ne
    · exact hnew hset b hb
  | @swap l m a hset ha =>
    refine ⟨↑(l ++ m), ?_, Multiset.coe_eq_coe.mpr List.perm_middle, ?_, nofun⟩
    · rw [Multiset.coe_eq_coe.mpr List.perm_middle, ← Multiset.cons_coe, ← Multiset.singleton_add,
        Multiset.add_comm]
      rfl
    · rintro b ⟨⟩
      exact ⟨hset, ha⟩

theorem Deletion.effect (h : Deletion key k l r l') :
    Effect key (l : Multiset β) l' r (.delete k) := by
  cases h with
  | absent hl => exact ⟨(Multiset.add_zero _).symm, nofun, fun _ => hl⟩
  | @present l m a ha =>
    refine ⟨?_, ?_, nofun⟩
    · rw [Multiset.coe_eq_coe.mpr List.perm_middle, ← Multiset.cons_coe, ← Multiset.singleton_add,
        Multiset.add_comm]
      rfl
    · rintro b ⟨⟩
      exact ha

theorem effect_deleteMin (hl : Ordered key l) :
    Effect key (l : Multiset β) l.tail l.head? .deleteMin := by
  cases l with
  | nil => exact ⟨rfl, nofun, fun _ => rfl⟩
  | cons a l =>
    refine ⟨?_, ?_, nofun⟩
    · rw [← Multiset.cons_coe, ← Multiset.singleton_add, Multiset.add_comm]
      rfl
    · rintro b ⟨⟩
      exact List.forall_mem_cons.mpr ⟨le_rfl, (List.pairwise_cons.mp hl).1⟩

theorem effect_deleteMax (hl : Ordered key l) :
    Effect key (l : Multiset β) l.dropLast l.getLast? .deleteMax := by
  rcases List.eq_nil_or_concat' l with rfl | ⟨l, a, rfl⟩
  · exact ⟨rfl, nofun, fun _ => rfl⟩
  · rw [List.dropLast_concat, List.getLast?_concat]
    refine ⟨(Multiset.coe_add l [a]).symm, ?_, nofun⟩
    rintro b ⟨⟩ c hc
    obtain ⟨-, -, hla, -⟩ := ordered_middle.mp hl
    rcases List.mem_append.mp hc with hc | hc
    · exact hla c hc
    · rw [List.mem_singleton.mp hc]

end OrderedBag
