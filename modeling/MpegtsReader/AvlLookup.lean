import MpegtsReader.AvlStored

/-!
# A lookup with a condition

`cdsl_avltreeConditionalLookup` goes to the left of a node with the key that does not match, where
an insertion without replacement puts the later nodes with that key. A rotation puts earlier ones on
the right. A node that matches is found exactly when there is one that no other node with the key
has on its right (`findsMatch_iff`).
-/

namespace MpegtsReader

namespace AvlTree

variable {ν κ : Type} [LinearOrder κ] {t l r : AvlTree ν κ} {x : ν} {k key : κ} {h : ℤ}
  {b : ν × κ} {cond : ν × κ → κ → Bool}

/-- `cdsl_avltreeConditionalLookup`: the loop. -/
def conditionalLookup (key : κ) (cond : ν × κ → κ → Bool) : AvlTree ν κ → AvlTree ν κ
  | nil => nil
  | node l x k h r =>
    if cond (x, k) key then node l x k h r
    else if k < key then r.conditionalLookup key cond
    else l.conditionalLookup key cond

/-- The nodes that no node with the key has on its right. -/
def exposed (key : κ) : AvlTree ν κ → List (ν × κ)
  | nil => []
  | node l x k _ r => l.exposed key ++ (x, k) :: if k = key then [] else r.exposed key

theorem mem_exposed_node : b ∈ (node l x k h r).exposed key ↔
    b ∈ l.exposed key ∨ b = (x, k) ∨ k ≠ key ∧ b ∈ r.exposed key := by
  rw [exposed, List.mem_append, List.mem_cons]
  split_ifs with heq <;> simp [heq]

theorem mem_nodes_of_mem_exposed (hb : b ∈ t.exposed key) : b ∈ t.nodes := by
  induction t with
  | nil => cases hb
  | node l x k h r ihl ihr =>
    rcases mem_exposed_node.mp hb with hb | rfl | ⟨-, hb⟩
    · exact List.mem_append_left _ (ihl hb)
    · exact List.mem_append_right _ List.mem_cons_self
    · exact List.mem_append_right _ (List.mem_cons_of_mem _ (ihr hb))

/-- What is found is the first node that matches on the way, and a node of the tree. -/
theorem conditionalLookup_spec (hfound : (t.conditionalLookup key cond).top = some b) :
    b ∈ t.nodes ∧ cond b key = true := by
  induction t with
  | nil => cases hfound
  | node l x k h r ihl ihr =>
    rw [conditionalLookup] at hfound
    split_ifs at hfound with hcond hlt
    · obtain rfl : (x, k) = b := Option.some.inj hfound
      exact ⟨List.mem_append_right _ List.mem_cons_self, hcond⟩
    · obtain ⟨hb, hmatch⟩ := ihr hfound
      exact ⟨List.mem_append_right _ (List.mem_cons_of_mem _ hb), hmatch⟩
    · obtain ⟨hb, hmatch⟩ := ihl hfound
      exact ⟨List.mem_append_left _ hb, hmatch⟩

/-- The side that is not entered has no exposed node that matches. -/
theorem exists_conditionalLookup_iff (ht : t.InOrder)
    (hkey : ∀ b ∈ t.nodes, cond b key = true → b.2 = key) :
    (∃ b, (t.conditionalLookup key cond).top = some b) ↔
      ∃ b ∈ t.exposed key, cond b key = true := by
  induction t with
  | nil => exact iff_of_false nofun nofun
  | node l x k h r ihl ihr =>
    have hkeyl : ∀ b ∈ l.nodes, cond b key = true → b.2 = key := fun b hb =>
      hkey b (List.mem_append_left _ hb)
    have hkeyr : ∀ b ∈ r.nodes, cond b key = true → b.2 = key := fun b hb =>
      hkey b (List.mem_append_right _ (List.mem_cons_of_mem _ hb))
    simp only [mem_exposed_node, or_and_right, exists_or, exists_eq_left, and_assoc,
      exists_and_left]
    rw [conditionalLookup]
    split_ifs with hcond hlt
    · exact iff_of_true ⟨_, rfl⟩ (.inr (.inl hcond))
    · have hleft : ¬∃ b ∈ l.exposed key, cond b key = true := by
        rintro ⟨b, hb, hmatch⟩
        have hb := mem_nodes_of_mem_exposed hb
        exact (ht.gt_of_gt hlt b (List.mem_append_left _ hb)).ne (hkeyl b hb hmatch)
      rw [ihr ht.right hkeyr, or_iff_right hleft, or_iff_right hcond, and_iff_right hlt.ne]
    · have hright : ¬(k ≠ key ∧ ∃ b ∈ r.exposed key, cond b key = true) := by
        rintro ⟨hne, b, hb, hmatch⟩
        have hb := mem_nodes_of_mem_exposed hb
        have hgt := lt_of_le_of_ne (not_lt.mp hlt) (Ne.symm hne)
        exact (ht.lt_of_lt hgt b (List.mem_cons_of_mem _ hb)).ne' (hkeyr b hb hmatch)
      rw [ihl ht.left hkeyl, or_iff_left]
      exact not_or.mpr ⟨hcond, hright⟩

end AvlTree

/-! ## Reachable trees -/

section Root

open AvlTree

variable {ν κ : Type} [LinearOrder κ] {root : AvlRoot ν κ} {key : κ} {factor : UInt8}
  {cond : ν × κ → κ → Bool}

/-- `cdsl_avltreeConditionalLookup`. -/
def cdslAvltreeConditionalLookup (root : AvlRoot ν κ) (key : κ) (cond : ν × κ → κ → Bool) :
    AvlTree ν κ :=
  root.entry.conditionalLookup key cond

/-- A node that matches is found if there is one. -/
def FindsMatch (root : AvlRoot ν κ) (key : κ) (cond : ν × κ → κ → Bool) : Prop :=
  (∃ b ∈ root.bag, cond b key = true) →
    ∃ b ∈ root.bag, (cdslAvltreeConditionalLookup root key cond).top = some b ∧ cond b key = true

/-- **A lookup with a condition.** From the initialisation on, a node that matches is found if there
is one exactly when, if there is one, there is one that no node with the key has on its right. -/
theorem findsMatch_iff
    (hreach : Transition.Reachable goAvl Fresh (cdslAvltreeRootInit factor) root)
    (hkey : ∀ b ∈ root.bag, cond b key = true → b.2 = key) :
    FindsMatch root key cond ↔ ((∃ b ∈ root.bag, cond b key = true) →
      ∃ b ∈ root.entry.exposed key, cond b key = true) := by
  rw [← exists_conditionalLookup_iff (treeInv_of_reachable hreach).inOrder hkey]
  refine imp_congr_right fun _ => ⟨?_, ?_⟩
  · rintro ⟨b, -, hfound, -⟩
    exact ⟨b, hfound⟩
  · rintro ⟨b, hfound⟩
    obtain ⟨hb, hmatch⟩ := conditionalLookup_spec hfound
    exact ⟨b, hb, hfound, hmatch⟩

/-- The second of two nodes with one key is on the left of the first, and found. -/
theorem findsMatch_twoNodes :
    ∃ root : AvlRoot ℕ ℕ, root.entry.nodes = [(2, 7), (1, 7)] ∧
      FindsMatch root 7 fun b _ => b.1 = 2 := by
  refine ⟨_, ?_, (@findsMatch_iff ℕ ℕ _ _ 7 1 _
    (reachable_inserts [(1, 7), (2, 7)] false ?_ rfl) ?_).mpr fun _ => ?_⟩
  · rfl
  · decide
  · decide
  · decide

/-- With a third one a rotation puts the first on the right of the second. -/
theorem not_findsMatch_threeNodes :
    ∃ root : AvlRoot ℕ ℕ, Transition.Reachable goAvl Fresh (cdslAvltreeRootInit 1) root ∧
      (∀ b ∈ root.bag, decide (b.1 = 1) = true → b.2 = 7) ∧
      ¬FindsMatch root 7 fun b _ => b.1 = 1 := by
  refine ⟨_, reachable_inserts [(1, 7), (2, 7), (3, 7)] false (by decide) rfl, by decide,
    fun hfinds => ?_⟩
  obtain ⟨b, -, hfound, -⟩ := hfinds ⟨(1, 7), by decide, by decide⟩
  cases hfound

end Root

end MpegtsReader
