import MpegtsReader.AvlHeight

/-!
# A deletion of a key that is not there

`delete_rc` stores the heights on its way back anew and rotates where the other side is too high,
whether a node was deleted below or not. With a key that no node has it returns `NULL` and keeps the
nodes, but the tree stays as it is exactly when every node on the way was settled before
(`delete_absent_iff`).
-/

namespace MpegtsReader

namespace AvlTree

variable {ν κ : Type} [LinearOrder κ] {t l r l' r' : AvlTree ν κ} {x : ν} {k key : κ} {bal h : ℤ}

/-- On the way to the key the height of a node is the one of its higher child and one, and the side
that is not entered is higher than the other one by `bal` at most. -/
def SettledWay (bal : ℤ) (key : κ) : AvlTree ν κ → Prop
  | nil => True
  | node l _ k h r =>
    if key < k then
      l.SettledWay bal key ∧ h = max l.stored r.stored + 1 ∧ r.stored ≤ l.stored + bal
    else if k < key then
      r.SettledWay bal key ∧ h = max l.stored r.stored + 1 ∧ l.stored ≤ r.stored + bal
    else True

instance decidableSettledWay (bal : ℤ) (key : κ) :
    (t : AvlTree ν κ) → Decidable (t.SettledWay bal key)
  | nil => isTrue trivial
  | node l _ _ _ r =>
    have := decidableSettledWay bal key l
    have := decidableSettledWay bal key r
    inferInstanceAs (Decidable (@ite Prop _ _ _ _))

/-- In a good tree the way to every key is settled. -/
theorem Good.settledWay (ht : Good bal t) (key : κ) : t.SettledWay bal key := by
  induction t with
  | nil => trivial
  | node l x k h r ihl ihr =>
    obtain ⟨hh, ⟨hlr, hrl⟩, hl, hr⟩ := good_node_iff.mp ht
    rw [SettledWay, hl.exact.stored, hr.exact.stored]
    split_ifs
    · exact ⟨ihl hl, hh, hrl⟩
    · exact ⟨ihr hr, hh, hlr⟩

omit [LinearOrder κ] in
theorem settleLeft_eq_self_iff (hbal : 0 ≤ bal) (hl : l'.PosHeights) (hr : r.PosHeights)
    (hlen : l'.nodes.length = l.nodes.length) :
    settleLeft bal (node l' x k h r) = node l x k h r ↔
      l' = l ∧ h = max l.stored r.stored + 1 ∧ r.stored ≤ l.stored + bal := by
  rw [settleLeft_stored hbal hl hr]
  split_ifs with hhigh
  · refine iff_of_false (fun heq => ?_) ?_
    · have hne : r ≠ nil := by
        rintro rfl
        have hnonneg := hl.stored_nonneg
        rw [stored_nil] at hhigh
        omega
      have hlt := lt_left_raiseRight (l := l') (x := x) (k := k)
        (h := max l'.stored r.stored + 1) hne
      rw [heq, left] at hlt
      omega
    · rintro ⟨rfl, -, hle⟩
      omega
  · constructor
    · intro heq
      obtain ⟨rfl, -, -, rfl, -⟩ := node.inj heq
      exact ⟨rfl, rfl, not_lt.mp hhigh⟩
    · rintro ⟨rfl, rfl, -⟩
      rfl

omit [LinearOrder κ] in
theorem settleRight_eq_self_iff (hbal : 0 ≤ bal) (hl : l.PosHeights) (hr : r'.PosHeights)
    (hlen : r'.nodes.length = r.nodes.length) :
    settleRight bal (node l x k h r') = node l x k h r ↔
      r' = r ∧ h = max l.stored r.stored + 1 ∧ l.stored ≤ r.stored + bal := by
  have hleft := settleLeft_eq_self_iff (l := r.mirror) (x := x) (k := k) (h := h) hbal
    ((posHeights_mirror r').mpr hr) ((posHeights_mirror l).mpr hl)
    (by rw [nodes_mirror, nodes_mirror, List.length_reverse, List.length_reverse, hlen])
  have hmirror := settleRight_mirror bal (node l x k h r').mirror
  rw [mirror_mirror, mirror_node] at hmirror
  rw [← mirror_inj, hmirror, mirror_mirror, mirror_node, hleft, mirror_inj, stored_mirror,
    stored_mirror, max_comm]

/-- The replacer is not called, and the nodes stay. -/
theorem exists_deleteRc_absent (replacer : Option (Replacer ν κ)) (hbal : 0 ≤ bal)
    (ht : t.PosHeights) (habsent : ∀ b ∈ t.nodes, b.2 ≠ key) :
    ∃ t', deleteRc bal key replacer t = some (t', nil) ∧ t'.nodes = t.nodes ∧ t'.PosHeights ∧
      (t' = t ↔ t.SettledWay bal key) := by
  induction t with
  | nil => exact ⟨nil, rfl, rfl, trivial, iff_of_true rfl trivial⟩
  | node l x k h r ihl ihr =>
    obtain ⟨-, hl, hr⟩ := ht
    obtain ⟨habsentl, hk, habsentr⟩ : (∀ b ∈ l.nodes, b.2 ≠ key) ∧ k ≠ key ∧
        ∀ b ∈ r.nodes, b.2 ≠ key := by
      simpa only [nodes_node, List.forall_mem_append, List.forall_mem_cons] using habsent
    rcases lt_or_gt_of_ne hk with hlt | hgt
    · obtain ⟨r', heq, hnodes, hr', hself⟩ := ihr hr habsentr
      refine ⟨settleRight bal (node l x k h r'), ?_, ?_, posHeights_settleRight hl hr', ?_⟩
      · simp [deleteRc, hlt, hlt.le, heq]
      · rw [(settles_settleRight bal _).nodes, nodes_node, hnodes, nodes_node]
      · rw [settleRight_eq_self_iff hbal hl hr' (congrArg _ hnodes), hself, SettledWay,
          if_neg hlt.not_gt, if_pos hlt]
    · obtain ⟨l', heq, hnodes, hl', hself⟩ := ihl hl habsentl
      refine ⟨settleLeft bal (node l' x k h r), ?_, ?_, posHeights_settleLeft hl' hr, ?_⟩
      · simp [deleteRc, hgt, heq]
      · rw [(settles_settleLeft bal _).nodes, nodes_node, hnodes, nodes_node]
      · rw [settleLeft_eq_self_iff hbal hl' hr (congrArg _ hnodes), hself, SettledWay, if_pos hgt]

end AvlTree

/-! ## Reachable trees -/

section Reachable

open AvlTree

variable {ν κ : Type} [LinearOrder κ] {root : AvlRoot ν κ} {key : κ} {factor : UInt8}

/-- **A key that is not there.** From the initialisation on, a deletion of a key that no node has
returns `NULL` and leaves the tree as it is exactly when the way to the key is settled. -/
theorem delete_absent_iff
    (hreach : Transition.Reachable goAvl Fresh (cdslAvltreeRootInit factor) root)
    (habsent : ∀ b ∈ root.bag, b.2 ≠ key) :
    cdslAvltreeDelete root key = some (root, nil) ↔
      root.entry.SettledWay root.balanceFactor key := by
  have hinv := treeInv_of_reachable hreach
  have hbal : 0 ≤ root.balanceFactor := by
    rw [hinv.factor]
    exact Int.natCast_nonneg _
  obtain ⟨t, heq, -, -, hself⟩ := exists_deleteRc_absent none hbal hinv.pos habsent
  have hdelete : cdslAvltreeDelete root key = some ({ root with entry := t }, nil) := by
    simp [cdslAvltreeDelete, cdslAvltreeDeleteReplace, heq]
  rw [hdelete, ← hself]
  constructor
  · intro h
    exact congrArg (fun r => r.1.entry) (Option.some.inj h)
  · rintro rfl
    rfl

/-- Three nodes at the right heights stay as they are. -/
theorem delete_absent_threeNodes :
    ∃ root : AvlRoot ℕ ℕ, root.entry.nodes = [(1, 1), (2, 2), (3, 3)] ∧
      cdslAvltreeDelete root 0 = some (root, nil) := by
  refine ⟨_, ?_, (@delete_absent_iff ℕ ℕ _ _ 0 2
    (reachable_inserts [(2, 2), (1, 1), (3, 3)] false ?_ rfl) ?_).mpr ?_⟩
  · rfl
  · decide
  · decide
  · decide

/-- The insertion of the key 4 leaves the first node, which has the key 3, with the height 2 over a
left side of the same height. The deletion stores 3. -/
theorem not_delete_absent_fourNodes :
    ∃ root : AvlRoot ℕ ℕ, Transition.Reachable goAvl Fresh (cdslAvltreeRootInit 2) root ∧
      (∀ b ∈ root.bag, b.2 ≠ 0) ∧ cdslAvltreeDelete root 0 ≠ some (root, nil) := by
  refine ⟨_, reachable_inserts [(3, 3), (2, 2), (1, 1), (4, 4)] false (by decide) rfl, by decide,
    fun heq => ?_⟩
  exact absurd (congrArg (Option.map fun r => r.1.entry) heq) (by decide)

end Reachable

end MpegtsReader
