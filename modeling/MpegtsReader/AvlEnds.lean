import MpegtsReader.AvlStored

/-!
# The smallest and the largest node under any balance factor

Behind a rotation `delete_lm_rc` and `delete_rm_rc` read the height of a child that is there when
the balance factor is not 0. With the factor 0 a node with one child is always rotated, and a child
without children leaves nothing behind on its side: `exists_deleteLmRc_zero_iff` says in which trees
the deletion comes to such a node, and `deletesEnds_iff` puts the two together.
-/

namespace MpegtsReader

namespace AvlTree

variable {ν κ : Type} {t l r : AvlTree ν κ} {x : ν} {k : κ} {h : ℤ}

/-- On the way to the smallest node no subtree has exactly three nodes. -/
def MinSafe : AvlTree ν κ → Prop
  | nil => True
  | node l x k h r => (node l x k h r).nodes.length ≠ 3 ∧ l.MinSafe

/-- On the way to the largest node no subtree has exactly three nodes. -/
def MaxSafe : AvlTree ν κ → Prop
  | nil => True
  | node l x k h r => (node l x k h r).nodes.length ≠ 3 ∧ r.MaxSafe

instance decidableMinSafe : (t : AvlTree ν κ) → Decidable t.MinSafe
  | nil => isTrue trivial
  | node l _ _ _ _ =>
    have := decidableMinSafe l
    inferInstanceAs (Decidable (_ ∧ _))

instance decidableMaxSafe : (t : AvlTree ν κ) → Decidable t.MaxSafe
  | nil => isTrue trivial
  | node _ _ _ _ r =>
    have := decidableMaxSafe r
    inferInstanceAs (Decidable (_ ∧ _))

theorem minSafe_mirror (t : AvlTree ν κ) : t.mirror.MinSafe ↔ t.MaxSafe := by
  induction t with
  | nil => rfl
  | node l x k h r ihl ihr =>
    simp only [mirror_node, MinSafe, MaxSafe, ihr, nodes_node, nodes_mirror, List.length_append,
      List.length_cons, List.length_reverse]
    exact and_congr_left fun _ => by omega

theorem length_nodes_eq_zero_iff : t.nodes.length = 0 ↔ t = nil :=
  List.length_eq_zero_iff.trans nodes_eq_nil_iff

/-- Nothing is left on the right of the raised node when it had no child. -/
theorem right_raiseRight_eq_nil_iff (hr : r ≠ nil) :
    (node l x k h r).raiseRight.right = nil ↔ r.nodes.length = 1 := by
  rcases r with _ | ⟨_ | ⟨rll, z, kz, hz, rlr⟩, y, ky, hy, _ | ⟨rrl, w, kw, hw, rrr⟩⟩
  · exact (hr rfl).elim
  · exact iff_of_true rfl rfl
  · refine iff_of_false nofun ?_
    simp only [nodes_node, nodes_nil, List.length_append, List.length_cons, List.length_nil]
    omega
  · refine iff_of_false nofun ?_
    simp only [nodes_node, nodes_nil, List.length_append, List.length_cons, List.length_nil]
    omega
  · refine iff_of_false nofun ?_
    simp only [nodes_node, List.length_append, List.length_cons]
    omega

theorem exists_settleOnlyRight_zero_iff {hr : ℤ} (hne : r ≠ nil) (hpos : 1 ≤ hr) :
    (∃ t', settleOnlyRight 0 hr (node l x k h r) = some t') ↔ r.nodes.length ≠ 1 := by
  have hnil := right_raiseRight_eq_nil_iff (l := l) (x := x) (k := k) (h := h) hne
  have heq : settleOnlyRight 0 hr (node l x k h r) = (node l x k h r).raiseRight.right.height?.bind
      fun h' => some ((node l x k h r).raiseRight.setHeight (h' + 1)) := by
    simp only [settleOnlyRight, if_pos (show hr > 0 by omega), Option.bind_eq_bind]
  rw [Ne, ← hnil, heq]
  constructor
  · rintro ⟨t', hsome⟩ hright
    rw [hright] at hsome
    cases hsome
  · intro hright
    obtain ⟨h', hheight⟩ := exists_height hright
    exact ⟨_, by rw [hheight]; rfl⟩

theorem exists_settleOnlyLeft_zero_iff {hl : ℤ} (hne : l ≠ nil) (hpos : 1 ≤ hl) :
    (∃ t', settleOnlyLeft 0 hl (node l x k h r) = some t') ↔ l.nodes.length ≠ 1 := by
  have hright := exists_settleOnlyRight_zero_iff (l := r.mirror) (x := x) (k := k) (h := h)
    (mirror_ne_nil hne) hpos
  rw [← mirror_node, settleOnlyRight_mirror, nodes_mirror, List.length_reverse] at hright
  rw [← hright]
  exact ⟨fun ⟨t', heq⟩ => ⟨_, Option.map_eq_some_iff.mpr ⟨t', heq, rfl⟩⟩,
    fun ⟨_, heq⟩ => (Option.map_eq_some_iff.mp heq).imp fun _ h => h.1⟩

/-- Of two nodes one is the only child of the other, and has none itself. -/
theorem exists_settleLm_zero_iff (ht : t.PosHeights) (hne : t ≠ nil) :
    (∃ t', t.settleLm 0 = some t') ↔ t.nodes.length ≠ 2 := by
  rcases t with _ | ⟨_ | ⟨ll, y, ky, hl, lr⟩, x, k, h, _ | ⟨rl, z, kz, hr, rr⟩⟩
  · exact (hne rfl).elim
  · exact iff_of_true ⟨_, rfl⟩ (by simp)
  · have hne : node rl z kz hr rr ≠ nil := node_ne_nil
    refine (exists_settleOnlyRight_zero_iff hne ht.2.2.1).trans (not_congr ?_)
    simp only [nodes_node, nodes_nil, List.length_append, List.length_cons, List.length_nil]
    omega
  · have hne : node ll y ky hl lr ≠ nil := node_ne_nil
    refine (exists_settleOnlyLeft_zero_iff hne ht.2.1.1).trans (not_congr ?_)
    simp only [nodes_node, nodes_nil, List.length_append, List.length_cons, List.length_nil]
    omega
  · refine iff_of_true ⟨_, rfl⟩ ?_
    simp only [nodes_node, List.length_append, List.length_cons]
    omega

theorem exists_bind_iff {α β : Type} {a : Option α} {f : α → β} :
    (∃ b, (a.bind fun x => some (f x)) = some b) ↔ ∃ x, a = some x := by
  cases a <;> simp

/-- With the factor 0 the smallest node is deleted unless the way passes a subtree of three. -/
theorem exists_deleteLmRc_zero_iff (ht : t.PosHeights) :
    (∃ a, deleteLmRc 0 none t = some a) ↔ t.MinSafe := by
  induction t with
  | nil => exact iff_of_true ⟨_, rfl⟩ trivial
  | node l x k h r ih =>
    obtain ⟨hh, hl, hr⟩ := ht
    cases l with
    | nil =>
      cases r with
      | nil => exact iff_of_true ⟨_, rfl⟩ ⟨by simp, trivial⟩
      | node rl y ky hy rr =>
        obtain ⟨t, hfill, hnodes, -⟩ :=
          exists_fillFromRight 0 h nil (r := node rl y ky hy rr) node_ne_nil
        have hpos := posHeights_fillFromRight posHeights_nil hh hr hfill
        have hne : t ≠ nil := by
          rintro rfl
          simp at hnodes
        have hsettle := exists_settleLm_zero_iff hpos hne
        have hlen : t.nodes.length = (node rl y ky hy rr).nodes.length := by rw [hnodes]; rfl
        have hthree : (node nil x k h (node rl y ky hy rr)).nodes.length =
            (node rl y ky hy rr).nodes.length + 1 := rfl
        rw [MinSafe, and_iff_left (show MinSafe nil from trivial), hthree, ← hlen]
        refine Iff.trans ?_ (hsettle.trans (not_congr (by omega)))
        simp only [deleteLmRc, replaceNode, hfill, Option.bind_eq_bind, Option.bind_some]
        exact exists_bind_iff
    | node ll y ky hy lr =>
      rw [MinSafe, ← ih hl, nodes_node, List.length_append, List.length_cons]
      have hcount := mt length_nodes_eq_zero_iff.mp (node_ne_nil : node ll y ky hy lr ≠ nil)
      have hend {l' d : AvlTree ν κ}
          (hdel : deleteLmRc 0 none (node ll y ky hy lr) = some (l', d)) :
          (∃ u, (node l' x k h r).settleLm 0 = some u) ↔
            (node ll y ky hy lr).nodes.length + (r.nodes.length + 1) ≠ 3 := by
        obtain ⟨hnodes, -, hpos⟩ := minDeleted_deleteLmRc hdel
        have ht' : (node l' x k h r).PosHeights := posHeights_node.mpr ⟨hh, hpos hl, hr⟩
        refine (exists_settleLm_zero_iff ht' node_ne_nil).trans (not_congr ?_)
        rw [nodes_node, List.length_append, List.length_cons, hnodes, List.length_tail]
        omega
      constructor
      · rintro ⟨a, heq⟩
        obtain ⟨⟨l', d⟩, hdel, heq⟩ := Option.bind_eq_some_iff.mp heq
        obtain ⟨u, hsettle, -⟩ := Option.bind_eq_some_iff.mp heq
        exact ⟨(hend hdel).mp ⟨u, hsettle⟩, (l', d), hdel⟩
      · rintro ⟨hthree, ⟨l', d⟩, hdel⟩
        obtain ⟨u, hsettle⟩ := (hend hdel).mpr hthree
        exact ⟨(u, d), by simp [deleteLmRc, hdel, hsettle]⟩

theorem exists_deleteRmRc_zero_iff (ht : t.PosHeights) :
    (∃ a, deleteRmRc 0 none t = some a) ↔ t.MaxSafe := by
  rw [← minSafe_mirror, ← exists_deleteLmRc_zero_iff ((posHeights_mirror t).mpr ht),
    deleteLmRc_mirror]
  exact ⟨fun ⟨a, heq⟩ => ⟨_, Option.map_eq_some_iff.mpr ⟨a, heq, rfl⟩⟩,
    fun ⟨_, heq⟩ => (Option.map_eq_some_iff.mp heq).imp fun _ h => h.1⟩

end AvlTree

/-! ## Reachable trees -/

section Reachable

open AvlTree

variable {ν κ : Type} {root : AvlRoot ν κ}

/-- Both deletions come to their end: no `NULL` is dereferenced. -/
structure DeletesEnds (root : AvlRoot ν κ) : Prop where
  min : ∃ a, cdslAvltreeDeleteMin root = some a
  max : ∃ a, cdslAvltreeDeleteMax root = some a

theorem deletesEnds_iff_rc : DeletesEnds root ↔
    (∃ a, deleteLmRc root.balanceFactor none root.entry = some a) ∧
      ∃ a, deleteRmRc root.balanceFactor none root.entry = some a := by
  have hmin : (∃ a, cdslAvltreeDeleteMin root = some a) ↔
      ∃ a, deleteLmRc root.balanceFactor none root.entry = some a := exists_bind_iff
  have hmax : (∃ a, cdslAvltreeDeleteMax root = some a) ↔
      ∃ a, deleteRmRc root.balanceFactor none root.entry = some a := exists_bind_iff
  rw [← hmin, ← hmax]
  exact ⟨fun h => ⟨h.min, h.max⟩, fun h => ⟨h.1, h.2⟩⟩

variable [LinearOrder κ]

/-- **The ends of a tree.** From its initialisation on, with any balance factor, the deletions of a
smallest and of a largest node come to their end exactly when the factor is not 0, or no subtree on
the left or on the right edge has exactly three nodes. -/
theorem deletesEnds_iff {factor : UInt8}
    (hreach : Transition.Reachable goAvl Fresh (cdslAvltreeRootInit factor) root) :
    DeletesEnds root ↔ factor ≠ 0 ∨ root.entry.MinSafe ∧ root.entry.MaxSafe := by
  have hinv := treeInv_of_reachable hreach
  rw [deletesEnds_iff_rc, hinv.factor]
  by_cases hfactor : factor = 0
  · subst hfactor
    rw [or_iff_right (not_not_intro rfl)]
    exact and_congr (exists_deleteLmRc_zero_iff hinv.pos) (exists_deleteRmRc_zero_iff hinv.pos)
  · have hlow := (avlInv_of_reachable hfactor hreach).low
    obtain ⟨t, d, hmin, -⟩ := exists_deleteLmRc (one_le_factor hfactor) hlow
    obtain ⟨u, e, hmax, -⟩ := exists_deleteRmRc (one_le_factor hfactor) hlow
    exact iff_of_true ⟨⟨_, hmin⟩, _, hmax⟩ (.inl hfactor)

/-- With the factor 1 the ends of a tree of three nodes are deleted. -/
theorem deletesEnds_threeNodes :
    ∃ root : AvlRoot ℕ ℕ, root.entry.nodes = [(1, 1), (2, 2), (3, 3)] ∧ DeletesEnds root := by
  have hfactor : (1 : UInt8) ≠ 0 := by decide
  refine ⟨_, ?_, (deletesEnds_iff
    (reachable_inserts [(2, 2), (1, 1), (3, 3)] false ?_ rfl)).mpr (.inl hfactor)⟩
  · rfl
  · decide

/-- With the factor 0 they are not: the node with the key 3 is raised over the one with the key 2,
and has no node on the right, whose height is read. -/
theorem not_deletesEnds_threeNodes :
    ∃ root : AvlRoot ℕ ℕ, Transition.Reachable goAvl Fresh (cdslAvltreeRootInit 0) root ∧
      ¬DeletesEnds root := by
  refine ⟨_, reachable_inserts [(2, 2), (1, 1), (3, 3)] false (by decide) rfl, fun hends => ?_⟩
  obtain ⟨a, hmin⟩ := hends.min
  cases hmin

end Reachable

end MpegtsReader
