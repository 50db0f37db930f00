import MpegtsReader.AvlInsert
import MpegtsReader.AvlDelete
import MpegtsReader.Transition

/-!
# The AVL tree as an ordered bag

A tree that is used from its initialisation on is an ordered bag of nodes (`bag_of_reachable`),
whatever the heights that are stored in it. `AvlInv` is what every operation keeps: the keys are in
order, the leaves are low, and each node is in the tree once. A balance factor of 0 is not covered:
the deletions of a smallest or largest node need low leaves to be within the factor.
-/

namespace MpegtsReader

open AvlTree OrderedBag

variable {ν κ : Type} [LinearOrder κ] {root : AvlRoot ν κ} {bal : ℤ} {op : Op (ν × κ) κ}

/-- An operation on the tree, and the node that it returns. An item that is inserted is freshly
initialised. -/
def avlStep (root : AvlRoot ν κ) : Op (ν × κ) κ → Option (AvlRoot ν κ × AvlTree ν κ)
  | .insert (item, key) isSet => cdslAvltreeInsert root (cdslAvltreeNodeInit item key) isSet
  | .delete key => cdslAvltreeDelete root key
  | .deleteMin => cdslAvltreeDeleteMin root
  | .deleteMax => cdslAvltreeDeleteMax root

/-- The bag of the nodes, each with its key. -/
def AvlRoot.bag (root : AvlRoot ν κ) : Multiset (ν × κ) := root.entry.nodes

/-- A node that is inserted is not in the tree. -/
def Fresh (root : AvlRoot ν κ) (op : Op (ν × κ) κ) : Prop :=
  ∀ item isSet, op = .insert item isSet → item.1 ∉ root.bag.map Prod.fst

/-- The tree after an operation. -/
def goAvl (root : AvlRoot ν κ) (op : Op (ν × κ) κ) : Option (AvlRoot ν κ) :=
  (avlStep root op).map Prod.fst

/-- What every operation keeps. -/
structure AvlInv (bal : ℤ) (root : AvlRoot ν κ) : Prop where
  factor : root.balanceFactor = bal
  inOrder : root.entry.InOrder
  low : root.entry.LowLeaves
  once : (root.bag.map Prod.fst).Nodup

/-- An operation succeeds, has its effect on the bag and keeps the keys in order. -/
theorem exists_avlStep (hbal : 1 ≤ bal) (hinv : AvlInv bal root) (op : Op (ν × κ) κ) :
    ∃ root' node, avlStep root op = some (root', node) ∧
      Effect Prod.snd root.bag root'.bag node.top op ∧ root'.balanceFactor = bal ∧
      root'.entry.InOrder ∧ root'.entry.LowLeaves := by
  obtain ⟨rfl, hin, hlow, -⟩ := hinv
  cases op with
  | insert item isSet =>
    obtain ⟨item, key⟩ := item
    obtain ⟨t, dir, replaced, heq, hins, hlow'⟩ := exists_insertRc root.balanceFactor item key 0
      isSet hin
    refine ⟨{ root with entry := t }, replaced, ?_, hins.effect, rfl, hins.ordered hin, hlow' hlow⟩
    rw [cdslAvltreeNodeInit] at heq
    simp [avlStep, cdslAvltreeInsert, cdslAvltreeNodeInit, heq]
  | delete key =>
    obtain ⟨t, deleted, heq, hdel, hlow'⟩ := exists_deleteRc root.balanceFactor key hin
    refine ⟨{ root with entry := t }, deleted, ?_, hdel.effect, rfl, hdel.ordered hin, hlow' hlow⟩
    simp [avlStep, cdslAvltreeDelete, cdslAvltreeDeleteReplace, heq]
  | deleteMin =>
    obtain ⟨t, deleted, heq, hnodes, htop, hlow'⟩ := exists_deleteLmRc hbal hlow
    refine ⟨{ root with entry := t }, deleted, ?_, ?_, rfl, ?_, hlow'⟩
    · simp [avlStep, cdslAvltreeDeleteMin, cdslAvltreeDeleteMinReplace, heq]
    · rw [htop, AvlRoot.bag, AvlRoot.bag, hnodes]
      exact effect_deleteMin hin
    · rw [InOrder, hnodes]
      exact hin.sublist (List.tail_sublist _)
  | deleteMax =>
    obtain ⟨t, deleted, heq, hnodes, htop, hlow'⟩ := exists_deleteRmRc hbal hlow
    refine ⟨{ root with entry := t }, deleted, ?_, ?_, rfl, ?_, hlow'⟩
    · simp [avlStep, cdslAvltreeDeleteMax, cdslAvltreeDeleteMaxReplace, heq]
    · rw [htop, AvlRoot.bag, AvlRoot.bag, hnodes]
      exact effect_deleteMax hin
    · rw [InOrder, hnodes]
      exact hin.sublist (List.dropLast_sublist _)

theorem one_le_factor {factor : UInt8} (hfactor : factor ≠ 0) : (1 : ℤ) ≤ factor.toNat := by
  have hne : factor.toNat ≠ 0 := fun h => hfactor (UInt8.toNat_inj.mp h)
  omega

theorem avlInv_of_reachable {factor : UInt8} (hfactor : factor ≠ 0)
    (hreach : Transition.Reachable goAvl Fresh (cdslAvltreeRootInit factor) root) :
    AvlInv factor.toNat root := by
  refine hreach.invariant ⟨rfl, .nil, trivial, Multiset.nodup_zero⟩ ?_
  intro root op root' hinv hfresh hstep
  obtain ⟨root'', node, heq, heffect, hbal, hin, hlow⟩ :=
    exists_avlStep (one_le_factor hfactor) hinv op
  rw [goAvl, heq] at hstep
  obtain rfl : root'' = root' := Option.some.inj hstep
  exact ⟨hbal, hin, hlow, heffect.nodup_map hfresh hinv.once⟩

/-- From its initialisation on with a balance factor that is not 0, the tree is an ordered bag of
nodes: its keys do not decrease, each node is in it once, every operation works and has its effect
on the bag, and a lookup finds a node of a key if and only if there is one. -/
theorem bag_of_reachable {factor : UInt8} (hfactor : factor ≠ 0)
    (hreach : Transition.Reachable goAvl Fresh (cdslAvltreeRootInit factor) root) :
    root.entry.InOrder ∧ (root.bag.map Prod.fst).Nodup ∧
      (∀ op, Fresh root op → ∃ root' node, avlStep root op = some (root', node) ∧
        Effect Prod.snd root.bag root'.bag node.top op) ∧
      ∀ key, Found Prod.snd key root.bag (cdslAvltreeLookup root key).top := by
  have hinv := avlInv_of_reachable hfactor hreach
  refine ⟨hinv.inOrder, hinv.once, fun op _ => ?_, fun key => found_lookup hinv.inOrder⟩
  obtain ⟨root', node, heq, heffect, -⟩ := exists_avlStep (one_le_factor hfactor) hinv op
  exact ⟨root', node, heq, heffect⟩

/-- Two nodes of one key, a smaller one, a replacement and a deletion at each end. -/
theorem bag_sixSteps :
    ∃ root : AvlRoot ℕ ℕ, root.entry.nodes = [(4, 10)] ∧
      root.entry.InOrder ∧ (root.bag.map Prod.fst).Nodup ∧
      (∀ op, Fresh root op → ∃ root' node, avlStep root op = some (root', node) ∧
        Effect Prod.snd root.bag root'.bag node.top op) ∧
      ∀ key, Found Prod.snd key root.bag (cdslAvltreeLookup root key).top := by
  refine ⟨_, ?_, bag_of_reachable (show (1 : UInt8) ≠ 0 by decide) (.next (a := .deleteMax)
    (.next (a := .deleteMin) (.next (a := .insert (4, 10) true) (.next (a := .insert (3, 5) false)
      (.next (a := .insert (2, 10) false) (.next (a := .insert (1, 10) false) .start ?_ rfl) ?_ rfl)
      ?_ rfl) ?_ rfl) nofun rfl) nofun rfl)⟩
  · rfl
  all_goals
    rintro _ _ ⟨⟩
    decide

end MpegtsReader
