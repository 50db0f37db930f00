import MpegtsReader.AvlReplace

/-!
# The contract of a replacer

A replacer that returns false leaves the deletion as it is, one that returns true and gives a node
has it put in the place of the deleted one, and one that returns true and gives none is to have
nothing deleted and `NULL` returned. But the node is in the out-parameter before the replacer is
called, and stays there in the last case; and what goes on behind the replacement may rotate it away
from its place (`keepsContract_iff`).
-/

namespace MpegtsReader

open AvlTree OrderedBag

variable {ν κ : Type} [LinearOrder κ] {root root' : AvlRoot ν κ} {e : Removal κ}
  {t t' d node : AvlTree ν κ} {bal : ℤ} {key : κ} {b : ν × κ} {factor : UInt8}
  {replacer : Option (Replacer ν κ)}

/-! ## The entry points -/

/-- `cdsl_avltreeDeleteReplace`, `cdsl_avltreeDeleteMinReplace` and
`cdsl_avltreeDeleteMaxReplace`. -/
def deleteReplace (e : Removal κ) (root : AvlRoot ν κ) (replacer : Option (Replacer ν κ)) :
    Option (AvlRoot ν κ × AvlTree ν κ) :=
  match e with
  | .key key => cdslAvltreeDeleteReplace root key replacer
  | .min => cdslAvltreeDeleteMinReplace root replacer
  | .max => cdslAvltreeDeleteMaxReplace root replacer

/-- `cdsl_avltreeDelete`, `cdsl_avltreeDeleteMin` and `cdsl_avltreeDeleteMax`. -/
def deletePlain (e : Removal κ) (root : AvlRoot ν κ) : Option (AvlRoot ν κ × AvlTree ν κ) :=
  match e with
  | .key key => cdslAvltreeDelete root key
  | .min => cdslAvltreeDeleteMin root
  | .max => cdslAvltreeDeleteMax root

theorem deleteReplace_eq (e : Removal κ) (root : AvlRoot ν κ)
    (replacer : Option (Replacer ν κ)) :
    deleteReplace e root replacer =
      (deleteAt e root.balanceFactor replacer root.entry).map fun p =>
        ({ root with entry := p.1 }, p.2) := by
  cases e with
  | key key =>
    simp only [deleteReplace, cdslAvltreeDeleteReplace, deleteAt, Option.bind_eq_bind,
      Option.map_eq_bind]
    rfl
  | min =>
    simp only [deleteReplace, cdslAvltreeDeleteMinReplace, deleteAt, Option.bind_eq_bind,
      Option.map_eq_bind]
    rfl
  | max =>
    simp only [deleteReplace, cdslAvltreeDeleteMaxReplace, deleteAt, Option.bind_eq_bind,
      Option.map_eq_bind]
    rfl

theorem deletePlain_eq (e : Removal κ) (root : AvlRoot ν κ) :
    deletePlain e root = deleteReplace e root none := by cases e <;> rfl

namespace AvlTree

/-! ## What is returned -/

theorem found_key (key : κ) (t : AvlTree ν κ) : t.found (.key key) = t.lookup key := by
  induction t with
  | nil => rfl
  | node l x k h r ihl ihr =>
    simp only [found, turnTo, lookup, ← ihl, ← ihr]
    split_ifs <;> rfl

/-- Nothing is deleted where there is no node to delete. -/
theorem exists_deleteAt_absent (replacer : Option (Replacer ν κ)) (hbal : 0 ≤ bal)
    (hin : t.InOrder) (ht : t.PosHeights) (hfound : t.found e = nil) :
    ∃ t', deleteAt e bal replacer t = some (t', nil) ∧ t'.nodes = t.nodes := by
  cases e with
  | key key =>
    have hlookup : Found Prod.snd key ↑t.nodes (t.lookup key).top := found_lookup hin
    rw [← found_key, hfound] at hlookup
    obtain ⟨t', heq, hnodes, -⟩ := exists_deleteRc_absent replacer hbal ht hlookup
    exact ⟨t', heq, hnodes⟩
  | min =>
    have hnil : t = nil := by
      induction t with
      | nil => rfl
      | node l x k h r ih _ =>
        cases l with
        | nil => cases hfound
        | node => cases ih hin.left ht.2.1 hfound
    subst hnil
    exact ⟨nil, rfl, rfl⟩
  | max =>
    have hnil : t = nil := by
      induction t with
      | nil => rfl
      | node l x k h r _ ih =>
        cases r with
        | nil => cases hfound
        | node => cases ih hin.right ht.2.2 hfound
    subst hnil
    exact ⟨nil, rfl, rfl⟩

/-- What is returned is settled where the node is found. -/
theorem deleteAt_returned {f : AvlTree ν κ → AvlTree ν κ}
    (hstop : ∀ {t t' d : AvlTree ν κ}, t.turnTo e = .stop →
      deleteAt e bal replacer t = some (t', d) → d = f t)
    (heq : deleteAt e bal replacer t = some (t', d)) : d = f (t.found e) := by
  induction t generalizing t' d with
  | nil => exact hstop rfl heq
  | node l x k h r ihl ihr =>
    rw [found]
    cases hturn : (AvlTree.node l x k h r).turnTo e with
    | left =>
      rw [deleteAt_left hturn] at heq
      obtain ⟨p, hdel, heq⟩ := Option.bind_eq_some_iff.mp heq
      obtain ⟨u, -, heq⟩ := Option.map_eq_some_iff.mp heq
      exact (Prod.mk.inj heq).2.symm.trans (ihl hdel)
    | right =>
      rw [deleteAt_right hturn] at heq
      obtain ⟨p, hdel, heq⟩ := Option.bind_eq_some_iff.mp heq
      obtain ⟨u, -, heq⟩ := Option.map_eq_some_iff.mp heq
      exact (Prod.mk.inj heq).2.symm.trans (ihr hdel)
    | stop => exact hstop hturn heq

/-- With true and no node the node that was found is returned all the same. -/
theorem deleteAt_untouched (heq : deleteAt e bal (some ⟨true, nil⟩) t = some (t', d)) :
    d = t.found e := by
  refine deleteAt_returned (f := id) (fun {t t' d} hturn heq => ?_) heq
  cases t with
  | nil => cases e <;> cases heq <;> rfl
  | node l x k h r =>
    rw [deleteAt_stop hturn rfl] at heq
    exact (Prod.mk.inj (Option.some.inj heq)).2.symm

/-- A deletion without a replacer returns the node that was found, without its links. -/
theorem deleteAt_none (heq : deleteAt e bal none t = some (t', d)) : d = (t.found e).unlink := by
  refine deleteAt_returned (f := unlink) (fun {t t' d} hturn heq => ?_) heq
  have hpair {u : AvlTree ν κ × AvlTree ν κ} (h : some u = some (t', d)) : d = u.2 :=
    congrArg Prod.snd (Option.some.inj h.symm)
  rcases t with _ | ⟨l, x, k, h, r⟩
  · cases e <;> exact hpair heq
  · cases e with
    | key key =>
      simp only [turnTo] at hturn
      split_ifs at hturn with hlt hgt
      rw [deleteAt, deleteRc, if_neg hlt, if_neg hgt] at heq
      rcases r with _ | ⟨rl, z, kz, hz, rr⟩ <;> rcases l with _ | ⟨ll, y, ky, hy, lr⟩
      · exact hpair heq
      · obtain ⟨u, -, heq⟩ := Option.bind_eq_some_iff.mp heq
        exact hpair heq
      · obtain ⟨u, -, heq⟩ := Option.bind_eq_some_iff.mp heq
        exact hpair heq
      · obtain ⟨u, -, heq⟩ := Option.bind_eq_some_iff.mp heq
        exact hpair heq
    | min =>
      rcases l with _ | ⟨ll, y, ky, hy, lr⟩
      · rcases r with _ | ⟨rl, z, kz, hz, rr⟩
        · exact hpair heq
        · obtain ⟨u, -, heq⟩ := Option.bind_eq_some_iff.mp heq
          obtain ⟨v, -, heq⟩ := Option.bind_eq_some_iff.mp heq
          exact hpair heq
      · cases hturn
    | max =>
      rcases r with _ | ⟨rl, z, kz, hz, rr⟩
      · rcases l with _ | ⟨ll, y, ky, hy, lr⟩
        · exact hpair heq
        · obtain ⟨u, -, heq⟩ := Option.bind_eq_some_iff.mp heq
          obtain ⟨v, -, heq⟩ := Option.bind_eq_some_iff.mp heq
          exact hpair heq
      · cases hturn

omit [LinearOrder κ] in
theorem unlinked (t : AvlTree ν κ) : t.unlink.left = nil ∧ t.unlink.right = nil := by
  cases t <;> exact ⟨rfl, rfl⟩

omit [LinearOrder κ] in
theorem top_unlink (t : AvlTree ν κ) : t.unlink.top = t.top := by cases t <;> rfl

end AvlTree

/-! ## The contract -/

/-- The node that a replacer gives is not in the tree and has the key of the deleted one. -/
def Suits (e : Removal κ) (root : AvlRoot ν κ) (replacer : Replacer ν κ) : Prop :=
  replacer.result = true → ∀ y key, replacer.node.top = some (y, key) →
    y ∉ root.bag.map Prod.fst ∧ ∀ b, (root.entry.found e).top = some b → b.2 = key

/-- What a deletion with a replacer is to do. -/
structure KeepsContract (e : Removal κ) (root : AvlRoot ν κ) (replacer : Replacer ν κ) :
    Prop where
  /-- False: the deletion is the plain one. -/
  declined : replacer.result = false → deleteReplace e root (some replacer) = deletePlain e root
  /-- True and a node: it has the place and the height of the deleted one, which is returned. -/
  replaced : replacer.result = true → ∀ y key, replacer.node.top = some (y, key) →
    root.entry.found e ≠ nil →
      ∃ root', deleteReplace e root (some replacer) =
          some (root', (root.entry.found e).unlink) ∧
        root'.entry.shape = (root.entry.swapAt e y key).shape ∧
        (root'.entry.found e).height? = (root.entry.found e).height?
  /-- True and no node: nothing is deleted. -/
  untouched : replacer.result = true → replacer.node = nil →
    ∃ root', deleteReplace e root (some replacer) = some (root', nil) ∧ root'.bag = root.bag
  /-- What is returned has no links and is not in the tree. -/
  returned : ∀ root' node b, deleteReplace e root (some replacer) = some (root', node) →
    node.top = some b → node.left = nil ∧ node.right = nil ∧ b ∉ root'.bag

theorem bag_deletePlain (hbal : 1 ≤ root.balanceFactor) (hinv : AvlInv root.balanceFactor root)
    (heq : deletePlain e root = some (root', node)) :
    root.bag = root'.bag + node.top.toList := by
  cases e with
  | key key =>
    obtain ⟨root'', node', hstep, heffect, -⟩ := exists_avlStep hbal hinv (.delete key)
    obtain ⟨rfl, rfl⟩ := Prod.mk.inj (Option.some.inj (heq.symm.trans hstep))
    exact heffect.1
  | min =>
    obtain ⟨root'', node', hstep, heffect, -⟩ := exists_avlStep hbal hinv .deleteMin
    obtain ⟨rfl, rfl⟩ := Prod.mk.inj (Option.some.inj (heq.symm.trans hstep))
    exact heffect.1
  | max =>
    obtain ⟨root'', node', hstep, heffect, -⟩ := exists_avlStep hbal hinv .deleteMax
    obtain ⟨rfl, rfl⟩ := Prod.mk.inj (Option.some.inj (heq.symm.trans hstep))
    exact heffect.1

theorem returned_deletePlain (hbal : 1 ≤ root.balanceFactor)
    (hinv : AvlInv root.balanceFactor root) (heq : deletePlain e root = some (root', node))
    (hb : node.top = some b) : node.left = nil ∧ node.right = nil ∧ b ∉ root'.bag := by
  have hbag := bag_deletePlain hbal hinv heq
  rw [deletePlain_eq, deleteReplace_eq, Option.map_eq_some_iff] at heq
  obtain ⟨⟨t, d⟩, hdel, hp⟩ := heq
  obtain ⟨rfl, rfl⟩ := Prod.mk.inj hp
  obtain rfl := deleteAt_none hdel
  refine ⟨(unlinked _).1, (unlinked _).2, fun hmem => ?_⟩
  have hnodup := Multiset.Nodup.of_map Prod.fst hinv.once
  rw [hbag, hb] at hnodup
  exact Multiset.disjoint_left.mp (Multiset.nodup_add.mp hnodup).2.2 hmem
    (Multiset.mem_singleton_self b)

/-- The node that is replaced is not in the tree behind. -/
theorem not_mem_placed {y : ν} (honce : (root.bag.map Prod.fst).Nodup)
    (hy : y ∉ root.bag.map Prod.fst) (hb : (root.entry.found e).top = some b) :
    b ∉ (root.entry.placed e y key).nodes := by
  obtain ⟨as, bs, hnodes, hnodes'⟩ := nodes_swapAt y key hb
  rw [nodes_eq_of_shape (shape_placed root.entry), hnodes']
  have hbag : root.bag = ↑(as ++ b :: bs) := congrArg _ hnodes
  have hmem : b ∈ root.bag := by
    rw [hbag]
    exact Multiset.mem_coe.mpr (List.mem_append_right _ List.mem_cons_self)
  have hnodup : (as ++ b :: bs).Nodup := by
    rw [← Multiset.coe_nodup, ← hbag]
    exact Multiset.Nodup.of_map Prod.fst honce
  obtain ⟨-, hcons, hdisjoint⟩ := List.nodup_append.mp hnodup
  rw [List.mem_append, List.mem_cons, not_or, not_or]
  refine ⟨fun has => hdisjoint b has b List.mem_cons_self rfl, ?_, (List.nodup_cons.mp hcons).1⟩
  rintro rfl
  exact hy (Multiset.mem_map_of_mem Prod.fst hmem)

/-! ## The outcomes -/

theorem keepsContract_declined (hbal : 1 ≤ root.balanceFactor)
    (hinv : AvlInv root.balanceFactor root) (n : AvlTree ν κ) :
    KeepsContract e root ⟨false, n⟩ := by
  have hplain : deleteReplace e root (some ⟨false, n⟩) = deletePlain e root := by
    rw [deletePlain_eq, deleteReplace_eq, deleteReplace_eq, deleteAt_declined]
  refine ⟨fun _ => hplain, nofun, nofun, fun root' node b heq => ?_⟩
  rw [hplain] at heq
  exact returned_deletePlain hbal hinv heq

theorem keepsContract_absent (hbal : 0 ≤ root.balanceFactor) (hin : root.entry.InOrder)
    (hpos : root.entry.PosHeights) (hfound : root.entry.found e = nil) (n : AvlTree ν κ) :
    KeepsContract e root ⟨true, n⟩ := by
  obtain ⟨t, heq, hnodes⟩ := exists_deleteAt_absent (some ⟨true, n⟩) hbal hin hpos hfound
  have hdel : deleteReplace e root (some ⟨true, n⟩) = some ({ root with entry := t }, nil) := by
    rw [deleteReplace_eq, heq]
    rfl
  refine ⟨nofun, fun _ _ _ _ hne => (hne hfound).elim, fun _ _ => ⟨_, hdel, ?_⟩,
    fun root' node b heq hb => ?_⟩
  · exact congrArg (fun as : List (ν × κ) => (as : Multiset (ν × κ))) hnodes
  · rw [hdel] at heq
    obtain ⟨-, rfl⟩ := Prod.mk.inj (Option.some.inj heq)
    cases hb

/-- The node that was found is returned where `NULL` is to be. -/
theorem not_keepsContract_untouched (hfound : root.entry.found e ≠ nil) :
    ¬KeepsContract e root ⟨true, nil⟩ := by
  intro hkeeps
  obtain ⟨root', heq, -⟩ := hkeeps.untouched rfl rfl
  rw [deleteReplace_eq, Option.map_eq_some_iff] at heq
  obtain ⟨⟨t, d⟩, hdel, hp⟩ := heq
  exact hfound ((deleteAt_untouched hdel).symm.trans (Prod.mk.inj hp).2)

theorem keepsContract_replaced_iff {nl nr : AvlTree ν κ} {y : ν} {nh : ℤ}
    (hbal : 0 ≤ root.balanceFactor) (hpos : root.entry.PosHeights)
    (honce : (root.bag.map Prod.fst).Nodup) (hfound : root.entry.found e ≠ nil)
    (hsuits : Suits e root ⟨true, .node nl y key nh nr⟩) :
    KeepsContract e root ⟨true, .node nl y key nh nr⟩ ↔
      root.entry.StaysPut e root.balanceFactor := by
  obtain ⟨hy, hkey⟩ := hsuits rfl y key rfl
  constructor
  · intro hkeeps
    obtain ⟨root', heq, hshape, -⟩ := hkeeps.replaced rfl y key rfl hfound
    rw [deleteReplace_eq, Option.map_eq_some_iff] at heq
    obtain ⟨⟨t, d⟩, hdel, hp⟩ := heq
    obtain ⟨rfl, -⟩ := Prod.mk.inj hp
    exact staysPut_of_shape hbal hpos hfound hdel hshape
  · intro hstays
    have hdel : deleteReplace e root (some ⟨true, .node nl y key nh nr⟩) =
        some ({ root with entry := root.entry.placed e y key }, (root.entry.found e).unlink) := by
      rw [deleteReplace_eq, deleteAt_eq_placed hbal hpos hfound hstays]
      rfl
    refine ⟨nofun, ?_, fun _ => nofun, fun root' node b heq hb => ?_⟩
    · rintro - _ _ ⟨⟩ -
      exact ⟨_, hdel, shape_placed _, height?_found_placed hkey⟩
    · rw [hdel] at heq
      obtain ⟨rfl, rfl⟩ := Prod.mk.inj (Option.some.inj heq)
      rw [top_unlink] at hb
      exact ⟨(unlinked _).1, (unlinked _).2, not_mem_placed honce hy hb⟩

/-- **The contract of a replacer.** From the initialisation on, with a balance factor that is not 0
and a replacer that gives a suitable node, a deletion keeps the contract exactly when the replacer
returns false, there is nothing to delete, or it gives a node and nothing is raised on the way back
from its place. -/
theorem keepsContract_iff {replacer : Replacer ν κ} (hfactor : factor ≠ 0)
    (hreach : Transition.Reachable goAvl Fresh (cdslAvltreeRootInit factor) root)
    (hsuits : Suits e root replacer) :
    KeepsContract e root replacer ↔
      (replacer.result = true → root.entry.found e ≠ nil →
        replacer.node ≠ nil ∧ root.entry.StaysPut e root.balanceFactor) := by
  have hinv := avlInv_of_reachable hfactor hreach
  have hpos := (treeInv_of_reachable hreach).pos
  have hbal : 1 ≤ root.balanceFactor := by
    rw [hinv.factor]
    exact one_le_factor hfactor
  have hbal₀ : 0 ≤ root.balanceFactor := (Int.le_of_lt Int.zero_lt_one).trans hbal
  rw [← hinv.factor] at hinv
  obtain ⟨result, n⟩ := replacer
  cases result with
  | false => exact iff_of_true (keepsContract_declined hbal hinv n) nofun
  | true =>
    by_cases hfound : root.entry.found e = nil
    · exact iff_of_true (keepsContract_absent hbal₀ hinv.inOrder hpos hfound n)
        fun _ hne => (hne hfound).elim
    · cases n with
      | nil => exact iff_of_false (not_keepsContract_untouched hfound) fun h => (h rfl hfound).1 rfl
      | node nl y key nh nr =>
        rw [keepsContract_replaced_iff hbal₀ hpos hinv.once hfound hsuits]
        exact ⟨fun hstays _ _ => ⟨nofun, hstays⟩, fun h => (h rfl hfound).2⟩

/-- A node two levels below the root is replaced, and nothing above it is raised. -/
theorem keepsContract_fiveNodes :
    ∃ root : AvlRoot ℕ ℕ, root.entry.nodes = [(1, 1), (2, 2), (3, 3), (4, 4), (6, 6)] ∧
      KeepsContract (.key 3) root ⟨true, cdslAvltreeNodeInit 9 3⟩ := by
  refine ⟨_, ?_, (keepsContract_iff (show (1 : UInt8) ≠ 0 by decide)
    (reachable_inserts [(4, 4), (2, 2), (6, 6), (1, 1), (3, 3)] false ?_ rfl) ?_).mpr
    fun _ _ => ⟨nofun, ?_⟩⟩
  · rfl
  · decide
  · rintro - _ _ ⟨⟩
    refine ⟨by decide, ?_⟩
    rintro _ ⟨⟩
    rfl
  · exact ⟨⟨trivial, by decide⟩, by decide⟩

/-- With true and no node it is returned, and stays in the tree. -/
theorem not_keepsContract_oneNode :
    ∃ root : AvlRoot ℕ ℕ, Transition.Reachable goAvl Fresh (cdslAvltreeRootInit 1) root ∧
      deleteReplace (.key 1) root (some ⟨true, nil⟩) = some (root, root.entry) ∧
      root.entry = .node nil 1 1 1 nil ∧ ¬KeepsContract (.key 1) root ⟨true, nil⟩ := by
  refine ⟨_, reachable_inserts [(1, 1)] false (by decide) rfl, rfl, rfl, fun hkeeps => ?_⟩
  obtain ⟨root', heq, -⟩ := hkeeps.untouched rfl rfl
  cases heq

end MpegtsReader
