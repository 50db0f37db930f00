import MpegtsReader.AvlAbsent
import MpegtsReader.AvlGrowth

/-!
# A node in the place of a deleted one

The three deletions go to a node, by its key, as far to the left or as far to the right as they can,
and call the replacer there. With a node in the place of the deleted one they go back as behind any
deletion: the heights on the way are taken anew and the other side may be raised, for which they
need not be right. `StaysPut` says from the heights before that nothing is raised, and
`deleteAt_eq_placed` and `staysPut_of_shape` that the node is then, and only then, where the deleted
one was.
-/

namespace MpegtsReader

open AvlTree

/-- Which node is deleted. -/
inductive Removal (κ : Type)
  | key (key : κ)
  | min
  | max

namespace AvlTree

variable {ν κ : Type} [LinearOrder κ] {e : Removal κ} {t t' l r l' r' d : AvlTree ν κ} {x y : ν}
  {k key : κ} {bal h : ℤ} {replacer : Option (Replacer ν κ)}

/-! ## The way to a node -/

/-- Where a deletion goes on at a node. -/
def turnTo (e : Removal κ) : AvlTree ν κ → Turn
  | nil => .stop
  | node l _ k _ r =>
    match e, l, r with
    | .key key, _, _ => if k > key then .left else if k < key then .right else .stop
    | .min, nil, _ => .stop
    | .min, node .., _ => .left
    | .max, _, nil => .stop
    | .max, _, node .. => .right

/-- The heights and the items are not looked at, and of the subtrees only whether they are there. -/
theorem turnTo_congr {h' : ℤ} {k' : κ} (hl : l' = nil ↔ l = nil) (hr : r' = nil ↔ r = nil)
    (hk : k' = k) : (node l' y k' h' r').turnTo e = (node l x k h r).turnTo e := by
  subst hk
  cases e with
  | key key => rfl
  | min => cases l <;> cases l' <;> first | rfl | simp at hl
  | max => cases r <;> cases r' <;> first | rfl | simp at hr

/-- `delete_rc`, `delete_lm_rc` or `delete_rm_rc`. -/
def deleteAt (e : Removal κ) (bal : ℤ) (replacer : Option (Replacer ν κ)) (t : AvlTree ν κ) :
    Option (AvlTree ν κ × AvlTree ν κ) :=
  match e with
  | .key key => deleteRc bal key replacer t
  | .min => deleteLmRc bal replacer t
  | .max => deleteRmRc bal replacer t

/-- Their end, where they went to the left. -/
def settleFromLeft (e : Removal κ) (bal : ℤ) (t : AvlTree ν κ) : Option (AvlTree ν κ) :=
  match e with
  | .key _ => some (settleLeft bal t)
  | _ => t.settleLm bal

/-- Their end, where they went to the right. -/
def settleFromRight (e : Removal κ) (bal : ℤ) (t : AvlTree ν κ) : Option (AvlTree ν κ) :=
  match e with
  | .key _ => some (settleRight bal t)
  | _ => t.settleRm bal

theorem deleteAt_left (hturn : (node l x k h r).turnTo e = .left) :
    deleteAt e bal replacer (node l x k h r) = (deleteAt e bal replacer l).bind fun p =>
      ((node p.1 x k h r).settleFromLeft e bal).map (·, p.2) := by
  cases e with
  | key key =>
    simp only [turnTo] at hturn
    split_ifs at hturn with hlt
    simp only [deleteAt, deleteRc, if_pos hlt, settleFromLeft]
    rfl
  | min =>
    cases l with
    | nil => cases hturn
    | node ll z kz hz lr => exact deleteLmRc_left node_ne_nil
  | max => cases r <;> cases hturn

theorem deleteAt_right (hturn : (node l x k h r).turnTo e = .right) :
    deleteAt e bal replacer (node l x k h r) = (deleteAt e bal replacer r).bind fun p =>
      ((node l x k h p.1).settleFromRight e bal).map (·, p.2) := by
  cases e with
  | key key =>
    simp only [turnTo] at hturn
    split_ifs at hturn with hlt hgt
    simp only [deleteAt, deleteRc, if_neg hlt, if_pos hgt, settleFromRight]
    rfl
  | min => cases l <;> cases hturn
  | max =>
    cases r with
    | nil => cases hturn
    | node rl z kz hz rr => exact deleteRmRc_right node_ne_nil

/-- Where the node is found the replacer is called, and without a replacement the deletion is the
plain one. -/
theorem deleteAt_stop_eq (hturn : (node l x k h r).turnTo e = .stop) :
    deleteAt e bal replacer (node l x k h r) =
      (replaceNode replacer (node l x k h r)).or (deleteAt e bal none (node l x k h r)) := by
  cases e with
  | key key =>
    simp only [turnTo] at hturn
    split_ifs at hturn with hlt hgt
    simp only [deleteAt, deleteRc, if_neg hlt, if_neg hgt, deleteFound]
    cases replaceNode replacer (node l x k h r) <;> rfl
  | min =>
    cases l with
    | nil =>
      simp only [deleteAt, deleteLmRc]
      cases replaceNode replacer (node nil x k h r) <;> rfl
    | node => cases hturn
  | max =>
    cases r with
    | nil =>
      simp only [deleteAt, deleteRmRc]
      cases replaceNode replacer (node l x k h nil) <;> rfl
    | node => cases hturn

/-- Where a replacer returns true nothing else is done. -/
theorem deleteAt_stop {p : AvlTree ν κ × AvlTree ν κ}
    (hturn : (node l x k h r).turnTo e = .stop)
    (hreplace : replaceNode replacer (node l x k h r) = some p) :
    deleteAt e bal replacer (node l x k h r) = some p := by
  rw [deleteAt_stop_eq hturn, hreplace, Option.some_or]

/-- The pointer that a replacer leaves behind is not looked at when it returns false. -/
theorem deleteAt_declined (e : Removal κ) (bal : ℤ) (n t : AvlTree ν κ) :
    deleteAt e bal (some ⟨false, n⟩) t = deleteAt e bal none t := by
  induction t with
  | nil => cases e <;> rfl
  | node l x k h r ihl ihr =>
    cases hturn : (node l x k h r).turnTo e with
    | left => rw [deleteAt_left hturn, deleteAt_left hturn, ihl]
    | right => rw [deleteAt_right hturn, deleteAt_right hturn, ihr]
    | stop => exact deleteAt_stop_eq hturn

/-! ## The end of a step -/

/-- Nothing is raised beside a side that was entered and has this height now. At the ends an only
child is raised as well. -/
def Rests (e : Removal κ) (bal entered other : ℤ) : Prop :=
  other ≤ entered + bal ∧
    match e with
    | .key _ => True
    | _ => other = 0 → entered ≤ bal

instance (e : Removal κ) (bal entered other : ℤ) : Decidable (Rests e bal entered other) := by
  unfold Rests
  cases e <;> infer_instance

omit [LinearOrder κ] in
theorem rests_of_near {entered other : ℤ} (hother : other ≤ entered + bal)
    (hentered : entered ≤ other + bal) : Rests e bal entered other := by
  refine ⟨hother, ?_⟩
  cases e with
  | key => trivial
  | min => exact fun hzero => by omega
  | max => exact fun hzero => by omega

omit [LinearOrder κ] in
theorem settleFromLeft_mirror (e : Removal κ) (bal : ℤ) (t : AvlTree ν κ) :
    t.mirror.settleFromLeft e bal = (t.settleFromRight e bal).map mirror := by
  cases e with
  | key key =>
    have hright := settleRight_mirror bal t.mirror
    rw [mirror_mirror] at hright
    simp only [settleFromLeft, settleFromRight, hright, Option.map_some, mirror_mirror]
  | min => exact settleLm_mirror bal t
  | max => exact settleLm_mirror bal t

omit [LinearOrder κ] in
theorem settled_settleFromLeft (heq : t.settleFromLeft e bal = some t') : Settled t t' := by
  cases e with
  | key key =>
    obtain rfl := Option.some.inj heq
    exact ⟨(settles_settleLeft bal t).nodes, fun ht => posHeights_settleLeft ht.left ht.right⟩
  | min => exact settled_settleLm heq
  | max => exact settled_settleLm heq

omit [LinearOrder κ] in
theorem settled_settleFromRight (heq : t.settleFromRight e bal = some t') : Settled t t' := by
  have hleft := settleFromLeft_mirror e bal t
  rw [heq] at hleft
  have hsettled := (settled_settleFromLeft hleft).mirror
  rwa [mirror_mirror, mirror_mirror] at hsettled

omit [LinearOrder κ] in
theorem settleFromLeft_rests (hbal : 0 ≤ bal) (hl : l.PosHeights) (hr : r.PosHeights)
    (hrests : Rests e bal l.stored r.stored) :
    (node l x k h r).settleFromLeft e bal = some (node l x k (max l.stored r.stored + 1) r) := by
  obtain ⟨hrl, honly⟩ := hrests
  cases e with
  | key key => rw [settleFromLeft, settleLeft_stored hbal hl hr, if_neg (not_lt.mpr hrl)]
  | min => exact settleLm_stored hl hr hrl honly
  | max => exact settleLm_stored hl hr hrl honly

omit [LinearOrder κ] in
theorem settleFromRight_rests (hbal : 0 ≤ bal) (hl : l.PosHeights) (hr : r.PosHeights)
    (hrests : Rests e bal r.stored l.stored) :
    (node l x k h r).settleFromRight e bal = some (node l x k (max l.stored r.stored + 1) r) := by
  rw [← stored_mirror l, ← stored_mirror r] at hrests
  have hleft := settleFromLeft_rests (x := x) (k := k) (h := h) hbal ((posHeights_mirror r).mpr hr)
    ((posHeights_mirror l).mpr hl) hrests
  rw [← mirror_node, settleFromLeft_mirror, Option.map_eq_some_iff] at hleft
  obtain ⟨t, heq, hmirror⟩ := hleft
  rw [stored_mirror, stored_mirror, max_comm, ← mirror_node, mirror_inj] at hmirror
  rw [heq, hmirror]

omit [LinearOrder κ] in
/-- Where something is raised, a node is below the other side afterwards. -/
theorem settleLm_turns (hl : l.PosHeights) (hr : r.PosHeights) (hbal : 0 ≤ bal)
    (hturns : ¬(r.stored ≤ l.stored + bal ∧ (r.stored = 0 → l.stored ≤ bal)))
    (heq : settleLm bal (node l x k h r) = some t') :
    l.nodes.length < t'.left.nodes.length ∨ r.nodes.length < t'.right.nodes.length := by
  rw [not_and_or, Classical.not_imp, not_le, not_le] at hturns
  rcases l with _ | ⟨ll, y, ky, hy, lr⟩ <;> rcases r with _ | ⟨rl, z, kz, hz, rr⟩
  · simp only [stored_nil] at hturns
    omega
  · have hpos : 1 ≤ hz := hr.1
    simp only [stored_nil, stored_node] at hturns
    rw [settleLm, settleOnlyRight, if_pos (by omega)] at heq
    obtain ⟨s, -, heq⟩ := Option.bind_eq_some_iff.mp heq
    obtain rfl := Option.some.inj heq
    rw [left_setHeight]
    exact .inl (lt_left_raiseRight node_ne_nil)
  · have hpos : 1 ≤ hy := hl.1
    simp only [stored_nil, stored_node] at hturns
    rw [settleLm, settleOnlyLeft, if_pos (by omega)] at heq
    obtain ⟨s, -, heq⟩ := Option.bind_eq_some_iff.mp heq
    obtain rfl := Option.some.inj heq
    rw [right_setHeight]
    exact .inr (lt_right_raiseLeft node_ne_nil)
  · have hpos : 1 ≤ hz := hr.1
    simp only [stored_node] at hturns
    rw [settleLm, if_pos (by omega)] at heq
    obtain rfl := Option.some.inj heq
    rw [left_setHeight]
    exact .inl (lt_left_raiseRight node_ne_nil)

omit [LinearOrder κ] in
theorem settleFromLeft_turns (hbal : 0 ≤ bal) (hl : l.PosHeights) (hr : r.PosHeights)
    (hturns : ¬Rests e bal l.stored r.stored)
    (heq : (node l x k h r).settleFromLeft e bal = some t') :
    l.nodes.length < t'.left.nodes.length ∨ r.nodes.length < t'.right.nodes.length := by
  cases e with
  | key key =>
    have hhigh : l.stored + bal < r.stored := not_le.mp fun h => hturns ⟨h, trivial⟩
    have hne : r ≠ nil := by
      rintro rfl
      have hnonneg := hl.stored_nonneg
      rw [stored_nil] at hhigh
      omega
    rw [settleFromLeft, settleLeft_stored hbal hl hr, if_pos hhigh] at heq
    obtain rfl := Option.some.inj heq
    exact .inl (lt_left_raiseRight hne)
  | min => exact settleLm_turns hl hr hbal hturns heq
  | max => exact settleLm_turns hl hr hbal hturns heq

omit [LinearOrder κ] in
theorem settleFromRight_turns (hbal : 0 ≤ bal) (hl : l.PosHeights) (hr : r.PosHeights)
    (hturns : ¬Rests e bal r.stored l.stored)
    (heq : (node l x k h r).settleFromRight e bal = some t') :
    l.nodes.length < t'.left.nodes.length ∨ r.nodes.length < t'.right.nodes.length := by
  have hmirror := settleFromLeft_mirror e bal (node l x k h r)
  rw [heq, mirror_node] at hmirror
  rw [← stored_mirror l, ← stored_mirror r] at hturns
  have hleft := settleFromLeft_turns hbal ((posHeights_mirror r).mpr hr)
    ((posHeights_mirror l).mpr hl) hturns hmirror
  simpa only [left_mirror, right_mirror, nodes_mirror, List.length_reverse, or_comm] using hleft

/-! ## The place of a node -/

/-- What is below the node that is deleted. -/
def found (e : Removal κ) : AvlTree ν κ → AvlTree ν κ
  | nil => nil
  | node l x k h r =>
    match (node l x k h r).turnTo e with
    | .left => l.found e
    | .right => r.found e
    | .stop => node l x k h r

omit [LinearOrder κ] in
/-- The first node without its links. -/
def unlink : AvlTree ν κ → AvlTree ν κ
  | nil => nil
  | node _ x k h _ => node nil x k h nil

/-- The tree with another node in the place of the one that is deleted. -/
def swapAt (e : Removal κ) (y : ν) (key : κ) : AvlTree ν κ → AvlTree ν κ
  | nil => nil
  | node l x k h r =>
    match (node l x k h r).turnTo e with
    | .left => node (l.swapAt e y key) x k h r
    | .right => node l x k h (r.swapAt e y key)
    | .stop => node l y key h r

/-- The same with the heights above it taken anew. -/
def placed (e : Removal κ) (y : ν) (key : κ) : AvlTree ν κ → AvlTree ν κ
  | nil => nil
  | node l x k h r =>
    match (node l x k h r).turnTo e with
    | .left => node (l.placed e y key) x k (max (l.placed e y key).stored r.stored + 1) r
    | .right => node l x k (max l.stored (r.placed e y key).stored + 1) (r.placed e y key)
    | .stop => node l y key h r

/-- The height of the tree when the heights above the node are taken anew. -/
def retaken (e : Removal κ) : AvlTree ν κ → ℤ
  | nil => 0
  | node l x k h r =>
    match (node l x k h r).turnTo e with
    | .left => max (l.retaken e) r.stored + 1
    | .right => max l.stored (r.retaken e) + 1
    | .stop => h

/-- Nothing is raised above the node. -/
def StaysPut (e : Removal κ) (bal : ℤ) : AvlTree ν κ → Prop
  | nil => True
  | node l x k h r =>
    match (node l x k h r).turnTo e with
    | .left => l.StaysPut e bal ∧ Rests e bal (l.retaken e) r.stored
    | .right => r.StaysPut e bal ∧ Rests e bal (r.retaken e) l.stored
    | .stop => True

theorem stored_placed (t : AvlTree ν κ) : (t.placed e y key).stored = t.retaken e := by
  induction t with
  | nil => rfl
  | node l x k h r ihl ihr =>
    rw [placed, retaken, ← ihl, ← ihr]
    cases (node l x k h r).turnTo e <;> rfl

theorem shape_placed (t : AvlTree ν κ) : (t.placed e y key).shape = (t.swapAt e y key).shape := by
  induction t with
  | nil => rfl
  | node l x k h r ihl ihr =>
    rw [placed, swapAt]
    cases (node l x k h r).turnTo e with
    | left => exact congrArg (BinaryTree.node (x, k) · r.shape) ihl
    | right => exact congrArg (BinaryTree.node (x, k) l.shape) ihr
    | stop => rfl

theorem posHeights_placed (ht : t.PosHeights) : (t.placed e y key).PosHeights := by
  induction t with
  | nil => trivial
  | node l x k h r ihl ihr =>
    obtain ⟨hh, hl, hr⟩ := ht
    have hnonnegl := hl.stored_nonneg
    have hnonnegr := hr.stored_nonneg
    rw [placed]
    cases (node l x k h r).turnTo e with
    | left => exact posHeights_node.mpr ⟨by omega, ihl hl, hr⟩
    | right => exact posHeights_node.mpr ⟨by omega, hl, ihr hr⟩
    | stop => exact posHeights_node.mpr ⟨hh, hl, hr⟩

/-- In a good tree nothing is raised, whichever node is deleted. -/
theorem Good.staysPut (ht : Good bal t) (e : Removal κ) :
    t.StaysPut e bal ∧ t.retaken e = t.stored := by
  induction t with
  | nil => exact ⟨trivial, rfl⟩
  | node l x k h r ihl ihr =>
    obtain ⟨hh, ⟨hlr, hrl⟩, hl, hr⟩ := good_node_iff.mp ht
    obtain ⟨hstaysl, hretakenl⟩ := ihl hl
    obtain ⟨hstaysr, hretakenr⟩ := ihr hr
    rw [← hl.exact.stored, ← hr.exact.stored] at hh hlr hrl
    rw [StaysPut, retaken, hretakenl, hretakenr]
    cases (node l x k h r).turnTo e with
    | left => exact ⟨⟨hstaysl, rests_of_near hrl hlr⟩, hh.symm⟩
    | right => exact ⟨⟨hstaysr, rests_of_near hlr hrl⟩, hh.symm⟩
    | stop => exact ⟨trivial, rfl⟩

theorem placed_eq_nil_iff : t.placed e y key = nil ↔ t = nil := by
  cases t with
  | nil => rfl
  | node l x k h r =>
    rw [placed]
    cases (node l x k h r).turnTo e <;> simp

/-- The new node has the height of the one that is deleted. -/
theorem height?_found_placed (hkey : ∀ b, (t.found e).top = some b → b.2 = key) :
    ((t.placed e y key).found e).height? = (t.found e).height? := by
  induction t with
  | nil => rfl
  | node l x k h r ihl ihr =>
    rw [found] at hkey ⊢
    rw [placed]
    cases hturn : (node l x k h r).turnTo e with
    | left =>
      rw [hturn] at hkey
      have hturn' (h' : ℤ) : (node (l.placed e y key) x k h' r).turnTo e = .left := by
        rw [← hturn]
        exact turnTo_congr placed_eq_nil_iff Iff.rfl rfl
      simp only [found, hturn']
      exact ihl hkey
    | right =>
      rw [hturn] at hkey
      have hturn' (h' : ℤ) : (node l x k h' (r.placed e y key)).turnTo e = .right := by
        rw [← hturn]
        exact turnTo_congr Iff.rfl placed_eq_nil_iff rfl
      simp only [found, hturn']
      exact ihr hkey
    | stop =>
      rw [hturn] at hkey
      obtain rfl : k = key := hkey (x, k) rfl
      have hturn' : (node l y k h r).turnTo e = .stop := by
        rw [← hturn]
        exact turnTo_congr Iff.rfl Iff.rfl rfl
      simp only [found, hturn']
      rfl

/-- One node of the sequence is another one. -/
theorem nodes_swapAt {b : ν × κ} (y : ν) (key : κ) (hfound : (t.found e).top = some b) :
    ∃ as bs, t.nodes = as ++ b :: bs ∧ (t.swapAt e y key).nodes = as ++ (y, key) :: bs := by
  induction t with
  | nil => cases hfound
  | node l x k h r ihl ihr =>
    rw [found] at hfound
    rw [swapAt]
    cases hturn : (node l x k h r).turnTo e with
    | left =>
      rw [hturn] at hfound
      obtain ⟨as, bs, hl, hl'⟩ := ihl hfound
      refine ⟨as, bs ++ (x, k) :: r.nodes, ?_, ?_⟩
      · rw [nodes_node, hl, List.append_assoc, List.cons_append]
      · rw [nodes_node, hl', List.append_assoc, List.cons_append]
    | right =>
      rw [hturn] at hfound
      obtain ⟨as, bs, hr, hr'⟩ := ihr hfound
      refine ⟨l.nodes ++ (x, k) :: as, bs, ?_, ?_⟩
      · rw [nodes_node, hr, List.append_assoc, List.cons_append]
      · rw [nodes_node, hr', List.append_assoc, List.cons_append]
    | stop =>
      rw [hturn] at hfound
      obtain rfl : (x, k) = b := Option.some.inj hfound
      exact ⟨l.nodes, r.nodes, rfl, rfl⟩

omit [LinearOrder κ] in
theorem nodes_eq_of_shape (hshape : t.shape = t'.shape) : t.nodes = t'.nodes := by
  induction t generalizing t' with
  | nil =>
    cases t' with
    | nil => rfl
    | node => cases hshape
  | node l x k h r ihl ihr =>
    cases t' with
    | nil => cases hshape
    | node l' x' k' h' r' =>
      obtain ⟨hitem, hl, hr⟩ := BinaryTree.node.inj hshape
      rw [nodes_node, nodes_node, ihl hl, ihr hr, hitem]

omit [LinearOrder κ] in
theorem length_of_shape (hshape : t'.shape = (node l x k h r).shape) :
    t'.left.nodes.length = l.nodes.length ∧ t'.right.nodes.length = r.nodes.length := by
  cases t' with
  | nil => cases hshape
  | node l' x' k' h' r' =>
    obtain ⟨-, hl, hr⟩ := BinaryTree.node.inj hshape
    exact ⟨congrArg _ (nodes_eq_of_shape hl), congrArg _ (nodes_eq_of_shape hr)⟩

theorem length_swapAt (hfound : t.found e ≠ nil) :
    (t.swapAt e y key).nodes.length = t.nodes.length := by
  obtain ⟨b, hb⟩ : ∃ b, (t.found e).top = some b := by
    cases hnode : t.found e with
    | nil => exact (hfound hnode).elim
    | node => exact ⟨_, rfl⟩
  obtain ⟨as, bs, hnodes, hnodes'⟩ := nodes_swapAt y key hb
  rw [hnodes, hnodes', List.length_append, List.length_append, List.length_cons, List.length_cons]

/-! ## The deletion -/

/-- The number of nodes is kept. -/
theorem deleteAt_replaced {nl nr : AvlTree ν κ} {nh : ℤ} (ht : t.PosHeights)
    (heq : deleteAt e bal (some ⟨true, node nl y key nh nr⟩) t = some (t', d)) :
    t'.nodes.length = t.nodes.length ∧ t'.PosHeights := by
  induction t generalizing t' d with
  | nil =>
    obtain rfl : t' = nil := by cases e <;> cases heq <;> rfl
    exact ⟨rfl, trivial⟩
  | node l x k h r ihl ihr =>
    obtain ⟨hh, hl, hr⟩ := ht
    cases hturn : (node l x k h r).turnTo e with
    | left =>
      rw [deleteAt_left hturn] at heq
      obtain ⟨⟨l', d'⟩, hdel, heq⟩ := Option.bind_eq_some_iff.mp heq
      obtain ⟨u, hsettle, heq⟩ := Option.map_eq_some_iff.mp heq
      obtain ⟨rfl, -⟩ := Prod.mk.inj heq
      obtain ⟨hlen, hl'⟩ := ihl hl hdel
      have hsettled := settled_settleFromLeft hsettle
      refine ⟨?_, hsettled.pos ⟨hh, hl', hr⟩⟩
      rw [hsettled.nodes, nodes_node, nodes_node, List.length_append, List.length_append, hlen]
    | right =>
      rw [deleteAt_right hturn] at heq
      obtain ⟨⟨r', d'⟩, hdel, heq⟩ := Option.bind_eq_some_iff.mp heq
      obtain ⟨u, hsettle, heq⟩ := Option.map_eq_some_iff.mp heq
      obtain ⟨rfl, -⟩ := Prod.mk.inj heq
      obtain ⟨hlen, hr'⟩ := ihr hr hdel
      have hsettled := settled_settleFromRight hsettle
      refine ⟨?_, hsettled.pos ⟨hh, hl, hr'⟩⟩
      rw [hsettled.nodes, nodes_node, nodes_node, List.length_append, List.length_append,
        List.length_cons, List.length_cons, hlen]
    | stop =>
      rw [deleteAt_stop hturn rfl] at heq
      obtain ⟨rfl, -⟩ := Prod.mk.inj (Option.some.inj heq)
      refine ⟨?_, hh, hl, hr⟩
      rw [nodes_node, nodes_node, List.length_append, List.length_append, List.length_cons,
        List.length_cons]

/-- Where nothing is raised the new node is in the place of the one that is deleted. -/
theorem deleteAt_eq_placed {nl nr : AvlTree ν κ} {nh : ℤ} (hbal : 0 ≤ bal) (ht : t.PosHeights)
    (hfound : t.found e ≠ nil) (hstays : t.StaysPut e bal) :
    deleteAt e bal (some ⟨true, node nl y key nh nr⟩) t =
      some (t.placed e y key, (t.found e).unlink) := by
  induction t with
  | nil => exact (hfound rfl).elim
  | node l x k h r ihl ihr =>
    obtain ⟨-, hl, hr⟩ := ht
    rw [found] at hfound ⊢
    rw [StaysPut] at hstays
    rw [placed]
    cases hturn : (node l x k h r).turnTo e with
    | left =>
      rw [hturn] at hfound hstays
      obtain ⟨hstays, hrests⟩ := hstays
      rw [← @stored_placed _ _ _ e y key] at hrests
      rw [deleteAt_left hturn, ihl hl hfound hstays, Option.bind_some,
        settleFromLeft_rests hbal (posHeights_placed hl) hr hrests]
      rfl
    | right =>
      rw [hturn] at hfound hstays
      obtain ⟨hstays, hrests⟩ := hstays
      rw [← @stored_placed _ _ _ e y key] at hrests
      rw [deleteAt_right hturn, ihr hr hfound hstays, Option.bind_some,
        settleFromRight_rests hbal hl (posHeights_placed hr) hrests]
      rfl
    | stop => exact deleteAt_stop hturn rfl

/-- A node that is in its place was not raised and nothing above it was. -/
theorem staysPut_of_shape {nl nr : AvlTree ν κ} {nh : ℤ} (hbal : 0 ≤ bal) (ht : t.PosHeights)
    (hfound : t.found e ≠ nil)
    (heq : deleteAt e bal (some ⟨true, node nl y key nh nr⟩) t = some (t', d))
    (hshape : t'.shape = (t.swapAt e y key).shape) : t.StaysPut e bal := by
  induction t generalizing t' d with
  | nil => trivial
  | node l x k h r ihl ihr =>
    obtain ⟨-, hl, hr⟩ := ht
    rw [found] at hfound
    rw [swapAt] at hshape
    rw [StaysPut]
    cases hturn : (node l x k h r).turnTo e with
    | left =>
      rw [hturn] at hfound hshape
      rw [deleteAt_left hturn] at heq
      obtain ⟨⟨l', d'⟩, hdel, heq⟩ := Option.bind_eq_some_iff.mp heq
      obtain ⟨u, hsettle, heq⟩ := Option.map_eq_some_iff.mp heq
      obtain ⟨rfl, -⟩ := Prod.mk.inj heq
      obtain ⟨hlen, hl'⟩ := deleteAt_replaced hl hdel
      have hrests : Rests e bal l'.stored r.stored := by
        by_contra hturns
        obtain ⟨hlenl, hlenr⟩ := length_of_shape hshape
        rw [length_swapAt hfound] at hlenl
        have hturned := settleFromLeft_turns hbal hl' hr hturns hsettle
        omega
      rw [settleFromLeft_rests hbal hl' hr hrests] at hsettle
      obtain rfl := Option.some.inj hsettle
      have hstays := ihl hl hfound hdel (BinaryTree.node.inj hshape).2.1
      have hplaced := hdel.symm.trans (deleteAt_eq_placed hbal hl hfound hstays)
      obtain ⟨rfl, -⟩ := Prod.mk.inj (Option.some.inj hplaced)
      rw [stored_placed] at hrests
      exact ⟨hstays, hrests⟩
    | right =>
      rw [hturn] at hfound hshape
      rw [deleteAt_right hturn] at heq
      obtain ⟨⟨r', d'⟩, hdel, heq⟩ := Option.bind_eq_some_iff.mp heq
      obtain ⟨u, hsettle, heq⟩ := Option.map_eq_some_iff.mp heq
      obtain ⟨rfl, -⟩ := Prod.mk.inj heq
      obtain ⟨hlen, hr'⟩ := deleteAt_replaced hr hdel
      have hrests : Rests e bal r'.stored l.stored := by
        by_contra hturns
        obtain ⟨hlenl, hlenr⟩ := length_of_shape hshape
        rw [length_swapAt hfound] at hlenr
        have hturned := settleFromRight_turns hbal hl hr' hturns hsettle
        omega
      rw [settleFromRight_rests hbal hl hr' hrests] at hsettle
      obtain rfl := Option.some.inj hsettle
      have hstays := ihr hr hfound hdel (BinaryTree.node.inj hshape).2.2
      have hplaced := hdel.symm.trans (deleteAt_eq_placed hbal hr hfound hstays)
      obtain ⟨rfl, -⟩ := Prod.mk.inj (Option.some.inj hplaced)
      rw [stored_placed] at hrests
      exact ⟨hstays, hrests⟩
    | stop => trivial

end AvlTree
end MpegtsReader
