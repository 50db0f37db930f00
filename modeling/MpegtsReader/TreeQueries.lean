import Mathlib.Data.List.Nodup
import Mathlib.Data.List.Perm.Lattice
import Mathlib.Order.Lattice
import MpegtsReader.BaseTree
import MpegtsReader.Outline

/-!
# What a tree is asked

The functions of `utils/base_tree.c` that leave the tree alone, and `tree_deleteAll`. With a
printer, a tree is printed as its outline, and that is also what `tree_compare` compares
(`treeCompare_iff`); without one there are only tabs, and nothing between those of two nodes. A
result is `none` where `NULL` is dereferenced: a root is not, but `tree_min` and `tree_max` test the
child pointers with their tag bits, and the loops run into a `NULL` that is tagged.
-/

namespace MpegtsReader

open Outline

namespace BaseTree

variable {ν κ σ : Type}

/-- `compare_rc`. -/
def compareRc [DecidableEq κ] (key : ν → κ) : BaseTree ν → BaseTree ν → BitVec 32
  | null _, null _ => 0
  | node _ l x r, node _ l' x' r' =>
    let result := compareRc key l l' ||| compareRc key r r'
    result ||| if key x ≠ key x' then 1 else 0
  | _, _ => -1

/-- `calc_max_depth_rc`. -/
def calcMaxDepthRc : BaseTree ν → ℕ
  | null _ => 0
  | node _ l _ r =>
    let max := 0
    let temp := calcMaxDepthRc l
    let max := if max < temp then temp else max
    let temp := calcMaxDepthRc r
    let max := if max < temp then temp else max
    max + 1

/-- What is written: a tab, or what the printer makes of a node. -/
inductive Printed (ν : Type)
  | tab
  | item (x : ν)

/-- `print_tab`. -/
def printTab (cnt : ℕ) : List (Printed ν) := List.replicate cnt .tab

/-- `print_rc`. -/
def printRc (print : Bool) : BaseTree ν → ℕ → List (Printed ν)
  | null _, _ => []
  | node _ l x r, depth =>
    printRc print r (depth + 1) ++
      (printTab depth ++ if print then [.item x] else []) ++ printRc print l (depth + 1)

/-- `traverse_target_rc`: the order that comes next and the state of the callback. -/
def traverseTargetRc [LinearOrder κ] (key : ν → κ) (target : κ) (cb : TreeCallback ν σ) :
    BaseTree ν → ℕ → σ → ℕ × σ
  | null _, order, s => (order, s)
  | node _ l x r, order, s =>
    if key x > target then traverseTargetRc key target cb l order s
    else if key x < target then traverseTargetRc key target cb r order s
    else (order + 1, (cb order x s).2)

/-- `tree_min`: the loop. -/
def minLoop : BaseTree ν → Option ν
  | null _ => none
  | node _ (null false) x _ => some x
  | node _ (null true) _ _ => none
  | node _ (node b l y r) _ _ => minLoop (node b l y r)

/-- `tree_max`: the loop. -/
def maxLoop : BaseTree ν → Option ν
  | null _ => none
  | node _ _ x (null false) => some x
  | node _ _ _ (null true) => none
  | node _ _ _ (node b l y r) => maxLoop (node b l y r)

/-- What `delete_rc` does with a node: a pointer is read from it, or it is handed to `free_fn`, by
the pointer as it is. -/
inductive Event (ν : Type)
  | read (item : ν)
  | free (nptr : Bool) (item : ν)

/-- `delete_rc`. -/
def deleteRc : BaseTree ν → List (Event ν)
  | null _ => []
  | node b l x r => .read x :: deleteRc l ++ .read x :: deleteRc r ++ [.free b x]

end BaseTree

section Root

open BaseTree

variable {ν κ σ : Type}

/-- `tree_compare`. -/
def treeCompare [DecidableEq κ] (key : ν → κ) (arootp brootp : Option (BaseTree ν)) :
    BitVec 32 :=
  match arootp, brootp with
  | some a, some b => compareRc key a b
  | _, _ => -1

/-- `tree_max_depth`. -/
def treeMaxDepth : Option (BaseTree ν) → ℕ
  | none => 0
  | some entry => entry.calcMaxDepthRc

/-- `tree_print`, with a printer or without one. -/
def treePrint (rootp : Option (BaseTree ν)) (print : Bool) : List (Printed ν) :=
  match rootp with
  | none => []
  | some entry => entry.printRc print 0

/-- `tree_for_each_to_target`: the state of the callback. -/
def treeForEachToTarget [LinearOrder κ] (key : ν → κ) (rootp : Option (BaseTree ν))
    (cb : Option (TreeCallback ν σ)) (target : κ) (s : σ) : σ :=
  match cb, rootp with
  | some cb, some entry =>
    if entry.isNull then s else (entry.traverseTargetRc key target cb 0 s).2
  | _, _ => s

/-- `tree_is_empty`. The tag bit counts. -/
def treeIsEmpty : Option (BaseTree ν) → Bool
  | none => true
  | some (null nptr) => !nptr
  | some (node ..) => false

/-- `tree_min`: the node that is returned. -/
def treeMin : Option (BaseTree ν) → Option (Option ν)
  | none => some none
  | some entry => entry.minLoop.map some

/-- `tree_max`: the node that is returned. -/
def treeMax : Option (BaseTree ν) → Option (Option ν)
  | none => some none
  | some entry => entry.maxLoop.map some

/-- `tree_deleteAll`: the root and what is done with the nodes. Without a `free_fn` that is
nothing. -/
def treeDeleteAll (rootp : Option (BaseTree ν)) (freeFn : Bool) :
    Option (BaseTree ν × List (Event ν)) := do
  let entry ← rootp
  some (null false, if freeFn then entry.deleteRc else [])

end Root

namespace BaseTree

variable {ν κ σ : Type}

/-- The tree of the keys. -/
def keys (key : ν → κ) : BaseTree ν → BinaryTree κ
  | null _ => .nil
  | node _ l x r => .node (key x) (l.keys key) (r.keys key)

theorem keys_map {μ : Type} (f : ν → κ) (g : κ → μ) (t : BaseTree ν) :
    (t.keys f).map g = t.keys fun x => g (f x) := by
  induction t with
  | null b => rfl
  | node b l x r ihl ihr => rw [keys, BinaryTree.map, ihl, ihr, keys]

/-! ## Printing and comparing -/

/-- The lines, where this many tabs are written already. -/
def linesFrom (tabs : ℕ) : List (Printed ν) → List (ℕ × ν)
  | [] => []
  | .tab :: rest => linesFrom (tabs + 1) rest
  | .item x :: rest => (tabs, x) :: linesFrom 0 rest

/-- The nodes that are printed, each with the tabs before it. -/
def printedLines (printed : List (Printed ν)) : List (ℕ × ν) := linesFrom 0 printed

/-- A line. -/
def printLine (line : ℕ × ν) : List (Printed ν) := printTab line.1 ++ [.item line.2]

/-- Another node in the place of each. -/
def Printed.map {μ : Type} (f : ν → μ) : Printed ν → Printed μ
  | tab => tab
  | item x => item (f x)

theorem linesFrom_printTab (tabs cnt : ℕ) (x : ν) (rest : List (Printed ν)) :
    linesFrom tabs (printTab cnt ++ .item x :: rest) = (tabs + cnt, x) :: linesFrom 0 rest := by
  induction cnt generalizing tabs with
  | zero => rfl
  | succ cnt ih =>
    rw [printTab, List.replicate_succ, List.cons_append, linesFrom, ← printTab, ih,
      Nat.add_assoc, Nat.add_comm 1 cnt]

/-- The lines are read off what is printed. -/
theorem printedLines_flatMap (lines : List (ℕ × ν)) :
    printedLines (lines.flatMap printLine) = lines := by
  induction lines with
  | nil => rfl
  | cons line lines ih =>
    rw [printedLines] at ih
    rw [List.flatMap_cons, printLine, List.append_assoc, List.singleton_append, printedLines,
      linesFrom_printTab, ih, Nat.zero_add]

/-- With a printer, the lines of the outline are printed. -/
theorem map_printRc (key : ν → κ) (t : BaseTree ν) (d : ℕ) :
    (t.printRc true d).map (Printed.map key) = (outline (t.keys key) d).flatMap printLine := by
  induction t generalizing d with
  | null b => rfl
  | node b l x r ihl ihr =>
    have htabs : (printTab d : List (Printed ν)).map (Printed.map key) = printTab d :=
      List.map_replicate
    rw [printRc, keys, outline, List.map_append, List.map_append, ihl, ihr, List.map_append, htabs,
      List.flatMap_append, List.flatMap_cons, List.append_assoc]
    rfl

theorem printedLines_treePrint (t : BaseTree ν) :
    printedLines (treePrint (some t) true) = outline (t.keys id) 0 := by
  have hprint : treePrint (some t) true = (outline (t.keys id) 0).flatMap printLine := by
    rw [← map_printRc id t 0]
    have hid : (Printed.map id : Printed ν → Printed ν) = id := by
      funext x
      cases x <;> rfl
    rw [hid, List.map_id, treePrint]
  rw [hprint, printedLines_flatMap]

theorem calcMaxDepthRc_eq (key : ν → κ) (t : BaseTree ν) :
    t.calcMaxDepthRc = (t.keys key).height := by
  induction t with
  | null b => rfl
  | node b l x r ihl ihr =>
    rw [calcMaxDepthRc, keys, BinaryTree.height, ihl, ihr]
    split_ifs <;> omega

/-- What is printed, and in which order. -/
theorem map_snd_printedLines (t : BaseTree ν) :
    (printedLines (treePrint (some t) true)).map Prod.snd = t.inorder.reverse := by
  have houtline : ∀ (t : BaseTree ν) (d : ℕ),
      (outline (t.keys id) d).map Prod.snd = t.inorder.reverse := by
    intro t d
    induction t generalizing d with
    | null b => rfl
    | node b l x r ihl ihr =>
      rw [keys, outline, inorder, List.map_append, List.map_cons, ihl, ihr, List.reverse_append,
        List.reverse_cons, List.append_assoc]
      rfl
  rw [printedLines_treePrint, houtline]

/-- The tabs before the nodes go up to the depth of the tree. -/
theorem treePrint_depth (t : BaseTree ν) :
    (∀ a ∈ printedLines (treePrint (some t) true), a.1 < treeMaxDepth (some t)) ∧
    (t.isNull = false →
      ∃ a ∈ printedLines (treePrint (some t) true), a.1 + 1 = treeMaxDepth (some t)) := by
  have hdepth : treeMaxDepth (some t) = (t.keys id).height := calcMaxDepthRc_eq _ t
  rw [printedLines_treePrint, hdepth]
  constructor
  · intro a ha
    have := depth_of_mem_outline ha
    omega
  · intro hnull
    have hne : t.keys id ≠ .nil := by
      cases t with
      | null b => cases hnull
      | node b l x r => simp [keys]
    obtain ⟨a, ha, heq⟩ := exists_mem_outline hne 0
    exact ⟨a, ha, by omega⟩

/-- The verdict of a comparison. -/
def verdict (sameShape sameKeys : Prop) [Decidable sameShape] [Decidable sameKeys] : BitVec 32 :=
  if sameShape then if sameKeys then 0 else 1 else -1

/-- The verdict on two parts is that on both. -/
theorem verdict_or {p q p' q' : Prop} [Decidable p] [Decidable q] [Decidable p'] [Decidable q'] :
    verdict p q ||| verdict p' q' = verdict (p ∧ p') (q ∧ q') := by
  unfold verdict
  by_cases p <;> by_cases p' <;> by_cases q <;> by_cases q' <;> simp [*]

theorem compareRc_eq [DecidableEq κ] (key : ν → κ) (t u : BaseTree ν) :
    compareRc key t u =
      verdict (shape (t.keys key) = shape (u.keys key)) (t.keys key = u.keys key) := by
  induction t generalizing u with
  | null b =>
    cases u with
    | null b' => rfl
    | node b' l' x' r' => rfl
  | node b l x r ihl ihr =>
    cases u with
    | null b' => rfl
    | node b' l' x' r' =>
      have hroot : (if key x ≠ key x' then 1 else 0 : BitVec 32) =
          verdict True (key x = key x') := by
        rw [ite_not]
        rfl
      rw [compareRc, ihl, ihr, hroot, verdict_or, verdict_or]
      congr 1
      · simp only [keys, shape, BinaryTree.map, BinaryTree.node.injEq, true_and, and_true]
      · simp only [keys, BinaryTree.node.injEq, and_comm]

/-- The tabs before the nodes tell the shape of the tree. -/
theorem map_fst_outline {t u : BinaryTree κ} :
    (outline t 0).map Prod.fst = (outline u 0).map Prod.fst ↔ shape t = shape u := by
  have hshape : ∀ t : BinaryTree κ,
      (outline t 0).map Prod.fst = (outline (shape t) 0).map Prod.fst := by
    intro t
    rw [shape, outline_map, List.map_map]
    rfl
  have hfst : Function.Injective (Prod.fst : ℕ × Unit → ℕ) := fun _ _ h => Prod.ext h rfl
  rw [hshape, hshape, (List.map_injective_iff.mpr hfst).eq_iff, outline_inj]

/-- **Comparing and printing.** With a printer, two trees compare as 0 exactly when they are printed
the same, up to nodes with the same key, and as -1 exactly when not even the tabs before the nodes
are the same. -/
theorem treeCompare_iff [DecidableEq κ] (key : ν → κ) (t u : BaseTree ν) :
    (treeCompare key (some t) (some u) = 0 ↔
      (treePrint (some t) true).map (Printed.map key) =
        (treePrint (some u) true).map (Printed.map key)) ∧
    (treeCompare key (some t) (some u) = -1 ↔
      (printedLines (treePrint (some t) true)).map Prod.fst ≠
        (printedLines (treePrint (some u) true)).map Prod.fst) ∧
    (treeCompare key (some t) (some u) = 0 ∨ treeCompare key (some t) (some u) = 1 ∨
      treeCompare key (some t) (some u) = -1) := by
  have hprinted : (treePrint (some t) true).map (Printed.map key) =
      (treePrint (some u) true).map (Printed.map key) ↔ t.keys key = u.keys key := by
    rw [treePrint, treePrint, map_printRc, map_printRc, ← outline_inj (d := 0)]
    refine ⟨fun h => ?_, fun h => by rw [h]⟩
    have hlines := congrArg printedLines h
    rwa [printedLines_flatMap, printedLines_flatMap] at hlines
  have htabs : (printedLines (treePrint (some t) true)).map Prod.fst =
      (printedLines (treePrint (some u) true)).map Prod.fst ↔
        shape (t.keys key) = shape (u.keys key) := by
    have hshape : ∀ t : BaseTree ν, shape (t.keys id) = shape (t.keys key) := by
      intro t
      rw [shape, shape, keys_map, keys_map]
    rw [printedLines_treePrint, printedLines_treePrint, map_fst_outline, hshape, hshape]
  rw [hprinted, ne_eq, htabs, treeCompare, compareRc_eq, verdict]
  by_cases hshape : shape (t.keys key) = shape (u.keys key)
  · by_cases hkeys : t.keys key = u.keys key <;> simp [hshape, hkeys]
  · have hkeys : t.keys key ≠ u.keys key := fun h => hshape (by rw [h])
    simp [hshape, hkeys]

/-! ## The ends -/

/-- The `NULL` pointer at the left end has its tag bit set. -/
def leftTagged : BaseTree ν → Bool
  | null nptr => nptr
  | node _ l _ _ => l.leftTagged

theorem head?_inorder_node {b : Bool} {l r : BaseTree ν} {x : ν} (hl : l.isNull = false) :
    (node b l x r).inorder.head? = l.inorder.head? := by
  cases l with
  | null b' => cases hl
  | node b' l' y r' =>
    rw [inorder, List.head?_append]
    cases hhead : (node b' l' y r').inorder.head? with
    | some z => rfl
    | none =>
      rw [List.head?_eq_none_iff, inorder] at hhead
      exact absurd hhead (by simp)

/-- `tree_min` finds the first node, unless it runs into a `NULL`. -/
theorem minLoop_eq (t : BaseTree ν) :
    t.minLoop = if t.isNull || t.leftTagged then none else t.inorder.head? := by
  induction t with
  | null b => rfl
  | node b l x r ihl ihr =>
    cases l with
    | null b' => cases b' <;> rfl
    | node b' l' y r' =>
      have hhead : (node b (node b' l' y r') x r).inorder.head? = (node b' l' y r').inorder.head? :=
        head?_inorder_node rfl
      rw [minLoop, ihl, hhead]
      rfl

/-- `tree_max` is `tree_min` in the mirror. -/
theorem maxLoop_eq_mirror (t : BaseTree ν) : t.maxLoop = t.mirror.minLoop := by
  induction t with
  | null b => rfl
  | node b l x r ihl ihr =>
    cases r with
    | null b' => cases b' <;> rfl
    | node b' l' y r' =>
      rw [maxLoop, ihr]
      rfl

/-! ## Deleting -/

namespace Event

/-- The node that it is about. -/
def item : Event ν → ν
  | read x | free _ x => x

/-- The node that is handed to `free_fn`. -/
def freed : Event ν → Option ν
  | read _ => none
  | free _ x => some x

/-- What comes later has to do with another node than the one that is freed. -/
def Before (e e' : Event ν) : Prop := ∀ x, e.freed = some x → e'.item ≠ x

theorem before_read (x : ν) (e : Event ν) : (read x).Before e := nofun

theorem item_of_freed {e : Event ν} {x : ν} (h : e.freed = some x) : e.item = x := by
  cases e with
  | read y => cases h
  | free b y => exact Option.some.inj h

end Event

theorem item_mem_of_mem_deleteRc {t : BaseTree ν} {e : Event ν} (he : e ∈ t.deleteRc) :
    e.item ∈ t.inorder := by
  induction t with
  | null b => cases he
  | node b l x r ihl ihr =>
    rw [deleteRc, List.mem_append, List.mem_append, List.mem_cons, List.mem_cons,
      List.mem_singleton] at he
    rw [inorder, List.mem_append, List.mem_cons]
    rcases he with ((rfl | hl) | rfl | hr) | rfl
    · exact .inr (.inl rfl)
    · exact .inl (ihl hl)
    · exact .inr (.inl rfl)
    · exact .inr (.inr (ihr hr))
    · exact .inr (.inl rfl)

/-- Every node is freed once. -/
theorem perm_freed_deleteRc (t : BaseTree ν) :
    (t.deleteRc.filterMap Event.freed).Perm t.inorder := by
  induction t with
  | null b => exact .nil
  | node b l x r ihl ihr =>
    have hfreed : (node b l x r).deleteRc.filterMap Event.freed =
        l.deleteRc.filterMap Event.freed ++ r.deleteRc.filterMap Event.freed ++ [x] := by
      simp only [deleteRc, List.filterMap_append, List.filterMap_cons, List.filterMap_nil,
        Event.freed]
    rw [hfreed, inorder, List.append_assoc]
    exact ihl.append ((List.perm_append_singleton x _).trans (ihr.cons x))

/-- A node is not touched any more once it is freed. -/
theorem pairwise_deleteRc {t : BaseTree ν} (ht : t.inorder.Nodup) :
    t.deleteRc.Pairwise Event.Before := by
  induction t with
  | null b => exact .nil
  | node b l x r ihl ihr =>
    rw [inorder] at ht
    obtain ⟨hl, hxr, hapart⟩ := List.nodup_append.mp ht
    obtain ⟨hx, hr⟩ := List.nodup_cons.mp hxr
    -- the nodes of the left subtree are freed, and then come other nodes
    have hleft : ∀ e ∈ l.deleteRc, ∀ e' : Event ν, e'.item ∈ x :: r.inorder → e.Before e' := by
      intro e he e' he' y hy
      exact (hapart y (Event.item_of_freed hy ▸ item_mem_of_mem_deleteRc he) e'.item he').symm
    have hright : ∀ e ∈ r.deleteRc, e.Before (.free b x) := by
      intro e he y hy hxy
      have hmem : y ∈ r.inorder := Event.item_of_freed hy ▸ item_mem_of_mem_deleteRc he
      obtain rfl : x = y := hxy
      exact hx hmem
    rw [deleteRc, List.append_assoc, List.cons_append, List.pairwise_cons, List.pairwise_append,
      List.cons_append, List.pairwise_cons, List.pairwise_append]
    refine ⟨fun e _ => Event.before_read x e, ihl hl, ⟨fun e _ => Event.before_read x e, ihr hr,
      List.pairwise_singleton .., fun e he e' he' => ?_⟩, fun e he e' he' => hleft e he e' ?_⟩
    · rw [List.mem_singleton.mp he']
      exact hright e he
    · rw [List.mem_cons, List.mem_append, List.mem_singleton] at he'
      rcases he' with rfl | hr' | rfl
      · exact List.mem_cons_self
      · exact List.mem_cons_of_mem _ (item_mem_of_mem_deleteRc hr')
      · exact List.mem_cons_self

/-- `tree_deleteAll` hands each node to `free_fn` once, and touches it no more. -/
theorem exists_treeDeleteAll {t : BaseTree ν} (ht : t.inorder.Nodup) :
    ∃ events, treeDeleteAll (some t) true = some (null false, events) ∧
      (events.filterMap Event.freed).Perm t.inorder ∧ events.Pairwise Event.Before :=
  ⟨t.deleteRc, rfl, perm_freed_deleteRc t, pairwise_deleteRc ht⟩

end BaseTree

end MpegtsReader
