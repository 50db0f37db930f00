import MpegtsReader.AvlBag
import MpegtsReader.AvlHeapEnds
import MpegtsReader.AvlHeapInsert
import MpegtsReader.Simulation

/-!
# Runs of an AVL tree in memory

From the initialisation on, whatever is in memory, the operations on pointers do what the operations
on trees do (`memory_simulates`): they return pointers to the same nodes, with the same contents.
The nodes of others are as before.
-/

namespace MpegtsReader

open OrderedBag Simulation

/-- A call from outside. -/
inductive AvlCall (α κ : Type)
  | change (op : Op (α × κ) κ)
  | lookup (key : κ)

namespace AvlHeap

open AvlTree

variable {α κ : Type} [LinearOrder κ] {h : AvlHeap α κ} {p : Option α} {t : AvlTree α κ} {key : κ}
  {fuel : ℕ}

theorem lookup_eq (ht : Holds h p t) (hfuel : t.items.length < fuel) :
    lookup key h fuel p = some (t.lookup key).pointer := by
  induction t generalizing p fuel with
  | nil =>
    obtain ⟨fuel, rfl⟩ := Nat.exists_eq_add_one_of_ne_zero (Nat.ne_zero_of_lt hfuel)
    obtain rfl := ht
    rfl
  | node l c k v r ihl ihr =>
    obtain ⟨fuel, rfl⟩ := Nat.exists_eq_add_one_of_ne_zero (Nat.ne_zero_of_lt hfuel)
    obtain rfl := ht.1
    simp only [lookup, AvlTree.lookup, ht.key_eq]
    split_ifs
    · exact ihl ht.left (length_left_lt hfuel)
    · exact ihr ht.right (length_right_lt hfuel)
    · rfl

/-- A lookup is the search in a subtree. -/
theorem shows_lookup (ht : Holds h p t) : Shows h (t.lookup key) := by
  induction t generalizing p with
  | nil => trivial
  | node l c k v r ihl ihr =>
    obtain rfl := ht.1
    unfold AvlTree.lookup
    split_ifs
    · exact ihl ht.left
    · exact ihr ht.right
    · exact ht.shows

end AvlHeap

section Runs

open AvlTree AvlHeap

variable {α κ : Type} [DecidableEq α] [LinearOrder κ] {m : AvlMemory α κ} {root : AvlRoot α κ}
  {factor : UInt8} {h : AvlHeap α κ} {others : Set α} {c : AvlCall α κ} {bal : ℤ}

/-- A call on trees: the tree, and the node that is returned. -/
def avlCall (root : AvlRoot α κ) : AvlCall α κ → Option (AvlRoot α κ × AvlTree α κ)
  | .change op => avlStep root op
  | .lookup key => some (root, cdslAvltreeLookup root key)

/-- A call in memory: the pointer that is returned. An item that is inserted is freshly
initialised. -/
def AvlMemory.call (fuel : ℕ) (m : AvlMemory α κ) :
    AvlCall α κ → Option (AvlMemory α κ × Option α)
  | .change (.insert (item, key) isSet) =>
    (m.cdslAvltreeNodeInit item key).cdslAvltreeInsert fuel item isSet
  | .change (.delete key) => m.cdslAvltreeDelete fuel key
  | .change .deleteMin => m.cdslAvltreeDeleteMin fuel
  | .change .deleteMax => m.cdslAvltreeDeleteMax fuel
  | .lookup key => (m.cdslAvltreeLookup fuel key).map (m, ·)

/-- A call in memory: the pointer that is returned, and the node that it points to then. -/
def memoryStep (fuel : ℕ) (m : AvlMemory α κ) (c : AvlCall α κ) :
    Option (AvlMemory α κ × Option (α × AvlCell α κ)) :=
  (m.call fuel c).map fun r => (r.1, r.2.map fun a => (a, r.1.heap.cell a))

/-- The tree after a call. -/
def applyAvl (root : AvlRoot α κ) (c : AvlCall α κ) : AvlRoot α κ :=
  ((avlCall root c).map Prod.fst).getD root

/-- The first node, as it is in memory. -/
def AvlTree.cell? : AvlTree α κ → Option (α × AvlCell α κ)
  | nil => none
  | node l x k v r => some (x, ⟨l.pointer, r.pointer, k, v⟩)

/-- The node that a call returns. -/
def returnsAvl (root : AvlRoot α κ) (c : AvlCall α κ) : Option (α × AvlCell α κ) :=
  (avlCall root c).bind fun r => r.2.cell?

/-- A node that is inserted is neither in the tree nor one of the others. -/
def Spares (others : Set α) (root : AvlRoot α κ) (c : AvlCall α κ) : Prop :=
  ∀ op, c = .change op → Fresh root op ∧ ∀ item isSet, op = .insert item isSet → item.1 ∉ others

/-- The tree is in memory, and the others are as they were in `h`. -/
structure InMemory (bal : ℤ) (h : AvlHeap α κ) (others : Set α) (m : AvlMemory α κ)
    (root : AvlRoot α κ) : Prop where
  inv : AvlInv bal root
  factor : m.balanceFactor = root.balanceFactor
  holds : Holds m.heap m.entry root.entry
  apart : ∀ a ∈ root.entry.items, a ∉ others
  kept : ∀ a ∈ others, m.heap.cell a = h.cell a

omit [DecidableEq α] [LinearOrder κ] in
theorem cell?_eq {d : AvlTree α κ} (hd : Shows h d) :
    d.pointer.map (fun a => (a, h.cell a)) = d.cell? := by
  cases d with
  | nil => rfl
  | node l x k v r => exact congrArg (fun b => some (x, b)) hd

omit [DecidableEq α] in
theorem exists_avlStep_inv {op : Op (α × κ) κ} (hbal : 1 ≤ bal) (hinv : AvlInv bal root)
    (hfresh : Fresh root op) : ∃ root' d, avlStep root op = some (root', d) ∧ AvlInv bal root' := by
  obtain ⟨root', d, heq, heffect, hfactor, hin, hlow⟩ := exists_avlStep hbal hinv op
  exact ⟨root', d, heq, hfactor, hin, hlow, heffect.nodup_map hfresh hinv.once⟩

/-- What a call in memory has to come to. -/
theorem stepSimulates_of_makes (m' : AvlMemory α κ) {root' : AvlRoot α κ} {d : AvlTree α κ}
    {S : List α} (hrel : InMemory bal h others m root)
    (hstep : avlCall root c = some (root', d)) (hinv : AvlInv bal root')
    (hcall : ∀ fuel > root.entry.items.length, m.call fuel c = some (m', d.pointer))
    (hfactor : m'.balanceFactor = m.balanceFactor)
    (hmakes : Makes m.heap m'.heap S m'.entry root'.entry) (hshown : Shows m'.heap d)
    (hS : ∀ a ∈ S, a ∉ others) :
    StepSimulates memoryStep applyAvl returnsAvl (InMemory bal h others) m root c := by
  refine ⟨root.entry.items.length, m', fun fuel hfuel => ?_, ?_⟩
  · rw [memoryStep, hcall fuel hfuel, returnsAvl, hstep]
    exact congrArg (fun r => some (m', r)) (cell?_eq hshown)
  · rw [applyAvl, hstep]
    refine ⟨hinv, ?_, hmakes.holds, fun a ha => hS a (hmakes.sub a ha), fun a ha => ?_⟩
    · exact (hfactor.trans hrel.factor).trans (hrel.inv.factor.trans hinv.factor.symm)
    · exact (hmakes.frame a fun hmem => hS a hmem ha).trans (hrel.kept a ha)

/-- A deletion in memory, given that of the tree. -/
theorem stepSimulates_delete {op : Op (α × κ) κ} {delete : Option (AvlTree α κ × AvlTree α κ)}
    (deleteHeap : ℕ → Option (AvlHeap α κ × Option α × Option α)) (hbal : 1 ≤ bal)
    (hrel : InMemory bal h others m root) (hfresh : Fresh root op)
    (htree : avlStep root op = delete.bind fun r => some ({ root with entry := r.1 }, r.2))
    (hmem : ∀ fuel, m.call fuel (.change op) =
      (deleteHeap fuel).bind fun r => some ({ m with heap := r.1, entry := r.2.1 }, r.2.2))
    (hdelete : ∀ t d, delete = some (t, d) → ∃ h' p',
      (∀ fuel > root.entry.items.length, deleteHeap fuel = some (h', p', d.pointer)) ∧
      Yields m.heap h' root.entry.items p' t d) :
    StepSimulates memoryStep applyAvl returnsAvl (InMemory bal h others) m root (.change op) := by
  obtain ⟨root', d, hstep, hinv⟩ := exists_avlStep_inv hbal hrel.inv hfresh
  obtain ⟨⟨t, d'⟩, heq, hres⟩ := Option.bind_eq_some_iff.mp (htree.symm.trans hstep)
  cases hres
  obtain ⟨h', p', hheap, hyields⟩ := hdelete t d' heq
  refine stepSimulates_of_makes { m with heap := h', entry := p' } hrel hstep hinv
    (fun fuel hfuel => ?_) rfl hyields.toMakes hyields.shown hrel.apart
  rw [hmem, hheap fuel hfuel]
  rfl

theorem stepSimulates_insert {item : α} {key : κ} {isSet : Bool} (hbal : 1 ≤ bal)
    (hrel : InMemory bal h others m root) (hfresh : Fresh root (.insert (item, key) isSet))
    (hnode : item ∉ others) :
    StepSimulates memoryStep applyAvl returnsAvl (InMemory bal h others) m root
      (.change (.insert (item, key) isSet)) := by
  have hout : item ∉ root.entry.items := hfresh _ _ rfl
  obtain ⟨root', d, hstep, hinv⟩ := exists_avlStep_inv hbal hrel.inv hfresh
  obtain ⟨⟨entry, dir, d'⟩, hinsert, hres⟩ := Option.bind_eq_some_iff.mp hstep
  cases hres
  rw [← hrel.factor] at hinsert
  -- the initialisation of the item is a store outside the tree
  have hinit : ∀ a, a ≠ item → (m.heap.cdslAvltreeNodeInit item key).cell a = m.heap.cell a :=
    fun a ha => by rw [AvlHeap.cdslAvltreeNodeInit, cell_set, if_neg ha]
  have hitem : (m.heap.cdslAvltreeNodeInit item key).cell item = ⟨none, none, key, 0⟩ := by
    rw [AvlHeap.cdslAvltreeNodeInit, cell_set, if_pos rfl]
  have hholds : Holds (m.heap.cdslAvltreeNodeInit item key) m.entry root.entry :=
    hrel.holds.congr fun a ha => hinit a fun heq => hout (heq ▸ ha)
  obtain ⟨h', p', hheap, hyields⟩ := exists_insertRc hitem hholds hout hinsert
  have hmakes : Makes m.heap h' (item :: root.entry.items) p' entry :=
    ⟨hyields.holds, hyields.sub, fun a ha =>
      (hyields.frame a ha).trans (hinit a fun heq => ha (heq ▸ List.mem_cons_self))⟩
  refine stepSimulates_of_makes { m with heap := h', entry := p' } hrel hstep hinv
    (fun fuel hfuel => ?_) rfl hmakes hyields.shown ?_
  · simp [AvlMemory.call, AvlMemory.cdslAvltreeInsert, AvlMemory.cdslAvltreeNodeInit,
      hheap fuel hfuel]
  · exact List.forall_mem_cons.mpr ⟨hnode, hrel.apart⟩

/-- **One call.** -/
theorem stepSimulates (hbal : 1 ≤ bal) (hrel : InMemory bal h others m root)
    (hok : Spares others root c) :
    StepSimulates memoryStep applyAvl returnsAvl (InMemory bal h others) m root c := by
  have hfactor := hrel.factor
  cases c with
  | lookup key =>
    refine stepSimulates_of_makes m hrel rfl hrel.inv (fun fuel hfuel => ?_) rfl hrel.holds.makes
      (shows_lookup hrel.holds) hrel.apart
    exact congrArg (Option.map (m, ·)) (lookup_eq hrel.holds hfuel)
  | change op =>
    obtain ⟨hfresh, hnew⟩ := hok op rfl
    cases op with
    | insert item isSet => exact stepSimulates_insert hbal hrel hfresh (hnew _ _ rfl)
    | delete key =>
      refine stepSimulates_delete
        (fun fuel => AvlHeap.deleteRc m.balanceFactor key fuel m.heap m.entry)
        hbal hrel hfresh rfl (fun _ => rfl) fun t d heq => ?_
      rw [← hfactor] at heq
      exact exists_deleteRc hrel.holds heq
    | deleteMin =>
      refine stepSimulates_delete
        (fun fuel => AvlHeap.deleteLmRc m.balanceFactor fuel m.heap m.entry none)
        hbal hrel hfresh rfl (fun _ => rfl) fun t d heq => ?_
      rw [← hfactor] at heq
      exact exists_deleteLmRc hrel.holds heq
    | deleteMax =>
      refine stepSimulates_delete
        (fun fuel => AvlHeap.deleteRmRc m.balanceFactor fuel m.heap m.entry none)
        hbal hrel hfresh rfl (fun _ => rfl) fun t d heq => ?_
      rw [← hfactor] at heq
      exact exists_deleteRmRc hrel.holds heq

/-- **The tree in memory.** From the initialisation on with a balance factor that is not 0, every
call on trees has a result, and the same calls on pointers, whatever is in memory, return pointers
to the same nodes with the same contents: after them the tree is in memory, each of its nodes once,
and other nodes are as they were. -/
theorem memory_simulates (hfactor : factor ≠ 0) (h : AvlHeap α κ) (others : Set α)
    {calls : List (AvlCall α κ)}
    (hcalls : EachTime applyAvl (Spares others) (cdslAvltreeRootInit factor) calls) :
    EachTime applyAvl (fun root c => (avlCall root c).isSome) (cdslAvltreeRootInit factor) calls ∧
      Simulates memoryStep applyAvl returnsAvl (InMemory factor.toNat h others)
        (AvlMemory.cdslAvltreeRootInit h factor) (cdslAvltreeRootInit factor) calls := by
  have hbal := one_le_factor hfactor
  have hinit : AvlInv factor.toNat (cdslAvltreeRootInit factor : AvlRoot α κ) :=
    ⟨rfl, .nil, trivial, Multiset.nodup_zero⟩
  refine ⟨?_, simulates_of_eachTime (fun m root c => stepSimulates hbal)
    ⟨hinit, rfl, rfl, nofun, fun _ _ => rfl⟩ hcalls⟩
  refine hcalls.of_invariant (I := AvlInv factor.toNat) (fun root c hinv hok => ?_) hinit
  cases c with
  | lookup key => exact ⟨hinv, rfl⟩
  | change op =>
    obtain ⟨root', d, hstep, hinv'⟩ := exists_avlStep_inv hbal hinv (hok op rfl).1
    rw [applyAvl, avlCall, hstep]
    exact ⟨hinv', rfl⟩

/-- Three insertions, the last of which replaces a node, a lookup and two deletions, beside a node
of others. -/
theorem memory_simulates_sixCalls :
    ∃ calls : List (AvlCall ℕ ℕ), calls = [.change (.insert (1, 10) false),
        .change (.insert (2, 5) false), .change (.insert (3, 10) true), .lookup 5,
        .change .deleteMin, .change (.delete 10)] ∧
      EachTime applyAvl (fun root c => (avlCall root c).isSome) (cdslAvltreeRootInit 1) calls ∧
      Simulates memoryStep applyAvl returnsAvl
        (InMemory (1 : UInt8).toNat ⟨fun _ => ⟨none, none, 0, 0⟩⟩ {9})
        (AvlMemory.cdslAvltreeRootInit ⟨fun _ => ⟨none, none, 0, 0⟩⟩ 1) (cdslAvltreeRootInit 1)
        calls := by
  refine ⟨_, rfl, memory_simulates (by decide) ⟨fun _ => ⟨none, none, 0, 0⟩⟩ {9}
    ⟨?_, ?_, ?_, ?_, ?_, ?_, trivial⟩⟩
  all_goals rintro _ ⟨⟩
  all_goals refine ⟨?_, ?_⟩
  all_goals rintro _ _ ⟨⟩
  all_goals decide

end Runs

end MpegtsReader
