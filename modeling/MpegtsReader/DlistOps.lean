import MpegtsReader.DlistRow

/-!
# Runs of list operations

`DlistOp` are the operations on the list of one entry, and `DlistOp.apply` what each makes of a
sequence. `DlistHolds.step` is the simulation: an operation succeeds, returns the node that the
sequence returns and leaves the list with the nodes of the new sequence; `DlistOp.tailAfter` is what
it leaves in the tail. It needs the last node in the tail for a list that is not empty, and nothing
of the tail of an empty list but where `cdsl_dlistRemoveTail` reads it.
-/

namespace MpegtsReader

namespace Dlist

open Links

/-- The operations on a list. The loop of `cdsl_dlistEnqueuePriority` has fuel. -/
inductive DlistOp (α : Type)
  | putHead (item : α)
  | putTail (item : α)
  | enqueuePriority (item : α) (rule : α → α → Option α) (fuel : ℕ)
  | insertAfter (ahead item : α)
  | dequeue
  | removeHead
  | removeTail
  | remove (item : α)
  | replace (old nu : α)

variable {α : Type} [DecidableEq α]

/-- One operation on the list at `e`, and the node that it returns. -/
def dlistStep (e : α) (h : Links α) : DlistOp α → Option (Links α × Option α)
  | .putHead item => (cdslDlistPutHead h (some e) (some item)).map (·, none)
  | .putTail item => (cdslDlistPutTail h (some e) (some item)).map (·, none)
  | .enqueuePriority item rule fuel =>
    (cdslDlistEnqueuePriority fuel h (some e) (some item) rule).map (·, none)
  | .insertAfter ahead item => some (cdslDlistInsertAfter h (some ahead) (some item), none)
  | .dequeue => cdslDlistDequeue h (some e)
  | .removeHead => some (cdslDlistRemoveHead h (some e))
  | .removeTail => cdslDlistRemoveTail h (some e)
  | .remove item => some ((cdslDlistRemove h (some item)).1, none)
  | .replace old nu => some (cdslDlistReplace h (some old) (some nu), none)

namespace DlistOp

/-- What the operation makes of a sequence. -/
def apply : DlistOp α → List α → List α
  | putHead item, l => item :: l
  | putTail item, l => l ++ [item]
  | enqueuePriority item rule _, l =>
    l.takeWhile (staysAhead rule item) ++ item :: l.dropWhile (staysAhead rule item)
  | insertAfter ahead item, l => l.flatMap fun a => if a = ahead then [a, item] else [a]
  | dequeue, l | removeHead, l => l.tail
  | removeTail, l => l.dropLast
  | remove item, l => l.erase item
  | replace old nu, l => l.map fun a => if a = old then nu else a

/-- What the operation returns for a sequence. -/
def returns : DlistOp α → List α → Option α
  | dequeue, l | removeHead, l => l.head?
  | removeTail, l => l.getLast?
  | _, _ => none

/-- A node that is inserted is neither in the list nor its entry, and one that is named otherwise is
in the list. -/
def Permitted (e : α) (l : List α) : DlistOp α → Prop
  | putHead item | putTail item => item ∉ e :: l
  | enqueuePriority item _ fuel => item ∉ e :: l ∧ l.length < fuel
  | insertAfter ahead item => ahead ∈ l ∧ item ∉ e :: l
  | dequeue | removeHead | removeTail => True
  | remove item => item ∈ l
  | replace old nu => old ∈ l ∧ nu ∉ e :: l

/-- What the operation leaves in the tail. -/
def tailAfter (l : List α) (t : Option α) : DlistOp α → Option α
  | putHead item => if l = [] then some item else t
  | putTail item => some item
  | enqueuePriority item rule _ =>
    if l.dropWhile (staysAhead rule item) = [] ∧ l ≠ [] then some item else t
  | removeHead => if l.length = 1 then none else t
  | removeTail => l.dropLast.getLast?
  | insertAfter _ _ | dequeue | remove _ | replace _ _ => t

end DlistOp

/-- The operations in order, and what they return. -/
def runDlist (e : α) : Links α → List (DlistOp α) → Option (Links α × List (Option α))
  | h, [] => some (h, [])
  | h, op :: ops => do
    let (h, node) ← dlistStep e h op
    let (h, nodes) ← runDlist e h ops
    some (h, node :: nodes)

/-- Each operation is permitted when it is its turn. -/
def PermittedAll (e : α) : List α → List (DlistOp α) → Prop
  | _, [] => True
  | l, op :: ops => op.Permitted e l ∧ PermittedAll e (op.apply l) ops

variable {h : Links α} {e a x : α} {l l₁ l₂ : List α} {t : Option α}

/-! ## One operation -/

theorem apply_insertAfter (ha : a ∉ l₁ ++ l₂) :
    (DlistOp.insertAfter a x).apply (l₁ ++ a :: l₂) = l₁ ++ a :: x :: l₂ :=
  insertBehind_middle ha

theorem apply_replace (ha : a ∉ l₁ ++ l₂) :
    (DlistOp.replace a x).apply (l₁ ++ a :: l₂) = l₁ ++ x :: l₂ := by
  have hother : ∀ l : List α, a ∉ l → l.map (fun c => if c = a then x else c) = l := fun l hl =>
    (List.map_congr_left fun c hc => if_neg (ne_of_mem_of_not_mem hc hl)).trans (List.map_id l)
  obtain ⟨ha₁, ha₂⟩ := not_or.mp (mt List.mem_append.mpr ha)
  show (l₁ ++ a :: l₂).map _ = _
  rw [List.map_append, List.map_cons, hother l₁ ha₁, hother l₂ ha₂, if_pos rfl]

theorem apply_remove (ha : a ∉ l₁ ++ l₂) : (DlistOp.remove a).apply (l₁ ++ a :: l₂) = l₁ ++ l₂ := by
  show (l₁ ++ a :: l₂).erase a = _
  rw [List.erase_append_right _ (mt (List.mem_append_left _) ha), List.erase_cons_head]

theorem tailAfter_putHead (hlast : l ≠ [] → t = l.getLast?) :
    (DlistOp.putHead x).tailAfter l t = ((DlistOp.putHead x).apply l).getLast? := by
  show (if l = [] then some x else t) = (x :: l).getLast?
  by_cases hnil : l = []
  · rw [if_pos hnil, hnil]
    rfl
  · rw [if_neg hnil, hlast hnil, List.getLast?_cons_of_ne_nil hnil]

/-- An operation does what it does to the sequence. -/
theorem DlistHolds.step (hl : DlistHolds h e l t) {op : DlistOp α} (hop : op.Permitted e l)
    (hlast : l ≠ [] → t = l.getLast?) (hempty : op = .removeTail → l = [] → t = none) :
    ∃ h', dlistStep e h op = some (h', op.returns l) ∧
      DlistHolds h' e (op.apply l) (op.tailAfter l t) := by
  cases op with
  | putHead item =>
    obtain ⟨h', heq, hh'⟩ := hl.putHead hop
    exact ⟨h', congrArg (Option.map (·, none)) heq, hh'⟩
  | putTail item =>
    obtain ⟨h', heq, hh'⟩ := hl.putTail hlast hop
    exact ⟨h', congrArg (Option.map (·, none)) heq, hh'⟩
  | enqueuePriority item rule fuel =>
    obtain ⟨h', heq, hh'⟩ := hl.enqueuePriority rule hop.1
    exact ⟨h', congrArg (Option.map (·, none)) (heq fuel hop.2), hh'⟩
  | insertAfter ahead item =>
    obtain ⟨l₁, l₂, rfl, hnot⟩ := exists_split hl.nodup hop.1
    refine ⟨_, rfl, ?_⟩
    rw [apply_insertAfter hnot]
    exact hl.insertAfter hop.2
  | dequeue =>
    cases l with
    | nil => exact ⟨h, hl.dequeue_nil, hl⟩
    | cons a l =>
      obtain ⟨h', heq, hh'⟩ := hl.dequeue
      exact ⟨h', heq, hh'⟩
  | removeHead =>
    cases l with
    | nil => exact ⟨h, congrArg some hl.removeHead_nil, hl⟩
    | cons a l =>
      obtain ⟨h', heq, hh'⟩ := hl.removeHead
      refine ⟨h', congrArg some heq, ?_⟩
      simpa [DlistOp.apply, DlistOp.tailAfter] using hh'
  | removeTail =>
    rcases List.eq_nil_or_concat' l with rfl | ⟨l, y, rfl⟩
    · obtain rfl := hempty rfl rfl
      exact ⟨h, hl.removeTail_nil, hl⟩
    · obtain rfl : t = some y := by
        rw [hlast (by simp), List.getLast?_concat]
      obtain ⟨h', heq, hh'⟩ := hl.removeTail
      refine ⟨h', ?_, ?_⟩
      · rw [show DlistOp.removeTail.returns (l ++ [y]) = some y from List.getLast?_concat ..]
        exact heq
      · simpa [DlistOp.apply, DlistOp.tailAfter] using hh'
  | remove item =>
    obtain ⟨l₁, l₂, rfl, hnot⟩ := exists_split hl.nodup hop
    refine ⟨_, rfl, ?_⟩
    rw [apply_remove hnot]
    exact hl.remove
  | replace old nu =>
    obtain ⟨l₁, l₂, rfl, hnot⟩ := exists_split hl.nodup hop.1
    refine ⟨_, rfl, ?_⟩
    rw [apply_replace hnot]
    exact hl.replace hop.2

end Dlist

end MpegtsReader
