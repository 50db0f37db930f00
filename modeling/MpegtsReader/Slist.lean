import Mathlib.Data.Int.Notation
import Mathlib.Data.Nat.Notation
import Mathlib.Logic.Function.Basic

/-!
# The singly linked list

`utils/cdsl_slist.c`. The nodes are addresses, and the heap is their field `next`; the entry is one
of them, its head being that field. A pointer is `none` when it is `NULL`, and so is the result of
an operation that dereferences `NULL`. A loop is given fuel, and its result is `none` as well when
that does not last.
-/

namespace MpegtsReader

namespace Slist

open Function (update)

/-- The field `next` of all nodes. -/
abbrev Nexts (α : Type) := α → Option α

/-- `slistNode_t **`: the address of the parameter `lentry`, or of the field `next` of a node. -/
inductive LinkAddr (α : Type)
  | lentry
  | next (node : α)

variable {α : Type}

/-- A load from the address, with the value of the parameter. -/
def LinkAddr.load (h : Nexts α) (lentry : Option α) : LinkAddr α → Option α
  | .lentry => lentry
  | .next node => h node

variable [DecidableEq α]

/-- A store to the address. The parameter is the callee's own. -/
def LinkAddr.store (h : Nexts α) (v : Option α) : LinkAddr α → Nexts α
  | .lentry => h
  | .next node => update h node v

/-- `cdsl_slistEntryInit`. -/
def cdslSlistEntryInit (h : Nexts α) : Option α → Nexts α
  | none => h
  | some entry => update h entry none

/-- `cdsl_slistNodeInit`. -/
def cdslSlistNodeInit (h : Nexts α) : Option α → Nexts α
  | none => h
  | some item => update h item none

/-- `cdsl_slistMerge`: the loop, and the tail that it finds. -/
def mergeLoop (h : Nexts α) : ℕ → α → Option α
  | 0, _ => none
  | fuel + 1, tail =>
    match h tail with
    | some tail => mergeLoop h fuel tail
    | none => some tail

/-- `cdsl_slistMerge`. -/
def cdslSlistMerge (fuel : ℕ) (h : Nexts α) (toEntry fromEntry : Option α) : Option (Nexts α) :=
  match toEntry, fromEntry with
  | some toEntry, some fromEntry => do
    let tail ← h toEntry
    let tail ← mergeLoop h fuel tail
    let h := update h tail (h fromEntry)
    some (update h fromEntry none)
  | _, _ => some h

/-- `cdsl_slistEnqueuePriority`: the loop. -/
def enqueueLoop (h : Nexts α) (lentry : Option α) (item : α) (rule : α → α → Option α) :
    ℕ → LinkAddr α → Option (Nexts α)
  | 0, _ => none
  | fuel + 1, cnode => do
    let node ← cnode.load h lentry
    match h node with
    | some next =>
      if rule next item = some item then do
        let h := update h item (h node)
        let node ← cnode.load h lentry
        some (update h node (some item))
      else enqueueLoop h lentry item rule fuel (.next node)
    | none => some (update h node (some item))

/-- `cdsl_slistEnqueuePriority`. -/
def cdslSlistEnqueuePriority (fuel : ℕ) (h : Nexts α) (lentry item : Option α)
    (rule : Option (α → α → Option α)) : Option (Nexts α) :=
  match lentry, item, rule with
  | some lentry, some item, some rule => enqueueLoop h (some lentry) item rule fuel .lentry
  | _, _, _ => some h

/-- `cdsl_slistInsertAfter`. -/
def cdslSlistInsertAfter (h : Nexts α) (ahead item : Option α) : Nexts α :=
  match ahead, item with
  | some ahead, some item =>
    let h := update h item (h ahead)
    update h ahead (some item)
  | _, _ => h

/-- `cdsl_slistDequeue`. -/
def cdslSlistDequeue (h : Nexts α) : Option α → Nexts α × Option α
  | none => (h, none)
  | some lentry =>
    let head := h lentry
    let h := match head with
      | some head => update h lentry (h head)
      | none => h
    (h, head)

/-- `cdsl_slistPutHead`. -/
def cdslSlistPutHead (h : Nexts α) (lentry item : Option α) : Nexts α × ℤ :=
  match lentry, item with
  | some lentry, some item =>
    let h := match h lentry with
      | some head => update h item (some head)
      | none => update h item none
    (update h lentry (some item), 0)
  | _, _ => (h, -1)

/-- `cdsl_slistPutTail`: the loop. -/
def putTailLoop (h : Nexts α) (item : α) : ℕ → α → ℤ → Option (Nexts α × ℤ)
  | 0, _, _ => none
  | fuel + 1, node, idx =>
    match h node with
    | some node => putTailLoop h item fuel node (idx + 1)
    | none => some (update h node (some item), idx)

/-- `cdsl_slistPutTail`. -/
def cdslSlistPutTail (fuel : ℕ) (h : Nexts α) (lentry item : Option α) : Option (Nexts α × ℤ) :=
  match lentry, item with
  | some lentry, some item => putTailLoop (update h item none) item fuel lentry 0
  | _, _ => some (h, -1)

/-- `cdsl_slistRemoveHead`. -/
def cdslSlistRemoveHead (h : Nexts α) (lentry : Option α) : Nexts α × Option α :=
  cdslSlistDequeue h lentry

/-- `cdsl_slistRemoveTail`: the loop, and the address that it ends with. -/
def removeTailLoop (h : Nexts α) (lentry : Option α) : ℕ → LinkAddr α → Option (LinkAddr α)
  | 0, _ => none
  | fuel + 1, cnode => do
    let node ← cnode.load h lentry
    if (h node).isSome then removeTailLoop h lentry fuel (.next node) else some cnode

/-- `cdsl_slistRemoveTail`. -/
def cdslSlistRemoveTail (fuel : ℕ) (h : Nexts α) (lentry : Option α) :
    Option (Nexts α × Option α) :=
  match lentry with
  | none => some (h, none)
  | some lentry =>
    if (h lentry).isNone then some (h, none)
    else do
      let cnode ← removeTailLoop h (some lentry) fuel .lentry
      some (cnode.store h none, cnode.load h (some lentry))

/-- `cdsl_slistRemove`: the loop. -/
def removeLoop (h : Nexts α) (item : α) : ℕ → α → Option (Nexts α × Bool)
  | 0, _ => none
  | fuel + 1, cnode =>
    match h cnode with
    | some next =>
      if next = item then some (update h cnode (h item), true) else removeLoop h item fuel next
    | none => some (h, false)

/-- `cdsl_slistRemove`. -/
def cdslSlistRemove (fuel : ℕ) (h : Nexts α) (lentry item : Option α) :
    Option (Nexts α × Bool) :=
  match lentry, item with
  | some lentry, some item =>
    if (h lentry).isNone then some (h, false) else removeLoop h item fuel lentry
  | _, _ => some (h, false)

/-- `cdsl_slistRemoveAt`: the loop. A pointer that is `NULL` then is dereferenced afterwards. -/
def removeAtLoop (h : Nexts α) : ℕ → ℤ → Option α → Option α
  | 0, _, _ => none
  | fuel + 1, idx, cnode =>
    if idx = 0 then cnode
    else do
      let node ← cnode
      removeAtLoop h fuel (idx - 1) (h node)

/-- `cdsl_slistRemoveAt`. -/
def cdslSlistRemoveAt (fuel : ℕ) (h : Nexts α) (entry : Option α) (idx : ℤ) :
    Option (Nexts α × Option α) :=
  match entry with
  | none => some (h, none)
  | some entry =>
    if (h entry).isNone then some (h, none)
    else do
      let cnode ← removeAtLoop h fuel idx (some entry)
      let found ← h cnode
      some (update h cnode (h found), some found)

end Slist

end MpegtsReader
