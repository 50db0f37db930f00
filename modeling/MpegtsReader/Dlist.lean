import MpegtsReader.Links

/-!
# The doubly linked list

`utils/cdsl_dlist.c` and what it uses of `utils/base_list.c`. The nodes are addresses in a heap of
links; the entry is one of them, its head being the field `next` and its tail the field `prev`.
A pointer is `none` when it is `NULL`, and so is the result of an operation that dereferences
`NULL`. A loop is given fuel, and its result is `none` as well when that does not last.
-/

namespace MpegtsReader

namespace Dlist

variable {α : Type} [DecidableEq α]

/-- `cdsl_dlistNodeInit`. -/
def cdslDlistNodeInit (h : Links α) : Option α → Links α
  | none => h
  | some node => (h.setNext node none).setPrev node none

/-- `cdsl_dlistEntryInit`. -/
def cdslDlistEntryInit (h : Links α) : Option α → Links α
  | none => h
  | some lentry => (h.setNext lentry none).setPrev lentry none

/-- `cdsl_dlistEnqueuePriority`: the loop. -/
def enqueueLoop (lentry item : α) (rule : α → α → Option α) :
    ℕ → Links α → α → Option (Links α)
  | 0, _, _ => none
  | fuel + 1, h, cnode =>
    match h.next cnode with
    | some cnode =>
      if rule cnode item = some item then do
        let prev ← h.prev cnode
        let h := h.setNext prev (some item)
        let h := h.setPrev item (h.prev cnode)
        let h := h.setNext item (some cnode)
        some (h.setPrev cnode (some item))
      else enqueueLoop lentry item rule fuel h cnode
    | none =>
      let h := h.setNext cnode (some item)
      let h := h.setPrev item (some cnode)
      let h := h.setNext item none
      some (if cnode ≠ lentry then h.setPrev lentry (some item) else h)

/-- `cdsl_dlistEnqueuePriority`. -/
def cdslDlistEnqueuePriority (fuel : ℕ) (h : Links α) (lentry item : Option α)
    (rule : α → α → Option α) : Option (Links α) :=
  match item with
  | none => some h
  | some item => do
    let lentry ← lentry
    enqueueLoop lentry item rule fuel h lentry

/-- `cdsl_dlistDequeue`. -/
def cdslDlistDequeue (h : Links α) (lentry : Option α) : Option (Links α × Option α) := do
  let lentry ← lentry
  match h.next lentry with
  | none => some (h, none)
  | some cnode =>
    let h := h.setNext lentry (h.next cnode)
    match h.next cnode with
    | some next => some (h.setPrev next (some lentry), some cnode)
    | none => some (h.setNext lentry none, some cnode)

/-- `cdsl_dlistPutHead`. -/
def cdslDlistPutHead (h : Links α) (lentry item : Option α) : Option (Links α) :=
  match lentry with
  | none => some h
  | some lentry => do
    let item ← item
    let h := h.setNext item (h.next lentry)
    let h := match h.next lentry with
      | some head => h.setPrev head (some item)
      | none => h.setPrev lentry (some item)
    let h := h.setPrev item (some lentry)
    some (h.setNext lentry (some item))

/-- `cdsl_dlistInsertAfter`. -/
def cdslDlistInsertAfter (h : Links α) (ahead item : Option α) : Links α :=
  match ahead, item with
  | some ahead, some item =>
    let h := h.setNext item (h.next ahead)
    let h := h.setPrev item (some ahead)
    let h := h.setNext ahead (some item)
    match h.next item with
    | some next => h.setPrev next (some item)
    | none => h
  | _, _ => h

/-- `cdsl_dlistPutTail`. -/
def cdslDlistPutTail (h : Links α) (lentry item : Option α) : Option (Links α) :=
  match lentry, item with
  | some lentry, some item => do
    let h ← if (h.next lentry).isSome then do
        let tail ← h.prev lentry
        let h := h.setNext tail (some item)
        some (h.setPrev item (h.prev lentry))
      else
        let h := h.setNext lentry (some item)
        let h := h.setPrev lentry (some item)
        some (h.setPrev item (some lentry))
    let h := h.setNext item none
    some (h.setPrev lentry (some item))
  | _, _ => some h

/-- `cdsl_dlistRemoveHead`. -/
def cdslDlistRemoveHead (h : Links α) : Option α → Links α × Option α
  | none => (h, none)
  | some lentry =>
    match h.next lentry with
    | none => (h, none)
    | some head =>
      match h.next head with
      | some next =>
        let h := h.setNext lentry (some next)
        (h.setPrev next (some lentry), some head)
      | none =>
        let h := h.setNext lentry none
        (h.setPrev lentry none, some head)

/-- `cdsl_dlistRemoveTail`. -/
def cdslDlistRemoveTail (h : Links α) : Option α → Option (Links α × Option α)
  | none => some (h, none)
  | some lentry =>
    match h.prev lentry with
    | none => some (h, none)
    | some tail =>
      if h.prev tail ≠ some lentry then do
        let h := h.setPrev lentry (h.prev tail)
        let prev ← h.prev lentry
        some (h.setNext prev none, some tail)
      else
        let h := h.setPrev lentry none
        some (h.setNext lentry none, some tail)

/-- `cdsl_dlistRemove`. -/
def cdslDlistRemove (h : Links α) : Option α → Links α × Bool
  | none => (h, false)
  | some item =>
    let prev := h.prev item
    let h := match prev with
      | some prev => h.setNext prev (h.next item)
      | none => h
    let h := match h.next item with
      | some next => h.setPrev next prev
      | none => h
    (h, true)

/-- `cdsl_dlistReplace`. -/
def cdslDlistReplace (h : Links α) (old nu : Option α) : Links α :=
  match old, nu with
  | some old, some nu =>
    let h := h.setNext nu (h.next old)
    let h := h.setPrev nu (h.prev old)
    let h := match h.next nu with
      | some next => h.setPrev next (some nu)
      | none => h
    let h := match h.prev nu with
      | some prev => h.setNext prev (some nu)
      | none => h
    (h.setPrev old none).setNext old none
  | _, _ => h

/-- `cdsl_dlistGetLast`. -/
def cdslDlistGetLast (h : Links α) (lentry : Option α) : Option α :=
  lentry.bind h.prev

/-! ## Traversals -/

/-- `cdsl_listSize`: the loop. -/
def sizeLoop (h : Links α) : ℕ → α → ℕ → Option ℕ
  | 0, _, _ => none
  | fuel + 1, cnode, cnt =>
    match h.next cnode with
    | some cnode => sizeLoop h fuel cnode (cnt + 1)
    | none => some cnt

/-- `cdsl_listSize`. -/
def cdslListSize (fuel : ℕ) (h : Links α) : Option α → Option ℕ
  | none => some 0
  | some lentry => if (h.next lentry).isNone then some 0 else sizeLoop h fuel lentry 0

/-- `cdsl_listContain`: the loop. -/
def containLoop (h : Links α) (item : Option α) : ℕ → α → Option Bool
  | 0, _ => none
  | fuel + 1, cnode =>
    match h.next cnode with
    | some cnode => if some cnode = item then some true else containLoop h item fuel cnode
    | none => some false

/-- `cdsl_listContain`. -/
def cdslListContain (fuel : ℕ) (h : Links α) (lentry item : Option α) : Option Bool :=
  match lentry with
  | none => some false
  | some lentry => if (h.next lentry).isNone then some false else containLoop h item fuel lentry

/-- `listIter_t`. -/
structure LinkIter (α : Type) where
  entry : Option α
  prev : Option α

namespace LinkIter

/-- `cdsl_iterInit`. -/
def cdslIterInit (lentry : Option α) : LinkIter α := ⟨lentry, none⟩

/-- `cdsl_iterHasNext`. -/
def cdslIterHasNext (h : Links α) (iter : LinkIter α) : Option Bool :=
  match iter.prev with
  | none => do
    let entry ← iter.entry
    some (h.next entry).isSome
  | some prev => some (h.next prev).isSome

/-- `cdsl_iterNext`. -/
def cdslIterNext (h : Links α) (iter : LinkIter α) : Option (LinkIter α × Option α) := do
  let prev ← if iter.prev.isNone then iter.entry else iter.prev
  some ({ iter with prev := h.next prev }, h.next prev)

/-- `while (cdsl_iterHasNext(iter)) { node = cdsl_iterNext(iter); ... }`: the nodes. -/
def nodes (h : Links α) : ℕ → LinkIter α → Option (List α)
  | 0, _ => none
  | fuel + 1, iter => do
    if ← iter.cdslIterHasNext h then
      let (iter, node) ← iter.cdslIterNext h
      let node ← node
      let rest ← nodes h fuel iter
      some (node :: rest)
    else some []

end LinkIter

end Dlist

end MpegtsReader
