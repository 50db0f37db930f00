import Mathlib.Data.List.Basic
import Mathlib.Tactic.Common

/-!
# Iterating over a list

The iterator of `utils/base_list.c` and the loop `while (cdsl_iterHasNext(&iter))` that every pass
runs. A list is the sequence of its nodes, so the node that `iter->prev` points to is a position.
`iterLoop_eq` says what the loop does from any position: it maps the rest of the list, threading one
accumulator, and leaves the iterator behind the last node, from where a second loop does nothing.
-/

namespace MpegtsReader

variable {α σ : Type}

/-- `listIter_t`: the position of the node that was returned last, `none` for `NULL`. -/
structure ListIter where
  prev : Option ℕ

/-- `cdsl_iterInit`. -/
def cdslIterInit : ListIter := ⟨none⟩

/-- The position of the node that `cdsl_iterNext` moves to. -/
def ListIter.next (iter : ListIter) : ℕ :=
  match iter.prev with
  | none => 0
  | some i => i + 1

/-- `cdsl_iterHasNext`. -/
def cdslIterHasNext (entry : List α) (iter : ListIter) : Bool :=
  match iter.prev with
  | none => !entry.isEmpty
  | some i => i + 1 < entry.length

/-- `cdsl_iterNext`. -/
def cdslIterNext (iter : ListIter) : ListIter := ⟨some iter.next⟩

@[simp] theorem next_cdslIterInit : cdslIterInit.next = 0 := rfl

@[simp] theorem next_cdslIterNext (iter : ListIter) :
    (cdslIterNext iter).next = iter.next + 1 := rfl

theorem cdslIterHasNext_iff {entry : List α} {iter : ListIter} :
    cdslIterHasNext entry iter = true ↔ iter.next < entry.length := by
  obtain ⟨prev⟩ := iter
  cases prev with
  | none => simp [cdslIterHasNext, ListIter.next, List.length_pos_iff]
  | some i => simp [cdslIterHasNext, ListIter.next]

/-- `while (cdsl_iterHasNext(&iter)) { node = cdsl_iterNext(&iter); ... }`: the body updates the
accumulator `s` and the node. -/
def iterLoop (body : σ → α → σ × α) (entry : List α) (iter : ListIter) (s : σ) :
    σ × List α × ListIter :=
  if h : cdslIterHasNext entry iter = true then
    have hlt : iter.next < entry.length := cdslIterHasNext_iff.mp h
    let r := body s entry[iter.next]
    iterLoop body (entry.set iter.next r.2) (cdslIterNext iter) r.1
  else
    (s, entry, iter)
termination_by entry.length - iter.next
decreasing_by
  have := cdslIterHasNext_iff.mp h
  simp only [List.length_set, next_cdslIterNext]
  omega

/-- Map a list from left to right, threading an accumulator. -/
def mapAccum (body : σ → α → σ × α) : σ → List α → σ × List α
  | s, [] => (s, [])
  | s, a :: as =>
    let r := body s a
    let t := mapAccum body r.1 as
    (t.1, r.2 :: t.2)

@[simp] theorem mapAccum_nil (body : σ → α → σ × α) (s : σ) : mapAccum body s [] = (s, []) := rfl

@[simp] theorem mapAccum_cons (body : σ → α → σ × α) (s : σ) (a : α) (as : List α) :
    mapAccum body s (a :: as) =
      ((mapAccum body (body s a).1 as).1, (body s a).2 :: (mapAccum body (body s a).1 as).2) := rfl

/-- A loop whose body leaves the accumulator alone maps the list. -/
theorem mapAccum_const (f : α → α) (s : σ) (as : List α) :
    mapAccum (fun s a => (s, f a)) s as = (s, as.map f) := by
  induction as with
  | nil => rfl
  | cons a as ih => rw [mapAccum_cons, ih]; rfl

/-- A loop whose body leaves the nodes alone folds the list. -/
theorem fst_mapAccum_keep (f : σ → α → σ) (s : σ) (as : List α) :
    (mapAccum (fun s a => (f s a, a)) s as).1 = as.foldl f s := by
  induction as generalizing s with
  | nil => rfl
  | cons a as ih => exact ih (f s a)

theorem forall_mapAccum {P : α → Prop} {body : σ → α → σ × α}
    (hbody : ∀ s a, P a → P (body s a).2) {as : List α} (h : ∀ a ∈ as, P a) (s : σ) :
    ∀ b ∈ (mapAccum body s as).2, P b := by
  induction as generalizing s with
  | nil => exact h
  | cons a as ih =>
    rw [List.forall_mem_cons] at h
    rw [mapAccum_cons, List.forall_mem_cons]
    exact ⟨hbody s a h.1, ih h.2 _⟩

theorem mapAccum_append (body : σ → α → σ × α) (s : σ) (as bs : List α) :
    mapAccum body s (as ++ bs) =
      ((mapAccum body (mapAccum body s as).1 bs).1,
        (mapAccum body s as).2 ++ (mapAccum body (mapAccum body s as).1 bs).2) := by
  induction as generalizing s with
  | nil => rfl
  | cons a as ih => rw [List.cons_append, mapAccum_cons, ih, mapAccum_cons]; rfl

theorem length_mapAccum (body : σ → α → σ × α) (s : σ) (as : List α) :
    (mapAccum body s as).2.length = as.length := by
  induction as generalizing s with
  | nil => rfl
  | cons a as ih => rw [mapAccum_cons, List.length_cons, ih, List.length_cons]

/-- An exhausted iterator ends the loop at once. -/
theorem iterLoop_of_exhausted (body : σ → α → σ × α) {entry : List α} {iter : ListIter} (s : σ)
    (h : entry.length ≤ iter.next) : iterLoop body entry iter s = (s, entry, iter) := by
  rw [iterLoop, dif_neg]
  rw [cdslIterHasNext_iff]
  omega

/-- The loop maps the nodes from the iterator on and leaves the iterator behind the last node. -/
theorem iterLoop_eq (body : σ → α → σ × α) (entry : List α) (iter : ListIter) (s : σ) :
    ∃ iter' : ListIter, iterLoop body entry iter s =
        ((mapAccum body s (entry.drop iter.next)).1,
          entry.take iter.next ++ (mapAccum body s (entry.drop iter.next)).2, iter') ∧
      entry.length ≤ iter'.next := by
  induction hn : entry.length - iter.next generalizing entry iter s with
  | zero =>
    rw [iterLoop_of_exhausted body s (by omega), List.drop_eq_nil_of_le (by omega),
      List.take_of_length_le (by omega)]
    exact ⟨iter, by simp, by omega⟩
  | succ n ih =>
    have hlt : iter.next < entry.length := by omega
    rw [iterLoop, dif_pos (cdslIterHasNext_iff.mpr hlt)]
    obtain ⟨iter', heq, hend⟩ := ih (entry.set iter.next (body s entry[iter.next]).2)
      (cdslIterNext iter) (body s entry[iter.next]).1
      (by simp only [List.length_set, next_cdslIterNext]; omega)
    refine ⟨iter', ?_, by simpa using hend⟩
    rw [heq, next_cdslIterNext, List.drop_set_of_lt (by omega), List.drop_eq_getElem_cons hlt,
      mapAccum_cons]
    have htake : (entry.set iter.next (body s entry[iter.next]).2).take (iter.next + 1) =
        entry.take iter.next ++ [(body s entry[iter.next]).2] := by
      rw [List.take_succ_eq_append_getElem (by simpa using hlt)]
      simp [List.take_set_of_le]
    rw [htake, List.append_assoc]
    rfl

/-- The loop of a freshly initialised iterator maps the whole list. -/
theorem iterLoop_init (body : σ → α → σ × α) (entry : List α) (s : σ) :
    ∃ iter' : ListIter, iterLoop body entry cdslIterInit s =
        ((mapAccum body s entry).1, (mapAccum body s entry).2, iter') ∧
      entry.length ≤ iter'.next := by
  simpa using iterLoop_eq body entry cdslIterInit s

theorem iterLoop_init_fst (body : σ → α → σ × α) (entry : List α) (s : σ) :
    (iterLoop body entry cdslIterInit s).1 = (mapAccum body s entry).1 := by
  obtain ⟨_, h, _⟩ := iterLoop_init body entry s
  rw [h]

theorem iterLoop_init_snd (body : σ → α → σ × α) (entry : List α) (s : σ) :
    (iterLoop body entry cdslIterInit s).2.1 = (mapAccum body s entry).2 := by
  obtain ⟨_, h, _⟩ := iterLoop_init body entry s
  rw [h]

end MpegtsReader
