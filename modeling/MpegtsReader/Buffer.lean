import Mathlib.Data.List.Basic
import Mathlib.Tactic.Common

/-!
# Fixed buffers patched in place

A list of updates `(i, f)` patches a buffer of `n` cells: each update replaces the cell `i` by its
image under `f`, in order, and an update outside the buffer has no result. `effect us j` is what the
updates do to the cell `j`, so that a patched buffer is described cell by cell
(`patch_eq_some_iff`).
-/

namespace Buffer

variable {α : Type*} {n : ℕ}

/-- Replace the cell with this index by its image. -/
abbrev Update (α : Type*) := ℕ × (α → α)

/-- A plain store. -/
def put (i : ℕ) (x : α) : Update α := (i, fun _ => x)

/-- Apply the updates in order. -/
def patch : Vector α n → List (Update α) → Option (Vector α n)
  | b, [] => some b
  | b, u :: us => if h : u.1 < n then patch (b.set u.1 (u.2 b[u.1])) us else none

/-- What the updates do to the cell `j` when it holds `x`. -/
def effect : List (Update α) → ℕ → α → α
  | [], _, x => x
  | u :: us, j, x => effect us j (if u.1 = j then u.2 x else x)

/-- Every update falls inside the buffer. -/
def InBounds (n : ℕ) (us : List (Update α)) : Prop := ∀ u ∈ us, u.1 < n

@[simp] theorem put_fst (i : ℕ) (x : α) : (put i x).1 = i := rfl

@[simp] theorem put_snd (i : ℕ) (x y : α) : (put i x).2 y = x := rfl

@[simp] theorem effect_nil (j : ℕ) (x : α) : effect [] j x = x := rfl

@[simp] theorem effect_cons (u : Update α) (us : List (Update α)) (j : ℕ) (x : α) :
    effect (u :: us) j x = effect us j (if u.1 = j then u.2 x else x) := rfl

theorem effect_append (us vs : List (Update α)) (j : ℕ) (x : α) :
    effect (us ++ vs) j x = effect vs j (effect us j x) := by
  induction us generalizing x with
  | nil => rfl
  | cons u us ih => exact ih _

/-- A cell that no update addresses keeps its value. -/
theorem effect_eq_self {us : List (Update α)} {j : ℕ} (h : ∀ u ∈ us, u.1 ≠ j) (x : α) :
    effect us j x = x := by
  induction us generalizing x with
  | nil => rfl
  | cons u us ih =>
    rw [effect_cons, if_neg (h u (List.mem_cons_self ..))]
    exact ih (fun v hv => h v (List.mem_cons_of_mem _ hv)) x

@[simp] theorem inBounds_nil : InBounds n ([] : List (Update α)) := by
  intro u hu
  cases hu

@[simp] theorem inBounds_cons {u : Update α} {us : List (Update α)} :
    InBounds n (u :: us) ↔ u.1 < n ∧ InBounds n us := by
  simp [InBounds]

@[simp] theorem inBounds_append {us vs : List (Update α)} :
    InBounds n (us ++ vs) ↔ InBounds n us ∧ InBounds n vs := by
  simp [InBounds, or_imp, forall_and]

theorem getElem_set_update (b : Vector α n) {u : Update α} (h : u.1 < n) {j : ℕ} (hj : j < n) :
    (b.set u.1 (u.2 b[u.1]))[j] = if u.1 = j then u.2 b[j] else b[j] := by
  rw [Vector.getElem_set]
  split_ifs with he
  · subst he; rfl
  · rfl

/-- A patch has a result exactly when its updates stay inside the buffer, and the result is
described cell by cell by `effect`. -/
theorem patch_eq_some_iff {b b' : Vector α n} {us : List (Update α)} :
    patch b us = some b' ↔
      InBounds n us ∧ ∀ j (hj : j < n), b'[j] = effect us j b[j] := by
  induction us generalizing b with
  | nil =>
    simp only [patch, Option.some.injEq, inBounds_nil, effect_nil, true_and]
    constructor
    · rintro rfl j hj; rfl
    · intro h; exact Vector.ext fun j hj => (h j hj).symm
  | cons u us ih =>
    unfold patch
    by_cases h : u.1 < n
    · rw [dif_pos h, ih]
      simp only [inBounds_cons, h, true_and, effect_cons, getElem_set_update b h]
    · rw [dif_neg h]
      simp [h]

theorem exists_patch_iff {b : Vector α n} {us : List (Update α)} :
    (∃ b', patch b us = some b') ↔ InBounds n us := by
  induction us generalizing b with
  | nil => simp [patch]
  | cons u us ih =>
    unfold patch
    by_cases h : u.1 < n
    · rw [dif_pos h, ih, inBounds_cons, and_iff_right h]
    · rw [dif_neg h, inBounds_cons]
      exact iff_of_false nofun fun hin => h hin.1

end Buffer
