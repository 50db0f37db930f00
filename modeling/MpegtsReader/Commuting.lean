import Mathlib.Data.List.Perm.Basic

/-!
# Actions that commute

Actions on a state that commute with each other, and of which a second one like the first does
nothing. What a sequence of them leaves depends only on which actions it has (`foldl_congr_mem`).
-/

namespace Commuting

variable {σ α : Type} {f : σ → α → σ} {l l' : List α} {x : α}

/-- The actions of the sequence commute, and none does anything when it is repeated. -/
structure Settled (f : σ → α → σ) (l : List α) : Prop where
  comm : ∀ x ∈ l, ∀ y ∈ l, ∀ s, f (f s x) y = f (f s y) x
  idem : ∀ x ∈ l, ∀ s, f (f s x) x = f s x

theorem Settled.of_subset (h : Settled f l) (hl : ∀ x ∈ l', x ∈ l) : Settled f l' :=
  ⟨fun x hx y hy => h.comm x (hl x hx) y (hl y hy), fun x hx => h.idem x (hl x hx)⟩

/-- An action that commutes with all of them may as well be taken first. -/
theorem foldl_comm (h : ∀ y ∈ l, ∀ s, f (f s y) x = f (f s x) y) (s : σ) :
    f (l.foldl f s) x = l.foldl f (f s x) := by
  induction l generalizing s with
  | nil => rfl
  | cons y l ih =>
    rw [List.foldl_cons, List.foldl_cons, ih fun z hz => h z (List.mem_cons_of_mem y hz),
      h y List.mem_cons_self]

/-- An action that was taken already does nothing. -/
theorem Settled.absorb (h : Settled f l) (hx : x ∈ l) (s : σ) :
    f (l.foldl f s) x = l.foldl f s := by
  induction l generalizing s with
  | nil => cases hx
  | cons y l ih =>
    rw [List.foldl_cons]
    rcases List.mem_cons.mp hx with rfl | hx
    · rw [foldl_comm fun z hz => h.comm z (List.mem_cons_of_mem x hz) x List.mem_cons_self,
        h.idem x List.mem_cons_self]
    · exact ih (h.of_subset fun z hz => List.mem_cons_of_mem y hz) hx (f s y)

theorem foldl_of_fixed {s : σ} (h : ∀ x ∈ l, f s x = s) : l.foldl f s = s := by
  induction l with
  | nil => rfl
  | cons x l ih =>
    rw [List.foldl_cons, h x List.mem_cons_self]
    exact ih fun y hy => h y (List.mem_cons_of_mem x hy)

/-- Neither the order of the actions nor how often they are taken matters. -/
theorem Settled.foldl_congr_mem (h : Settled f l) (hl : ∀ x, x ∈ l ↔ x ∈ l') (s : σ) :
    l.foldl f s = l'.foldl f s := by
  have h' : Settled f l' := h.of_subset fun x hx => (hl x).mpr hx
  have hboth : Settled f (l ++ l') := h.of_subset fun x hx =>
    (List.mem_append.mp hx).elim id (hl x).mpr
  calc l.foldl f s = l'.foldl f (l.foldl f s) :=
        (foldl_of_fixed fun x hx => h.absorb ((hl x).mpr hx) s).symm
    _ = (l ++ l').foldl f s := List.foldl_append.symm
    _ = (l' ++ l).foldl f s := List.perm_append_comm.foldl_eq' hboth.comm s
    _ = l.foldl f (l'.foldl f s) := List.foldl_append
    _ = l'.foldl f s := foldl_of_fixed fun x hx => h'.absorb ((hl x).mp hx) s

end Commuting
