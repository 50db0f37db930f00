import Mathlib.Data.List.Basic

/-!
# Visits that end early

A visitor is called on the elements of a list, one after the other and with their numbers. It has a
state, and the visit ends with the first call whose answer is `stop`. `visit_append` splits a visit
where the list is split, and `visit_logged` says which calls there were.
-/

namespace EarlyExit

variable {α σ ρ : Type} {stop : ρ → Bool} {f : ℕ → α → σ → ρ × σ}

/-- Call the visitor on the elements, from number `i` on: whether it stopped, the number that comes
next, and its state. -/
def visit (stop : ρ → Bool) (f : ℕ → α → σ → ρ × σ) : List α → ℕ → σ → Bool × ℕ × σ
  | [], i, s => (false, i, s)
  | a :: l, i, s =>
    if stop (f i a s).1 then (true, i + 1, (f i a s).2) else visit stop f l (i + 1) (f i a s).2

/-- What the visitor answers on all elements, stop or not. -/
def answers (f : ℕ → α → σ → ρ × σ) : List α → ℕ → σ → List ρ
  | [], _, _ => []
  | a :: l, i, s => (f i a s).1 :: answers f l (i + 1) (f i a s).2

/-- The visitor that remembers its calls. -/
def logged (f : ℕ → α → σ → ρ × σ) (i : ℕ) (a : α) (s : σ × List (α × ℕ)) :
    ρ × σ × List (α × ℕ) :=
  ((f i a s.1).1, (f i a s.1).2, s.2 ++ [(a, i)])

/-- The calls up to the first answer that stops. -/
def callsUntil (stop : ρ → Bool) (f : ℕ → α → σ → ρ × σ) (l : List α) (i : ℕ) (s : σ) :
    List (α × ℕ) :=
  (l.zipIdx i).take ((answers f l i s).findIdx stop + 1)

theorem visit_cons_of_stop {a : α} {l : List α} {i : ℕ} {s : σ} (h : stop (f i a s).1 = true) :
    visit stop f (a :: l) i s = (true, i + 1, (f i a s).2) := by
  rw [visit, if_pos h]

theorem visit_cons_of_go {a : α} {l : List α} {i : ℕ} {s : σ} (h : stop (f i a s).1 = false) :
    visit stop f (a :: l) i s = visit stop f l (i + 1) (f i a s).2 := by
  rw [visit, if_neg (Bool.eq_false_iff.mp h)]

/-- The second part is visited where the first did not stop. -/
theorem visit_append (l₁ l₂ : List α) (i : ℕ) (s : σ) :
    visit stop f (l₁ ++ l₂) i s =
      if (visit stop f l₁ i s).1 then visit stop f l₁ i s
      else visit stop f l₂ (visit stop f l₁ i s).2.1 (visit stop f l₁ i s).2.2 := by
  induction l₁ generalizing i s with
  | nil => rfl
  | cons a l₁ ih =>
    rw [List.cons_append]
    cases h : stop (f i a s).1 with
    | true => rw [visit_cons_of_stop h, visit_cons_of_stop h, if_pos rfl]
    | false => rw [visit_cons_of_go h, visit_cons_of_go h, ih]

theorem length_answers (l : List α) (i : ℕ) (s : σ) : (answers f l i s).length = l.length := by
  induction l generalizing i s with
  | nil => rfl
  | cons a l ih => rw [answers, List.length_cons, ih, List.length_cons]

/-- The calls are those up to the first that stops, and to remember them changes nothing else. -/
theorem visit_logged (l : List α) (i : ℕ) (s : σ) (calls : List (α × ℕ)) :
    visit stop (logged f) l i (s, calls) =
      ((visit stop f l i s).1, (visit stop f l i s).2.1, (visit stop f l i s).2.2,
        calls ++ callsUntil stop f l i s) := by
  induction l generalizing i s calls with
  | nil => rw [callsUntil, List.zipIdx_nil, List.take_nil, List.append_nil]; rfl
  | cons a l ih =>
    cases h : stop (f i a s).1 with
    | true =>
      rw [visit_cons_of_stop (f := logged f) h, visit_cons_of_stop h, callsUntil, answers,
        List.findIdx_cons, h]
      rfl
    | false =>
      have hcalls : callsUntil stop f (a :: l) i s =
          (a, i) :: callsUntil stop f l (i + 1) (f i a s).2 := by
        rw [callsUntil, answers, List.findIdx_cons, h]
        rfl
      rw [visit_cons_of_go (f := logged f) h, visit_cons_of_go h, hcalls]
      show visit stop (logged f) l (i + 1) ((f i a s).2, calls ++ [(a, i)]) = _
      rw [ih, List.append_assoc, List.singleton_append]

/-- A visitor that never stops is called on all elements. -/
theorem callsUntil_of_go {l : List α} {i : ℕ} {s : σ}
    (hgo : ∀ r ∈ answers f l i s, stop r = false) : callsUntil stop f l i s = l.zipIdx i := by
  rw [callsUntil, List.findIdx_eq_length_of_false hgo, length_answers]
  exact List.take_of_length_le (by rw [List.length_zipIdx]; exact Nat.le_succ _)

end EarlyExit
