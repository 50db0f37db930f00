import Mathlib.Data.List.Basic
import Mathlib.Data.List.Infix
import Mathlib.Tactic.Common

/-!
# Lines of a text and bounded reads

A text is a list over any alphabet with an end-of-line mark. `lines` cuts it behind every mark;
`takeLine n` reads at most `n` symbols and stops behind a mark, and `reads n` reads a whole text
that way, `n + 1` symbols at most at a time. Reads never cross a line, so a text is read line by
line (`reads_eq_flatMap`), and a line is read at once exactly when it fits (`reads_of_short`,
`length_le_of_reads`).
-/

namespace Lines

variable {α β : Type*} [DecidableEq α] (eol : α)

/-- Read at most `n` symbols, up to and including the first mark; the rest is left. -/
def takeLine : ℕ → List α → List α × List α
  | 0, text => ([], text)
  | _ + 1, [] => ([], [])
  | n + 1, a :: text =>
    if a = eol then ([a], text) else (a :: (takeLine n text).1, (takeLine n text).2)

/-- The lines of a text, each with its mark; the last one may be without. -/
def lines : List α → List (List α)
  | [] => []
  | a :: text =>
    if a = eol then [a] :: lines text
    else
      match lines text with
      | [] => [[a]]
      | line :: rest => (a :: line) :: rest

/-! ## One read -/

theorem takeLine_append (n : ℕ) (text : List α) :
    (takeLine eol n text).1 ++ (takeLine eol n text).2 = text := by
  induction n generalizing text with
  | zero => rfl
  | succ n ih =>
    cases text with
    | nil => rfl
    | cons a text =>
      unfold takeLine
      split_ifs
      · rfl
      · exact congrArg (a :: ·) (ih text)

theorem length_takeLine_le (n : ℕ) (text : List α) : (takeLine eol n text).1.length ≤ n := by
  induction n generalizing text with
  | zero => exact Nat.le_refl 0
  | succ n ih =>
    cases text with
    | nil => exact Nat.zero_le _
    | cons a text =>
      unfold takeLine
      split_ifs
      · exact Nat.succ_le_succ (Nat.zero_le n)
      · exact Nat.succ_le_succ (ih text)

/-- A read of a nonempty text returns something. -/
theorem takeLine_ne_nil (n : ℕ) {text : List α} (h : text ≠ []) :
    (takeLine eol (n + 1) text).1 ≠ [] := by
  cases text with
  | nil => exact absurd rfl h
  | cons a text =>
    unfold takeLine
    split_ifs <;> exact List.cons_ne_nil _ _

theorem length_takeLine_snd_lt (n : ℕ) {text : List α} (h : text ≠ []) :
    (takeLine eol (n + 1) text).2.length < text.length := by
  have hlen := congrArg List.length (takeLine_append eol (n + 1) text)
  have hpos := List.length_pos_iff.mpr (takeLine_ne_nil eol n h)
  rw [List.length_append] at hlen
  omega

variable {eol}

/-- A line that fits is read with its mark. -/
theorem takeLine_terminated {n : ℕ} {body : List α} (hbody : eol ∉ body) (hn : body.length < n)
    (rest : List α) : takeLine eol n (body ++ eol :: rest) = (body ++ [eol], rest) := by
  induction body generalizing n with
  | nil =>
    obtain ⟨n, rfl⟩ : ∃ m, n = m + 1 := ⟨n - 1, by simp at hn; omega⟩
    exact if_pos rfl
  | cons a body ih =>
    obtain ⟨n, rfl⟩ : ∃ m, n = m + 1 := ⟨n - 1, by simp at hn; omega⟩
    rw [List.mem_cons, not_or] at hbody
    rw [List.cons_append, takeLine, if_neg (Ne.symm hbody.1),
      ih hbody.2 (by simpa using hn)]
    rfl

/-- Without a mark the read is cut off. -/
theorem takeLine_cut {pre : List α} (hpre : eol ∉ pre) (rest : List α) :
    takeLine eol pre.length (pre ++ rest) = (pre, rest) := by
  induction pre with
  | nil => rfl
  | cons a pre ih =>
    rw [List.mem_cons, not_or] at hpre
    rw [List.cons_append, List.length_cons, takeLine, if_neg (Ne.symm hpre.1), ih hpre.2]

/-- The end of the text ends the read. -/
theorem takeLine_last {n : ℕ} {body : List α} (hbody : eol ∉ body) (hn : body.length ≤ n) :
    takeLine eol n body = (body, []) := by
  induction body generalizing n with
  | nil => cases n <;> rfl
  | cons a body ih =>
    obtain ⟨n, rfl⟩ : ∃ m, n = m + 1 := ⟨n - 1, by simp at hn; omega⟩
    rw [List.mem_cons, not_or] at hbody
    rw [takeLine, if_neg (Ne.symm hbody.1), ih hbody.2 (by simpa using hn)]

/-! ## Lines -/

theorem lines_terminated {body : List α} (hbody : eol ∉ body) (rest : List α) :
    lines eol (body ++ eol :: rest) = (body ++ [eol]) :: lines eol rest := by
  induction body with
  | nil => exact if_pos rfl
  | cons a body ih =>
    rw [List.mem_cons, not_or] at hbody
    rw [List.cons_append, lines, if_neg (Ne.symm hbody.1), ih hbody.2]
    rfl

theorem lines_last {body : List α} (hbody : eol ∉ body) (hne : body ≠ []) :
    lines eol body = [body] := by
  induction body with
  | nil => exact absurd rfl hne
  | cons a body ih =>
    rw [List.mem_cons, not_or] at hbody
    rw [lines, if_neg (Ne.symm hbody.1)]
    cases body with
    | nil => rfl
    | cons b body => rw [ih hbody.2 (List.cons_ne_nil _ _)]

/-- A text is empty, or a line and a rest, or a last line without a mark. -/
theorem text_cases (eol : α) (text : List α) :
    text = [] ∨ (∃ body rest, eol ∉ body ∧ text = body ++ eol :: rest) ∨
      eol ∉ text ∧ text ≠ [] := by
  by_cases h : eol ∈ text
  · obtain ⟨body, rest, rfl, hbody⟩ := List.eq_append_cons_of_mem h
    exact Or.inr (Or.inl ⟨body, rest, hbody, rfl⟩)
  · by_cases hne : text = []
    · exact Or.inl hne
    · exact Or.inr (Or.inr ⟨h, hne⟩)

/-- A line is a body without a mark and, unless it is the last one, the mark. -/
theorem exists_body_of_mem_lines {text line : List α} (h : line ∈ lines eol text) :
    ∃ body, eol ∉ body ∧ (line = body ++ [eol] ∨ line = body ∧ body ≠ []) := by
  induction hn : text.length using Nat.strong_induction_on generalizing text with
  | _ n ih =>
    rcases text_cases eol text with rfl | ⟨body, rest, hbody, rfl⟩ | ⟨hbody, hne⟩
    · cases h
    · rw [lines_terminated hbody, List.mem_cons] at h
      rcases h with rfl | h
      · exact ⟨body, hbody, Or.inl rfl⟩
      · exact ih rest.length (by rw [← hn]; simp; omega) h rfl
    · rw [lines_last hbody hne, List.mem_singleton] at h
      exact ⟨text, hbody, Or.inr ⟨h, hne⟩⟩

/-! ## Reading a whole text -/

/-- Read a text, at most `n + 1` symbols at a time. -/
def reads (eol : α) (n : ℕ) (text : List α) : List (List α) :=
  if h : text = [] then []
  else (takeLine eol (n + 1) text).1 :: reads eol n (takeLine eol (n + 1) text).2
termination_by text.length
decreasing_by exact length_takeLine_snd_lt eol n h

@[simp] theorem reads_nil (n : ℕ) : reads eol n [] = [] := by
  rw [reads, dif_pos rfl]

theorem reads_of_ne_nil (n : ℕ) {text : List α} (h : text ≠ []) : reads eol n text =
    (takeLine eol (n + 1) text).1 :: reads eol n (takeLine eol (n + 1) text).2 := by
  rw [reads, dif_neg h]

/-- Nothing is lost or read twice. -/
theorem flatten_reads (eol : α) (n : ℕ) (text : List α) : (reads eol n text).flatten = text := by
  induction hn : text.length using Nat.strong_induction_on generalizing text with
  | _ m ih =>
    by_cases h : text = []
    · subst h
      rw [reads_nil]
      rfl
    · rw [reads_of_ne_nil n h, List.flatten_cons,
        ih _ (hn ▸ length_takeLine_snd_lt eol n h) _ rfl, takeLine_append]

theorem length_le_of_mem_reads {n : ℕ} {text piece : List α} (h : piece ∈ reads eol n text) :
    piece.length ≤ n + 1 := by
  induction hm : text.length using Nat.strong_induction_on generalizing text with
  | _ m ih =>
    by_cases hne : text = []
    · subst hne
      rw [reads_nil] at h
      cases h
    · rw [reads_of_ne_nil n hne, List.mem_cons] at h
      rcases h with rfl | h
      · exact length_takeLine_le eol (n + 1) text
      · exact ih _ (hm ▸ length_takeLine_snd_lt eol n hne) h rfl

/-- A read never crosses the end of a line. -/
theorem reads_append {n : ℕ} {body : List α} (hbody : eol ∉ body) (rest : List α) :
    reads eol n (body ++ eol :: rest) = reads eol n (body ++ [eol]) ++ reads eol n rest := by
  induction hm : body.length using Nat.strong_induction_on generalizing body with
  | _ m ih =>
    have hne : ∀ tail : List α, body ++ eol :: tail ≠ [] := fun tail => by simp
    rw [reads_of_ne_nil n (hne rest), reads_of_ne_nil n (hne [])]
    by_cases hfit : body.length < n + 1
    · rw [takeLine_terminated hbody hfit, takeLine_terminated hbody hfit, reads_nil]
      rfl
    · -- the line does not fit: both sides read the same first piece of it
      have htake : (body.take (n + 1)).length = n + 1 := List.length_take_of_le (by omega)
      have hpre : eol ∉ body.take (n + 1) := fun h => hbody (List.mem_of_mem_take h)
      have hcut : ∀ tail : List α, takeLine eol (n + 1) (body ++ eol :: tail) =
          (body.take (n + 1), body.drop (n + 1) ++ eol :: tail) := by
        intro tail
        have h := takeLine_cut hpre (body.drop (n + 1) ++ eol :: tail)
        rwa [htake, ← List.append_assoc, List.take_append_drop] at h
      have hdrop : eol ∉ body.drop (n + 1) := fun h => hbody (List.mem_of_mem_drop h)
      rw [hcut, hcut, List.cons_append, ih _ (by rw [List.length_drop]; omega) hdrop rfl]

/-- A text is read line by line. -/
theorem reads_eq_flatMap (n : ℕ) (text : List α) :
    reads eol n text = (lines eol text).flatMap (reads eol n) := by
  induction hm : text.length using Nat.strong_induction_on generalizing text with
  | _ m ih =>
    rcases text_cases eol text with rfl | ⟨body, rest, hbody, rfl⟩ | ⟨hbody, hne⟩
    · rw [reads_nil]
      rfl
    · rw [lines_terminated hbody, List.flatMap_cons, reads_append hbody,
        ih rest.length (by rw [← hm]; simp; omega) rest rfl]
    · rw [lines_last hbody hne, List.flatMap_singleton]

/-- A line that fits is read at once. -/
theorem reads_of_short {n : ℕ} {line body : List α} (hbody : eol ∉ body)
    (hline : line = body ++ [eol] ∨ line = body ∧ body ≠ []) (hn : line.length ≤ n + 1) :
    reads eol n line = [line] := by
  rcases hline with rfl | ⟨rfl, hne⟩
  · have hfit : body.length < n + 1 := by
      rw [List.length_append, List.length_singleton] at hn
      omega
    rw [reads_of_ne_nil n (by simp), takeLine_terminated hbody hfit, reads_nil]
  · rw [reads_of_ne_nil n hne, takeLine_last hbody hn, reads_nil]

/-- A line that is read at once fits. -/
theorem length_le_of_reads {n : ℕ} {line : List α} (h : (reads eol n line).length ≤ 1) :
    line.length ≤ n + 1 := by
  match hr : reads eol n line, h with
  | [], _ =>
    have hflat := flatten_reads eol n line
    rw [hr] at hflat
    rw [← hflat]
    exact Nat.zero_le _
  | [piece], _ =>
    have hflat := flatten_reads eol n line
    rw [hr, List.flatten_singleton] at hflat
    rw [← hflat]
    exact length_le_of_mem_reads (show piece ∈ reads eol n line by rw [hr]; simp)

/-! ## Comparing what lines yield -/

/-- Two ways of expanding the elements of a list that give the same result, the second at least as
much as the first for every element, are the same for every element. -/
theorem flatMap_inj_of_length_le {γ : Type*} {f g : γ → List β} {l : List γ}
    (hle : ∀ a ∈ l, (f a).length ≤ (g a).length) (h : l.flatMap g = l.flatMap f) :
    ∀ a ∈ l, g a = f a := by
  induction l with
  | nil => intro a ha; cases ha
  | cons a l ih =>
    have hall : ∀ {m : List γ}, (∀ b ∈ m, (f b).length ≤ (g b).length) →
        (m.flatMap f).length ≤ (m.flatMap g).length := by
      intro m hm
      induction m with
      | nil => exact Nat.le_refl 0
      | cons b m ihm =>
        have h1 := hm b (List.mem_cons_self ..)
        have h2 := ihm fun c hc => hm c (List.mem_cons_of_mem _ hc)
        simp only [List.flatMap_cons, List.length_append]
        omega
    have htail := hall fun b hb => hle b (List.mem_cons_of_mem _ hb)
    have hhead := hle a (List.mem_cons_self ..)
    rw [List.flatMap_cons, List.flatMap_cons] at h
    have hlen := congrArg List.length h
    rw [List.length_append, List.length_append] at hlen
    obtain ⟨hga, hrest⟩ := List.append_inj h (by omega)
    intro b hb
    rcases List.mem_cons.mp hb with rfl | hb
    · exact hga
    · exact ih (fun c hc => hle c (List.mem_cons_of_mem _ hc)) hrest b hb

end Lines
