import Mathlib.Data.List.Basic

/-!
# Runs of a partial step function

`step s a` is the state after action `a`, or `none` where the action is not possible. A run is
guarded when each of its steps meets a condition on the state before it and the action. A system
refines another when each of its steps is one of the other or leaves the other where it is
(`Reachable.refines`), and its runs end where each step lowers a measure (`length_le_measure`).
Where a step may also break the run off, `SameOutcome` compares two systems (`sameOutcome_run`).
-/

namespace Transition

variable {σ α : Type} {step : σ → α → Option σ} {guard : σ → α → Prop} {init : σ}

/-- The state after the actions, in order. -/
def run (step : σ → α → Option σ) : σ → List α → Option σ
  | s, [] => some s
  | s, a :: as => (step s a).bind (run step · as)

/-- The states of the guarded runs from `init`. -/
inductive Reachable (step : σ → α → Option σ) (guard : σ → α → Prop) (init : σ) : σ → Prop
  | start : Reachable step guard init init
  | next {s t : σ} {a : α} : Reachable step guard init s → guard s a → step s a = some t →
      Reachable step guard init t

/-- What holds at the start and is kept by every guarded step holds in every reachable state. -/
theorem Reachable.invariant {P : σ → Prop} (hinit : P init)
    (hstep : ∀ s a t, P s → guard s a → step s a = some t → P t) {s : σ}
    (h : Reachable step guard init s) : P s := by
  induction h with
  | start => exact hinit
  | next _ hg hs ih => exact hstep _ _ _ ih hg hs

theorem run_cons {s t : σ} {a : α} {as : List α} :
    run step s (a :: as) = some t ↔ ∃ u, step s a = some u ∧ run step u as = some t :=
  Option.bind_eq_some_iff

/-- A run whose actions meet the guard in whatever state they are taken. -/
theorem Reachable.of_run {s t : σ} {as : List α} (hs : Reachable step guard init s)
    (hg : ∀ a ∈ as, ∀ u, guard u a) (h : run step s as = some t) :
    Reachable step guard init t := by
  induction as generalizing s with
  | nil => exact Option.some.inj h ▸ hs
  | cons a as ih =>
    obtain ⟨u, hu, hrest⟩ := run_cons.mp h
    exact ih (hs.next (hg a List.mem_cons_self s) hu)
      (fun b hb => hg b (List.mem_cons_of_mem a hb)) hrest

/-- Seen through `view`, each step is one of the other system, or none. -/
theorem Reachable.refines {τ β : Type} {step' : τ → β → Option τ} {guard' : τ → β → Prop}
    {init' : τ} (view : σ → τ) (hinit : view init = init')
    (hstep : ∀ s a t, guard s a → step s a = some t →
      view t = view s ∨ ∃ b, guard' (view s) b ∧ step' (view s) b = some (view t)) {s : σ}
    (h : Reachable step guard init s) : Reachable step' guard' init' (view s) := by
  induction h with
  | start => exact hinit ▸ .start
  | next _ hg hs ih =>
    rcases hstep _ _ _ hg hs with heq | ⟨b, hb, heq⟩
    · exact heq ▸ ih
    · exact ih.next hb heq

/-- What each step of a run keeps. -/
theorem invariant_of_run {P : σ → Prop} {as : List α}
    (hstep : ∀ s a t, P s → a ∈ as → step s a = some t → P t) {s t : σ} (hs : P s)
    (h : run step s as = some t) : P t := by
  induction as generalizing s with
  | nil => exact Option.some.inj h ▸ hs
  | cons a as ih =>
    obtain ⟨u, hu, hrest⟩ := run_cons.mp h
    exact ih (fun s b t hs hb => hstep s b t hs (List.mem_cons_of_mem a hb))
      (hstep s a u hs List.mem_cons_self hu) hrest

/-- A run whose steps all lower a measure takes no more steps than that. -/
theorem length_le_measure {P : σ → Prop} {measure : σ → ℕ} {as : List α}
    (hstep : ∀ s a t, P s → a ∈ as → step s a = some t → P t ∧ measure t < measure s) {s t : σ}
    (hs : P s) (h : run step s as = some t) : as.length + measure t ≤ measure s := by
  induction as generalizing s with
  | nil => exact Option.some.inj h ▸ Nat.le_of_eq (Nat.zero_add _)
  | cons a as ih =>
    obtain ⟨u, hu, hrest⟩ := run_cons.mp h
    obtain ⟨hPu, hlt⟩ := hstep s a u hs List.mem_cons_self hu
    have hle := ih (fun s b t hs hb => hstep s b t hs (List.mem_cons_of_mem a hb)) hPu hrest
    rw [List.length_cons]
    omega

/-! ## Runs that are broken off -/

section Outcome

variable {τ ε : Type} {stepE : σ → α → Option (Except ε σ)} {stepE' : τ → α → Option (Except ε τ)}
  {R : σ → τ → Prop} {s : σ} {t : τ}

/-- The state after the actions, in order, unless one of them is not possible or breaks the run
off. -/
def runExcept (step : σ → α → Option (Except ε σ)) : σ → List α → Option (Except ε σ)
  | s, [] => some (.ok s)
  | s, a :: as =>
    match step s a with
    | some (.ok t) => runExcept step t as
    | some (.error e) => some (.error e)
    | none => none

/-- Two outcomes are the same, up to the relation between the states. -/
inductive SameOutcome (R : σ → τ → Prop) : Option (Except ε σ) → Option (Except ε τ) → Prop
  | fault : SameOutcome R none none
  | exit (e : ε) : SameOutcome R (some (.error e)) (some (.error e))
  | ok {s : σ} {t : τ} : R s t → SameOutcome R (some (.ok s)) (some (.ok t))

theorem runExcept_append {s' : σ} {as : List α} (h : runExcept stepE s as = some (.ok s'))
    (bs : List α) : runExcept stepE s (as ++ bs) = runExcept stepE s' bs := by
  induction as generalizing s with
  | nil =>
    obtain rfl : s = s' := Except.ok.inj (Option.some.inj h)
    rfl
  | cons a as ih =>
    rw [List.cons_append, runExcept]
    rw [runExcept] at h
    generalize stepE s a = r at h ⊢
    rcases r with _ | e | u
    · cases h
    · cases h
    · exact ih h

theorem SameOutcome.exists_ok {r : Option (Except ε σ)} (h : SameOutcome R r (some (.ok t))) :
    ∃ s, r = some (.ok s) ∧ R s t := by
  cases h with
  | ok hst => exact ⟨_, rfl, hst⟩

/-- What holds step by step holds of the runs. -/
theorem sameOutcome_run
    (hstep : ∀ s t a, R s t → SameOutcome R (stepE s a) (stepE' t a)) (h : R s t) (as : List α) :
    SameOutcome R (runExcept stepE s as) (runExcept stepE' t as) := by
  induction as generalizing s t with
  | nil => exact .ok h
  | cons a as ih =>
    have hfirst := hstep s t a h
    rw [runExcept, runExcept]
    generalize stepE s a = r, stepE' t a = r' at hfirst
    cases hfirst with
    | fault => exact .fault
    | exit e => exact .exit e
    | ok hst => exact ih hst

end Outcome

end Transition
