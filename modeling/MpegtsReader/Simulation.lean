import Mathlib.Data.Nat.Notation

/-!
# Runs against a reference

A partial step function with results is compared with a reference that always has a next state and a
result. Its loops run on fuel. `Simulates` says of a run that with enough fuel it gives the results
of the reference and ends in a related state. It follows from the same for each step
(`simulates_of_eachTime`). Where steps need a condition for it, so does the run: on the reference
where a step fails without it (`simulates_iff`), or on the states themselves where it only comes to
a state that is not related (`simulates_prefixes_iff`).
-/

namespace Simulation

variable {σ τ α ρ : Type} {step : ℕ → σ → α → Option (σ × ρ)} {apply : τ → α → τ}
  {returns : τ → α → ρ} {R R' : σ → τ → Prop} {P : σ → τ → α → Prop} {Q : τ → α → Prop}
  {s s' : σ} {t : τ} {a : α} {as : List α}

/-- The actions in order, and their results. -/
def trace (step : σ → α → Option (σ × ρ)) : σ → List α → Option (σ × List ρ)
  | s, [] => some (s, [])
  | s, a :: as => do
    let (s, r) ← step s a
    let (s, rs) ← trace step s as
    some (s, r :: rs)

/-- The reference after the actions, and its results. -/
def replay (apply : τ → α → τ) (returns : τ → α → ρ) : τ → List α → τ × List ρ
  | t, [] => (t, [])
  | t, a :: as =>
    ((replay apply returns (apply t a) as).1,
      returns t a :: (replay apply returns (apply t a) as).2)

/-- Each action meets a condition on the reference when it is its turn. -/
def EachTime (apply : τ → α → τ) (Q : τ → α → Prop) : τ → List α → Prop
  | _, [] => True
  | t, a :: as => Q t a ∧ EachTime apply Q (apply t a) as

/-- Each action meets a condition on the state and the reference when it is its turn. -/
def Meets (step : ℕ → σ → α → Option (σ × ρ)) (apply : τ → α → τ) (P : σ → τ → α → Prop) :
    σ → τ → List α → Prop
  | _, _, [] => True
  | s, t, a :: as =>
    P s t a ∧ ∀ bound s' r, (∀ fuel > bound, step fuel s a = some (s', r)) →
      Meets step apply P s' (apply t a) as

/-- With enough fuel the action has the result of the reference, and the states are related
again. -/
def StepSimulates (step : ℕ → σ → α → Option (σ × ρ)) (apply : τ → α → τ) (returns : τ → α → ρ)
    (R : σ → τ → Prop) (s : σ) (t : τ) (a : α) : Prop :=
  ∃ bound s', (∀ fuel > bound, step fuel s a = some (s', returns t a)) ∧ R s' (apply t a)

/-- With enough fuel the actions have the results of the reference, and the states are related
afterwards. -/
def Simulates (step : ℕ → σ → α → Option (σ × ρ)) (apply : τ → α → τ) (returns : τ → α → ρ)
    (R : σ → τ → Prop) (s : σ) (t : τ) (as : List α) : Prop :=
  ∃ bound s', (∀ fuel > bound, trace (step fuel) s as = some (s', (replay apply returns t as).2)) ∧
    R s' (replay apply returns t as).1

theorem trace_cons {step : σ → α → Option (σ × ρ)} {r : ρ} (hstep : step s a = some (s', r))
    (as : List α) : trace step s (a :: as) = (trace step s' as).map (Prod.map id (r :: ·)) := by
  rw [trace, hstep]
  show (trace step s' as).bind _ = _
  cases trace step s' as <;> rfl

theorem trace_cons_of_none {step : σ → α → Option (σ × ρ)} (hstep : step s a = none)
    (as : List α) : trace step s (a :: as) = none := by
  rw [trace, hstep]
  rfl

theorem Simulates.mono (hsim : Simulates step apply returns R s t as)
    (hR : ∀ s t, R s t → R' s t) : Simulates step apply returns R' s t as := by
  obtain ⟨bound, s', htrace, hrel⟩ := hsim
  exact ⟨bound, s', htrace, hR _ _ hrel⟩

theorem simulates_cons {bound : ℕ}
    (hstep : ∀ fuel > bound, step fuel s a = some (s', returns t a)) :
    Simulates step apply returns R s t (a :: as) ↔
      Simulates step apply returns R s' (apply t a) as := by
  constructor
  · rintro ⟨bound', s₂, htrace, hrel⟩
    refine ⟨max bound bound', s₂, fun fuel hfuel => ?_, hrel⟩
    have hboth := htrace fuel (Nat.lt_of_le_of_lt (Nat.le_max_right ..) hfuel)
    rw [trace_cons (hstep fuel (Nat.lt_of_le_of_lt (Nat.le_max_left ..) hfuel))] at hboth
    obtain ⟨⟨s₃, rs⟩, hrest, heq⟩ := Option.map_eq_some_iff.mp hboth
    simp only [Prod.map, id, replay, Prod.mk.injEq, List.cons.injEq, true_and] at heq
    rw [hrest, heq.1, heq.2]
  · rintro ⟨bound', s₂, htrace, hrel⟩
    refine ⟨max bound bound', s₂, fun fuel hfuel => ?_, hrel⟩
    rw [trace_cons (hstep fuel (Nat.lt_of_le_of_lt (Nat.le_max_left ..) hfuel)),
      htrace fuel (Nat.lt_of_le_of_lt (Nat.le_max_right ..) hfuel)]
    rfl

/-- A run is simulated when each of its steps is. -/
theorem simulates_of_eachTime
    (hstep : ∀ s t a, R s t → Q t a → StepSimulates step apply returns R s t a)
    (hrel : R s t) (hQ : EachTime apply Q t as) : Simulates step apply returns R s t as := by
  induction as generalizing s t with
  | nil => exact ⟨0, s, fun _ _ => rfl, hrel⟩
  | cons a as ih =>
    obtain ⟨bound, s', heq, hrel'⟩ := hstep s t a hrel hQ.1
    exact (simulates_cons heq).mpr (ih hrel' hQ.2)

theorem simulates_singleton :
    Simulates step apply returns R s t [a] ↔ StepSimulates step apply returns R s t a := by
  constructor
  · rintro ⟨bound, s', htrace, hrel⟩
    refine ⟨bound, s', fun fuel hfuel => ?_, hrel⟩
    have hrun := htrace fuel hfuel
    cases hstep : step fuel s a with
    | none => exact absurd ((trace_cons_of_none hstep []).symm.trans hrun) nofun
    | some y =>
      rw [trace_cons hstep] at hrun
      obtain ⟨rfl, hr⟩ := Prod.mk.inj (Option.some.inj hrun)
      exact congrArg (fun r => some (y.1, r)) (List.cons.inj hr).1
  · rintro ⟨bound, s', heq, hrel⟩
    exact (simulates_cons heq).mpr ⟨0, s', fun _ _ => rfl, hrel⟩

/-- Where a step is simulated exactly under the condition `P`, a run is simulated all the way
exactly when each of its steps meets that. -/
theorem simulates_prefixes_iff
    (hstep : ∀ s t a, R s t → Q t a → (StepSimulates step apply returns R s t a ↔ P s t a))
    (hrel : R s t) (hQ : EachTime apply Q t as) :
    (∀ bs, bs <+: as → Simulates step apply returns R s t bs) ↔ Meets step apply P s t as := by
  induction as generalizing s t with
  | nil =>
    refine ⟨fun _ => trivial, fun _ bs hbs => ?_⟩
    rw [List.prefix_nil.mp hbs]
    exact ⟨0, s, fun _ _ => rfl, hrel⟩
  | cons a as ih =>
    constructor
    · intro hall
      have hsim := simulates_singleton.mp (hall [a] ⟨as, rfl⟩)
      refine ⟨(hstep s t a hrel hQ.1).mp hsim, fun bound s' r heq => ?_⟩
      obtain ⟨bound₁, s₁, heq₁, hrel₁⟩ := hsim
      have hfuel := Nat.lt_succ_self (max bound bound₁)
      have hboth := (heq _ (Nat.lt_of_le_of_lt (Nat.le_max_left ..) hfuel)).symm.trans
        (heq₁ _ (Nat.lt_of_le_of_lt (Nat.le_max_right ..) hfuel))
      obtain ⟨rfl, -⟩ := Prod.mk.inj (Option.some.inj hboth)
      exact (ih hrel₁ hQ.2).mp fun bs hbs =>
        (simulates_cons heq₁).mp (hall (a :: bs) (List.cons_prefix_cons.mpr ⟨rfl, hbs⟩))
    · rintro ⟨hP, hrest⟩ bs hbs
      obtain ⟨bound, s', heq, hrel'⟩ := (hstep s t a hrel hQ.1).mpr hP
      rcases List.prefix_cons_iff.mp hbs with rfl | ⟨cs, rfl, hcs⟩
      · exact ⟨0, s, fun _ _ => rfl, hrel⟩
      · exact (simulates_cons heq).mpr ((ih hrel' hQ.2).mpr (hrest bound s' _ heq) cs hcs)

theorem EachTime.and {Q' : τ → α → Prop} (h : EachTime apply Q t as) (h' : EachTime apply Q' t as) :
    EachTime apply (fun t a => Q t a ∧ Q' t a) t as := by
  induction as generalizing t with
  | nil => trivial
  | cons a as ih => exact ⟨⟨h.1, h'.1⟩, ih h.2 h'.2⟩

/-- A condition that follows on the states of an invariant. -/
theorem EachTime.of_invariant {I : τ → Prop} {Q' : τ → α → Prop}
    (hstep : ∀ t a, I t → Q t a → I (apply t a) ∧ Q' t a) (ht : I t)
    (h : EachTime apply Q t as) : EachTime apply Q' t as := by
  induction as generalizing t with
  | nil => trivial
  | cons a as ih =>
    obtain ⟨ht', hQ'⟩ := hstep t a ht h.1
    exact ⟨hQ', ih ht' h.2⟩

/-- Where a step outside the condition `Q'` has no result, a run of permitted actions is simulated
exactly when all of them meet it. -/
theorem simulates_iff {Q' : τ → α → Prop}
    (hstep : ∀ s t a, R s t → Q t a → Q' t a → StepSimulates step apply returns R s t a)
    (hfail : ∀ s t a, R s t → ¬Q' t a → ∀ fuel, step fuel s a = none)
    (hrel : R s t) (hQ : EachTime apply Q t as) :
    Simulates step apply returns R s t as ↔ EachTime apply Q' t as := by
  refine ⟨fun hsim => ?_, fun hQ' => ?_⟩
  · induction as generalizing s t with
    | nil => trivial
    | cons a as ih =>
      have ha : Q' t a := by
        refine Classical.byContradiction fun ha => ?_
        obtain ⟨bound, s', htrace, -⟩ := hsim
        have hnone := trace_cons_of_none (hfail s t a hrel ha (bound + 1)) as
        exact Option.some_ne_none _ ((htrace _ (Nat.lt_succ_self bound)).symm.trans hnone)
      obtain ⟨bound, s', heq, hrel'⟩ := hstep s t a hrel hQ.1 ha
      exact ⟨ha, ih hrel' hQ.2 ((simulates_cons heq).mp hsim)⟩
  · exact simulates_of_eachTime (fun s t a hrel h => hstep s t a hrel h.1 h.2) hrel (hQ.and hQ')

end Simulation
