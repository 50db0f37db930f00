import MpegtsReader.Player

/-!
# What a step of the player does to plays and slots

`Turn` lists all that a step can do to the stages of the plays and to the tasks, with what was true
before it; `turn_of_step` is the only place where the operations are unfolded for that. `Owned` is
the form of most invariants: of the plays of one slot at most one is at certain stages, and the slot
is then as that play needs it.
-/

namespace MpegtsReader

open Transition

variable {κ α : Type} {s t : PlayerState κ α}

/-! ## Stages -/

namespace Stage

/-- From `GST_TASK_STATE_START` to the cleanup, the refusal or, after a failure,
`play_task_callback`. -/
def occupies : Stage → Bool
  | claimed | queued | handling | bound | ready | looped | running => true
  | ended res | returned res => res ≠ .success
  | _ => false

/-- The play has got to its slot. -/
def past : Stage → Bool
  | none | numbered => false
  | _ => true

/-- The steps that leave the slots alone. -/
inductive Passes : Stage → Stage → Prop
  | refuse : Passes numbered refused
  | queue : Passes claimed queued
  | take : Passes queued handling
  | bus : Passes handling bound
  | start : Passes bound ready
  | fail : Passes bound (ended .errUnableToPlay)
  | cancel : Passes ready (ended .errCanceled)
  | run : Passes looped running

/-- A play that has its slot goes on. -/
inductive Goes : Stage → Stage → Prop
  | pass {f g : Stage} : f.Passes g → Goes f g
  | refuse : Goes claimed refused
  | loop : Goes ready looped
  | cleanup : Goes running (ended .success)
  | callback (res : PlayResult) : Goes (ended res) (returned res)
  | complete (res : PlayResult) : Goes (returned res) (done res)

theorem Passes.occupies {f g : Stage} (h : f.Passes g) : g.occupies = f.occupies := by
  cases h <;> rfl

theorem Goes.past {f g : Stage} (h : f.Goes g) : g.past = true := by
  cases h with
  | pass h => cases h <;> rfl
  | _ => rfl

theorem Goes.ne_none {f g : Stage} (h : f.Goes g) : f ≠ none := by
  cases h with
  | pass h => cases h <;> nofun
  | _ => nofun

theorem Goes.occupies {f g : Stage} (h : f.Goes g) (hg : g.occupies) : f.occupies := by
  cases h with
  | pass h => exact h.occupies ▸ hg
  | refuse => cases hg
  | loop => rfl
  | cleanup => cases hg
  | callback res => exact hg
  | complete res => cases hg

theorem past_of_occupies {f : Stage} (h : f.occupies) : f.past := by
  cases f <;> first | rfl | cases h

end Stage

/-! ## Steps -/

/-- What a step does to the stages and the tasks. -/
inductive Turn (s t : PlayerState κ α) : PlayerAction κ α → Prop
  | same {a : PlayerAction κ α} : t.stage = s.stage → t.tasks = s.tasks → Turn s t a
  | number {request : PlayRequest κ α} :
    t.stage = Function.update s.stage s.id .numbered → t.tasks = s.tasks → Turn s t (.play request)
  | pass {a : PlayerAction κ α} {n : ℕ} {g : Stage} : (s.stage n).Passes g →
    t.stage = Function.update s.stage n g → t.tasks = s.tasks → Turn s t a
  | claim {n : ℕ} {launched : Bool} : s.stage n = .numbered →
    (s.tasks (taskIndex n)).state = .idle →
    t.stage = Function.update s.stage n .claimed →
    t.tasks = Function.update s.tasks (taskIndex n) (s.claimedTask n launched) →
    Turn s t (.claim n launched)
  | refuse {n : ℕ} : s.stage n = .claimed →
    t.stage = Function.update s.stage n .refused →
    t.tasks = Function.update s.tasks (taskIndex n)
      { s.tasks (taskIndex n) with state := .idle } →
    Turn s t (.submit n false)
  | loop {n : ℕ} : s.stage n = .ready → (s.tasks (taskIndex n)).state ≠ .cancel →
    t.stage = Function.update s.stage n .looped →
    t.tasks = Function.update s.tasks (taskIndex n)
      { s.tasks (taskIndex n) with state := .playing, loop := some n } →
    Turn s t (.check n)
  | cleanup {n : ℕ} : s.stage n = .running →
    t.stage = Function.update s.stage n (.ended .success) →
    t.tasks = Function.update s.tasks (taskIndex n)
      { s.tasks (taskIndex n) with pipeline := none, loop := none, state := .idle } →
    Turn s t (.cleanup n)
  | callback {n : ℕ} {res : PlayResult} : s.stage n = .ended res →
    t.stage = Function.update s.stage n (.returned res) → t.tasks = s.tasks →
    Turn s t (.callback n res)
  | complete {n : ℕ} {res : PlayResult} : s.stage n = .returned res →
    t.stage = Function.update s.stage n (.done res) →
    t.tasks = Function.update s.tasks (taskIndex n)
      { s.tasks (taskIndex n) with state := .idle } →
    Turn s t (.complete n res)
  | stop {playTaskId : ℤ} : (s.tasks (taskIndex playTaskId)).state ≠ .idle → t.stage = s.stage →
    t.tasks = Function.update s.tasks (taskIndex playTaskId)
      { s.tasks (taskIndex playTaskId) with state := .cancel } →
    Turn s t (.stop playTaskId)

theorem handleCall_eq (s : PlayerState κ α) :
    ∃ uses dispatch, s.handleCall = { s with uses, dispatch } := by
  unfold PlayerState.handleCall
  split <;> exact ⟨_, _, rfl⟩

theorem changeState_eq (s : PlayerState κ α) (playTaskId : ℤ) (state : GstState) :
    ∃ uses taskLock, s.changeState playTaskId state = { s with uses, taskLock } := by
  unfold PlayerState.changeState
  dsimp only
  split_ifs <;> exact ⟨_, _, rfl⟩

theorem turn_of_step {a : PlayerAction κ α} (h : playerStep s a = some t) : Turn s t a := by
  obtain ⟨hcan, rfl⟩ := playerStep_eq_some.mp h
  cases a with
  | play request => exact .number rfl rfl
  | claim n launched =>
    obtain ⟨hn, _⟩ := of_decide_eq_true hcan
    show Turn s (s.playClaim n launched) _
    unfold PlayerState.playClaim
    dsimp only
    split_ifs with hidle
    · exact .pass (hn ▸ .refuse) rfl rfl
    · exact .claim hn (not_not.mp hidle) rfl rfl
  | submit n accepted =>
    obtain ⟨hn, _⟩ := of_decide_eq_true hcan
    cases accepted with
    | true => exact .pass (hn ▸ .queue) rfl rfl
    | false => exact .refuse hn rfl rfl
  | take n =>
    obtain ⟨hn, _⟩ := of_decide_eq_true hcan
    exact .pass (hn ▸ .take) rfl rfl
  | bus n => exact .pass (of_decide_eq_true hcan ▸ .bus) rfl rfl
  | start n changed =>
    have hn := of_decide_eq_true hcan
    cases changed with
    | true => exact .pass (hn ▸ .start) rfl rfl
    | false => exact .pass (hn ▸ .fail) rfl rfl
  | check n =>
    obtain ⟨hn, _⟩ := of_decide_eq_true hcan
    show Turn s (s.handleCheck n) _
    unfold PlayerState.handleCheck
    dsimp only
    split_ifs with hcancel
    · exact .loop hn hcancel rfl rfl
    · exact .pass (hn ▸ .cancel) rfl rfl
  | run n => exact .pass (of_decide_eq_true hcan ▸ .run) rfl rfl
  | message m n msg => exact .same rfl rfl
  | deliver m =>
    obtain ⟨_, _, heq⟩ := handleCall_eq s
    exact .same (congrArg (·.stage) heq) (congrArg (·.tasks) heq)
  | cleanup n =>
    obtain ⟨hn, _⟩ := of_decide_eq_true hcan
    exact .cleanup hn rfl rfl
  | callback n res =>
    have hn := of_decide_eq_true hcan
    show Turn s (s.handleCallback n res) _
    unfold PlayerState.handleCallback
    dsimp only
    split
    · exact .callback hn rfl rfl
    · exact .callback hn rfl rfl
  | complete n res =>
    obtain ⟨hn, _⟩ := of_decide_eq_true hcan
    exact .complete hn rfl rfl
  | seek playTaskId msOffset => exact .same rfl rfl
  | stop playTaskId =>
    show Turn s (s.gstPlayerStop playTaskId) _
    unfold PlayerState.gstPlayerStop
    dsimp only
    split_ifs with hidle
    · exact .same rfl rfl
    · exact .stop hidle rfl rfl
  | pause playTaskId =>
    obtain ⟨_, _, heq⟩ := changeState_eq s playTaskId .paused
    exact .same (congrArg (·.stage) heq) (congrArg (·.tasks) heq)
  | resume playTaskId =>
    obtain ⟨_, _, heq⟩ := changeState_eq s playTaskId .playing
    exact .same (congrArg (·.stage) heq) (congrArg (·.tasks) heq)
  | isPlaying playTaskId => exact .same rfl rfl

/-- What only some kinds of steps change. -/
structure Kept (s t : PlayerState κ α) (a : PlayerAction κ α) : Prop where
  requests : (∀ request, a ≠ .play request) → t.id = s.id ∧ t.requests = s.requests
  outcomes : (∀ n res, a ≠ .callback n res) → t.outcomes = s.outcomes
  cancelled : (∀ playTaskId, a ≠ .stop playTaskId) → t.cancelled = s.cancelled
  freed : (∀ n, a ≠ .submit n false) → (∀ n, a ≠ .cleanup n) →
    t.freedPipelines = s.freedPipelines ∧ t.freedLoops = s.freedLoops

theorem kept_of_step {a : PlayerAction κ α} (h : playerStep s a = some t) : Kept s t a := by
  obtain ⟨-, rfl⟩ := playerStep_eq_some.mp h
  cases a with
  | play request =>
    exact ⟨fun ha => absurd rfl (ha request), fun _ => rfl, fun _ => rfl, fun _ _ => ⟨rfl, rfl⟩⟩
  | claim n launched =>
    show Kept s (s.playClaim n launched) _
    unfold PlayerState.playClaim
    dsimp only
    split_ifs <;> exact ⟨fun _ => ⟨rfl, rfl⟩, fun _ => rfl, fun _ => rfl, fun _ _ => ⟨rfl, rfl⟩⟩
  | submit n accepted =>
    cases accepted with
    | true => exact ⟨fun _ => ⟨rfl, rfl⟩, fun _ => rfl, fun _ => rfl, fun _ _ => ⟨rfl, rfl⟩⟩
    | false => exact ⟨fun _ => ⟨rfl, rfl⟩, fun _ => rfl, fun _ => rfl, fun ha => absurd rfl (ha n)⟩
  | check n =>
    show Kept s (s.handleCheck n) _
    unfold PlayerState.handleCheck
    dsimp only
    split_ifs <;> exact ⟨fun _ => ⟨rfl, rfl⟩, fun _ => rfl, fun _ => rfl, fun _ _ => ⟨rfl, rfl⟩⟩
  | deliver m =>
    obtain ⟨_, _, heq⟩ := handleCall_eq s
    show Kept s s.handleCall _
    rw [heq]
    exact ⟨fun _ => ⟨rfl, rfl⟩, fun _ => rfl, fun _ => rfl, fun _ _ => ⟨rfl, rfl⟩⟩
  | cleanup n =>
    show Kept s (s.handleCleanup n) _
    unfold PlayerState.handleCleanup
    dsimp only [PlayerState.lockTask, PlayerState.use, PlayerState.setTask, PlayerState.unlockTask,
      PlayerState.move]
    exact ⟨fun _ => ⟨rfl, rfl⟩, fun _ => rfl, fun _ => rfl, fun _ ha => absurd rfl (ha n)⟩
  | callback n res =>
    show Kept s (s.handleCallback n res) _
    unfold PlayerState.handleCallback
    dsimp only
    split <;> exact ⟨fun _ => ⟨rfl, rfl⟩, fun ha => absurd rfl (ha n res), fun _ => rfl,
      fun _ _ => ⟨rfl, rfl⟩⟩
  | stop playTaskId =>
    show Kept s (s.gstPlayerStop playTaskId) _
    unfold PlayerState.gstPlayerStop
    dsimp only
    split_ifs <;> exact ⟨fun _ => ⟨rfl, rfl⟩, fun _ => rfl, fun ha => absurd rfl (ha playTaskId),
      fun _ _ => ⟨rfl, rfl⟩⟩
  | pause playTaskId =>
    obtain ⟨_, _, heq⟩ := changeState_eq s playTaskId .paused
    show Kept s (s.changeState playTaskId .paused) _
    rw [heq]
    exact ⟨fun _ => ⟨rfl, rfl⟩, fun _ => rfl, fun _ => rfl, fun _ _ => ⟨rfl, rfl⟩⟩
  | resume playTaskId =>
    obtain ⟨_, _, heq⟩ := changeState_eq s playTaskId .playing
    show Kept s (s.changeState playTaskId .playing) _
    rw [heq]
    exact ⟨fun _ => ⟨rfl, rfl⟩, fun _ => rfl, fun _ => rfl, fun _ _ => ⟨rfl, rfl⟩⟩
  | _ => exact ⟨fun _ => ⟨rfl, rfl⟩, fun _ => rfl, fun _ => rfl, fun _ _ => ⟨rfl, rfl⟩⟩

/-- Only a new call of `gst_player_play` changes the counter and the requests. -/
theorem requests_of_step {a : PlayerAction κ α} (h : playerStep s a = some t) :
    (∃ request, a = .play request ∧ t.id = s.id + 1 ∧
      t.requests = Function.update s.requests s.id request) ∨
    (t.id = s.id ∧ t.requests = s.requests) := by
  by_cases hplay : ∃ request, a = .play request
  · obtain ⟨request, rfl⟩ := hplay
    obtain ⟨-, rfl⟩ := playerStep_eq_some.mp h
    exact .inl ⟨request, rfl, rfl, rfl⟩
  · exact .inr ((kept_of_step h).requests fun request ha => hplay ⟨request, ha⟩)

/-! ## Slots and their plays -/

section Update

variable {n m : ℕ} {g : Stage}

theorem stage_self (h : t.stage = Function.update s.stage n g) : t.stage n = g := by
  rw [h, Function.update_self]

theorem stage_of_ne (h : t.stage = Function.update s.stage n g) (hm : m ≠ n) :
    t.stage m = s.stage m := by
  rw [h, Function.update_of_ne hm]

variable {i j : Fin 2} {task : PlayTask κ α}

theorem tasks_self (h : t.tasks = Function.update s.tasks i task) : t.tasks i = task := by
  rw [h, Function.update_self]

theorem tasks_of_ne (h : t.tasks = Function.update s.tasks i task) (hj : j ≠ i) :
    t.tasks j = s.tasks j := by
  rw [h, Function.update_of_ne hj]

end Update

/-- Of the plays of one slot at most one is at a stage of `P`, and the slot is then as `R` says. -/
structure Owned (P : Stage → Bool) (R : ℕ → Stage → PlayTask κ α → Prop) (s : PlayerState κ α) :
    Prop where
  alone : ∀ m n : ℕ, taskIndex m = taskIndex n → P (s.stage m) → P (s.stage n) → m = n
  holds : ∀ n : ℕ, P (s.stage n) → R n (s.stage n) (s.tasks (taskIndex n))

namespace Owned

variable {P : Stage → Bool} {R : ℕ → Stage → PlayTask κ α → Prop} {n : ℕ} {g : Stage}
  {task : PlayTask κ α}

theorem others (h : Owned P R s) (hn : P (s.stage n)) (m : ℕ) (hm : m ≠ n)
    (hslot : taskIndex m = taskIndex n) : ¬ P (s.stage m) :=
  fun hP => hm (h.alone m n hslot hP hn)

theorem same (h : Owned P R s) (hstage : t.stage = s.stage) (htasks : t.tasks = s.tasks) :
    Owned P R t where
  alone := by
    rw [hstage]
    exact h.alone
  holds := by
    rw [hstage, htasks]
    exact h.holds

/-- A store to a slot that is no play's, or that of the play which goes on. -/
theorem store (h : Owned P R s) (hstage : t.stage = Function.update s.stage n g)
    (htasks : t.tasks = Function.update s.tasks (taskIndex n) task)
    (hothers : ∀ m : ℕ, m ≠ n → taskIndex m = taskIndex n → ¬ P (s.stage m))
    (hR : P g → R n g task) : Owned P R t where
  alone l m hslot hl hm := by
    by_cases hln : l = n <;> by_cases hmn : m = n
    · rw [hln, hmn]
    · rw [stage_of_ne hstage hmn] at hm
      exact absurd hm (hothers m hmn (hln ▸ hslot.symm))
    · rw [stage_of_ne hstage hln] at hl
      exact absurd hl (hothers l hln (hmn ▸ hslot))
    · rw [stage_of_ne hstage hln] at hl
      rw [stage_of_ne hstage hmn] at hm
      exact h.alone l m hslot hl hm
  holds m hm := by
    by_cases hmn : m = n
    · subst hmn
      rw [stage_self hstage] at hm ⊢
      rw [tasks_self htasks]
      exact hR hm
    · rw [stage_of_ne hstage hmn] at hm ⊢
      have hslot : taskIndex m ≠ taskIndex n := fun hslot => hothers m hmn hslot hm
      rw [tasks_of_ne htasks hslot]
      exact h.holds m hm

/-- A play goes on and leaves its slot as it is. -/
theorem pass (h : Owned P R s) (hstage : t.stage = Function.update s.stage n g)
    (htasks : t.tasks = s.tasks) (hP : P g → P (s.stage n))
    (hR : P g → R n (s.stage n) (s.tasks (taskIndex n)) → R n g (s.tasks (taskIndex n))) :
    Owned P R t where
  alone l m hslot hl hm := by
    have hold : ∀ k, P (t.stage k) → P (s.stage k) := fun k hk => by
      by_cases hkn : k = n
      · subst hkn
        exact hP (stage_self hstage ▸ hk)
      · exact stage_of_ne hstage hkn ▸ hk
    exact h.alone l m hslot (hold l hl) (hold m hm)
  holds m hm := by
    rw [htasks]
    by_cases hmn : m = n
    · subst hmn
      rw [stage_self hstage] at hm ⊢
      exact hR hm (h.holds m (hP hm))
    · rw [stage_of_ne hstage hmn] at hm ⊢
      exact h.holds m hm

/-- A store by someone else. -/
theorem change (h : Owned P R s) {i : Fin 2} (hstage : t.stage = s.stage)
    (htasks : t.tasks = Function.update s.tasks i task)
    (hR : ∀ n : ℕ, taskIndex n = i → R n (s.stage n) (s.tasks i) → R n (s.stage n) task) :
    Owned P R t where
  alone := by
    rw [hstage]
    exact h.alone
  holds m hm := by
    rw [hstage] at hm ⊢
    by_cases hmi : taskIndex m = i
    · rw [hmi, tasks_self htasks]
      exact hR m hmi (hmi ▸ h.holds m hm)
    · rw [tasks_of_ne htasks hmi]
      exact h.holds m hm

end Owned

/-! ## What holds in every run -/

/-- Ids are new, a slot that is not idle has a play that occupies it, and an occupied slot holds the
id of a play that has got to it. -/
structure PlayInv (s : PlayerState κ α) : Prop where
  fresh : ∀ n, s.id ≤ n → s.stage n = .none
  busy : ∀ i, (s.tasks i).state ≠ .idle → ∃ n : ℕ, taskIndex n = i ∧ (s.stage n).occupies
  named : ∀ n : ℕ, (s.stage n).occupies →
    taskIndex (s.tasks (taskIndex n)).id = taskIndex n ∧ (s.stage (s.tasks (taskIndex n)).id).past

theorem playInv_init : PlayInv (PlayerState.init : PlayerState κ α) where
  fresh _ _ := rfl
  busy _ h := absurd rfl h
  named _ h := nomatch h

/-- Whose stage a step changes, and how. -/
theorem Turn.stage_cases {a : PlayerAction κ α} (h : Turn s t a) (n : ℕ) :
    t.stage n = s.stage n ∨ (s.stage n).Goes (t.stage n) ∨
    (n = s.id ∧ t.stage n = .numbered ∧ ∃ request, a = .play request) ∨
    (s.stage n = .numbered ∧ ∃ launched, a = .claim n launched ∧
      t.stage = Function.update s.stage n .claimed ∧
      t.tasks = Function.update s.tasks (taskIndex n) (s.claimedTask n launched)) := by
  have moved : ∀ {m : ℕ} {f g : Stage}, s.stage m = f → t.stage = Function.update s.stage m g →
      f.Goes g → t.stage n = s.stage n ∨ (s.stage n).Goes (t.stage n) := by
    intro m f g hm hstage hg
    by_cases hnm : n = m
    · subst hnm
      rw [stage_self hstage, hm]
      exact .inr hg
    · exact .inl (stage_of_ne hstage hnm)
  cases h with
  | same hstage _ => exact .inl (congrFun hstage n)
  | number hstage _ =>
    by_cases hn : n = s.id
    · exact .inr (.inr (.inl ⟨hn, hn ▸ stage_self hstage, _, rfl⟩))
    · exact .inl (stage_of_ne hstage hn)
  | @claim m launched hm _ hstage htasks =>
    by_cases hnm : n = m
    · subst hnm
      exact .inr (.inr (.inr ⟨hm, launched, rfl, hstage, htasks⟩))
    · exact .inl (stage_of_ne hstage hnm)
  | pass hpass hstage _ => exact (moved rfl hstage (.pass hpass)).imp_right .inl
  | refuse hm hstage _ => exact (moved hm hstage .refuse).imp_right .inl
  | loop hm _ hstage _ => exact (moved hm hstage .loop).imp_right .inl
  | cleanup hm hstage _ => exact (moved hm hstage .cleanup).imp_right .inl
  | callback hm hstage _ => exact (moved hm hstage (.callback _)).imp_right .inl
  | complete hm hstage _ => exact (moved hm hstage (.complete _)).imp_right .inl
  | stop _ hstage _ => exact .inl (congrFun hstage n)

/-- Where a play is at a stage of `Q` it was so before, or it has just got to its slot. -/
theorem Turn.back {a : PlayerAction κ α} (h : Turn s t a) {Q : Stage → Bool}
    (hQ : ∀ f g : Stage, f.Goes g → Q g → Q f) (hnumbered : ¬ Q .numbered) {n : ℕ}
    (hn : Q (t.stage n)) : Q (s.stage n) ∨ ∃ launched, a = .claim n launched ∧
      t.stage = Function.update s.stage n .claimed ∧
      t.tasks = Function.update s.tasks (taskIndex n) (s.claimedTask n launched) := by
  rcases h.stage_cases n with hsame | hgoes | ⟨_, hnum, _⟩ | ⟨_, hclaim⟩
  · exact .inl (hsame ▸ hn)
  · exact .inl (hQ _ _ hgoes hn)
  · exact absurd (hnum ▸ hn) hnumbered
  · exact .inr hclaim

theorem PlayInv.past_of_turn (h : PlayInv s) {a : PlayerAction κ α} (hturn : Turn s t a) {n : ℕ}
    (hn : (s.stage n).past) : (t.stage n).past := by
  rcases hturn.stage_cases n with hsame | hgoes | ⟨rfl, _⟩ | ⟨hnum, _⟩
  · rwa [hsame]
  · exact hgoes.past
  · rw [h.fresh _ (Nat.le_refl _)] at hn
    cases hn
  · rw [hnum] at hn
    cases hn

/-- Only `gst_player_play` changes what the callback of a slot is and what it is called with. -/
theorem Turn.task_cases {a : PlayerAction κ α} (h : Turn s t a) (i : Fin 2) :
    ((t.tasks i).id = (s.tasks i).id ∧ (t.tasks i).callback = (s.tasks i).callback ∧
      (t.tasks i).cbArg = (s.tasks i).cbArg) ∨
    ∃ n launched, a = .claim n launched ∧ taskIndex n = i ∧ (s.tasks i).state = .idle ∧
      t.stage = Function.update s.stage n .claimed ∧ t.tasks i = s.claimedTask n launched := by
  have kept : ∀ {j : Fin 2} {task : PlayTask κ α}, t.tasks = Function.update s.tasks j task →
      task.id = (s.tasks j).id → task.callback = (s.tasks j).callback →
      task.cbArg = (s.tasks j).cbArg → (t.tasks i).id = (s.tasks i).id ∧
        (t.tasks i).callback = (s.tasks i).callback ∧ (t.tasks i).cbArg = (s.tasks i).cbArg := by
    intro j task htasks hid hcallback harg
    by_cases hij : i = j
    · subst hij
      rw [tasks_self htasks]
      exact ⟨hid, hcallback, harg⟩
    · rw [tasks_of_ne htasks hij]
      exact ⟨rfl, rfl, rfl⟩
  cases h with
  | same _ htasks => exact .inl (by rw [htasks]; exact ⟨rfl, rfl, rfl⟩)
  | number _ htasks => exact .inl (by rw [htasks]; exact ⟨rfl, rfl, rfl⟩)
  | pass _ _ htasks => exact .inl (by rw [htasks]; exact ⟨rfl, rfl, rfl⟩)
  | @claim n launched _ hidle hstage htasks =>
    by_cases hij : i = taskIndex n
    · subst hij
      exact .inr ⟨n, launched, rfl, rfl, hidle, hstage, tasks_self htasks⟩
    · rw [tasks_of_ne htasks hij]
      exact .inl ⟨rfl, rfl, rfl⟩
  | refuse _ _ htasks => exact .inl (kept htasks rfl rfl rfl)
  | loop _ _ _ htasks => exact .inl (kept htasks rfl rfl rfl)
  | cleanup _ _ htasks => exact .inl (kept htasks rfl rfl rfl)
  | callback _ _ htasks => exact .inl (by rw [htasks]; exact ⟨rfl, rfl, rfl⟩)
  | complete _ _ htasks => exact .inl (kept htasks rfl rfl rfl)
  | stop _ _ htasks => exact .inl (kept htasks rfl rfl rfl)

theorem PlayInv.fresh_step (h : PlayInv s) {a : PlayerAction κ α} (hstep : playerStep s a = some t)
    (n : ℕ) (hn : t.id ≤ n) : t.stage n = .none := by
  have hid : s.id ≤ t.id ∧ ((∃ request, a = .play request) → t.id = s.id + 1) := by
    rcases requests_of_step hstep with ⟨_, _, hid, _⟩ | ⟨hid, _⟩
    · exact ⟨by omega, fun _ => hid⟩
    · refine ⟨Nat.le_of_eq hid.symm, ?_⟩
      rintro ⟨request, rfl⟩
      obtain ⟨-, rfl⟩ := playerStep_eq_some.mp hstep
      rfl
  have hnone := h.fresh n (Nat.le_trans hid.1 hn)
  rcases (turn_of_step hstep).stage_cases n with hsame | hgoes | ⟨rfl, _, hplay⟩ | ⟨hnum, _⟩
  · rw [hsame, hnone]
  · exact absurd hnone hgoes.ne_none
  · have := hid.2 hplay
    omega
  · cases hnum.symm.trans hnone

/-! A busy slot has a play in it that occupies it. -/

section Busy

variable {m n : ℕ} {g : Stage} {task : PlayTask κ α} {i : Fin 2}

/-- A play that goes on leaves the slot of another as it is. -/
theorem PlayInv.busy_other (h : PlayInv s) (hm : taskIndex m ≠ i)
    (hstage : t.stage = Function.update s.stage m g)
    (htasks : t.tasks = Function.update s.tasks (taskIndex m) task)
    (hi : (t.tasks i).state ≠ .idle) : ∃ n : ℕ, taskIndex n = i ∧ (t.stage n).occupies := by
  rw [tasks_of_ne htasks hm.symm] at hi
  obtain ⟨n, rfl, hn⟩ := h.busy i hi
  have hnm : n ≠ m := by
    rintro rfl
    exact hm rfl
  exact ⟨n, rfl, (stage_of_ne hstage hnm).symm ▸ hn⟩

/-- A slot that is idle now is not the busy one. -/
theorem PlayInv.busy_idle (h : PlayInv s) (htask : task.state = .idle)
    (hstage : t.stage = Function.update s.stage m g)
    (htasks : t.tasks = Function.update s.tasks (taskIndex m) task)
    (hi : (t.tasks i).state ≠ .idle) : ∃ n : ℕ, taskIndex n = i ∧ (t.stage n).occupies := by
  refine h.busy_other (fun hm => hi ?_) hstage htasks hi
  rw [← hm, tasks_self htasks]
  exact htask

/-- A slot that is written by a play that occupies it then. -/
theorem PlayInv.busy_now (h : PlayInv s) (hg : g.occupies)
    (hstage : t.stage = Function.update s.stage m g)
    (htasks : t.tasks = Function.update s.tasks (taskIndex m) task)
    (hi : (t.tasks i).state ≠ .idle) : ∃ n : ℕ, taskIndex n = i ∧ (t.stage n).occupies := by
  by_cases hm : taskIndex m = i
  · exact ⟨m, hm, (stage_self hstage).symm ▸ hg⟩
  · exact h.busy_other hm hstage htasks hi

theorem occupies_of_update (hstage : t.stage = Function.update s.stage m g)
    (hg : g.occupies = (s.stage m).occupies) (hn : (s.stage n).occupies) :
    (t.stage n).occupies := by
  by_cases hnm : n = m
  · subst hnm
    rwa [stage_self hstage, hg]
  · rwa [stage_of_ne hstage hnm]

end Busy

theorem PlayInv.busy_step (h : PlayInv s) {a : PlayerAction κ α} (hturn : Turn s t a) (i : Fin 2)
    (hi : (t.tasks i).state ≠ .idle) : ∃ n : ℕ, taskIndex n = i ∧ (t.stage n).occupies := by
  cases hturn with
  | same hstage htasks =>
    rw [hstage]
    exact h.busy i (htasks ▸ hi)
  | number hstage htasks =>
    obtain ⟨n, hni, hn⟩ := h.busy i (htasks ▸ hi)
    have hne : n ≠ s.id := by
      rintro rfl
      rw [h.fresh _ (Nat.le_refl _)] at hn
      cases hn
    exact ⟨n, hni, (stage_of_ne hstage hne).symm ▸ hn⟩
  | @pass _ m g hpass hstage htasks =>
    obtain ⟨n, hni, hn⟩ := h.busy i (htasks ▸ hi)
    exact ⟨n, hni, occupies_of_update hstage hpass.occupies hn⟩
  | claim _ _ hstage htasks => exact h.busy_now rfl hstage htasks hi
  | refuse _ hstage htasks => exact h.busy_idle rfl hstage htasks hi
  | loop _ _ hstage htasks => exact h.busy_now rfl hstage htasks hi
  | cleanup _ hstage htasks => exact h.busy_idle rfl hstage htasks hi
  | callback hm hstage htasks =>
    obtain ⟨n, hni, hn⟩ := h.busy i (htasks ▸ hi)
    exact ⟨n, hni, occupies_of_update hstage (by rw [hm]; rfl) hn⟩
  | complete _ hstage htasks => exact h.busy_idle rfl hstage htasks hi
  | @stop playTaskId hidle hstage htasks =>
    rw [hstage]
    by_cases hij : i = taskIndex playTaskId
    · subst hij
      exact h.busy _ hidle
    · exact h.busy i (tasks_of_ne htasks hij ▸ hi)

theorem PlayInv.named_step (h : PlayInv s) {a : PlayerAction κ α} (hturn : Turn s t a) (n : ℕ)
    (hn : (t.stage n).occupies) :
    taskIndex (t.tasks (taskIndex n)).id = taskIndex n ∧
      (t.stage (t.tasks (taskIndex n)).id).past := by
  rcases hturn.task_cases (taskIndex n) with ⟨hid, _, _⟩ |
    ⟨m, launched, rfl, hslot, _, hstage, htask⟩
  · rcases hturn.back (fun _ _ => Stage.Goes.occupies) nofun hn with hold |
      ⟨launched, _, hstage, htasks⟩
    · obtain ⟨hslot, hpast⟩ := h.named n hold
      rw [hid]
      exact ⟨hslot, h.past_of_turn hturn hpast⟩
    · have htask := tasks_self htasks
      rw [htask]
      exact ⟨rfl, Stage.past_of_occupies hn⟩
  · rw [htask]
    exact ⟨hslot, (stage_self hstage).symm ▸ rfl⟩

theorem PlayInv.step (s : PlayerState κ α) (a : PlayerAction κ α) (t : PlayerState κ α)
    (h : PlayInv s) (hstep : playerStep s a = some t) : PlayInv t where
  fresh := h.fresh_step hstep
  busy := h.busy_step (turn_of_step hstep)
  named := h.named_step (turn_of_step hstep)

/-- In every run, whatever its steps meet. -/
theorem playInv_of_reachable {guard : PlayerState κ α → PlayerAction κ α → Prop}
    (h : Reachable playerStep guard PlayerState.init s) : PlayInv s :=
  h.invariant playInv_init fun s a t hs _ => PlayInv.step s a t hs

/-- The steps of a play that is neither refused nor fails, up to its loop. -/
def toLoop (n : ℕ) : List (PlayerAction κ α) :=
  [.claim n true, .submit n true, .take n, .bus n, .start n true, .check n, .run n]

end MpegtsReader
