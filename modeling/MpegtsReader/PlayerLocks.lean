import MpegtsReader.PlayerSteps

/-!
# Locks of the player

Every operation and every section of a worker gives back the locks that it takes, but for
`gst_player_pause` and `gst_player_resume`, which return from a slot that is idle with its lock
held.
-/

namespace MpegtsReader

open Transition

variable {κ α : Type} {s t : PlayerState κ α}

/-- No lock is held. -/
structure LocksFree (s : PlayerState κ α) : Prop where
  lock : s.lock = false
  taskLock : ∀ i, s.taskLock i = false

/-- Whatever is held, given back. -/
def PlayerState.unlocked (s : PlayerState κ α) : PlayerState κ α :=
  { s with lock := false, taskLock := fun _ => false }

/-- `gst_player_stop_all`, which takes these steps. -/
def gstPlayerStopAll : List (PlayerAction κ α) :=
  (List.range 2).map fun idx => .stop idx

/-- No lock is held, so that no operation and no worker waits for one, and `gst_player_stop_all`
returns with all of them given back. -/
structure Unblocked (s : PlayerState κ α) : Prop where
  free : LocksFree s
  waits : ∀ a, s.unlocked.canStep a → s.canStep a
  stopAll : ∃ t, run playerStep s gstPlayerStopAll = some t ∧ LocksFree t

/-- A task that is paused or resumed is not idle. -/
def Unlocks (s : PlayerState κ α) : PlayerAction κ α → Prop
  | .pause playTaskId | .resume playTaskId => (s.tasks (taskIndex playTaskId)).state ≠ .idle
  | _ => True

/-- A lock that is taken and given back. -/
theorem LocksFree.section (h : LocksFree s) {i : Fin 2} (hlock : t.lock = s.lock)
    (htask : t.taskLock = Function.update (Function.update s.taskLock i true) i false) :
    LocksFree t where
  lock := hlock.trans h.lock
  taskLock j := by
    rw [htask, Function.update_idem]
    by_cases hij : j = i
    · rw [hij, Function.update_self]
    · rw [Function.update_of_ne hij, h.taskLock]

theorem LocksFree.same (h : LocksFree s) (hlock : t.lock = s.lock)
    (htask : t.taskLock = s.taskLock) : LocksFree t :=
  ⟨hlock.trans h.lock, fun i => (congrFun htask i).trans (h.taskLock i)⟩

theorem changeState_locksFree (h : LocksFree s) (playTaskId : ℤ) (state : GstState) :
    LocksFree (s.changeState playTaskId state) ↔
      (s.tasks (taskIndex playTaskId)).state ≠ .idle := by
  unfold PlayerState.changeState
  dsimp only
  split_ifs with hidle
  · -- the lock of the slot is still held
    refine ⟨fun hfree => ?_, fun hbusy => absurd hidle hbusy⟩
    have hheld : (Function.update s.taskLock _ true) _ = false :=
      hfree.taskLock (taskIndex playTaskId)
    rw [Function.update_self] at hheld
    cases hheld
  · exact ⟨fun _ => hidle, fun _ => h.section rfl rfl⟩

/-- The locks after a step. -/
theorem locksFree_step_iff (h : LocksFree s) {a : PlayerAction κ α}
    (hstep : playerStep s a = some t) : LocksFree t ↔ Unlocks s a := by
  obtain ⟨-, rfl⟩ := playerStep_eq_some.mp hstep
  cases a with
  | play request => exact iff_of_true ⟨rfl, h.taskLock⟩ trivial
  | claim n launched =>
    refine iff_of_true ?_ trivial
    show LocksFree (s.playClaim n launched)
    unfold PlayerState.playClaim
    dsimp only
    split_ifs <;> exact h.section rfl rfl
  | submit n accepted => cases accepted <;> exact iff_of_true (h.section rfl rfl) trivial
  | check n =>
    refine iff_of_true ?_ trivial
    show LocksFree (s.handleCheck n)
    unfold PlayerState.handleCheck
    dsimp only
    split_ifs <;> exact h.section rfl rfl
  | deliver m =>
    obtain ⟨_, _, heq⟩ := handleCall_eq s
    refine iff_of_true ?_ trivial
    exact h.same (congrArg (·.lock) heq) (congrArg (·.taskLock) heq)
  | cleanup n => exact iff_of_true (h.section rfl rfl) trivial
  | callback n res =>
    refine iff_of_true ?_ trivial
    show LocksFree (s.handleCallback n res)
    unfold PlayerState.handleCallback
    dsimp only
    split <;> exact h.same rfl rfl
  | complete n res => exact iff_of_true (h.section rfl rfl) trivial
  | seek playTaskId msOffset => exact iff_of_true (h.section rfl rfl) trivial
  | stop playTaskId =>
    refine iff_of_true ?_ trivial
    show LocksFree (s.gstPlayerStop playTaskId)
    unfold PlayerState.gstPlayerStop
    dsimp only
    split_ifs <;> exact h.section rfl rfl
  | pause playTaskId => exact changeState_locksFree h playTaskId .paused
  | resume playTaskId => exact changeState_locksFree h playTaskId .playing
  | isPlaying playTaskId => exact iff_of_true (h.section rfl rfl) trivial
  | _ => exact iff_of_true (h.same rfl rfl) trivial

theorem LocksFree.unlocked_eq (h : LocksFree s) : s.unlocked = s := by
  have htask : (fun _ => false) = s.taskLock := funext fun i => (h.taskLock i).symm
  unfold PlayerState.unlocked
  rw [htask, ← h.lock]

theorem LocksFree.stop (h : LocksFree s) (playTaskId : ℤ) :
    ∃ t, playerStep s (.stop playTaskId) = some t ∧ LocksFree t := by
  have hstep : playerStep s (.stop playTaskId) = some (s.gstPlayerStop playTaskId) :=
    playerStep_eq_some.mpr ⟨decide_eq_true (h.taskLock _), rfl⟩
  exact ⟨_, hstep, (locksFree_step_iff h hstep).mpr trivial⟩

theorem LocksFree.unblocked (h : LocksFree s) : Unblocked s where
  free := h
  waits a ha := by rwa [h.unlocked_eq] at ha
  stopAll := by
    obtain ⟨u, hu, hfree⟩ := h.stop 0
    obtain ⟨t, ht, hfree⟩ := hfree.stop 1
    exact ⟨t, run_cons.mpr ⟨u, hu, run_cons.mpr ⟨t, ht, rfl⟩⟩, hfree⟩

/-- In every run in which no task is paused or resumed while it is idle, no lock is ever held
between two steps; and that is all: any other step gives back its locks, and these two keep one. -/
theorem unblocked_of_reachable (h : Reachable playerStep Unlocks PlayerState.init s) :
    Unblocked s ∧ ∀ a t, playerStep s a = some t → (LocksFree t ↔ Unlocks s a) := by
  have hfree : LocksFree s := h.invariant ⟨rfl, fun _ => rfl⟩ fun s a t hs hguard hstep =>
    (locksFree_step_iff hs hstep).mpr hguard
  exact ⟨hfree.unblocked, fun a t hstep => locksFree_step_iff hfree hstep⟩

/-- A play that is stopped. -/
theorem unblocked_onePlay : ∃ s : PlayerState ℕ ℕ, s.cancelled = [0] ∧ Unblocked s := by
  obtain ⟨s, hs, hcancelled⟩ : ∃ s : PlayerState ℕ ℕ, run playerStep PlayerState.init
      [.play ⟨some 7, none, .single⟩, .claim 0 true, .stop 0] = some s ∧ s.cancelled = [0] :=
    ⟨_, rfl, rfl⟩
  have hreach : Reachable playerStep Unlocks PlayerState.init s :=
    Reachable.start.of_run (by simp [Unlocks]) hs
  exact ⟨s, hcancelled, (unblocked_of_reachable hreach).1⟩

/-- A pause before the first play. -/
theorem run_pauseIdle : (run playerStep PlayerState.init [.pause 0]).map
    (fun s : PlayerState ℕ ℕ => s.taskLock 0) = some true := by
  decide

theorem not_unblocked_pauseIdle : ¬ ∀ s : PlayerState ℕ ℕ,
    Reachable playerStep (fun _ _ => True) PlayerState.init s → Unblocked s := by
  intro h
  obtain ⟨s, hrun, hheld⟩ := Option.map_eq_some_iff.mp run_pauseIdle
  have hreach := Reachable.start.of_run (fun _ _ _ => trivial) hrun
  exact absurd (hheld.symm.trans ((h s hreach).free.taskLock 0)) nofun

end MpegtsReader
