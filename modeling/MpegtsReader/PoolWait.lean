import Mathlib.Algebra.BigOperators.Group.Finset.Basic
import Mathlib.Algebra.Order.BigOperators.Group.Finset
import MpegtsReader.Delivery

/-!
# Workers that sleep

`handle_task` waits on `pool->wait` while the ring is empty, and `thread_pool_submit` signals it
once for each task. Here the workers that sleep in `pthread_cond_wait` are part of the state. A
signal wakes at least one of them if there are any, a worker may wake up without one, and a worker
that woke up has to take the lock and look at `size` again.

`WaitInv` says that no wake-up is lost: while a task waits and some workers sleep, one that is idle
is awake (`noLostWakeup_of_reachable`). What the workers do besides is what they do in `poolStep`.
-/

namespace MpegtsReader

open Transition

variable {τ κ η : Type}

/-- The pool, and its workers that sleep. -/
structure WaitState (τ κ η : Type) where
  base : PoolState τ κ η
  asleep : Finset ℕ

def WaitState.init (handler : η) : WaitState τ κ η := ⟨.init handler, ∅⟩

/-- The worker whose step it is. -/
def Action.worker : Action τ κ → Option ℕ
  | .submit .. => none
  | .take w | .start w | .finish w _ | .callback w | .idle w | .reject w => some w

/-- The next step of a submitter or of a worker. -/
inductive WaitAction (τ κ : Type)
  /-- The submission wakes these workers. -/
  | submit (task : Option τ) (callback : Option κ) (timeDelay : ℤ) (woken : Finset ℕ)
  /-- `pthread_cond_wait`. -/
  | sleep (worker : ℕ)
  /-- A wake-up without a signal. -/
  | wake (worker : ℕ)
  /-- Any other step of a worker. -/
  | work (action : Action τ κ)

/-- `pthread_cond_signal`, called for a task that is accepted, wakes one sleeper or more. -/
def WaitState.Signals (s : WaitState τ κ η) (task : Option τ) (woken : Finset ℕ) : Prop :=
  woken ⊆ s.asleep ∧
    (woken.Nonempty ↔ task.isSome ∧ isQueueFullUnsafe s.base.pool = false ∧ s.asleep.Nonempty)

instance (s : WaitState τ κ η) (task : Option τ) (woken : Finset ℕ) :
    Decidable (s.Signals task woken) :=
  inferInstanceAs (Decidable (_ ∧ _))

/-- One step of a pool of `n` workers. -/
def waitStep (n : ℕ) (s : WaitState τ κ η) : WaitAction τ κ → Option (WaitState τ κ η)
  | .submit task callback timeDelay woken =>
    if s.Signals task woken then
      (poolStep s.base (.submit task callback timeDelay)).map (⟨·, s.asleep \ woken⟩)
    else none
  | .sleep w =>
    match s.base.workers w with
    | .idle =>
      if w < n ∧ w ∉ s.asleep ∧ s.base.held = false ∧ s.base.pool.size = 0 then
        some { s with asleep := insert w s.asleep }
      else none
    | _ => none
  | .wake w => if w ∈ s.asleep then some { s with asleep := s.asleep.erase w } else none
  | .work a =>
    match a.worker with
    | some w => if w < n ∧ w ∉ s.asleep then (poolStep s.base a).map (⟨·, s.asleep⟩) else none
    | none => none

/-! ## The steps -/

section Steps

variable {n : ℕ} {s t : WaitState τ κ η} {w : ℕ}

theorem waitStep_submit {task : Option τ} {callback : Option κ} {timeDelay : ℤ} {woken : Finset ℕ}
    (h : waitStep n s (.submit task callback timeDelay woken) = some t) :
    s.Signals task woken ∧ poolStep s.base (.submit task callback timeDelay) = some t.base ∧
      t.asleep = s.asleep \ woken := by
  simp only [waitStep] at h
  split at h
  · rename_i hsignals
    obtain ⟨p, hp, rfl⟩ := Option.map_eq_some_iff.mp h
    exact ⟨hsignals, hp, rfl⟩
  · cases h

theorem waitStep_sleep : waitStep n s (.sleep w) = some t ↔
    s.base.workers w = .idle ∧ w < n ∧ w ∉ s.asleep ∧ s.base.held = false ∧
      s.base.pool.size = 0 ∧ t = { s with asleep := insert w s.asleep } := by
  constructor
  · intro h
    simp only [waitStep] at h
    split at h
    · split at h
      · rename_i hphase hcond
        exact ⟨hphase, hcond.1, hcond.2.1, hcond.2.2.1, hcond.2.2.2, (Option.some.inj h).symm⟩
      · cases h
    · cases h
  · rintro ⟨hphase, hw, hawake, hheld, hsize, rfl⟩
    simp only [waitStep, hphase]
    rw [if_pos ⟨hw, hawake, hheld, hsize⟩]

theorem waitStep_wake (h : waitStep n s (.wake w) = some t) :
    w ∈ s.asleep ∧ t = { s with asleep := s.asleep.erase w } := by
  simp only [waitStep] at h
  split at h
  · rename_i hw
    exact ⟨hw, (Option.some.inj h).symm⟩
  · cases h

theorem waitStep_work {a : Action τ κ} : waitStep n s (.work a) = some t ↔
    ∃ w, a.worker = some w ∧ w < n ∧ w ∉ s.asleep ∧ poolStep s.base a = some t.base ∧
      t.asleep = s.asleep := by
  constructor
  · intro h
    simp only [waitStep] at h
    split at h
    · split at h
      · rename_i w hworker hcond
        obtain ⟨p, hp, rfl⟩ := Option.map_eq_some_iff.mp h
        exact ⟨w, hworker, hcond.1, hcond.2, hp, rfl⟩
      · cases h
    · cases h
  · rintro ⟨w, hworker, hw, hawake, hp, hasleep⟩
    simp only [waitStep, hworker]
    rw [if_pos ⟨hw, hawake⟩, hp, ← hasleep]
    rfl

end Steps

/-! ## A worker's step -/

/-- The steps before a worker that is awake can sleep again, if it finds nothing more to take. -/
def Phase.left : Phase τ η → ℕ
  | .idle => 1
  | .called _ | .rejected .. => 2
  | .returned .. => 3
  | .running .. => 4
  | .taken .. => 5

/-- What a worker's step leaves as it was, and how far it gets. A task in the ring counts for the
five steps of the worker that will take it. -/
structure Worked (s t : PoolState τ κ η) (w : ℕ) : Prop where
  others : ∀ v, v ≠ w → t.workers v = s.workers v
  accepted : t.accepted = s.accepted
  size : t.pool.size = s.pool.size ∨ t.pool.size = 0
  busy : t.pool.size ≠ 0 → s.workers w ≠ .idle
  left : (t.workers w).left + 5 * t.pool.size.toNat < (s.workers w).left + 5 * s.pool.size.toNat

section Work

variable {s t : PoolState τ κ η} {w : ℕ}

/-- A worker that had a job goes on. -/
theorem Worked.move (hw : s.workers w ≠ .idle) {phase : Phase τ η}
    (hleft : phase.left < (s.workers w).left) (ht : t.workers = s.workers)
    (haccepted : t.accepted = s.accepted) (hsize : t.pool.size = s.pool.size) :
    Worked s (t.move w phase) w where
  others v hv := (workers_move_of_ne hv _).trans (congrFun ht v)
  accepted := haccepted
  size := .inl hsize
  busy _ := hw
  left := by
    rw [workers_move_self]
    show phase.left + 5 * t.pool.size.toNat < _
    rw [hsize]
    exact Nat.add_lt_add_right hleft _

theorem QueueInv.worked_take (h : QueueInv s) (hw : s.workers w = .idle)
    (hsize : s.pool.size ≠ 0) : Worked s (s.take w) w := by
  obtain ⟨sub, -, -, hring⟩ := h.waiting hsize
  have hempty : (s.take w).pool.size = 0 := by
    rw [h.take_eq hsize]
    exact hring.take.2.1
  have hphase : (s.take w).workers w = .taken (slotOf s.pool.toTake) s.taken := by
    rw [h.take_eq hsize]
    exact workers_move_self ..
  constructor
  · intro v hv
    rw [h.take_eq hsize]
    exact workers_move_of_ne hv _
  · rw [h.take_eq hsize]
    rfl
  · exact .inr hempty
  · exact fun hne => absurd hempty hne
  · rw [hphase, hempty, hw, hring.2.1]
    show 5 + 5 * 0 < 1 + 5 * 1
    decide

/-- The steps of the workers, one by one. -/
theorem QueueInv.worked (h : QueueInv s) {a : Action τ κ} (hworker : a.worker = some w)
    (hstep : poolStep s a = some t) : Worked s t w := by
  cases a with
  | submit task callback timeDelay => cases hworker
  | take v =>
    cases hworker
    obtain ⟨hw, hsize, rfl⟩ := poolStep_take hstep
    exact h.worked_take hw hsize
  | start v =>
    cases hworker
    obtain ⟨slot, job, handler, hw, -, rfl⟩ := poolStep_start hstep
    exact .move (by rw [hw]; nofun) (by rw [hw]; exact Nat.lt_succ_self _) rfl rfl rfl
  | finish v res =>
    cases hworker
    obtain ⟨slot, job, handler, task, hw, rfl⟩ := poolStep_finish hstep
    exact .move (by rw [hw]; nofun) (by rw [hw]; exact Nat.lt_succ_self _) rfl rfl rfl
  | callback v =>
    cases hworker
    obtain ⟨slot, job, res, callback, hw, -, rfl⟩ := poolStep_callback.mp hstep
    exact .move (by rw [hw]; nofun) (by rw [hw]; exact Nat.lt_succ_self _) rfl rfl rfl
  | idle v =>
    cases hworker
    obtain ⟨slot, hw, rfl⟩ := poolStep_idle hstep
    exact .move (by rw [hw]; nofun) (by rw [hw]; exact Nat.lt_succ_self _) rfl rfl rfl
  | reject v =>
    cases hworker
    obtain ⟨slot, job, hw⟩ := poolStep_reject hstep
    exact absurd hw (h.idle w slot job)

end Work

/-! ## No wake-up is lost -/

/-- The invariant of the workers that sleep. -/
structure WaitInv (n : ℕ) (s : WaitState τ κ η) : Prop where
  queue : QueueInv s.base
  asleep : ∀ w ∈ s.asleep, w < n ∧ s.base.workers w = .idle
  /-- Only the first `n` workers ever get a task. -/
  within : ∀ w, s.base.workers w ≠ .idle → w < n
  /-- While a task waits, the workers are not all asleep over it. -/
  awake : s.base.pool.size ≠ 0 → s.asleep.Nonempty →
    ∃ w < n, w ∉ s.asleep ∧ s.base.workers w = .idle

section Wait

variable {n : ℕ} {s t : WaitState τ κ η} {w : ℕ}

theorem waitInv_init (handler : η) :
    WaitInv n (WaitState.init handler : WaitState τ κ η) where
  queue := queueInv_init handler
  asleep _ hw := absurd hw (Finset.notMem_empty _)
  within _ hw := absurd rfl hw
  awake _ hne := absurd hne Finset.not_nonempty_empty

/-- A submission leaves all workers where they are. -/
theorem workers_submit (s : PoolState τ κ η) (task : Option τ) (callback : Option κ)
    (timeDelay : ℤ) : (s.submit task callback timeDelay).workers = s.workers := rfl

/-- A task that is put in the ring wakes a sleeper. -/
theorem WaitInv.submit (h : WaitInv n s) {task : Option τ} {callback : Option κ} {timeDelay : ℤ}
    {woken : Finset ℕ} (hsignals : s.Signals task woken)
    (hstep : poolStep s.base (.submit task callback timeDelay) = some t.base)
    (hasleep : t.asleep = s.asleep \ woken) : WaitInv n t := by
  have ht : t.base = s.base.submit task callback timeDelay := poolStep_submit hstep
  have hworkers : t.base.workers = s.base.workers := by
    rw [ht, workers_submit]
  refine ⟨h.queue.step _ _ _ hstep, fun w hw => ?_, fun w hw => ?_, fun hsize hne => ?_⟩
  · rw [hasleep] at hw
    rw [hworkers]
    exact h.asleep w (Finset.sdiff_subset hw)
  · rw [hworkers] at hw
    exact h.within w hw
  · rw [hasleep] at hne ⊢
    rw [hworkers]
    have hsome : s.asleep.Nonempty := hne.mono Finset.sdiff_subset
    rcases submit_cases s.base task callback timeDelay with heq | ⟨htask, hfull, -⟩
    · -- refused: the worker that was awake before
      rw [ht, heq] at hsize
      obtain ⟨w, hw, hawake, hidle⟩ := h.awake hsize hsome
      exact ⟨w, hw, fun hmem => hawake (Finset.sdiff_subset hmem), hidle⟩
    · obtain ⟨w, hw⟩ := hsignals.2.mpr ⟨htask, hfull, hsome⟩
      obtain ⟨hlt, hidle⟩ := h.asleep w (hsignals.1 hw)
      exact ⟨w, hlt, fun hmem => (Finset.mem_sdiff.mp hmem).2 hw, hidle⟩

theorem WaitInv.work (h : WaitInv n s) {a : Action τ κ} (hworker : a.worker = some w)
    (hw : w < n) (hawake : w ∉ s.asleep) (hstep : poolStep s.base a = some t.base)
    (hasleep : t.asleep = s.asleep) : WaitInv n t := by
  have hworked := h.queue.worked hworker hstep
  refine ⟨h.queue.step _ _ _ hstep, fun v hv => ?_, fun v hv => ?_, fun hsize hne => ?_⟩
  · rw [hasleep] at hv
    have hvw : v ≠ w := by
      rintro rfl
      exact hawake hv
    rw [hworked.others v hvw]
    exact h.asleep v hv
  · by_cases hvw : v = w
    · rwa [hvw]
    · rw [hworked.others v hvw] at hv
      exact h.within v hv
  · rw [hasleep] at hne ⊢
    have hsame : t.base.pool.size = s.base.pool.size := hworked.size.resolve_right hsize
    obtain ⟨v, hv, hvawake, hidle⟩ := h.awake (hsame ▸ hsize) hne
    -- a worker that leaves a task in the ring was in the middle of its job
    have hvw : v ≠ w := by
      rintro rfl
      exact hworked.busy hsize hidle
    exact ⟨v, hv, hvawake, (hworked.others v hvw).trans hidle⟩

/-- Every step keeps the invariant. -/
theorem WaitInv.step (s : WaitState τ κ η) (a : WaitAction τ κ) (t : WaitState τ κ η)
    (h : WaitInv n s) (hstep : waitStep n s a = some t) : WaitInv n t := by
  cases a with
  | submit task callback timeDelay woken =>
    obtain ⟨hsignals, hp, hasleep⟩ := waitStep_submit hstep
    exact h.submit hsignals hp hasleep
  | sleep w =>
    obtain ⟨hidle, hw, -, -, hsize, rfl⟩ := waitStep_sleep.mp hstep
    refine ⟨h.queue, fun v hv => ?_, h.within, fun hne => absurd hsize hne⟩
    rcases Finset.mem_insert.mp hv with rfl | hv
    · exact ⟨hw, hidle⟩
    · exact h.asleep v hv
  | wake w =>
    obtain ⟨-, rfl⟩ := waitStep_wake hstep
    refine ⟨h.queue, fun v hv => h.asleep v (Finset.mem_of_mem_erase hv), h.within,
      fun hsize hne => ?_⟩
    obtain ⟨v, hv, hawake, hidle⟩ := h.awake hsize (hne.mono (Finset.erase_subset w _))
    exact ⟨v, hv, fun hmem => hawake (Finset.mem_of_mem_erase hmem), hidle⟩
  | work a =>
    obtain ⟨w, hworker, hw, hawake, hp, hasleep⟩ := waitStep_work.mp hstep
    exact h.work hworker hw hawake hp hasleep

/-- Without its sleepers, the pool takes the steps of `poolStep`. -/
theorem base_reachable {handler : η} {guard : WaitState τ κ η → WaitAction τ κ → Prop}
    (h : Reachable (waitStep n) guard (WaitState.init handler) s) :
    Reachable poolStep (fun _ _ => True) (PoolState.init handler) s.base := by
  refine h.refines WaitState.base rfl fun s a t _ hstep => ?_
  cases a with
  | submit task callback timeDelay woken =>
    exact .inr ⟨_, trivial, (waitStep_submit hstep).2.1⟩
  | sleep w =>
    obtain ⟨-, -, -, -, -, rfl⟩ := waitStep_sleep.mp hstep
    exact .inl rfl
  | wake w =>
    obtain ⟨-, rfl⟩ := waitStep_wake hstep
    exact .inl rfl
  | work a =>
    obtain ⟨-, -, -, -, hp, -⟩ := waitStep_work.mp hstep
    exact .inr ⟨a, trivial, hp⟩

/-- A worker that is awake over a task can take it at once. -/
theorem WaitInv.can_take (h : WaitInv n s) (hw : w < n) (hawake : w ∉ s.asleep)
    (hidle : s.base.workers w = .idle) (hsize : s.base.pool.size ≠ 0) :
    waitStep n s (.work (.take w)) = some ⟨s.base.take w, s.asleep⟩ := by
  refine waitStep_work.mpr ⟨w, rfl, hw, hawake, ?_, rfl⟩
  simp only [poolStep, hidle]
  rw [if_neg]
  rintro (hheld | hempty)
  · rw [h.queue.held] at hheld
    cases hheld
  · exact hsize hempty

/-- **No lost wake-up.** However the submissions, the workers and their wake-ups interleave: the
pool does what it does without the sleepers, and while a task waits, either no worker sleeps or one
that is awake can take the task at once. -/
theorem noLostWakeup_of_reachable {handler : η}
    (h : Reachable (waitStep n) (fun _ _ => True) (WaitState.init handler) s) :
    Reachable poolStep (fun _ _ => True) (PoolState.init handler) s.base ∧
      (s.base.pool.size ≠ 0 → s.asleep = ∅ ∨ ∃ w < n, w ∉ s.asleep ∧
        waitStep n s (.work (.take w)) = some ⟨s.base.take w, s.asleep⟩) := by
  have hinv : WaitInv n s :=
    h.invariant (waitInv_init handler) fun s a t hs _ => WaitInv.step s a t hs
  refine ⟨base_reachable h, fun hsize => s.asleep.eq_empty_or_nonempty.imp_right fun hne => ?_⟩
  obtain ⟨w, hw, hawake, hidle⟩ := hinv.awake hsize hne
  exact ⟨w, hw, hawake, hinv.can_take hw hawake hidle hsize⟩

/-- Two sleepers, a submission that wakes one of them, and the task that waits for it. -/
theorem noLostWakeup_twoSleepers : ∃ s : WaitState ℕ ℕ Unit, s.base.pool.size = 1 ∧
    (s.asleep = ∅ ∨ ∃ w < 2, w ∉ s.asleep ∧
      waitStep 2 s (.work (.take w)) = some ⟨s.base.take w, s.asleep⟩) := by
  obtain ⟨s, hs, hsize⟩ : ∃ s : WaitState ℕ ℕ Unit, run (waitStep 2) (WaitState.init ())
      [.sleep 0, .sleep 1, .submit (some 5) (some 7) 0 {1}] = some s ∧ s.base.pool.size = 1 :=
    ⟨_, rfl, rfl⟩
  have hreach : Reachable (waitStep 2) (fun _ _ => True) (WaitState.init ()) s :=
    Reachable.start.of_run (fun _ _ _ => trivial) hs
  exact ⟨s, hsize, (noLostWakeup_of_reachable hreach).2 (by rw [hsize]; decide)⟩

end Wait

end MpegtsReader
