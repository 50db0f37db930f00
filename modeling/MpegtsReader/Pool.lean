import Mathlib.Logic.Function.Basic
import MpegtsReader.Packet
import MpegtsReader.Transition

/-!
# The thread pool

`thread_pool_submit` and the workers of `handle_task` over the ring of 16 containers. A section
under `pool->lock` is one step. A worker runs the handler, reads the container again for the
callback and stores the final state in later steps of its own, without the lock.

The state also keeps what happened: the accepted submissions, how many were taken, and every return
of a handler and every call of a callback. The containers are taken in the order they are filled, so
the worker that takes the `n`-th of them has job `n`, the `n`-th accepted submission.

`Ring` says what the ring is: a place for one task. `get_available` counts the ring as full with one
task in it, so a second one has to wait until a worker has taken the first.
-/

namespace MpegtsReader

open Transition

/-- `task_result_t`. -/
inductive TaskResult
  | ok
  | fail
  deriving DecidableEq

/-- `task_container_t`. -/
structure TaskContainer (τ κ η : Type) where
  task : Option τ
  handler : Option η
  callback : Option κ
  delay : ℤ
  state : Byte

/-- `TASK_STATE_IDLE`. -/
def taskStateIdle : Byte := 0

/-- `TASK_STATE_RUN`. -/
def taskStateRun : Byte := 1

/-- `struct thread_pool`: the handler, the ring and its counters. -/
structure ThreadPool (τ κ η : Type) where
  handler : η
  tasks : Fin 16 → TaskContainer τ κ η
  toPut : Byte
  toTake : Byte
  size : Byte

variable {τ κ η : Type}

/-- `thread_pool_new`: apart from the handler the pool is all zero. -/
def threadPoolNew (handler : η) : ThreadPool τ κ η :=
  ⟨handler, fun _ => ⟨none, none, none, 0, taskStateIdle⟩, 0, 0, 0⟩

/-- `i & QUEUE_INDX_MSK`. -/
def slotOf (i : Byte) : Fin 16 := ⟨(i &&& 0xF).toNat, by
  rw [BitVec.toNat_and]
  exact Nat.lt_succ_of_le Nat.and_le_right⟩

/-- A masked counter after `++`. -/
def advance (i : Byte) : Byte := (i &&& 0xF) + 1

/-- `get_available`. -/
def getAvailable (pool : ThreadPool τ κ η) : ℤ :=
  let gap : ℤ := pool.toPut.toNat - pool.toTake.toNat
  (if gap ≤ 0 then gap + 16 else gap) - 1

/-- `is_queue_full_unsafe`. -/
def isQueueFullUnsafe (pool : ThreadPool τ κ η) : Bool := ¬ getAvailable pool > 0

/-- The container filled by a submission. -/
def ThreadPool.put (pool : ThreadPool τ κ η) (container : TaskContainer τ κ η) :
    ThreadPool τ κ η where
  handler := pool.handler
  tasks := Function.update pool.tasks (slotOf pool.toPut) container
  toPut := advance pool.toPut
  toTake := pool.toTake
  size := pool.size + 1

/-- `thread_pool_submit`. The result is the index of the container, or -1. -/
def threadPoolSubmit (pool : ThreadPool τ κ η) (task : Option τ) (callback : Option κ)
    (timeDelay : ℤ) : ThreadPool τ κ η × ℤ :=
  if task.isNone then (pool, -1)
  else if isQueueFullUnsafe pool then (pool, -1)
  else
    (pool.put ⟨task, some pool.handler, callback, timeDelay, taskStateIdle⟩,
      (slotOf pool.toPut).val)

/-- `handle_task`: the container is taken off the ring. -/
def ThreadPool.take (pool : ThreadPool τ κ η) : ThreadPool τ κ η :=
  { pool with toTake := advance pool.toTake, size := pool.size - 1 }

/-- A store to the state of a container. -/
def ThreadPool.setState (pool : ThreadPool τ κ η) (slot : Fin 16) (state : Byte) :
    ThreadPool τ κ η :=
  { pool with tasks := Function.update pool.tasks slot { pool.tasks slot with state } }

/-! ## Workers -/

/-- Where a worker is in `handle_task`. -/
inductive Phase (τ η : Type)
  /-- Before the lock, or waiting for a task. -/
  | idle
  /-- The lock is released, the handler is not yet called. -/
  | taken (slot : Fin 16) (job : ℕ)
  /-- In this handler, with the task it was called with. -/
  | running (slot : Fin 16) (job : ℕ) (handler : η) (task : Option τ)
  /-- The handler has returned. -/
  | returned (slot : Fin 16) (job : ℕ) (res : TaskResult)
  /-- The callback is called, the state is not yet stored. -/
  | called (slot : Fin 16)
  /-- The container was not idle and has a callback. -/
  | rejected (slot : Fin 16) (job : ℕ)

/-- The container and the submission a worker still reads the container for. -/
def Phase.job : Phase τ η → Option (Fin 16 × ℕ)
  | .taken slot job | .running slot job _ _ | .returned slot job _ => some (slot, job)
  | .idle | .called _ | .rejected .. => none

/-- What a submission asks for. -/
structure Submission (τ κ : Type) where
  task : Option τ
  callback : Option κ
  timeDelay : ℤ

/-- The container as a submission fills it. -/
def ThreadPool.filled (pool : ThreadPool τ κ η) (sub : Submission τ κ) : TaskContainer τ κ η :=
  ⟨sub.task, some pool.handler, sub.callback, sub.timeDelay, taskStateIdle⟩

/-- The container has the task and the callback of a submission, and the handler. -/
structure ThreadPool.Serves (pool : ThreadPool τ κ η) (slot : Fin 16) (sub : Submission τ κ) :
    Prop where
  task : (pool.tasks slot).task = sub.task
  handler : (pool.tasks slot).handler = some pool.handler
  callback : (pool.tasks slot).callback = sub.callback

/-- The return of a handler. -/
structure Return (τ η : Type) where
  job : ℕ
  handler : η
  task : Option τ
  res : TaskResult

/-- A call of a callback. -/
structure Call (τ κ : Type) where
  job : ℕ
  callback : κ
  res : TaskResult
  task : Option τ
  deriving DecidableEq

/-- The pool, its workers, and what happened so far. -/
structure PoolState (τ κ η : Type) where
  pool : ThreadPool τ κ η
  workers : ℕ → Phase τ η
  /-- A worker kept the lock for good. -/
  held : Bool
  accepted : List (Submission τ κ)
  taken : ℕ
  returns : List (Return τ η)
  calls : List (Call τ κ)

/-- A new pool. With `n` workers, only the first `n` ever take a step. -/
def PoolState.init (handler : η) : PoolState τ κ η :=
  ⟨threadPoolNew handler, fun _ => .idle, false, [], 0, [], []⟩

/-- The next step of a submitter or of a worker. -/
inductive Action (τ κ : Type)
  | submit (task : Option τ) (callback : Option κ) (timeDelay : ℤ)
  | take (worker : ℕ)
  | start (worker : ℕ)
  | finish (worker : ℕ) (res : TaskResult)
  | callback (worker : ℕ)
  | idle (worker : ℕ)
  | reject (worker : ℕ)

namespace PoolState

variable (s : PoolState τ κ η)

/-- A worker goes on. -/
def move (worker : ℕ) (phase : Phase τ η) : PoolState τ κ η :=
  { s with workers := Function.update s.workers worker phase }

/-- `thread_pool_submit`, the lock being free. -/
def submit (task : Option τ) (callback : Option κ) (timeDelay : ℤ) : PoolState τ κ η :=
  let r := threadPoolSubmit s.pool task callback timeDelay
  { s with
    pool := r.1
    accepted := if r.2 < 0 then s.accepted else s.accepted ++ [⟨task, callback, timeDelay⟩] }

/-- `handle_task`: the section under the lock. Without a callback, a container that is not idle
lets the worker go round with the lock held. -/
def take (worker : ℕ) : PoolState τ κ η :=
  let slot := slotOf s.pool.toTake
  let s' := { s with pool := s.pool.take, taken := s.taken + 1 }
  if (s.pool.tasks slot).state ≠ taskStateIdle then
    if (s.pool.tasks slot).callback.isSome then s'.move worker (.rejected slot s.taken)
    else { s' with held := true }
  else PoolState.move { s' with pool := s'.pool.setState slot taskStateRun } worker
    (.taken slot s.taken)

/-- The handler of a container is called with its task. A call through NULL is not possible. -/
def callHandler (worker : ℕ) (slot : Fin 16) (job : ℕ) : Option (PoolState τ κ η) :=
  (s.pool.tasks slot).handler.map fun handler =>
    s.move worker (.running slot job handler (s.pool.tasks slot).task)

/-- The callback of a container is called with its task. A call through NULL is not possible. -/
def callBack (slot : Fin 16) (job : ℕ) (res : TaskResult) : Option (PoolState τ κ η) :=
  (s.pool.tasks slot).callback.map fun callback =>
    { s with calls := s.calls ++ [⟨job, callback, res, (s.pool.tasks slot).task⟩] }

end PoolState

/-- One step. A worker that is not at this step, a lock that is held and a queue that is empty
make it impossible. -/
def poolStep (s : PoolState τ κ η) : Action τ κ → Option (PoolState τ κ η)
  | .submit task callback timeDelay =>
    -- a NULL task is refused before the lock
    if s.held ∧ task.isSome then none else some (s.submit task callback timeDelay)
  | .take w =>
    match s.workers w with
    | .idle => if s.held ∨ s.pool.size = 0 then none else some (s.take w)
    | _ => none
  | .start w =>
    match s.workers w with
    | .taken slot job => s.callHandler w slot job
    | _ => none
  | .finish w res =>
    match s.workers w with
    | .running slot job handler task =>
      some (PoolState.move { s with returns := s.returns ++ [⟨job, handler, task, res⟩] } w
        (.returned slot job res))
    | _ => none
  | .callback w =>
    match s.workers w with
    | .returned slot job res => (s.callBack slot job res).map (·.move w (.called slot))
    | _ => none
  | .idle w =>
    match s.workers w with
    | .called slot =>
      some (PoolState.move { s with pool := s.pool.setState slot taskStateIdle } w .idle)
    | _ => none
  | .reject w =>
    match s.workers w with
    | .rejected slot job => (s.callBack slot job .fail).map (·.move w .idle)
    | _ => none

/-! ## The steps -/

section Steps

variable {s t : PoolState τ κ η} {w : ℕ}

theorem poolStep_submit {task : Option τ} {callback : Option κ} {timeDelay : ℤ}
    (h : poolStep s (.submit task callback timeDelay) = some t) :
    t = s.submit task callback timeDelay := by
  simp only [poolStep] at h
  split at h
  · cases h
  · exact (Option.some.inj h).symm

/-- A submission is refused, or it is put in the ring. -/
theorem submit_cases (s : PoolState τ κ η) (task : Option τ) (callback : Option κ) (timeDelay : ℤ) :
    s.submit task callback timeDelay = s ∨
      task.isSome ∧ isQueueFullUnsafe s.pool = false ∧
      s.submit task callback timeDelay =
        { s with
          pool := s.pool.put (s.pool.filled ⟨task, callback, timeDelay⟩)
          accepted := s.accepted ++ [⟨task, callback, timeDelay⟩] } := by
  unfold PoolState.submit threadPoolSubmit
  cases task with
  | none => exact .inl rfl
  | some task =>
    rw [if_neg (by simp)]
    cases hfull : isQueueFullUnsafe s.pool with
    | true => exact .inl rfl
    | false =>
      refine .inr ⟨rfl, rfl, ?_⟩
      have hslot : ¬ ((slotOf s.pool.toPut).val : ℤ) < 0 := not_lt.mpr (Int.natCast_nonneg _)
      simp only [Bool.false_eq_true, if_false, hslot]
      rfl

/-- The section of `handle_task` when the container is idle. -/
theorem take_of_idle (hidle : (s.pool.tasks (slotOf s.pool.toTake)).state = taskStateIdle) :
    s.take w = PoolState.move
      { s with
        pool := s.pool.take.setState (slotOf s.pool.toTake) taskStateRun
        taken := s.taken + 1 } w (.taken (slotOf s.pool.toTake) s.taken) := by
  unfold PoolState.take
  simp only [hidle, ne_eq, not_true_eq_false, if_false]

theorem poolStep_take (h : poolStep s (.take w) = some t) :
    s.workers w = .idle ∧ s.pool.size ≠ 0 ∧ t = s.take w := by
  simp only [poolStep] at h
  split at h
  · split at h
    · cases h
    · rename_i hphase hlock
      exact ⟨hphase, fun hsize => hlock (.inr hsize), (Option.some.inj h).symm⟩
  · cases h

theorem poolStep_start (h : poolStep s (.start w) = some t) : ∃ slot job handler,
    s.workers w = .taken slot job ∧ (s.pool.tasks slot).handler = some handler ∧
      t = s.move w (.running slot job handler (s.pool.tasks slot).task) := by
  simp only [poolStep] at h
  split at h
  · rename_i slot job hphase
    obtain ⟨handler, hhandler, rfl⟩ := Option.map_eq_some_iff.mp h
    exact ⟨slot, job, handler, hphase, hhandler, rfl⟩
  · cases h

theorem poolStep_finish {res : TaskResult} (h : poolStep s (.finish w res) = some t) :
    ∃ slot job handler task, s.workers w = .running slot job handler task ∧
      t = PoolState.move { s with returns := s.returns ++ [⟨job, handler, task, res⟩] } w
        (.returned slot job res) := by
  simp only [poolStep] at h
  split at h
  · exact ⟨_, _, _, _, by assumption, (Option.some.inj h).symm⟩
  · cases h

theorem callBack_eq_some {slot : Fin 16} {job : ℕ} {res : TaskResult} :
    s.callBack slot job res = some t ↔ ∃ callback, (s.pool.tasks slot).callback = some callback ∧
      t = { s with calls := s.calls ++ [⟨job, callback, res, (s.pool.tasks slot).task⟩] } := by
  unfold PoolState.callBack
  rw [Option.map_eq_some_iff]
  constructor
  · rintro ⟨callback, hcallback, rfl⟩
    exact ⟨callback, hcallback, rfl⟩
  · rintro ⟨callback, hcallback, rfl⟩
    exact ⟨callback, hcallback, rfl⟩

theorem poolStep_callback : poolStep s (.callback w) = some t ↔ ∃ slot job res callback,
    s.workers w = .returned slot job res ∧ (s.pool.tasks slot).callback = some callback ∧
      t = PoolState.move
        { s with calls := s.calls ++ [⟨job, callback, res, (s.pool.tasks slot).task⟩] } w
        (.called slot) := by
  constructor
  · intro h
    simp only [poolStep] at h
    split at h
    · rename_i slot job res hphase
      obtain ⟨u, hu, rfl⟩ := Option.map_eq_some_iff.mp h
      obtain ⟨callback, hcallback, rfl⟩ := callBack_eq_some.mp hu
      exact ⟨slot, job, res, callback, hphase, hcallback, rfl⟩
    · cases h
  · rintro ⟨slot, job, res, callback, hphase, hcallback, rfl⟩
    simp only [poolStep, hphase]
    exact Option.map_eq_some_iff.mpr ⟨_, callBack_eq_some.mpr ⟨callback, hcallback, rfl⟩, rfl⟩

theorem poolStep_idle (h : poolStep s (.idle w) = some t) : ∃ slot, s.workers w = .called slot ∧
    t = PoolState.move { s with pool := s.pool.setState slot taskStateIdle } w .idle := by
  simp only [poolStep] at h
  split at h
  · exact ⟨_, by assumption, (Option.some.inj h).symm⟩
  · cases h

theorem poolStep_reject (h : poolStep s (.reject w) = some t) :
    ∃ slot job, s.workers w = .rejected slot job := by
  simp only [poolStep] at h
  split at h
  · exact ⟨_, _, by assumption⟩
  · cases h

end Steps

/-! ## The ring -/

/-- The ring with the container that waits in it. -/
def Ring (pool : ThreadPool τ κ η) : Option (TaskContainer τ κ η) → Prop
  | none => pool.toTake.toNat ≤ 16 ∧ pool.size = 0 ∧ pool.toPut = pool.toTake
  | some container => pool.toTake.toNat ≤ 16 ∧ pool.size = 1 ∧
      pool.toPut = advance pool.toTake ∧ pool.tasks (slotOf pool.toTake) = container

section Ring

variable {pool : ThreadPool τ κ η} {container : TaskContainer τ κ η} {slot : Fin 16}

theorem toNat_advance (i : Byte) : (advance i).toNat = i.toNat % 16 + 1 := by
  have hmask : (i &&& 0xF).toNat = i.toNat % 16 := by
    rw [BitVec.toNat_and]
    exact Nat.and_two_pow_sub_one_eq_mod i.toNat 4
  unfold advance
  rw [BitVec.toNat_add, hmask]
  show (i.toNat % 16 + 1) % 2 ^ 8 = i.toNat % 16 + 1
  omega

theorem ring_new (handler : η) : Ring (threadPoolNew handler : ThreadPool τ κ η) none :=
  ⟨Nat.zero_le 16, rfl, rfl⟩

theorem Ring.available_empty (h : Ring pool none) : getAvailable pool = 15 := by
  obtain ⟨_, _, hput⟩ := h
  unfold getAvailable
  rw [hput, sub_self]
  rfl

/-- The gap between the counters is the number of tasks in the ring, and not of free places. -/
theorem Ring.available_waiting (h : Ring pool (some container)) : getAvailable pool = 0 := by
  obtain ⟨hle, _, hput, _⟩ := h
  have hadvance := toNat_advance pool.toTake
  unfold getAvailable
  rw [hput]
  dsimp only
  split <;> omega

theorem Ring.not_full (h : Ring pool none) : isQueueFullUnsafe pool = false := by
  unfold isQueueFullUnsafe
  rw [h.available_empty]
  rfl

/-- With one task in it the ring is full. -/
theorem Ring.full (h : Ring pool (some container)) : isQueueFullUnsafe pool = true := by
  unfold isQueueFullUnsafe
  rw [h.available_waiting]
  rfl

/-- A submission is refused exactly while a task waits. -/
theorem Ring.full_eq {waiting : Option (TaskContainer τ κ η)} (h : Ring pool waiting) :
    isQueueFullUnsafe pool = waiting.isSome := by
  cases waiting with
  | none => exact h.not_full
  | some container => exact h.full

theorem Ring.put (h : Ring pool none) : Ring (pool.put container) (some container) := by
  obtain ⟨hle, hsize, hput⟩ := h
  refine ⟨hle, ?_, ?_, ?_⟩
  · show pool.size + 1 = 1
    rw [hsize]
    rfl
  · show advance pool.toPut = advance pool.toTake
    rw [hput]
  · show Function.update pool.tasks (slotOf pool.toPut) container (slotOf pool.toTake) = container
    rw [hput, Function.update_self]

theorem Ring.take (h : Ring pool (some container)) : Ring pool.take none := by
  obtain ⟨_, hsize, hput, _⟩ := h
  refine ⟨?_, ?_, hput⟩
  · show (advance pool.toTake).toNat ≤ 16
    rw [toNat_advance]
    omega
  · show pool.size - 1 = 0
    rw [hsize]
    rfl

theorem Ring.setState {state : Byte} (h : Ring pool none) : Ring (pool.setState slot state) none :=
  h

/-- A container that waits is idle already. -/
theorem Ring.setIdle {waiting : Option (TaskContainer τ κ η)} (h : Ring pool waiting)
    (hidle : ∀ c ∈ waiting, c.state = taskStateIdle) :
    Ring (pool.setState slot taskStateIdle) waiting := by
  cases waiting with
  | none => exact h
  | some container =>
    obtain ⟨hle, hsize, hput, htask⟩ := h
    refine ⟨hle, hsize, hput, ?_⟩
    show Function.update pool.tasks slot _ (slotOf pool.toTake) = container
    by_cases hslot : slotOf pool.toTake = slot
    · rw [← hslot, Function.update_self, htask, ← hidle container rfl]
    · rw [Function.update_of_ne hslot, htask]

/-- A store to the state leaves what a container asks for. -/
theorem ThreadPool.Serves.setState {sub : Submission τ κ} {i : Fin 16} (h : pool.Serves i sub)
    (state : Byte) : (pool.setState slot state).Serves i sub := by
  have hfields : ((pool.setState slot state).tasks i).task = (pool.tasks i).task ∧
      ((pool.setState slot state).tasks i).handler = (pool.tasks i).handler ∧
      ((pool.setState slot state).tasks i).callback = (pool.tasks i).callback := by
    unfold ThreadPool.setState
    by_cases hi : i = slot
    · subst hi
      simp only [Function.update_self, and_self]
    · simp only [Function.update_of_ne hi, and_self]
  exact ⟨hfields.1.trans h.task, hfields.2.1.trans h.handler, hfields.2.2.trans h.callback⟩

end Ring

end MpegtsReader
