import MpegtsReader.Pool

/-!
# The pool is a queue

Whatever the order of submissions and of the steps of the workers: `QueueInv` says that what was
submitted and not yet taken waits in the ring as it was filled, and that no worker ever finds a
container that is not idle. The states that workers store late do no harm to a waiting container,
which is idle already (`Ring.setIdle`). `fifo_of_reachable` reads the queue off the invariant, and
`countsFree_iff` when the free places of the ring are counted right.
-/

namespace MpegtsReader

open Transition

variable {τ κ η : Type} {s t : PoolState τ κ η} {w : ℕ}

/-- The pool is a first-in first-out queue of what was submitted. -/
structure Fifo (s : PoolState τ κ η) : Prop where
  /-- `size` counts what was accepted and not yet taken. -/
  size : s.accepted.length = s.taken + s.pool.size.toNat
  /-- A container that waits is as the submission has filled it. -/
  kept : ∀ k sub, s.accepted[s.taken + k]? = some sub →
    s.pool.tasks (slotOf s.pool.toTake + Fin.ofNat 16 k) = s.pool.filled sub
  /-- A worker takes the first one that waits. -/
  next : ∀ w t, poolStep s (.take w) = some t → ∃ sub, s.accepted[s.taken]? = some sub ∧
    s.pool.tasks (slotOf s.pool.toTake) = s.pool.filled sub ∧
    t.workers w = .taken (slotOf s.pool.toTake) s.taken ∧ t.taken = s.taken + 1
  /-- The index that a submission returns is one of the ring. -/
  index : ∀ task callback timeDelay, (threadPoolSubmit s.pool task callback timeDelay).2 < 16
  /-- No container is ever rejected, so the lock is never kept. -/
  free : s.held = false ∧ ∀ w slot job, s.workers w ≠ .rejected slot job

/-- What was submitted and not taken waits in the ring. -/
def Queued (s : PoolState τ κ η) : Prop :=
  (s.accepted.length = s.taken ∧ Ring s.pool none) ∨
    ∃ sub, s.accepted.length = s.taken + 1 ∧ s.accepted[s.taken]? = some sub ∧
      Ring s.pool (some (s.pool.filled sub))

/-- The invariant of all runs. -/
structure QueueInv (s : PoolState τ κ η) : Prop where
  queued : Queued s
  held : s.held = false
  idle : ∀ w slot job, s.workers w ≠ .rejected slot job

theorem queueInv_init (handler : η) : QueueInv (PoolState.init handler : PoolState τ κ η) where
  queued := .inl ⟨rfl, ring_new handler⟩
  held := rfl
  idle := nofun

theorem workers_move_self (s : PoolState τ κ η) (w : ℕ) (phase : Phase τ η) :
    (s.move w phase).workers w = phase := Function.update_self ..

theorem workers_move_of_ne {v : ℕ} (h : v ≠ w) (phase : Phase τ η) :
    (s.move w phase).workers v = s.workers v := Function.update_of_ne h ..

theorem phase_move {P : Phase τ η → Prop} {phase : Phase τ η} (h : ∀ v, v ≠ w → P (s.workers v))
    (hw : P phase) (v : ℕ) : P ((s.move w phase).workers v) := by
  by_cases hvw : v = w
  · rw [hvw, workers_move_self]
    exact hw
  · rw [workers_move_of_ne hvw]
    exact h v hvw

/-- A worker goes on without touching the ring. -/
theorem QueueInv.move (h : QueueInv s) {phase : Phase τ η}
    (hphase : ∀ slot job, phase ≠ .rejected slot job) : QueueInv (s.move w phase) where
  queued := h.queued
  held := h.held
  idle := phase_move (P := fun p => ∀ slot job, p ≠ .rejected slot job) (fun v _ => h.idle v) hphase

/-- Neither do the logs. -/
theorem QueueInv.log (h : QueueInv s) (returns : List (Return τ η)) (calls : List (Call τ κ)) :
    QueueInv { s with returns, calls } := ⟨h.queued, h.held, h.idle⟩

/-- A submission is put in the ring. -/
theorem QueueInv.put (h : QueueInv s) {sub : Submission τ κ}
    (hfull : isQueueFullUnsafe s.pool = false) :
    QueueInv { s with
      pool := s.pool.put (s.pool.filled sub)
      accepted := s.accepted ++ [sub] } where
  queued := by
    rcases h.queued with ⟨hlen, hring⟩ | ⟨_, _, _, hring⟩
    · refine .inr ⟨sub, ?_, ?_, hring.put⟩
      · show (s.accepted ++ [sub]).length = s.taken + 1
        rw [List.length_append, hlen]
        rfl
      · show (s.accepted ++ [sub])[s.taken]? = some sub
        rw [← hlen, List.getElem?_concat_length]
    · rw [hring.full_eq] at hfull
      cases hfull
  held := h.held
  idle := h.idle

/-- When there is something to take, it is what was submitted first, and it is idle. -/
theorem QueueInv.waiting (h : QueueInv s) (hsize : s.pool.size ≠ 0) :
    ∃ sub, s.accepted.length = s.taken + 1 ∧ s.accepted[s.taken]? = some sub ∧
      Ring s.pool (some (s.pool.filled sub)) := by
  rcases h.queued with ⟨_, _, hempty, _⟩ | hwaiting
  · exact absurd hempty hsize
  · exact hwaiting

/-- The section of `handle_task` always takes an idle container. -/
theorem QueueInv.take_eq (h : QueueInv s) (hsize : s.pool.size ≠ 0) :
    s.take w = PoolState.move
      { s with
        pool := s.pool.take.setState (slotOf s.pool.toTake) taskStateRun
        taken := s.taken + 1 } w (.taken (slotOf s.pool.toTake) s.taken) := by
  obtain ⟨sub, _, _, _, _, _, hslot⟩ := h.waiting hsize
  exact take_of_idle (by rw [hslot]; rfl)

theorem QueueInv.take (h : QueueInv s) (hsize : s.pool.size ≠ 0) : QueueInv (s.take w) := by
  obtain ⟨sub, hlen, _, hring⟩ := h.waiting hsize
  rw [h.take_eq hsize]
  have hempty : QueueInv { s with
      pool := s.pool.take.setState (slotOf s.pool.toTake) taskStateRun
      taken := s.taken + 1 } :=
    ⟨.inl ⟨hlen, hring.take.setState⟩, h.held, h.idle⟩
  exact hempty.move nofun

/-- The last store of a worker. -/
theorem QueueInv.setIdle (h : QueueInv s) (slot : Fin 16) :
    QueueInv { s with pool := s.pool.setState slot taskStateIdle } where
  queued := by
    refine h.queued.imp (fun hq => hq) ?_
    rintro ⟨sub, hlen, hsub, hring⟩
    refine ⟨sub, hlen, hsub, hring.setIdle fun c hc => ?_⟩
    rw [← Option.some.inj hc]
    rfl
  held := h.held
  idle := h.idle

/-- Every step keeps the invariant. -/
theorem QueueInv.step (s : PoolState τ κ η) (a : Action τ κ) (t : PoolState τ κ η) (h : QueueInv s)
    (hstep : poolStep s a = some t) : QueueInv t := by
  cases a with
  | submit task callback timeDelay =>
    rw [poolStep_submit hstep]
    rcases submit_cases s task callback timeDelay with heq | ⟨_, hfull, heq⟩
    · rwa [heq]
    · rw [heq]
      exact h.put hfull
  | take w =>
    obtain ⟨_, hsize, rfl⟩ := poolStep_take hstep
    exact h.take hsize
  | start w =>
    obtain ⟨slot, job, handler, _, _, rfl⟩ := poolStep_start hstep
    exact h.move nofun
  | finish w res =>
    obtain ⟨slot, job, handler, task, _, rfl⟩ := poolStep_finish hstep
    exact (h.log _ s.calls).move nofun
  | callback w =>
    obtain ⟨slot, job, res, callback, _, _, rfl⟩ := poolStep_callback.mp hstep
    exact (h.log s.returns _).move nofun
  | idle w =>
    obtain ⟨slot, _, rfl⟩ := poolStep_idle hstep
    exact (h.setIdle slot).move nofun
  | reject w =>
    -- a container that waits is idle, so none is ever rejected
    obtain ⟨slot, job, hw⟩ := poolStep_reject hstep
    exact absurd hw (h.idle w slot job)

/-! ## The queue -/

theorem threadPoolSubmit_index (pool : ThreadPool τ κ η) (task : Option τ) (callback : Option κ)
    (timeDelay : ℤ) : (threadPoolSubmit pool task callback timeDelay).2 < 16 := by
  unfold threadPoolSubmit
  split_ifs
  · show (-1 : ℤ) < 16
    decide
  · show (-1 : ℤ) < 16
    decide
  · show ((slotOf pool.toPut).val : ℤ) < 16
    exact_mod_cast (slotOf pool.toPut).isLt

theorem QueueInv.fifo (h : QueueInv s) : Fifo s where
  size := by
    rcases h.queued with ⟨hlen, _, hsize, _⟩ | ⟨_, hlen, _, _, hsize, _⟩
    · rw [hlen, hsize]
      rfl
    · rw [hlen, hsize]
      rfl
  kept k sub hsub := by
    have hlt : s.taken + k < s.accepted.length := (List.getElem?_eq_some_iff.mp hsub).1
    rcases h.queued with ⟨hlen, _⟩ | ⟨first, hlen, hfirst, _, _, _, hslot⟩
    · omega
    · obtain rfl : k = 0 := by omega
      obtain rfl : first = sub := Option.some.inj (hfirst.symm.trans hsub)
      rw [show Fin.ofNat 16 0 = 0 from rfl, Fin.add_zero, hslot]
  next w t hstep := by
    obtain ⟨_, hsize, rfl⟩ := poolStep_take hstep
    obtain ⟨sub, _, hsub, _, _, _, hslot⟩ := h.waiting hsize
    rw [h.take_eq hsize]
    exact ⟨sub, hsub, hslot, workers_move_self .., rfl⟩
  index := threadPoolSubmit_index s.pool
  free := ⟨h.held, h.idle⟩

/-- **The pool is a queue** in every order of submissions and worker steps. -/
theorem fifo_of_reachable {handler : η}
    (h : Reachable poolStep (fun _ _ => True) (PoolState.init handler) s) : Fifo s :=
  (h.invariant (queueInv_init handler) fun s a t hs _ => QueueInv.step s a t hs).fifo

/-- A worker takes the next task and completes it. -/
def wholeTask (w i : ℕ) : List (Action ℕ ℕ) :=
  [.submit (some i) (some i) 0, .take w, .start w, .finish w .ok, .callback w, .idle w]

/-- Worker 0 has called the callback of the first task. While worker 1 completes the next 15, the
ring comes round, and worker 0 stores its state in a container that waits. -/
def lateStore : List (Action ℕ ℕ) :=
  [.submit (some 0) (some 0) 0, .take 0, .start 0, .finish 0 .ok, .callback 0] ++
    (List.range' 1 15).flatMap (wholeTask 1) ++ [.submit (some 16) (some 16) 0, .idle 0]

theorem run_lateStore : (run poolStep (PoolState.init ()) lateStore).map
    (fun s : PoolState ℕ ℕ Unit => (s.taken, s.accepted.length)) = some (16, 17) := by
  decide +kernel

theorem fifo_lateStore : ∃ s : PoolState ℕ ℕ Unit, s.taken = 16 ∧ s.accepted.length = 17 ∧
    Fifo s := by
  obtain ⟨s, hrun, hs⟩ := Option.map_eq_some_iff.mp run_lateStore
  obtain ⟨htaken, haccepted⟩ := Prod.mk.inj hs
  have hreach := Reachable.start.of_run (fun _ _ _ => trivial) hrun
  exact ⟨s, htaken, haccepted, fifo_of_reachable hreach⟩

/-! ## Free places -/

/-- The number of accepted tasks that no worker has taken. -/
def PoolState.waiting (s : PoolState τ κ η) : ℕ := s.accepted.length - s.taken

/-- `get_available` counts the free places of a ring of 16 in which one place stays empty, and a
task is refused exactly when there is none. -/
structure CountsFree (s : PoolState τ κ η) : Prop where
  available : getAvailable s.pool = 16 - 1 - s.waiting
  refused : ∀ (task : τ) callback timeDelay,
    (threadPoolSubmit s.pool (some task) callback timeDelay).2 = -1 ↔ s.waiting = 15

theorem threadPoolSubmit_accepted {pool : ThreadPool τ κ η} (h : isQueueFullUnsafe pool = false)
    (task : τ) (callback : Option κ) (timeDelay : ℤ) :
    (threadPoolSubmit pool (some task) callback timeDelay).2 = (slotOf pool.toPut).val := by
  simp [threadPoolSubmit, h]

theorem QueueInv.countsFree_iff_idle (h : QueueInv s) : CountsFree s ↔ s.waiting = 0 := by
  rcases h.queued with ⟨hlen, hring⟩ | ⟨sub, hlen, -, hring⟩
  · have hwaiting : s.waiting = 0 := by
      rw [PoolState.waiting, hlen, Nat.sub_self]
    refine iff_of_true ⟨?_, fun task callback timeDelay => ?_⟩ hwaiting
    · rw [hring.available_empty, hwaiting]
      rfl
    · rw [threadPoolSubmit_accepted hring.not_full, hwaiting]
      omega
  · have hwaiting : s.waiting = 1 := by
      rw [PoolState.waiting, hlen, Nat.add_sub_cancel_left]
    refine iff_of_false (fun hfree => ?_) (by omega)
    have havailable := hfree.available
    rw [hring.available_waiting, hwaiting] at havailable
    omega

/-- **Free places.** In every order of submissions and worker steps the free places are counted
right, and only a full ring refuses a task, exactly when no task waits. -/
theorem countsFree_iff {handler : η}
    (h : Reachable poolStep (fun _ _ => True) (PoolState.init handler) s) :
    CountsFree s ↔ s.waiting = 0 :=
  (h.invariant (queueInv_init handler) fun s a t hs _ => QueueInv.step s a t hs).countsFree_iff_idle

/-- A task that was submitted and taken again. -/
theorem countsFree_oneTask :
    ∃ s : PoolState ℕ ℕ Unit, s.taken = 1 ∧ CountsFree s := by
  have hreach : Reachable poolStep (fun _ _ => True) (PoolState.init ())
      (((PoolState.init () : PoolState ℕ ℕ Unit).submit (some 5) (some 7) 0).take 0) :=
    (Reachable.start.next (a := .submit (some 5) (some 7) 0) trivial rfl).next (a := .take 0)
      trivial rfl
  exact ⟨_, rfl, (countsFree_iff hreach).mpr rfl⟩

/-- With one task in it, no place of the ring is counted as free. -/
theorem not_countsFree_oneWaits :
    ¬ ∀ s : PoolState ℕ ℕ Unit,
      Reachable poolStep (fun _ _ => True) (PoolState.init ()) s → CountsFree s := by
  intro h
  have hfree := h _ (Reachable.start.next (a := .submit (some 5) (some 7) 0) trivial rfl)
  exact absurd hfree.available (by decide)

end MpegtsReader
