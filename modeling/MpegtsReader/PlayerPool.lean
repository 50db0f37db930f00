import MpegtsReader.Delivery
import MpegtsReader.PlayerSteps
import MpegtsReader.PoolRest

/-!
# The player over its pool

`gst_player_new` creates a pool of two workers that call `handle_play_task`, and `gst_player_play`
submits its slot to them, with `play_task_callback` as the callback. Here the two run together.

A step that needs the pool's lock and one that needs a slot's are one step where the code takes the
first inside the second. The steps of `handle_play_task` are those of `playerStep`, taken by the
worker that has the play; `play_task_callback` gets the slot that the container holds at its time.
-/

namespace MpegtsReader

open Transition

variable {κ α : Type}

/-- `struct gst_player` with its pool. A task of the pool is a slot of the player, and there is one
handler and one callback. `plays` are the plays that the pool has accepted, in order. -/
structure PlayerPool (κ α : Type) where
  player : PlayerState κ α
  pool : WaitState (Fin 2) Unit Unit
  plays : List ℕ

/-- `gst_player_new`. -/
def PlayerPool.init : PlayerPool κ α := ⟨.init, .init (), []⟩

/-- A step of a caller that does not need the pool. -/
def PlayerAction.byCaller : PlayerAction κ α → Bool
  | .play _ | .claim .. | .seek .. | .stop _ | .pause _ | .resume _ | .isPlaying _ => true
  | _ => false

/-- The play whose step in `handle_play_task` it is. -/
def PlayerAction.handled : PlayerAction κ α → Option ℕ
  | .bus n | .start n _ | .check n | .run n | .message n _ _ | .deliver n | .cleanup n
  | .callback n _ => some n
  | _ => none

/-- What happens to a worker in `g_main_loop_run`: messages, and the return. -/
def PlayerAction.ofLoop : PlayerAction κ α → Bool
  | .message .. | .deliver _ | .cleanup _ => true
  | _ => false

/-- A step of a worker that does not need the player. -/
def WaitAction.alone : WaitAction (Fin 2) Unit → Bool
  | .sleep _ | .wake _ | .work (.take _) | .work (.idle _) => true
  | _ => false

/-- `handle_play_task` has come to its end. -/
def Stage.returns : Stage → Option PlayResult
  | .returned res => some res
  | _ => .none

/-- What `handle_play_task` returns. -/
def PlayResult.taskResult : PlayResult → TaskResult
  | .success => .ok
  | .errUnableToPlay | .errCanceled => .fail

/-- `play_task_callback`, called with this slot. -/
def PlayerState.taskCallback (s : PlayerState κ α) (i : Fin 2) : PlayerState κ α :=
  ((s.lockTask i).setTaskState i .idle).unlockTask i

/-- The next step of a caller, of a worker, or of both. -/
inductive PlayerPoolAction (κ α : Type)
  | call (action : PlayerAction κ α)
  /-- `gst_player_play` submits its slot, which wakes these workers. -/
  | submit (n : ℕ) (woken : Finset ℕ)
  | pool (action : WaitAction (Fin 2) Unit)
  /-- A worker calls `handle_play_task`. -/
  | enter (worker : ℕ)
  | handle (worker : ℕ) (action : PlayerAction κ α)
  /-- `handle_play_task` returns. -/
  | leave (worker : ℕ)
  /-- A worker calls `play_task_callback`. -/
  | complete (worker : ℕ)

namespace PlayerPool

variable (s : PlayerPool κ α)

/-- The pool accepts the slot of a play. -/
def accepts (n : ℕ) : Bool :=
  0 ≤ (threadPoolSubmit s.pool.base.pool (some (taskIndex n)) (some ()) 0).2

/-- `gst_player_play`: the task is submitted. -/
def submit (n : ℕ) (woken : Finset ℕ) : Option (PlayerPool κ α) := do
  let player ← playerStep s.player (.submit n (s.accepts n))
  let pool ← waitStep 2 s.pool (.submit (some (taskIndex n)) (some ()) 0 woken)
  some ⟨player, pool, if s.accepts n then s.plays ++ [n] else s.plays⟩

/-- The handler is called with the task of the container. The steps of `handle_play_task` are those
of the play of that slot, so it is not possible here where the container has another one. -/
def enter (w : ℕ) : Option (PlayerPool κ α) :=
  match s.pool.base.workers w with
  | .taken slot job => do
    let n ← s.plays[job]?
    let pool ← waitStep 2 s.pool (.work (.start w))
    if (s.pool.base.pool.tasks slot).task = some (taskIndex n) then
      some { s with player := s.player.move n .handling, pool }
    else none
  | _ => none

/-- A step of the handler. -/
def handle (w : ℕ) (a : PlayerAction κ α) : Option (PlayerPool κ α) :=
  match s.pool.base.workers w with
  | .running _ job _ _ =>
    if a.handled.isSome ∧ a.handled = s.plays[job]? then
      (playerStep s.player a).map fun player => { s with player }
    else none
  | _ => none

/-- The handler returns. -/
def leave (w : ℕ) : Option (PlayerPool κ α) :=
  match s.pool.base.workers w with
  | .running _ job _ _ => do
    let n ← s.plays[job]?
    let res ← (s.player.stage n).returns
    let pool ← waitStep 2 s.pool (.work (.finish w res.taskResult))
    some { s with pool }
  | _ => none

/-- The callback is called with the task of the container, whatever its slot. -/
def complete (w : ℕ) : Option (PlayerPool κ α) :=
  match s.pool.base.workers w with
  | .returned slot job _ => do
    let n ← s.plays[job]?
    let res ← (s.player.stage n).returns
    let i ← (s.pool.base.pool.tasks slot).task
    let pool ← waitStep 2 s.pool (.work (.callback w))
    if s.player.taskLock i = false then
      some { s with player := (s.player.taskCallback i).move n (.done res), pool }
    else none
  | _ => none

end PlayerPool

/-- One step. -/
def playerPoolStep (s : PlayerPool κ α) : PlayerPoolAction κ α → Option (PlayerPool κ α)
  | .call a =>
    if a.byCaller then (playerStep s.player a).map fun player => { s with player } else none
  | .submit n woken => s.submit n woken
  | .pool a => if a.alone then (waitStep 2 s.pool a).map fun pool => { s with pool } else none
  | .enter w => s.enter w
  | .handle w a => s.handle w a
  | .leave w => s.leave w
  | .complete w => s.complete w

/-! ## The steps -/

section Steps

variable {s t : PlayerPool κ α} {w n : ℕ}

theorem playerPoolStep_call {a : PlayerAction κ α} (h : playerPoolStep s (.call a) = some t) :
    a.byCaller ∧ playerStep s.player a = some t.player ∧ t.pool = s.pool ∧ t.plays = s.plays := by
  obtain ⟨hcaller, h⟩ := Option.ite_none_right_eq_some.mp h
  obtain ⟨player, hplayer, rfl⟩ := Option.map_eq_some_iff.mp h
  exact ⟨hcaller, hplayer, rfl, rfl⟩

theorem playerPoolStep_submit {woken : Finset ℕ} (h : playerPoolStep s (.submit n woken) = some t) :
    playerStep s.player (.submit n (s.accepts n)) = some t.player ∧
      waitStep 2 s.pool (.submit (some (taskIndex n)) (some ()) 0 woken) = some t.pool ∧
      t.plays = if s.accepts n then s.plays ++ [n] else s.plays := by
  obtain ⟨player, hplayer, h⟩ := Option.bind_eq_some_iff.mp h
  obtain ⟨pool, hpool, h⟩ := Option.bind_eq_some_iff.mp h
  obtain rfl := Option.some.inj h
  exact ⟨hplayer, hpool, rfl⟩

theorem playerPoolStep_pool {a : WaitAction (Fin 2) Unit}
    (h : playerPoolStep s (.pool a) = some t) :
    a.alone ∧ waitStep 2 s.pool a = some t.pool ∧ t.player = s.player ∧ t.plays = s.plays := by
  obtain ⟨halone, h⟩ := Option.ite_none_right_eq_some.mp h
  obtain ⟨pool, hpool, rfl⟩ := Option.map_eq_some_iff.mp h
  exact ⟨halone, hpool, rfl, rfl⟩

theorem playerPoolStep_enter : playerPoolStep s (.enter w) = some t ↔ ∃ slot job n,
    s.pool.base.workers w = .taken slot job ∧ s.plays[job]? = some n ∧
      (s.pool.base.pool.tasks slot).task = some (taskIndex n) ∧
      waitStep 2 s.pool (.work (.start w)) = some t.pool ∧
      t.player = s.player.move n .handling ∧ t.plays = s.plays := by
  constructor
  · intro h
    simp only [playerPoolStep, PlayerPool.enter] at h
    split at h
    · rename_i slot job hphase
      obtain ⟨n, hn, h⟩ := Option.bind_eq_some_iff.mp h
      obtain ⟨pool, hpool, h⟩ := Option.bind_eq_some_iff.mp h
      obtain ⟨htask, h⟩ := Option.ite_none_right_eq_some.mp h
      obtain rfl := Option.some.inj h
      exact ⟨slot, job, n, hphase, hn, htask, hpool, rfl, rfl⟩
    · cases h
  · rintro ⟨slot, job, n, hphase, hn, htask, hpool, hplayer, hplays⟩
    obtain ⟨player, pool, plays⟩ := t
    obtain rfl : player = _ := hplayer
    obtain rfl : plays = _ := hplays
    simp only [playerPoolStep, PlayerPool.enter, hphase, hn, hpool, htask, if_true,
      Option.bind_eq_bind, Option.bind_some]

theorem playerPoolStep_handle {a : PlayerAction κ α} :
    playerPoolStep s (.handle w a) = some t ↔ ∃ slot job handler task n,
      s.pool.base.workers w = .running slot job handler task ∧ s.plays[job]? = some n ∧
      a.handled = some n ∧ playerStep s.player a = some t.player ∧ t.pool = s.pool ∧
      t.plays = s.plays := by
  constructor
  · intro h
    simp only [playerPoolStep, PlayerPool.handle] at h
    split at h
    · rename_i slot job handler task hphase
      obtain ⟨⟨hsome, hhandled⟩, h⟩ := Option.ite_none_right_eq_some.mp h
      obtain ⟨player, hplayer, rfl⟩ := Option.map_eq_some_iff.mp h
      obtain ⟨n, hn⟩ := Option.isSome_iff_exists.mp hsome
      exact ⟨slot, job, handler, task, n, hphase, hhandled ▸ hn, hn, hplayer, rfl, rfl⟩
    · cases h
  · rintro ⟨slot, job, handler, task, n, hphase, hn, hhandled, hplayer, hpool, hplays⟩
    obtain ⟨player, pool, plays⟩ := t
    obtain rfl : pool = _ := hpool
    obtain rfl : plays = _ := hplays
    simp only [playerPoolStep, PlayerPool.handle, hphase, hhandled, hn, hplayer, Option.isSome_some,
      and_self, if_true, Option.map_some]

theorem playerPoolStep_leave : playerPoolStep s (.leave w) = some t ↔ ∃ slot job handler task n res,
    s.pool.base.workers w = .running slot job handler task ∧ s.plays[job]? = some n ∧
      s.player.stage n = .returned res ∧
      waitStep 2 s.pool (.work (.finish w res.taskResult)) = some t.pool ∧
      t.player = s.player ∧ t.plays = s.plays := by
  constructor
  · intro h
    simp only [playerPoolStep, PlayerPool.leave] at h
    split at h
    · rename_i slot job handler task hphase
      obtain ⟨n, hn, h⟩ := Option.bind_eq_some_iff.mp h
      obtain ⟨res, hres, h⟩ := Option.bind_eq_some_iff.mp h
      obtain ⟨pool, hpool, h⟩ := Option.bind_eq_some_iff.mp h
      obtain rfl := Option.some.inj h
      refine ⟨slot, job, handler, task, n, res, hphase, hn, ?_, hpool, rfl, rfl⟩
      unfold Stage.returns at hres
      split at hres
      · rename_i hstage
        rw [hstage, Option.some.inj hres]
      · cases hres
    · cases h
  · rintro ⟨slot, job, handler, task, n, res, hphase, hn, hstage, hpool, hplayer, hplays⟩
    obtain ⟨player, pool, plays⟩ := t
    obtain rfl : player = _ := hplayer
    obtain rfl : plays = _ := hplays
    simp only [playerPoolStep, PlayerPool.leave, hphase, hn, hstage, Stage.returns, hpool,
      Option.bind_eq_bind, Option.bind_some]

theorem playerPoolStep_complete : playerPoolStep s (.complete w) = some t ↔
    ∃ slot job result n res i, s.pool.base.workers w = .returned slot job result ∧
      s.plays[job]? = some n ∧ s.player.stage n = .returned res ∧
      (s.pool.base.pool.tasks slot).task = some i ∧ s.player.taskLock i = false ∧
      waitStep 2 s.pool (.work (.callback w)) = some t.pool ∧
      t.player = (s.player.taskCallback i).move n (.done res) ∧ t.plays = s.plays := by
  constructor
  · intro h
    simp only [playerPoolStep, PlayerPool.complete] at h
    split at h
    · rename_i slot job result hphase
      obtain ⟨n, hn, h⟩ := Option.bind_eq_some_iff.mp h
      obtain ⟨res, hres, h⟩ := Option.bind_eq_some_iff.mp h
      obtain ⟨i, hi, h⟩ := Option.bind_eq_some_iff.mp h
      obtain ⟨pool, hpool, h⟩ := Option.bind_eq_some_iff.mp h
      obtain ⟨hfree, h⟩ := Option.ite_none_right_eq_some.mp h
      obtain rfl := Option.some.inj h
      refine ⟨slot, job, result, n, res, i, hphase, hn, ?_, hi, hfree, hpool, rfl, rfl⟩
      unfold Stage.returns at hres
      split at hres
      · rename_i hstage
        rw [hstage, Option.some.inj hres]
      · cases hres
    · cases h
  · rintro ⟨slot, job, result, n, res, i, hphase, hn, hstage, hi, hfree, hpool, hplayer, hplays⟩
    obtain ⟨player, pool, plays⟩ := t
    obtain rfl : player = _ := hplayer
    obtain rfl : plays = _ := hplays
    simp only [playerPoolStep, PlayerPool.complete, hphase, hn, hstage, Stage.returns, hi, hpool,
      hfree, if_true, Option.bind_eq_bind, Option.bind_some]

end Steps

end MpegtsReader
