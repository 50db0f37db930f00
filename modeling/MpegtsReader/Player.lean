import Mathlib.Data.Int.Notation
import Mathlib.Logic.Function.Basic
import Mathlib.Tactic.Simps.Basic
import MpegtsReader.Transition

/-!
# The player

`gst_aplay.c`: the public operations, `handle_play_task` on the workers of the pool,
`play_task_callback` and `cb_message`. A section under a lock is one step, and so is each call
without it, together with what it reads of its task. A step that needs a lock is not possible while
the lock is held.

`cb_message` takes no lock. Both loops run on the default context, and no watch is ever removed:
from the time a play has its loop, its messages come to whichever worker is in `g_main_loop_run`,
also after its cleanup. The context has one owner, so one message is handled at a time. Its calls
are steps of their own, each with the pipeline or the loop that the slot holds then. A call that
falls into a section of another thread is a step before that section, or after it once the section
has released or stored the handle.

A call of `gst_player_play` and what the pool does for it afterwards is one thread of steps, named
by the id of the call; `Stage` says where it is. The pool runs every task that it has accepted once,
on one of two workers, and then its completion callback once. A pipeline and a loop are named by the
id of the play that has created them.

The state also keeps what happened: every call to GStreamer or GLib that hands over a pipeline or a
loop, what was released, which callbacks were called and which plays were stopped.
-/

namespace MpegtsReader

/-- `GST_TASK_STATE_IDLE`, `_START`, `_PLAYING` and `_CANCEL`. -/
inductive GstTaskState
  | idle
  | start
  | playing
  | cancel
  deriving DecidableEq

/-- `play_type_t`. -/
inductive PlayType
  | single
  | loop
  deriving DecidableEq

/-- `SUCCESS`, `ERR_UNABLE_TO_PLAY` and `ERR_CANCELED`. -/
inductive PlayResult
  | success
  | errUnableToPlay
  | errCanceled
  deriving DecidableEq

/-- `GST_STATE_NULL`, `_READY`, `_PAUSED` and `_PLAYING`. -/
inductive GstState
  | null
  | ready
  | paused
  | playing
  deriving DecidableEq

/-- `gst_play_task_t`, apart from its lock. -/
structure PlayTask (κ α : Type) where
  pipeline : Option ℕ
  loop : Option ℕ
  callback : Option κ
  cbArg : Option α
  state : GstTaskState
  playType : PlayType
  id : ℕ

/-- The calls that hand over a pipeline or a loop. -/
inductive GstCall
  | getBus (pipeline : Option ℕ)
  | setState (pipeline : Option ℕ) (state : GstState)
  | seek (pipeline : Option ℕ) (msOffset : ℤ)
  | unrefPipeline (pipeline : Option ℕ)
  | quit (loop : Option ℕ)
  | run (loop : Option ℕ)
  | unrefLoop (loop : Option ℕ)
  deriving DecidableEq

/-- The messages that `cb_message` tells apart. -/
inductive GstMessage
  | error
  | eos
  | buffering (percent : ℤ)
  | clockLost
  | other

/-- A call that `cb_message` makes with its task. -/
inductive MessageCall
  | setState (state : GstState)
  | seek (msOffset : ℤ)
  | quit

/-- A call of `cb_message`: the play whose worker has made it, the slot it is for, and what comes
next. -/
structure Dispatch where
  play : ℕ
  slot : Fin 2
  call : MessageCall
  rest : List MessageCall

/-- Where a call of `gst_player_play` and its task are. -/
inductive Stage
  /-- There is no such call yet. -/
  | none
  /-- It has its id. -/
  | numbered
  /-- It has taken its slot. -/
  | claimed
  /-- It has returned -1. -/
  | refused
  /-- The pool has accepted the task. -/
  | queued
  /-- In `handle_play_task`. -/
  | handling
  /-- The bus is there. -/
  | bound
  /-- The pipeline plays. -/
  | ready
  /-- The loop is there. -/
  | looped
  /-- In `g_main_loop_run`. -/
  | running
  /-- The callback is next. -/
  | ended (res : PlayResult)
  /-- `handle_play_task` has returned, `play_task_callback` is next. -/
  | returned (res : PlayResult)
  /-- The pool is done with the task. -/
  | done (res : PlayResult)
  deriving DecidableEq

/-- The arguments of `gst_player_play`. -/
structure PlayRequest (κ α : Type) where
  callback : Option κ
  arg : Option α
  playType : PlayType

/-- A call of the user's callback, made for a play. -/
structure Outcome (κ α : Type) where
  play : ℕ
  callback : κ
  id : ℕ
  res : PlayResult
  arg : Option α
  deriving DecidableEq

/-- A call to GStreamer or GLib, and whether what it hands over exists. -/
structure Use where
  call : GstCall
  live : Bool

/-- `struct gst_player`, the threads, and what happened so far. -/
structure PlayerState (κ α : Type) where
  id : ℕ
  lock : Bool
  tasks : Fin 2 → PlayTask κ α
  taskLock : Fin 2 → Bool
  stage : ℕ → Stage
  requests : ℕ → PlayRequest κ α
  freedPipelines : List ℕ
  freedLoops : List ℕ
  uses : List Use
  outcomes : List (Outcome κ α)
  cancelled : List ℕ
  dispatch : Option Dispatch

variable {κ α : Type}

/-- `play_task_id & TASK_QMSK`. -/
def taskIndex (playTaskId : ℤ) : Fin 2 := ⟨(playTaskId % 2).toNat, by omega⟩

/-- `cb_message`: what it calls, by what it reads of its task. -/
def cbMessage (task : PlayTask κ α) : GstMessage → List MessageCall
  | .error => [.setState .ready, .quit]
  | .eos =>
    match task.playType with
    | .single => [.setState .ready, .quit]
    | .loop => [.seek 0]
  | .buffering percent =>
    if task.state = .playing then []
    else if percent < 100 then [.setState .paused]
    else [.setState .playing]
  | .clockLost => [.setState .paused, .setState .playing]
  | .other => []

/-- The call, with what the task holds. -/
def MessageCall.on (task : PlayTask κ α) : MessageCall → GstCall
  | .setState state => .setState task.pipeline state
  | .seek msOffset => .seek task.pipeline msOffset
  | .quit => .quit task.loop

namespace PlayerState

/-- `gst_player_new`. -/
def init : PlayerState κ α where
  id := 0
  lock := false
  tasks := fun _ => ⟨none, none, none, none, .idle, .single, 0⟩
  taskLock := fun _ => false
  stage := fun _ => .none
  requests := fun _ => ⟨none, none, .single⟩
  freedPipelines := []
  freedLoops := []
  uses := []
  outcomes := []
  cancelled := []
  dispatch := none

variable (s : PlayerState κ α)

/-- What the call hands over was created and not yet released. -/
def handsLive : GstCall → Bool
  | .getBus p | .setState p _ | .seek p _ | .unrefPipeline p =>
    p.any fun n => n ∉ s.freedPipelines
  | .quit l | .run l | .unrefLoop l => l.any fun n => n ∉ s.freedLoops

/-- A call to GStreamer or GLib. -/
@[simps] def use (call : GstCall) : PlayerState κ α :=
  { s with uses := s.uses ++ [⟨call, s.handsLive call⟩] }

/-- `pthread_mutex_lock` on a task. -/
@[simps] def lockTask (i : Fin 2) : PlayerState κ α :=
  { s with taskLock := Function.update s.taskLock i true }

/-- `pthread_mutex_unlock` on a task. -/
@[simps] def unlockTask (i : Fin 2) : PlayerState κ α :=
  { s with taskLock := Function.update s.taskLock i false }

/-- A store to a task. -/
@[simps] def setTask (i : Fin 2) (task : PlayTask κ α) : PlayerState κ α :=
  { s with tasks := Function.update s.tasks i task }

/-- A store to the state of a task. -/
def setTaskState (i : Fin 2) (state : GstTaskState) : PlayerState κ α :=
  s.setTask i { s.tasks i with state }

/-- A play goes on. -/
@[simps] def move (n : ℕ) (stage : Stage) : PlayerState κ α :=
  { s with stage := Function.update s.stage n stage }

/-! ## Public operations -/

/-- `gst_player_is_playing`, with its result. -/
def gstPlayerIsPlaying (playTaskId : ℤ) : PlayerState κ α × Bool :=
  let i := taskIndex playTaskId
  let s := s.lockTask i
  let res := (s.tasks i).state ≠ .idle
  (s.unlockTask i, res)

/-- `gst_player_seek`. -/
def gstPlayerSeek (playTaskId : ℤ) (msOffset : ℤ) : PlayerState κ α :=
  let i := taskIndex playTaskId
  let s := s.lockTask i
  (s.use (.seek (s.tasks i).pipeline msOffset)).unlockTask i

/-- `gst_player_stop`. -/
def gstPlayerStop (playTaskId : ℤ) : PlayerState κ α :=
  let i := taskIndex playTaskId
  let s := s.lockTask i
  if (s.tasks i).state = .idle then s.unlockTask i
  else
    let s := s.use (.setState (s.tasks i).pipeline .ready)
    let s := s.use (.quit (s.tasks i).loop)
    let s := s.setTaskState i .cancel
    { s with cancelled := (s.tasks i).id :: s.cancelled }.unlockTask i

/-- `gst_player_pause` and `gst_player_resume`. A task that is idle stays locked. -/
def changeState (playTaskId : ℤ) (state : GstState) : PlayerState κ α :=
  let i := taskIndex playTaskId
  let s := s.lockTask i
  if (s.tasks i).state = .idle then s
  else (s.use (.setState (s.tasks i).pipeline state)).unlockTask i

/-- `gst_player_pause`. -/
def gstPlayerPause (playTaskId : ℤ) : PlayerState κ α := s.changeState playTaskId .paused

/-- `gst_player_resume`. -/
def gstPlayerResume (playTaskId : ℤ) : PlayerState κ α := s.changeState playTaskId .playing

/-- `gst_player_play`: the section under the lock of the player. -/
def playNumber (request : PlayRequest κ α) : PlayerState κ α :=
  let s := { s with lock := true }
  let n := s.id
  let s := { s with id := n + 1, requests := Function.update s.requests n request }
  { s with lock := false }.move n .numbered

/-- What `gst_player_play` stores in its slot. `launched` is what `gst_parse_launch` has to say. -/
def claimedTask (n : ℕ) (launched : Bool) : PlayTask κ α :=
  let request := s.requests n
  { s.tasks (taskIndex n) with
    id := n
    pipeline := if launched then some n else none
    callback := request.callback
    cbArg := request.arg
    playType := request.playType
    state := .start }

/-- `gst_player_play`: the slot is taken. -/
def playClaim (n : ℕ) (launched : Bool) : PlayerState κ α :=
  let i := taskIndex n
  let s := s.lockTask i
  if (s.tasks i).state ≠ .idle then (s.unlockTask i).move n .refused
  else ((s.setTask i (s.claimedTask n launched)).unlockTask i).move n .claimed

/-- `gst_player_play`: the task is submitted. `accepted` is the answer of the pool. -/
def playSubmit (n : ℕ) (accepted : Bool) : PlayerState κ α :=
  let i := taskIndex n
  let s := s.lockTask i
  if accepted then (s.unlockTask i).move n .queued
  else
    let s := s.setTaskState i .idle
    let p := (s.tasks i).pipeline
    let s := s.use (.unrefPipeline p)
    let s := { s with freedPipelines := p.toList ++ s.freedPipelines }
    (s.unlockTask i).move n .refused

/-! ## The workers -/

/-- `handle_play_task`: the bus. -/
def handleBus (n : ℕ) : PlayerState κ α :=
  (s.use (.getBus (s.tasks (taskIndex n)).pipeline)).move n .bound

/-- `handle_play_task`: the pipeline is set to playing, and it is or it fails. -/
def handleStart (n : ℕ) (changed : Bool) : PlayerState κ α :=
  (s.use (.setState (s.tasks (taskIndex n)).pipeline .playing)).move n
    (if changed then .ready else .ended .errUnableToPlay)

/-- `handle_play_task`: the section that creates the loop, unless the task is cancelled. -/
def handleCheck (n : ℕ) : PlayerState κ α :=
  let i := taskIndex n
  let s := s.lockTask i
  if (s.tasks i).state ≠ .cancel then
    let s := s.setTask i { s.tasks i with state := .playing, loop := some n }
    (s.unlockTask i).move n .looped
  else (s.unlockTask i).move n (.ended .errCanceled)

/-- `handle_play_task`: the loop is started. -/
def handleRun (n : ℕ) : PlayerState κ α :=
  (s.use (.run (s.tasks (taskIndex n)).loop)).move n .running

/-- A call of `cb_message` goes on, or returns. -/
def dispatched (play : ℕ) (slot : Fin 2) (calls : List MessageCall) : PlayerState κ α :=
  { s with dispatch := match calls with
    | [] => none
    | call :: rest => some ⟨play, slot, call, rest⟩ }

/-- The loop of `m` calls `cb_message` for a message of `n`. -/
def handleMessage (m n : ℕ) (msg : GstMessage) : PlayerState κ α :=
  s.dispatched m (taskIndex n) (cbMessage (s.tasks (taskIndex n)) msg)

/-- The next call of `cb_message`. -/
def handleCall : PlayerState κ α :=
  match s.dispatch with
  | some d => (s.use (d.call.on (s.tasks d.slot))).dispatched d.play d.slot d.rest
  | none => s

/-- `handle_play_task`: the section after the loop. -/
def handleCleanup (n : ℕ) : PlayerState κ α :=
  let i := taskIndex n
  let s := s.lockTask i
  let l := (s.tasks i).loop
  let s := s.use (.unrefLoop l)
  let s := { s with freedLoops := l.toList ++ s.freedLoops }
  let p := (s.tasks i).pipeline
  let s := s.use (.setState p .null)
  let s := s.use (.unrefPipeline p)
  let s := { s with freedPipelines := p.toList ++ s.freedPipelines }
  let s := s.setTask i { s.tasks i with pipeline := none, loop := none, state := .idle }
  (s.unlockTask i).move n (.ended .success)

/-- `handle_play_task`: the callback, if there is one, is called with what the task holds. -/
def handleCallback (n : ℕ) (res : PlayResult) : PlayerState κ α :=
  let task := s.tasks (taskIndex n)
  match task.callback with
  | some callback =>
    PlayerState.move { s with
      outcomes := s.outcomes ++ [⟨n, callback, task.id, res, task.cbArg⟩] } n (.returned res)
  | none => s.move n (.returned res)

/-- `play_task_callback`. -/
def playTaskCallback (n : ℕ) (res : PlayResult) : PlayerState κ α :=
  let i := taskIndex n
  let s := s.lockTask i
  let s := s.setTaskState i .idle
  (s.unlockTask i).move n (.done res)

end PlayerState

/-! ## Steps -/

/-- `gst_bus_add_signal_watch` has been called. -/
def Stage.watched : Stage → Bool
  | .looped | .running | .ended .success | .returned .success | .done .success => true
  | _ => false

/-- A worker has the task. -/
def Stage.working : Stage → Bool
  | .handling | .bound | .ready | .looped | .running | .ended _ | .returned _ => true
  | _ => false

/-- The next step of a caller, of a play or of a worker. -/
inductive PlayerAction (κ α : Type)
  | play (request : PlayRequest κ α)
  | claim (n : ℕ) (launched : Bool)
  | submit (n : ℕ) (accepted : Bool)
  | take (n : ℕ)
  | bus (n : ℕ)
  | start (n : ℕ) (changed : Bool)
  | check (n : ℕ)
  | run (n : ℕ)
  | message (m n : ℕ) (msg : GstMessage)
  | deliver (m : ℕ)
  | cleanup (n : ℕ)
  | callback (n : ℕ) (res : PlayResult)
  | complete (n : ℕ) (res : PlayResult)
  | seek (playTaskId msOffset : ℤ)
  | stop (playTaskId : ℤ)
  | pause (playTaskId : ℤ)
  | resume (playTaskId : ℤ)
  | isPlaying (playTaskId : ℤ)

namespace PlayerState

variable (s : PlayerState κ α)

/-- The play has come to this step, and the lock that the step needs is free. -/
def canStep : PlayerAction κ α → Bool
  | .play _ => s.lock = false
  | .claim n _ => s.stage n = .numbered ∧ s.taskLock (taskIndex n) = false
  | .submit n _ => s.stage n = .claimed ∧ s.taskLock (taskIndex n) = false
  | .take n =>
    -- one of two workers is free
    s.stage n = .queued ∧ ((List.range s.id).countP fun m => (s.stage m).working) < 2
  | .bus n => s.stage n = .handling
  | .start n _ => s.stage n = .bound
  | .check n => s.stage n = .ready ∧ s.taskLock (taskIndex n) = false
  | .run n => s.stage n = .looped
  | .message m n _ => s.stage m = .running ∧ (s.stage n).watched ∧ s.dispatch.isNone
  | .deliver m => s.stage m = .running ∧ s.dispatch.any fun d => d.play = m
  | .cleanup n =>
    -- the loop returns between two messages
    s.stage n = .running ∧ s.taskLock (taskIndex n) = false ∧ s.dispatch.all fun d => d.play ≠ n
  | .callback n res => s.stage n = .ended res
  | .complete n res => s.stage n = .returned res ∧ s.taskLock (taskIndex n) = false
  | .seek playTaskId _ | .stop playTaskId | .pause playTaskId | .resume playTaskId
  | .isPlaying playTaskId => s.taskLock (taskIndex playTaskId) = false

/-- The state after a step. -/
def after : PlayerAction κ α → PlayerState κ α
  | .play request => s.playNumber request
  | .claim n launched => s.playClaim n launched
  | .submit n accepted => s.playSubmit n accepted
  | .take n => s.move n .handling
  | .bus n => s.handleBus n
  | .start n changed => s.handleStart n changed
  | .check n => s.handleCheck n
  | .run n => s.handleRun n
  | .message m n msg => s.handleMessage m n msg
  | .deliver _ => s.handleCall
  | .cleanup n => s.handleCleanup n
  | .callback n res => s.handleCallback n res
  | .complete n res => s.playTaskCallback n res
  | .seek playTaskId msOffset => s.gstPlayerSeek playTaskId msOffset
  | .stop playTaskId => s.gstPlayerStop playTaskId
  | .pause playTaskId => s.gstPlayerPause playTaskId
  | .resume playTaskId => s.gstPlayerResume playTaskId
  | .isPlaying playTaskId => (s.gstPlayerIsPlaying playTaskId).1

end PlayerState

/-- One step. -/
def playerStep (s : PlayerState κ α) (a : PlayerAction κ α) : Option (PlayerState κ α) :=
  if s.canStep a then some (s.after a) else none

theorem playerStep_eq_some {s t : PlayerState κ α} {a : PlayerAction κ α} :
    playerStep s a = some t ↔ s.canStep a ∧ s.after a = t := by
  unfold playerStep
  rw [Option.ite_none_right_eq_some, Option.some.injEq]

end MpegtsReader
