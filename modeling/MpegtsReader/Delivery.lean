import Mathlib.Data.List.Nodup
import MpegtsReader.Fifo

/-!
# Completions of the thread pool

A worker keeps its container after `handle_task` has released the lock and reads it twice more, for
the handler and for the callback, while `thread_pool_submit` goes on filling containers and never
looks at their state: after one turn of the ring it fills a container whose task still runs.
`delivered_of_reachable` says that this is all that can go wrong: as long as no container is
overwritten that a worker still reads, every completion is delivered, once, to its own callback.

1. `Assigned`: every worker that still reads its container finds there what its job asked for, and
   no two workers have one job.
2. `Recorded`: what the handlers returned and which callbacks were called agrees with the phases of
   the workers.
3. `PoolInv` adds what waits in the ring; `PoolInv.step` goes through the actions.
-/

namespace MpegtsReader

open Transition

variable {τ κ η : Type} {s t : PoolState τ κ η} {w : ℕ}

/-- Every call is for one submission, with its callback, its task and the result of its own
handler; no handler is run twice for a submission and no submission is called for twice; and a
submission whose handler has returned is called for, or the call is the next step of its worker. -/
structure Delivered (s : PoolState τ κ η) : Prop where
  own : ∀ c ∈ s.calls, ∃ sub, s.accepted[c.job]? = some sub ∧ sub.task = c.task ∧
    sub.callback = some c.callback ∧ ⟨c.job, s.pool.handler, c.task, c.res⟩ ∈ s.returns
  ran : (s.returns.map Return.job).Nodup
  once : (s.calls.map Call.job).Nodup
  due : ∀ r ∈ s.returns, r.job ∈ s.calls.map Call.job ∨
    ∃ w t c, poolStep s (.callback w) = some t ∧ t.calls = s.calls ++ [c] ∧ c.job = r.job

/-- An accepted submission has a callback, and the container it is put in is not read by a worker
any more, or asks for the same already. -/
def Spared (s : PoolState τ κ η) : Action τ κ → Prop
  | .submit task callback _ => task.isSome → isQueueFullUnsafe s.pool = false →
      callback.isSome ∧ ∀ w job, (s.workers w).job = some (slotOf s.pool.toPut, job) →
        (s.pool.tasks (slotOf s.pool.toPut)).task = task ∧
          (s.pool.tasks (slotOf s.pool.toPut)).callback = callback
  | _ => True

/-! ## Jobs -/

/-- Every worker with a job has taken it alone, and its container asks for what was submitted. -/
structure Assigned (s : PoolState τ κ η) : Prop where
  holds : ∀ w slot job, (s.workers w).job = some (slot, job) →
    job < s.taken ∧ ∃ sub, s.accepted[job]? = some sub ∧ s.pool.Serves slot sub
  apart : ∀ v w i j job, (s.workers v).job = some (i, job) → (s.workers w).job = some (j, job) →
    v = w

/-- Two workers have two jobs. -/
theorem Assigned.job_ne (h : Assigned s) {v : ℕ} {i j : Fin 16} {other job : ℕ} (hvw : v ≠ w)
    (hv : (s.workers v).job = some (i, other)) (hw : (s.workers w).job = some (j, job)) :
    other ≠ job := by
  rintro rfl
  exact hvw (h.apart v w i j other hv hw)

/-- A worker that goes on with its job, or drops it, leaves all jobs as they were. -/
theorem job_move {phase : Phase τ η} (h : ∀ x, phase.job = some x → (s.workers w).job = some x)
    {v : ℕ} {x : Fin 16 × ℕ} (hv : ((s.move w phase).workers v).job = some x) :
    (s.workers v).job = some x := by
  by_cases hvw : v = w
  · subst hvw
    rw [workers_move_self] at hv
    exact h x hv
  · rwa [workers_move_of_ne hvw] at hv

/-- No new job, and every container that is read keeps what it asks for. -/
theorem Assigned.mono (h : Assigned s)
    (hjob : ∀ w x, (t.workers w).job = some x → (s.workers w).job = some x)
    (htaken : s.taken ≤ t.taken)
    (haccepted : ∀ (job : ℕ) sub, s.accepted[job]? = some sub → t.accepted[job]? = some sub)
    (hserves : ∀ w slot job sub, (s.workers w).job = some (slot, job) → s.pool.Serves slot sub →
      t.pool.Serves slot sub) : Assigned t where
  holds w slot job hw := by
    obtain ⟨hlt, sub, hsub, hserved⟩ := h.holds w slot job (hjob w _ hw)
    exact ⟨hlt.trans_le htaken, sub, haccepted job sub hsub,
      hserves w slot job sub (hjob w _ hw) hserved⟩
  apart v w i j job hv hw := h.apart v w i j job (hjob v _ hv) (hjob w _ hw)

/-- A worker that takes the next job. -/
theorem Assigned.take (h : Assigned s) {slot : Fin 16} {sub : Submission τ κ}
    (hsub : s.accepted[s.taken]? = some sub) (hserves : s.pool.Serves slot sub) :
    Assigned (PoolState.move { s with taken := s.taken + 1 } w (.taken slot s.taken)) where
  holds v i job hv := by
    show job < s.taken + 1 ∧ ∃ sub, s.accepted[job]? = some sub ∧ s.pool.Serves i sub
    by_cases hvw : v = w
    · rw [hvw, workers_move_self] at hv
      obtain ⟨rfl, rfl⟩ : slot = i ∧ s.taken = job := by
        simpa [Phase.job] using hv
      exact ⟨Nat.lt_succ_self _, sub, hsub, hserves⟩
    · rw [workers_move_of_ne hvw] at hv
      obtain ⟨hlt, hholds⟩ := h.holds v i job hv
      exact ⟨hlt.trans (Nat.lt_succ_self _), hholds⟩
  apart u v i j job hu hv := by
    by_cases huw : u = w <;> by_cases hvw : v = w
    · rw [huw, hvw]
    · rw [huw, workers_move_self] at hu
      rw [workers_move_of_ne hvw] at hv
      have hjob : s.taken = job := (Prod.ext_iff.mp (Option.some.inj hu)).2
      exact absurd (h.holds v j job hv).1 (by omega)
    · rw [workers_move_of_ne huw] at hu
      rw [hvw, workers_move_self] at hv
      have hjob : s.taken = job := (Prod.ext_iff.mp (Option.some.inj hv)).2
      exact absurd (h.holds u i job hu).1 (by omega)
    · rw [workers_move_of_ne huw] at hu
      rw [workers_move_of_ne hvw] at hv
      exact h.apart u v i j job hu hv

/-! ## The log -/

/-- The task a submission came with. -/
def taskOf (s : PoolState τ κ η) (job : ℕ) : Option (Option τ) := s.accepted[job]?.map (·.task)

/-- The handler of a job returns once, and the callback is called after that. -/
def PhaseRecorded (s : PoolState τ κ η) : Phase τ η → Prop
  | .idle | .called _ => True
  | .taken _ job => job ∉ s.returns.map Return.job
  | .running _ job handler task =>
    handler = s.pool.handler ∧ taskOf s job = some task ∧ job ∉ s.returns.map Return.job
  | .returned _ job res =>
    (∃ task, ⟨job, s.pool.handler, task, res⟩ ∈ s.returns) ∧ job ∉ s.calls.map Call.job
  | .rejected .. => False

/-- The log of the returns and of the calls agrees with the phases. -/
structure Recorded (s : PoolState τ κ η) : Prop where
  phase : ∀ w, PhaseRecorded s (s.workers w)
  result : ∀ r ∈ s.returns, r.job < s.taken ∧ taskOf s r.job = some r.task
  ran : (s.returns.map Return.job).Nodup
  own : ∀ c ∈ s.calls, ∃ sub, s.accepted[c.job]? = some sub ∧ sub.task = c.task ∧
    sub.callback = some c.callback ∧ ⟨c.job, s.pool.handler, c.task, c.res⟩ ∈ s.returns
  once : (s.calls.map Call.job).Nodup
  due : ∀ r ∈ s.returns, r.job ∈ s.calls.map Call.job ∨
    ∃ w slot, s.workers w = .returned slot r.job r.res

section Append

variable {α : Type} {f : α → ℕ} {l : List α} {x : α}

theorem notMem_map_append {n : ℕ} (h : n ∉ l.map f) (hx : n ≠ f x) : n ∉ (l ++ [x]).map f := by
  rw [List.map_append, List.mem_append, not_or]
  exact ⟨h, fun hmem => hx (List.mem_singleton.mp hmem)⟩

theorem nodup_map_append (h : (l.map f).Nodup) (hx : f x ∉ l.map f) : ((l ++ [x]).map f).Nodup := by
  rw [List.map_append]
  exact List.nodup_append'.mpr ⟨h, List.nodup_singleton _, List.disjoint_singleton.mpr hx⟩

end Append

/-- Submissions and takes leave the log alone. -/
theorem Recorded.mono (h : Recorded s) (hworkers : t.workers = s.workers)
    (hhandler : t.pool.handler = s.pool.handler) (hreturns : t.returns = s.returns)
    (hcalls : t.calls = s.calls) (htaken : s.taken ≤ t.taken)
    (haccepted : ∀ (job : ℕ) sub, s.accepted[job]? = some sub → t.accepted[job]? = some sub) :
    Recorded t := by
  have htask : ∀ job task, taskOf s job = some task → taskOf t job = some task := by
    intro job task htask
    obtain ⟨sub, hsub, rfl⟩ := Option.map_eq_some_iff.mp htask
    exact Option.map_eq_some_iff.mpr ⟨sub, haccepted job sub hsub, rfl⟩
  constructor
  · intro w
    have hw := h.phase w
    rw [hworkers]
    revert hw
    unfold PhaseRecorded
    rw [hreturns, hcalls, hhandler]
    cases s.workers w with
    | running slot job handler task => exact fun hw => ⟨hw.1, htask job task hw.2.1, hw.2.2⟩
    | taken slot job => exact id
    | returned slot job res => exact id
    | rejected slot job => exact id
    | idle => exact id
    | called slot => exact id
  · intro r hr
    obtain ⟨hlt, hown⟩ := h.result r (hreturns ▸ hr)
    exact ⟨hlt.trans_le htaken, htask _ _ hown⟩
  · exact hreturns ▸ h.ran
  · intro c hc
    obtain ⟨sub, hsub, htask, hcallback, hret⟩ := h.own c (hcalls ▸ hc)
    rw [hreturns, hhandler]
    exact ⟨sub, haccepted _ _ hsub, htask, hcallback, hret⟩
  · exact hcalls ▸ h.once
  · rw [hreturns, hcalls, hworkers]
    exact h.due

/-- A worker that has no completion to deliver goes on. -/
theorem Recorded.move (h : Recorded s) {phase : Phase τ η}
    (hw : ∀ slot job res, s.workers w ≠ .returned slot job res) (hphase : PhaseRecorded s phase) :
    Recorded (s.move w phase) where
  phase := phase_move (P := PhaseRecorded s) (fun v _ => h.phase v) hphase
  result := h.result
  ran := h.ran
  own := h.own
  once := h.once
  due r hr := by
    refine (h.due r hr).imp_right ?_
    rintro ⟨v, slot, hv⟩
    have hvw : v ≠ w := by
      rintro rfl
      exact hw slot r.job r.res hv
    exact ⟨v, slot, (workers_move_of_ne hvw _).trans hv⟩

/-- The handler of `job` returns. -/
theorem Recorded.finish (h : Recorded s) (ha : Assigned s) {slot : Fin 16} {job : ℕ}
    {handler : η} {task : Option τ} {res : TaskResult}
    (hw : s.workers w = .running slot job handler task) :
    Recorded (PoolState.move { s with returns := s.returns ++ [⟨job, handler, task, res⟩] } w
      (.returned slot job res)) := by
  have hjob : (s.workers w).job = some (slot, job) := by rw [hw]; rfl
  obtain ⟨rfl, hown, hnot⟩ : handler = s.pool.handler ∧ taskOf s job = some task ∧
      job ∉ s.returns.map Return.job := by
    have := h.phase w
    rwa [hw] at this
  have hcalls : job ∉ s.calls.map Call.job := by
    intro hmem
    obtain ⟨c, hc, rfl⟩ := List.mem_map.mp hmem
    obtain ⟨_, _, _, _, hret⟩ := h.own c hc
    exact hnot (List.mem_map_of_mem (f := Return.job) hret)
  constructor
  · refine phase_move (P := PhaseRecorded _) (s := { s with returns := _ }) ?_
      ⟨⟨task, List.mem_append_right _ (List.mem_singleton_self _)⟩, hcalls⟩
    intro v hv
    have hphase := h.phase v
    cases hvw : s.workers v with
    | taken i other =>
      rw [hvw] at hphase
      exact notMem_map_append hphase (ha.job_ne hv (by rw [hvw]; rfl) hjob)
    | running i other _ own =>
      rw [hvw] at hphase
      exact ⟨hphase.1, hphase.2.1,
        notMem_map_append hphase.2.2 (ha.job_ne hv (by rw [hvw]; rfl) hjob)⟩
    | returned i other own =>
      rw [hvw] at hphase
      exact ⟨hphase.1.imp fun _ hmem => List.mem_append_left _ hmem, hphase.2⟩
    | rejected i other => rwa [hvw] at hphase
    | idle => trivial
    | called i => trivial
  · intro r hr
    rcases List.mem_append.mp hr with hr | hr
    · exact h.result r hr
    · rw [List.mem_singleton.mp hr]
      exact ⟨(ha.holds w slot job hjob).1, hown⟩
  · exact nodup_map_append h.ran hnot
  · intro c hc
    obtain ⟨sub, hsub, htask, hcallback, hret⟩ := h.own c hc
    exact ⟨sub, hsub, htask, hcallback, List.mem_append_left _ hret⟩
  · exact h.once
  · intro r hr
    rcases List.mem_append.mp hr with hr | hr
    · refine (h.due r hr).imp_right ?_
      rintro ⟨v, i, hv⟩
      have hvw : v ≠ w := by
        rintro rfl
        rw [hw] at hv
        cases hv
      exact ⟨v, i, (workers_move_of_ne hvw _).trans hv⟩
    · rw [List.mem_singleton.mp hr]
      exact .inr ⟨w, slot, workers_move_self _ w _⟩

/-- The callback of `job` is called. -/
theorem Recorded.callBack (h : Recorded s) (ha : Assigned s) {slot : Fin 16} {job : ℕ}
    {res : TaskResult} {callback : κ} (hw : s.workers w = .returned slot job res)
    (hcallback : (s.pool.tasks slot).callback = some callback) :
    Recorded (PoolState.move
      { s with calls := s.calls ++ [⟨job, callback, res, (s.pool.tasks slot).task⟩] } w
      (.called slot)) := by
  have hjob : (s.workers w).job = some (slot, job) := by rw [hw]; rfl
  obtain ⟨⟨task, hret⟩, hnot⟩ :
      (∃ task, ⟨job, s.pool.handler, task, res⟩ ∈ s.returns) ∧ job ∉ s.calls.map Call.job := by
    have := h.phase w
    rwa [hw] at this
  obtain ⟨_, sub, hsub, hserves⟩ := ha.holds w slot job hjob
  have htask : task = (s.pool.tasks slot).task := by
    have hown : s.accepted[job]?.map (·.task) = some task := (h.result _ hret).2
    rw [hsub] at hown
    exact (hserves.task.trans (Option.some.inj hown)).symm
  constructor
  · refine phase_move (P := PhaseRecorded _) (s := { s with calls := _ }) ?_ trivial
    intro v hv
    have hphase := h.phase v
    cases hvw : s.workers v with
    | returned i other own =>
      rw [hvw] at hphase
      exact ⟨hphase.1, notMem_map_append hphase.2 (ha.job_ne hv (by rw [hvw]; rfl) hjob)⟩
    | taken i other => rwa [hvw] at hphase
    | running i other _ own => rwa [hvw] at hphase
    | rejected i other => rwa [hvw] at hphase
    | idle => trivial
    | called i => trivial
  · exact h.result
  · exact h.ran
  · intro c hc
    rcases List.mem_append.mp hc with hc | hc
    · exact h.own c hc
    · rw [List.mem_singleton.mp hc]
      exact ⟨sub, hsub, hserves.task.symm, hserves.callback.symm.trans hcallback, htask ▸ hret⟩
  · exact nodup_map_append h.once hnot
  · intro r hr
    show r.job ∈ (s.calls ++ [_]).map Call.job ∨ _
    rw [List.map_append, List.mem_append]
    rcases h.due r hr with hcalled | ⟨v, i, hv⟩
    · exact .inl (.inl hcalled)
    · by_cases hvw : v = w
      · rw [hvw, hw] at hv
        cases hv
        exact .inl (.inr (List.mem_singleton_self _))
      · exact .inr ⟨v, i, (workers_move_of_ne hvw _).trans hv⟩

/-! ## The invariant -/

/-- The invariant of the runs that spare what is read. -/
structure PoolInv (s : PoolState τ κ η) : Prop where
  queue : QueueInv s
  given : ∀ sub ∈ s.accepted, sub.callback.isSome
  assigned : Assigned s
  recorded : Recorded s

theorem poolInv_init (handler : η) : PoolInv (PoolState.init handler : PoolState τ κ η) where
  queue := queueInv_init handler
  given := nofun
  assigned := { holds := nofun, apart := nofun }
  recorded :=
    { phase := fun _ => trivial, result := nofun, ran := List.nodup_nil
      own := nofun, once := List.nodup_nil, due := nofun }

theorem getElem?_append_of_some {l : List (Submission τ κ)} {sub new : Submission τ κ} {n : ℕ}
    (h : l[n]? = some sub) : (l ++ [new])[n]? = some sub := by
  rw [List.getElem?_append_left (List.getElem?_eq_some_iff.mp h).1, h]

/-- A submission is put in the ring. -/
theorem PoolInv.put (h : PoolInv s) {sub : Submission τ κ}
    (hfull : isQueueFullUnsafe s.pool = false) (hcallback : sub.callback.isSome)
    (hspared : ∀ w job, (s.workers w).job = some (slotOf s.pool.toPut, job) →
      (s.pool.tasks (slotOf s.pool.toPut)).task = sub.task ∧
        (s.pool.tasks (slotOf s.pool.toPut)).callback = sub.callback) :
    PoolInv { s with
      pool := s.pool.put (s.pool.filled sub)
      accepted := s.accepted ++ [sub] } where
  queue := h.queue.put hfull
  given sub' hsub := by
    rcases List.mem_append.mp hsub with hsub | hsub
    · exact h.given sub' hsub
    · rw [List.mem_singleton.mp hsub]
      exact hcallback
  assigned := by
    refine h.assigned.mono (fun _ _ hw => hw) le_rfl
      (fun _ _ hsub => getElem?_append_of_some hsub) fun w slot job held hw hserves => ?_
    by_cases hslot : slot = slotOf s.pool.toPut
    · subst hslot
      obtain ⟨htask, hcall⟩ := hspared w job hw
      have hfilled : (s.pool.put (s.pool.filled sub)).tasks (slotOf s.pool.toPut) =
          s.pool.filled sub := Function.update_self ..
      refine ⟨?_, ?_, ?_⟩ <;> rw [hfilled]
      · exact htask.symm.trans hserves.task
      · rfl
      · exact hcall.symm.trans hserves.callback
    · have hkept : (s.pool.put (s.pool.filled sub)).tasks slot = s.pool.tasks slot :=
        Function.update_of_ne hslot ..
      refine ⟨?_, ?_, ?_⟩ <;> rw [hkept]
      · exact hserves.task
      · exact hserves.handler
      · exact hserves.callback
  recorded := h.recorded.mono rfl rfl rfl rfl le_rfl fun _ _ hsub => getElem?_append_of_some hsub

theorem PoolInv.take (h : PoolInv s) (hw : s.workers w = .idle) (hsize : s.pool.size ≠ 0) :
    PoolInv (s.take w) where
  queue := h.queue.take hsize
  given := by
    rw [h.queue.take_eq hsize]
    exact h.given
  assigned := by
    obtain ⟨sub, _, hsub, _, _, _, hslot⟩ := h.queue.waiting hsize
    have hserves : s.pool.Serves (slotOf s.pool.toTake) sub := by
      refine ⟨?_, ?_, ?_⟩ <;> rw [hslot] <;> rfl
    rw [h.queue.take_eq hsize]
    refine (h.assigned.take (w := w) hsub hserves).mono (fun _ _ hv => hv) le_rfl
      (fun _ _ hsub => hsub) fun v i job sub _ hserves => ?_
    have hkept : s.pool.take.Serves i sub := ⟨hserves.task, hserves.handler, hserves.callback⟩
    exact hkept.setState taskStateRun
  recorded := by
    rw [h.queue.take_eq hsize]
    have hrecorded : Recorded { s with
        pool := s.pool.take.setState (slotOf s.pool.toTake) taskStateRun
        taken := s.taken + 1 } :=
      h.recorded.mono rfl rfl rfl rfl (Nat.le_succ _) fun _ _ hsub => hsub
    refine hrecorded.move (fun i other res => by rw [hw]; nofun) fun hmem => ?_
    obtain ⟨r, hr, hjob⟩ := List.mem_map.mp hmem
    exact absurd (h.recorded.result r hr).1 (hjob ▸ lt_irrefl _)

theorem PoolInv.start (h : PoolInv s) {slot : Fin 16} {job : ℕ} {handler : η}
    (hw : s.workers w = .taken slot job) (hhandler : (s.pool.tasks slot).handler = some handler) :
    PoolInv (s.move w (.running slot job handler (s.pool.tasks slot).task)) where
  queue := h.queue.move nofun
  given := h.given
  assigned := h.assigned.mono (fun v x => job_move (fun y hy => by rw [hw]; exact hy)) le_rfl
    (fun _ _ hsub => hsub) (fun _ _ _ _ _ hserves => hserves)
  recorded := by
    have hphase : job ∉ s.returns.map Return.job := by
      have := h.recorded.phase w
      rwa [hw] at this
    obtain ⟨_, sub, hsub, hserves⟩ := h.assigned.holds w slot job (by rw [hw]; rfl)
    have hown : handler = s.pool.handler :=
      Option.some.inj (hhandler.symm.trans hserves.handler)
    refine h.recorded.move (fun i other res => by rw [hw]; nofun) ⟨hown, ?_, hphase⟩
    show s.accepted[job]?.map (·.task) = some (s.pool.tasks slot).task
    rw [hsub, hserves.task]
    rfl

theorem PoolInv.finish (h : PoolInv s) {slot : Fin 16} {job : ℕ} {handler : η} {task : Option τ}
    {res : TaskResult} (hw : s.workers w = .running slot job handler task) :
    PoolInv (PoolState.move { s with returns := s.returns ++ [Return.mk job handler task res] } w
      (.returned slot job res)) where
  queue := (h.queue.log _ s.calls).move nofun
  given := h.given
  assigned := h.assigned.mono (fun v x => job_move (fun y hy => by rw [hw]; exact hy)) le_rfl
    (fun _ _ hsub => hsub) (fun _ _ _ _ _ hserves => hserves)
  recorded := h.recorded.finish h.assigned hw

theorem PoolInv.callBack (h : PoolInv s) {slot : Fin 16} {job : ℕ} {res : TaskResult} {callback : κ}
    (hw : s.workers w = .returned slot job res)
    (hcallback : (s.pool.tasks slot).callback = some callback) :
    PoolInv (PoolState.move
      { s with calls := s.calls ++ [Call.mk job callback res (s.pool.tasks slot).task] } w
      (.called slot)) where
  queue := (h.queue.log s.returns _).move nofun
  given := h.given
  assigned := h.assigned.mono (fun v x => job_move (fun y hy => by cases hy)) le_rfl
    (fun _ _ hsub => hsub) (fun _ _ _ _ _ hserves => hserves)
  recorded := h.recorded.callBack h.assigned hw hcallback

theorem PoolInv.idle (h : PoolInv s) {slot : Fin 16} (hw : s.workers w = .called slot) :
    PoolInv (PoolState.move { s with pool := s.pool.setState slot taskStateIdle } w .idle) where
  queue := (h.queue.setIdle slot).move nofun
  given := h.given
  assigned := h.assigned.mono (fun v x => job_move (fun y hy => by cases hy)) le_rfl
    (fun _ _ hsub => hsub) (fun _ _ _ _ _ hserves => hserves.setState _)
  recorded := by
    have hrecorded : Recorded { s with pool := s.pool.setState slot taskStateIdle } :=
      h.recorded.mono rfl rfl rfl rfl le_rfl fun _ _ hsub => hsub
    exact hrecorded.move (fun i other res => by rw [hw]; nofun) trivial

/-- Every step that spares what is read keeps the invariant. -/
theorem PoolInv.step (s : PoolState τ κ η) (a : Action τ κ) (t : PoolState τ κ η) (h : PoolInv s)
    (hspared : Spared s a) (hstep : poolStep s a = some t) : PoolInv t := by
  cases a with
  | submit task callback timeDelay =>
    rw [poolStep_submit hstep]
    rcases submit_cases s task callback timeDelay with heq | ⟨htask, hfull, heq⟩
    · rwa [heq]
    · rw [heq]
      exact h.put hfull (hspared htask hfull).1 (hspared htask hfull).2
  | take w =>
    obtain ⟨hw, hsize, rfl⟩ := poolStep_take hstep
    exact h.take hw hsize
  | start w =>
    obtain ⟨slot, job, handler, hw, hhandler, rfl⟩ := poolStep_start hstep
    exact h.start hw hhandler
  | finish w res =>
    obtain ⟨slot, job, handler, task, hw, rfl⟩ := poolStep_finish hstep
    exact h.finish hw
  | callback w =>
    obtain ⟨slot, job, res, callback, hw, hcallback, rfl⟩ := poolStep_callback.mp hstep
    exact h.callBack hw hcallback
  | idle w =>
    obtain ⟨slot, hw, rfl⟩ := poolStep_idle hstep
    exact h.idle hw
  | reject w =>
    obtain ⟨slot, job, hw⟩ := poolStep_reject hstep
    exact absurd hw (h.queue.idle w slot job)

/-! ## Delivery -/

theorem PoolInv.delivered (h : PoolInv s) : Delivered s where
  own := h.recorded.own
  ran := h.recorded.ran
  once := h.recorded.once
  due r hr := by
    refine (h.recorded.due r hr).imp_right ?_
    rintro ⟨w, slot, hw⟩
    obtain ⟨_, sub, hsub, hserves⟩ := h.assigned.holds w slot r.job (by rw [hw]; rfl)
    have hgiven := h.given sub (List.mem_of_getElem? hsub)
    obtain ⟨callback, hcallback⟩ := Option.isSome_iff_exists.mp hgiven
    have hstep := poolStep_callback.mpr
      ⟨slot, r.job, r.res, callback, hw, hserves.callback.trans hcallback, rfl⟩
    exact ⟨w, _, _, hstep, rfl, rfl⟩

/-- As long as no container is overwritten that a worker still reads, every completion is
delivered. -/
theorem delivered_of_reachable {handler : η}
    (h : Reachable poolStep Spared (PoolState.init handler) s) : Delivered s :=
  (h.invariant (poolInv_init handler) PoolInv.step).delivered

/-- One task that a worker takes and completes. -/
theorem delivered_oneTask :
    ∃ s : PoolState ℕ ℕ Unit, Delivered s ∧ s.calls = [⟨0, 7, .ok, some 5⟩] := by
  have hsubmit : Reachable poolStep Spared (PoolState.init () : PoolState ℕ ℕ Unit)
      ((PoolState.init ()).submit (some 5) (some 7) 0) :=
    Reachable.start.next (a := .submit (some 5) (some 7) 0) (fun _ _ => ⟨rfl, nofun⟩) rfl
  obtain ⟨t, ht, hcalls⟩ : ∃ t, run poolStep ((PoolState.init ()).submit (some 5) (some 7) 0)
      [.take 0, .start 0, .finish 0 .ok, .callback 0] = some t ∧
        t.calls = [⟨0, 7, .ok, some 5⟩] := ⟨_, rfl, rfl⟩
  exact ⟨t, delivered_of_reachable (hsubmit.of_run (by simp [Spared]) ht), hcalls⟩

/-- Worker 0 is in the handler of the first task while worker 1 completes the next 15. The one after
that is put in the container of worker 0, whose handler then fails. -/
def ringTurn : List (Action ℕ ℕ) :=
  [.submit (some 0) (some 0) 0, .take 0, .start 0] ++ (List.range' 1 15).flatMap (wholeTask 1) ++
    [.submit (some 16) (some 16) 0, .finish 0 .fail, .callback 0]

/-- The callback of task 16 is called with the result of task 0. -/
theorem run_ringTurn : (run poolStep (PoolState.init ()) ringTurn).map
    (fun s : PoolState ℕ ℕ Unit => (s.accepted[0]?.map (·.callback), s.calls.getLast?)) =
      some (some (some 0), some ⟨0, 16, .fail, some 16⟩) := by
  decide +kernel

theorem not_delivered_ringTurn : ¬ ∀ s : PoolState ℕ ℕ Unit,
    Reachable poolStep (fun _ _ => True) (PoolState.init ()) s → Delivered s := by
  intro h
  obtain ⟨s, hrun, hs⟩ := Option.map_eq_some_iff.mp run_ringTurn
  obtain ⟨hfirst, hlast⟩ := Prod.ext_iff.mp hs
  obtain ⟨sub, hsub, _, hown, _⟩ := (h s (Reachable.start.of_run (fun _ _ _ => trivial) hrun)).own _
    (List.mem_of_getLast? hlast)
  rw [hsub] at hfirst
  cases hown.symm.trans (Option.some.inj hfirst)

end MpegtsReader
