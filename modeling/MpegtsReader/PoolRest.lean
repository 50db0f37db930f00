import Mathlib.Data.List.Perm.Basic
import MpegtsReader.PoolWait

/-!
# The workers come to rest

Without further submissions and wake-ups of their own, the workers finish what was submitted and go
to sleep, as long as no container is overwritten that a worker still reads.

1. `Attended`: every task that was taken is with a worker, or its callback was called.
2. `WaitState.left` goes down with each step of a worker (`WaitInv.left_lt`), so there are only
   finitely many.
3. A worker that is awake always has a next step (`RestInv.can_step`).
4. Where all workers sleep, the calls are those that were asked for (`RestInv.atRest`).
-/

namespace MpegtsReader

open Transition

variable {τ κ η : Type}

/-- The container can be run: neither its handler nor its callback is NULL. -/
def ThreadPool.Armed (pool : ThreadPool τ κ η) (slot : Fin 16) : Prop :=
  (pool.tasks slot).handler.isSome ∧ (pool.tasks slot).callback.isSome

section Jobs

variable {s : PoolState τ κ η} {w job : ℕ} {slot : Fin 16}

theorem PoolInv.armed (h : PoolInv s) (hw : (s.workers w).job = some (slot, job)) :
    s.pool.Armed slot := by
  obtain ⟨-, sub, hsub, hserves⟩ := h.assigned.holds w slot job hw
  unfold ThreadPool.Armed
  rw [hserves.handler, hserves.callback]
  exact ⟨rfl, h.given sub (List.mem_of_getElem? hsub)⟩

theorem PoolInv.called_lt (h : PoolInv s) {c : Call τ κ} (hc : c ∈ s.calls) : c.job < s.taken := by
  obtain ⟨-, -, -, -, hret⟩ := h.recorded.own c hc
  exact (h.recorded.result _ hret).1

/-- A worker drops its job with the call. -/
theorem PoolInv.not_called (h : PoolInv s) (hw : (s.workers w).job = some (slot, job)) :
    job ∉ s.calls.map Call.job := by
  have hreturned : job ∉ s.returns.map Return.job → job ∉ s.calls.map Call.job := by
    intro hnot hmem
    obtain ⟨c, hc, rfl⟩ := List.mem_map.mp hmem
    obtain ⟨-, -, -, -, hret⟩ := h.recorded.own c hc
    exact hnot (List.mem_map_of_mem (f := Return.job) hret)
  have hphase := h.recorded.phase w
  cases hphase' : s.workers w with
  | taken i other =>
    rw [hphase'] at hw hphase
    obtain ⟨-, rfl⟩ := Prod.mk.inj (Option.some.inj hw)
    exact hreturned hphase
  | running i other handler task =>
    rw [hphase'] at hw hphase
    obtain ⟨-, rfl⟩ := Prod.mk.inj (Option.some.inj hw)
    exact hreturned hphase.2.2
  | returned i other res =>
    rw [hphase'] at hw hphase
    obtain ⟨-, rfl⟩ := Prod.mk.inj (Option.some.inj hw)
    exact hphase.2
  | idle =>
    rw [hphase'] at hw
    cases hw
  | called i =>
    rw [hphase'] at hw
    cases hw
  | rejected i other =>
    rw [hphase'] at hphase
    exact hphase.elim

end Jobs

/-! ## Every job is attended -/

/-- Each task that was taken is with a worker, or its callback was called. -/
def Attended (s : PoolState τ κ η) : Prop :=
  ∀ job < s.taken, job ∈ s.calls.map Call.job ∨ ∃ w slot, (s.workers w).job = some (slot, job)

section Attended

variable {s t : PoolState τ κ η} {w : ℕ}

theorem attended_init (handler : η) : Attended (PoolState.init handler : PoolState τ κ η) :=
  fun _ hjob => absurd hjob (Nat.not_lt_zero _)

theorem job_move_of_eq {phase : Phase τ η} (h : phase.job = (s.workers w).job) (v : ℕ) :
    ((s.move w phase).workers v).job = (s.workers v).job := by
  by_cases hvw : v = w
  · rw [hvw, workers_move_self, h]
  · rw [workers_move_of_ne hvw]

/-- The workers have the jobs they had, and nothing new was taken. -/
theorem Attended.mono (h : Attended s) (hjob : ∀ w, (t.workers w).job = (s.workers w).job)
    (htaken : t.taken = s.taken) (hcalls : t.calls = s.calls) : Attended t := by
  intro job hlt
  rw [hcalls]
  refine (h job (htaken ▸ hlt)).imp_right ?_
  rintro ⟨w, slot, hw⟩
  exact ⟨w, slot, (hjob w).trans hw⟩

/-- The next job is taken by a worker that had none. -/
theorem Attended.take (h : Attended s) (hq : QueueInv s) (hw : s.workers w = .idle)
    (hsize : s.pool.size ≠ 0) : Attended (s.take w) := by
  rw [hq.take_eq hsize]
  intro job hlt
  rcases Nat.lt_succ_iff_lt_or_eq.mp hlt with hlt | rfl
  · refine (h job hlt).imp_right ?_
    rintro ⟨v, slot, hv⟩
    have hvw : v ≠ w := by
      rintro rfl
      rw [hw] at hv
      cases hv
    exact ⟨v, slot, by rw [workers_move_of_ne hvw]; exact hv⟩
  · exact .inr ⟨w, slotOf s.pool.toTake, by rw [workers_move_self]; rfl⟩

/-- A worker drops its job when the callback is called. -/
theorem Attended.callBack (h : Attended s) {slot : Fin 16} {job : ℕ} {res : TaskResult}
    {c : Call τ κ} (hw : s.workers w = .returned slot job res) (hc : c.job = job) :
    Attended (PoolState.move { s with calls := s.calls ++ [c] } w (.called slot)) := by
  intro other hlt
  show other ∈ (s.calls ++ [c]).map Call.job ∨ _
  rw [List.map_append, List.mem_append]
  rcases h other hlt with hcalled | ⟨v, i, hv⟩
  · exact .inl (.inl hcalled)
  · by_cases hvw : v = w
    · rw [hvw, hw] at hv
      obtain ⟨-, rfl⟩ := Prod.mk.inj (Option.some.inj hv)
      exact .inl (.inr (List.mem_singleton.mpr hc.symm))
    · exact .inr ⟨v, i, by rw [workers_move_of_ne hvw]; exact hv⟩

theorem Attended.step (h : Attended s) (hq : QueueInv s) {a : Action τ κ}
    (hstep : poolStep s a = some t) : Attended t := by
  cases a with
  | submit task callback timeDelay =>
    rw [poolStep_submit hstep]
    exact h.mono (fun _ => rfl) rfl rfl
  | take w =>
    obtain ⟨hw, hsize, rfl⟩ := poolStep_take hstep
    exact h.take hq hw hsize
  | start w =>
    obtain ⟨slot, job, handler, hw, -, rfl⟩ := poolStep_start hstep
    exact h.mono (job_move_of_eq (by rw [hw]; rfl)) rfl rfl
  | finish w res =>
    obtain ⟨slot, job, handler, task, hw, rfl⟩ := poolStep_finish hstep
    exact h.mono (job_move_of_eq (s := { s with returns := _ }) (by rw [hw]; rfl)) rfl rfl
  | callback w =>
    obtain ⟨slot, job, res, callback, hw, -, rfl⟩ := poolStep_callback.mp hstep
    exact h.callBack hw rfl
  | idle w =>
    obtain ⟨slot, hw, rfl⟩ := poolStep_idle hstep
    exact h.mono (job_move_of_eq (s := { s with pool := _ }) (by rw [hw]; rfl)) rfl rfl
  | reject w =>
    obtain ⟨slot, job, hw⟩ := poolStep_reject hstep
    exact absurd hw (hq.idle w slot job)

end Attended

/-! ## Rest -/

/-- A step that a worker takes by itself. -/
def WaitAction.Own : WaitAction τ κ → Prop
  | .sleep _ | .work _ => True
  | .submit .. | .wake _ => False

/-- An accepted submission has a callback and overwrites no container that a worker still reads. -/
def SparesRead (s : WaitState τ κ η) : WaitAction τ κ → Prop
  | .submit task callback timeDelay _ => Spared s.base (.submit task callback timeDelay)
  | _ => True

/-- The steps of the worker before it sleeps. -/
def WaitState.leftOf (s : WaitState τ κ η) (w : ℕ) : ℕ :=
  if w ∈ s.asleep then 0 else (s.base.workers w).left

/-- The steps of all workers before they sleep. -/
def WaitState.left (n : ℕ) (s : WaitState τ κ η) : ℕ :=
  ∑ w ∈ Finset.range n, s.leftOf w + 5 * s.base.pool.size.toNat

/-- All workers sleep, nothing waits, and the calls are those that the accepted submissions have
asked for, one for each, with its own task and callback and the result of its own handler. -/
structure AtRest (n : ℕ) (s : WaitState τ κ η) : Prop where
  asleep : ∀ w < n, w ∈ s.asleep
  empty : s.base.pool.size = 0
  called : (s.base.calls.map Call.job).Perm (List.range s.base.accepted.length)
  asked : (s.base.calls.map fun c => (c.task, some c.callback)).Perm
    (s.base.accepted.map fun sub => (sub.task, sub.callback))
  delivered : Delivered s.base

/-- The invariant of the runs that spare what is read. -/
structure RestInv (n : ℕ) (s : WaitState τ κ η) : Prop where
  wait : WaitInv n s
  pool : PoolInv s.base
  attended : Attended s.base

section Rest

variable {n : ℕ} {s t : WaitState τ κ η} {w : ℕ}

/-- Two sums that differ in one place. -/
theorem sum_range_lt {f g : ℕ → ℕ} {a b : ℕ} (hw : w < n) (hothers : ∀ v, v ≠ w → g v = f v)
    (hlt : g w + b < f w + a) :
    ∑ v ∈ Finset.range n, g v + b < ∑ v ∈ Finset.range n, f v + a := by
  have hmem : w ∈ Finset.range n := Finset.mem_range.mpr hw
  have herase : ∑ v ∈ (Finset.range n).erase w, g v = ∑ v ∈ (Finset.range n).erase w, f v :=
    Finset.sum_congr rfl fun v hv => hothers v (Finset.ne_of_mem_erase hv)
  rw [← Finset.add_sum_erase _ _ hmem, ← Finset.add_sum_erase _ _ hmem, herase]
  omega

/-- Each step of a worker brings the workers closer to their rest. -/
theorem WaitInv.left_lt (h : WaitInv n s) {a : WaitAction τ κ} (hown : a.Own)
    (hstep : waitStep n s a = some t) : t.left n < s.left n := by
  cases a with
  | submit task callback timeDelay woken => exact hown.elim
  | wake w => exact hown.elim
  | sleep w =>
    obtain ⟨hidle, hw, hawake, -, -, rfl⟩ := waitStep_sleep.mp hstep
    refine sum_range_lt hw (fun v hv => ?_) ?_
    · simp only [WaitState.leftOf, Finset.mem_insert, hv, false_or]
    · simp only [WaitState.leftOf, Finset.mem_insert_self, if_true, if_neg hawake, hidle]
      exact Nat.add_lt_add_right Nat.zero_lt_one _
  | work a =>
    obtain ⟨w, hworker, hw, hawake, hp, hasleep⟩ := waitStep_work.mp hstep
    have hworked := h.queue.worked hworker hp
    refine sum_range_lt hw (fun v hv => ?_) ?_
    · simp only [WaitState.leftOf, hasleep, hworked.others v hv]
    · simp only [WaitState.leftOf, hasleep, if_neg hawake]
      exact hworked.left

/-- A worker that is awake has a next step: it takes the task that waits, goes on with its own, or
goes to sleep. -/
theorem RestInv.can_step (h : RestInv n s) (hw : w < n) (hawake : w ∉ s.asleep) :
    ∃ a : WaitAction τ κ, a.Own ∧ waitStep n s a ≠ none := by
  have hwork : ∀ a : Action τ κ, a.worker = some w → (poolStep s.base a).isSome →
      ∃ a : WaitAction τ κ, a.Own ∧ waitStep n s a ≠ none := by
    intro a hworker hsome
    obtain ⟨p, hp⟩ := Option.isSome_iff_exists.mp hsome
    refine ⟨.work a, trivial, ?_⟩
    rw [waitStep_work (t := ⟨p, s.asleep⟩) |>.mpr ⟨w, hworker, hw, hawake, hp, rfl⟩]
    nofun
  cases hphase : s.base.workers w with
  | idle =>
    by_cases hsize : s.base.pool.size = 0
    · refine ⟨.sleep w, trivial, ?_⟩
      rw [waitStep_sleep.mpr ⟨hphase, hw, hawake, h.wait.queue.held, hsize, rfl⟩]
      nofun
    · refine ⟨.work (.take w), trivial, ?_⟩
      rw [h.wait.can_take hw hawake hphase hsize]
      nofun
  | taken slot job =>
    have hjob : (s.base.workers w).job = some (slot, job) := by
      rw [hphase]
      rfl
    obtain ⟨handler, hhandler⟩ := Option.isSome_iff_exists.mp (h.pool.armed hjob).1
    refine hwork (.start w) rfl ?_
    simp only [poolStep, hphase, PoolState.callHandler, hhandler]
    rfl
  | running slot job handler task =>
    refine hwork (.finish w .ok) rfl ?_
    simp only [poolStep, hphase]
    rfl
  | returned slot job res =>
    have hjob : (s.base.workers w).job = some (slot, job) := by
      rw [hphase]
      rfl
    obtain ⟨callback, hcallback⟩ := Option.isSome_iff_exists.mp (h.pool.armed hjob).2
    refine hwork (.callback w) rfl ?_
    simp only [poolStep, hphase, PoolState.callBack, hcallback]
    rfl
  | called slot =>
    refine hwork (.idle w) rfl ?_
    simp only [poolStep, hphase]
    rfl
  | rejected slot job => exact absurd hphase (h.wait.queue.idle w slot job)

theorem QueueInv.taken_of_empty {p : PoolState τ κ η} (h : QueueInv p) (hsize : p.pool.size = 0) :
    p.taken = p.accepted.length := by
  rcases h.queued with ⟨hlen, -⟩ | ⟨-, -, -, -, hone, -⟩
  · exact hlen.symm
  · rw [hsize] at hone
    cases hone

/-- What the calls hand over, where every job was called. -/
theorem PoolInv.asked {p : PoolState τ κ η} (h : PoolInv p)
    (hcalled : (p.calls.map Call.job).Perm (List.range p.accepted.length)) :
    (p.calls.map fun c => (c.task, some c.callback)).Perm
      (p.accepted.map fun sub => (sub.task, sub.callback)) := by
  have hown : (p.calls.map Call.job).map (p.accepted[·]?.map fun sub => (sub.task, sub.callback)) =
      (p.calls.map fun c => (c.task, some c.callback)).map some := by
    rw [List.map_map, List.map_map]
    refine List.map_congr_left fun c hc => ?_
    obtain ⟨sub, hsub, htask, hcallback, -⟩ := h.recorded.own c hc
    simp only [Function.comp_apply, hsub, Option.map_some, htask, hcallback]
  have hall : (List.range p.accepted.length).map
      (p.accepted[·]?.map fun sub => (sub.task, sub.callback)) =
        (p.accepted.map fun sub => (sub.task, sub.callback)).map some := by
    refine List.ext_getElem (by simp) fun i hi _ => ?_
    simp only [List.length_map, List.length_range] at hi
    simp [List.getElem?_eq_getElem hi]
  have hperm := hcalled.map (p.accepted[·]?.map fun sub => (sub.task, sub.callback))
  rw [hown, hall] at hperm
  exact (List.map_perm_map_iff (Option.some_injective _)).mp hperm

/-- Where all workers sleep, nothing is left to do. -/
theorem RestInv.atRest (h : RestInv n s) (hn : 0 < n) (hasleep : ∀ w < n, w ∈ s.asleep) :
    AtRest n s := by
  have hempty : s.base.pool.size = 0 := by
    by_contra hsize
    obtain ⟨w, hw, hawake, -⟩ := h.wait.awake hsize ⟨0, hasleep 0 hn⟩
    exact hawake (hasleep w hw)
  have hcalled : (s.base.calls.map Call.job).Perm (List.range s.base.accepted.length) := by
    refine (List.perm_ext_iff_of_nodup h.pool.recorded.once List.nodup_range).mpr fun job => ?_
    rw [List.mem_range, ← h.wait.queue.taken_of_empty hempty]
    constructor
    · intro hmem
      obtain ⟨c, hc, rfl⟩ := List.mem_map.mp hmem
      exact h.pool.called_lt hc
    · intro hjob
      refine (h.attended job hjob).resolve_right ?_
      rintro ⟨w, slot, hw⟩
      -- a worker with a job is one of the `n`, and those are idle
      have hidle : s.base.workers w = .idle := by
        by_contra hbusy
        exact hbusy (h.wait.asleep w (hasleep w (h.wait.within w hbusy))).2
      rw [hidle] at hw
      cases hw
  exact ⟨hasleep, hempty, hcalled, h.pool.asked hcalled, h.pool.delivered⟩

/-- A worker that sleeps takes no step by itself. -/
theorem stuck_of_asleep (hasleep : ∀ w < n, w ∈ s.asleep) {a : WaitAction τ κ} (hown : a.Own) :
    waitStep n s a = none := by
  cases hstep : waitStep n s a with
  | none => rfl
  | some t =>
    cases a with
    | submit task callback timeDelay woken => exact hown.elim
    | wake w => exact hown.elim
    | sleep w =>
      obtain ⟨-, hw, hawake, -⟩ := waitStep_sleep.mp hstep
      exact absurd (hasleep w hw) hawake
    | work a =>
      obtain ⟨w, -, hw, hawake, -⟩ := waitStep_work.mp hstep
      exact absurd (hasleep w hw) hawake

/-- The workers stop at rest, and nowhere else. -/
theorem RestInv.stuck_iff (h : RestInv n s) (hn : 0 < n) :
    (∀ a : WaitAction τ κ, a.Own → waitStep n s a = none) ↔ AtRest n s := by
  refine ⟨fun hstuck => h.atRest hn fun w hw => ?_, fun hrest a => stuck_of_asleep hrest.asleep⟩
  by_contra hawake
  obtain ⟨a, hown, hstep⟩ := h.can_step hw hawake
  exact hstep (hstuck a hown)

/-! ## Runs -/

theorem restInv_init (handler : η) : RestInv n (WaitState.init handler : WaitState τ κ η) :=
  ⟨waitInv_init handler, poolInv_init handler, attended_init handler⟩

theorem RestInv.step (s : WaitState τ κ η) (a : WaitAction τ κ) (t : WaitState τ κ η)
    (h : RestInv n s) (hspares : SparesRead s a) (hstep : waitStep n s a = some t) :
    RestInv n t := by
  have hwait := h.wait.step _ _ _ hstep
  cases a with
  | submit task callback timeDelay woken =>
    obtain ⟨-, hp, -⟩ := waitStep_submit hstep
    exact ⟨hwait, h.pool.step _ (.submit task callback timeDelay) _ hspares hp,
      h.attended.step h.wait.queue hp⟩
  | sleep w =>
    obtain ⟨-, -, -, -, -, rfl⟩ := waitStep_sleep.mp hstep
    exact ⟨hwait, h.pool, h.attended⟩
  | wake w =>
    obtain ⟨-, rfl⟩ := waitStep_wake hstep
    exact ⟨hwait, h.pool, h.attended⟩
  | work a =>
    obtain ⟨w, hworker, -, -, hp, -⟩ := waitStep_work.mp hstep
    refine ⟨hwait, h.pool.step _ _ _ ?_ hp, h.attended.step h.wait.queue hp⟩
    cases a with
    | submit task callback timeDelay => cases hworker
    | _ => trivial

theorem accepted_of_own {a : WaitAction τ κ} (h : WaitInv n s) (hown : a.Own)
    (hstep : waitStep n s a = some t) : t.base.accepted = s.base.accepted := by
  cases a with
  | submit task callback timeDelay woken => exact hown.elim
  | wake w => exact hown.elim
  | sleep w =>
    obtain ⟨-, -, -, -, -, rfl⟩ := waitStep_sleep.mp hstep
    rfl
  | work a =>
    obtain ⟨w, hworker, -, -, hp, -⟩ := waitStep_work.mp hstep
    exact (h.queue.worked hworker hp).accepted

theorem SparesRead.of_own (s : WaitState τ κ η) {a : WaitAction τ κ} (hown : a.Own) :
    SparesRead s a := by
  cases a with
  | submit task callback timeDelay woken => exact hown.elim
  | _ => trivial

/-- **The workers come to rest.** From every state that submissions, the workers and their wake-ups
can bring about, the workers take at most `left` steps by themselves, and they stop exactly where
they all sleep, nothing waits, and what was called is what was asked for. -/
theorem settles_of_reachable {handler : η}
    (h : Reachable (waitStep n) SparesRead (WaitState.init handler) s) (hn : 0 < n)
    {as : List (WaitAction τ κ)} (hown : ∀ a ∈ as, a.Own) (hrun : run (waitStep n) s as = some t) :
    as.length + t.left n ≤ s.left n ∧ t.base.accepted = s.base.accepted ∧
      ((∀ a : WaitAction τ κ, a.Own → waitStep n t a = none) ↔ AtRest n t) := by
  have hs : RestInv n s := h.invariant (restInv_init handler) RestInv.step
  have hkeep : RestInv n t ∧ t.base.accepted = s.base.accepted :=
    invariant_of_run (P := fun u => RestInv n u ∧ u.base.accepted = s.base.accepted)
      (fun u a v hu ha hv => ⟨hu.1.step _ _ _ (SparesRead.of_own u (hown a ha)) hv,
        (accepted_of_own hu.1.wait (hown a ha) hv).trans hu.2⟩) ⟨hs, rfl⟩ hrun
  refine ⟨?_, hkeep.2, hkeep.1.stuck_iff hn⟩
  exact length_le_measure (P := RestInv n) (fun u a v hu ha hv =>
    ⟨hu.step _ _ _ (SparesRead.of_own u (hown a ha)) hv, hu.wait.left_lt (hown a ha) hv⟩) hs hrun

/-- A worker has each of two tasks. The second one is completed first, and both workers go back to
sleep. -/
def completeTwo : List (WaitAction ℕ ℕ) :=
  [.work (.take 0), .work (.start 1), .work (.start 0), .work (.finish 0 .fail),
    .work (.callback 0), .work (.idle 0), .sleep 0, .work (.finish 1 .ok), .work (.callback 1),
    .work (.idle 1), .sleep 1]

/-- Two workers sleep when the first task is submitted. The signal wakes one of them, the other one
wakes up for nothing and finds the second task. -/
theorem settles_completeTwo : ∃ s t : WaitState ℕ ℕ Unit,
    run (waitStep 2) s completeTwo = some t ∧ t.base.calls.map Call.job = [1, 0] ∧
      completeTwo.length + t.left 2 ≤ s.left 2 ∧ AtRest 2 t := by
  obtain ⟨q, hq, hidle, u, hu⟩ : ∃ q : WaitState ℕ ℕ Unit,
      run (waitStep 2) (WaitState.init ()) [.sleep 0, .sleep 1] = some q ∧ q.base = .init () ∧
        ∃ u, waitStep 2 q (.submit (some 5) (some 7) 0 {1}) = some u := ⟨_, rfl, rfl, _, rfl⟩
  obtain ⟨r, hr, hslot, hworkers, s, hs⟩ : ∃ r, run (waitStep 2) u [.wake 0, .work (.take 1)] =
      some r ∧ slotOf r.base.pool.toPut = 1 ∧
        r.base.workers = Function.update (fun _ => .idle) 1 (.taken 0 0) ∧
          ∃ s, waitStep 2 r (.submit (some 6) (some 8) 0 ∅) = some s := by
    cases hq
    cases hu
    exact ⟨_, rfl, rfl, rfl, _, rfl⟩
  obtain ⟨t, ht, hjobs, hasleep⟩ : ∃ t, run (waitStep 2) s completeTwo = some t ∧
      t.base.calls.map Call.job = [1, 0] ∧ ∀ w < 2, w ∈ t.asleep := by
    cases hq
    cases hu
    cases hr
    cases hs
    exact ⟨_, rfl, rfl, by decide⟩
  have hspares : SparesRead q (.submit (some 5) (some 7) 0 {1}) := by
    unfold SparesRead Spared
    rw [hidle]
    exact fun _ _ => ⟨rfl, nofun⟩
  have hspares' : SparesRead r (.submit (some 6) (some 8) 0 ∅) := by
    intro _ _
    refine ⟨rfl, fun w job hw => ?_⟩
    -- worker 1 reads container 0 and the others none
    rw [hslot, hworkers] at hw
    by_cases hw1 : w = 1
    · rw [hw1, Function.update_self] at hw
      cases hw
    · rw [Function.update_of_ne hw1] at hw
      cases hw
  have hreach : Reachable (waitStep 2) SparesRead (WaitState.init ()) q :=
    Reachable.start.of_run (by simp [SparesRead]) hq
  have hreach : Reachable (waitStep 2) SparesRead (WaitState.init ()) r :=
    (hreach.next hspares hu).of_run (by simp [SparesRead]) hr
  obtain ⟨hlength, -, hrest⟩ := settles_of_reachable (hreach.next hspares' hs) Nat.two_pos
    (by simp [completeTwo, WaitAction.Own]) ht
  exact ⟨s, t, ht, hjobs, hlength, hrest.mp fun _ => stuck_of_asleep hasleep⟩

end Rest

end MpegtsReader
