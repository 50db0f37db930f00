import MpegtsReader.PlayerServed

/-!
# The plays come to their end

A worker in `g_main_loop_run` stays there until the loop is quit, which a play that loops never
does by itself. Between such returns, and without new requests and wake-ups, the workers take
finitely many steps (`PlayerPoolInv.left_lt`). Unless the lock of a slot is kept, they only stop
where each of them sleeps or is in its loop (`PlayerPoolInv.stuck_iff`).
-/

namespace MpegtsReader

open Transition

variable {κ α : Type}

/-- A step that a worker takes by itself, unlike a message or the return of its loop. -/
def PlayerPoolAction.Own : PlayerPoolAction κ α → Prop
  | .pool a => a.Own
  | .enter _ | .leave _ | .complete _ => True
  | .handle _ a => a.ofLoop = false
  | .call _ | .submit .. => False

/-- The steps of the workers before they sleep. -/
def PlayerPool.left (s : PlayerPool κ α) : ℕ :=
  ∑ n ∈ Finset.range s.player.id, (s.player.stage n).left + 7 * s.pool.left 2

/-- The worker is in `g_main_loop_run`. -/
def PlayerPool.InLoop (s : PlayerPool κ α) (w : ℕ) : Prop :=
  ∃ slot job n, (s.pool.base.workers w).job = some (slot, job) ∧ s.plays[job]? = some n ∧
    s.player.stage n = .running

/-- Each worker sleeps or is in `g_main_loop_run`. -/
def PlayerPool.Waits (s : PlayerPool κ α) : Prop := ∀ w < 2, w ∈ s.pool.asleep ∨ s.InLoop w

section Rest

variable {s t : PlayerPool κ α} {w : ℕ}

theorem PlayerPoolInv.id_lt (h : PlayerPoolInv s) {n : ℕ} (hn : s.player.stage n ≠ .none) :
    n < s.player.id := by
  by_contra hge
  exact hn (h.play.fresh n (Nat.le_of_not_lt hge))

/-- One play goes on, and the pool does its part. -/
theorem left_lt_of_stage {n : ℕ} {g : Stage} (hid : t.player.id = s.player.id)
    (hn : n < s.player.id) (hstage : t.player.stage = Function.update s.player.stage n g)
    (hlt : g.left + 7 * t.pool.left 2 < (s.player.stage n).left + 7 * s.pool.left 2) :
    t.left < s.left := by
  unfold PlayerPool.left
  rw [hid]
  refine sum_range_lt hn (fun m hm => ?_) ?_
  · rw [hstage, Function.update_of_ne hm]
  · rw [hstage, Function.update_self]
    exact hlt

/-- The pool goes on alone. -/
theorem left_lt_of_pool (hplayer : t.player = s.player) (hlt : t.pool.left 2 < s.pool.left 2) :
    t.left < s.left := by
  unfold PlayerPool.left
  rw [hplayer]
  omega

/-- Each step of a worker brings the plays closer to their end. -/
theorem PlayerPoolInv.left_lt (h : PlayerPoolInv s) {a : PlayerPoolAction κ α} (hown : a.Own)
    (hstep : playerPoolStep s a = some t) : t.left < s.left := by
  cases a with
  | call a => exact hown.elim
  | submit n woken => exact hown.elim
  | pool a =>
    obtain ⟨-, hpool, hplayer, -⟩ := playerPoolStep_pool hstep
    exact left_lt_of_pool hplayer (h.rest.wait.left_lt hown hpool)
  | enter w =>
    obtain ⟨slot, job, n, hphase, hn, -, hpool, hplayer, -⟩ := playerPoolStep_enter.mp hstep
    have hqueued : s.player.stage n = .queued := by
      have hhosts := h.tracks.held w slot job n (by rw [hphase]; rfl) hn
      rwa [hphase] at hhosts
    have hlt := h.rest.wait.left_lt (a := .work _) trivial hpool
    refine left_lt_of_stage (n := n) (g := .handling) (by rw [hplayer]; rfl)
      (h.id_lt (by rw [hqueued]; nofun)) (by rw [hplayer]; rfl) ?_
    rw [hqueued]
    show 6 + 7 * _ < 0 + 7 * _
    omega
  | handle w a =>
    obtain ⟨slot, job, handler, task, n, -, -, hhandled, hplayer, hpool, -⟩ :=
      playerPoolStep_handle.mp hstep
    obtain ⟨hworking, g, -, hstage, hless⟩ := stage_of_handled hhandled hplayer
    have hid : t.player.id = s.player.id := by
      rcases requests_of_step hplayer with ⟨request, rfl, -⟩ | ⟨hid, -⟩
      · cases hhandled
      · exact hid
    refine left_lt_of_stage hid (h.id_lt fun hnone => ?_) hstage ?_
    · rw [hnone] at hworking
      cases hworking
    · rw [hpool]
      exact Nat.add_lt_add_right (hless hown) _
  | leave w =>
    obtain ⟨-, -, -, -, -, res, -, -, -, hpool, hplayer, -⟩ := playerPoolStep_leave.mp hstep
    exact left_lt_of_pool hplayer (h.rest.wait.left_lt (a := .work _) trivial hpool)
  | complete w =>
    obtain ⟨slot, job, result, n, res, i, -, -, hstage, -, -, hpool, hplayer, -⟩ :=
      playerPoolStep_complete.mp hstep
    have hlt := h.rest.wait.left_lt (a := .work _) trivial hpool
    refine left_lt_of_stage (n := n) (g := .done res) (by rw [hplayer]; rfl)
      (h.id_lt (by rw [hstage]; nofun)) (by rw [hplayer]; rfl) ?_
    rw [hstage]
    show 0 + 7 * _ < 0 + 7 * _
    omega

/-- In the handler, but not in its loop, there is always a next step, if the lock of the slot is
free. -/
theorem exists_handled {p : PlayerState κ α} {n : ℕ} (hn : (p.stage n).working)
    (hloop : p.stage n ≠ .running) (hfree : p.taskLock (taskIndex n) = false) :
    (∃ res, p.stage n = .returned res) ∨
      ∃ a : PlayerAction κ α, a.handled = some n ∧ a.ofLoop = false ∧
        playerStep p a = some (p.after a) := by
  cases hstage : p.stage n with
  | handling => exact .inr ⟨.bus n, rfl, rfl, playerStep_eq_some.mpr ⟨decide_eq_true hstage, rfl⟩⟩
  | bound =>
    exact .inr ⟨.start n true, rfl, rfl, playerStep_eq_some.mpr ⟨decide_eq_true hstage, rfl⟩⟩
  | ready =>
    exact .inr ⟨.check n, rfl, rfl, playerStep_eq_some.mpr ⟨decide_eq_true ⟨hstage, hfree⟩, rfl⟩⟩
  | looped => exact .inr ⟨.run n, rfl, rfl, playerStep_eq_some.mpr ⟨decide_eq_true hstage, rfl⟩⟩
  | running => exact absurd hstage hloop
  | ended res =>
    exact .inr ⟨.callback n res, rfl, rfl, playerStep_eq_some.mpr ⟨decide_eq_true hstage, rfl⟩⟩
  | returned res => exact .inl ⟨res, rfl⟩
  | _ =>
    rw [hstage] at hn
    cases hn

/-- In the loop there is none. -/
theorem not_running_of_handled {p q : PlayerState κ α} {a : PlayerAction κ α} {n : ℕ}
    (hhandled : a.handled = some n) (hloop : a.ofLoop = false) (hstep : playerStep p a = some q) :
    p.stage n ≠ .running := by
  obtain ⟨hcan, -⟩ := playerStep_eq_some.mp hstep
  intro hn
  cases a with
  | bus m =>
    obtain rfl := Option.some.inj hhandled
    have hm : p.stage m = .handling := of_decide_eq_true hcan
    cases hn.symm.trans hm
  | start m changed =>
    obtain rfl := Option.some.inj hhandled
    have hm : p.stage m = .bound := of_decide_eq_true hcan
    cases hn.symm.trans hm
  | check m =>
    obtain rfl := Option.some.inj hhandled
    obtain ⟨hm, -⟩ : p.stage m = .ready ∧ _ := of_decide_eq_true hcan
    cases hn.symm.trans hm
  | run m =>
    obtain rfl := Option.some.inj hhandled
    have hm : p.stage m = .looped := of_decide_eq_true hcan
    cases hn.symm.trans hm
  | callback m res =>
    obtain rfl := Option.some.inj hhandled
    have hm : p.stage m = .ended res := of_decide_eq_true hcan
    cases hn.symm.trans hm
  | message m k msg => cases hloop
  | deliver m => cases hloop
  | cleanup m => cases hloop
  | _ => cases hhandled

/-- A worker that is awake and not in its loop has a next step, if the locks of the slots are
free. -/
theorem PlayerPoolInv.can_step (h : PlayerPoolInv s) (hfree : ∀ i, s.player.taskLock i = false)
    (hw : w < 2) (hawake : w ∉ s.pool.asleep) (hloop : ¬ s.InLoop w) :
    ∃ a : PlayerPoolAction κ α, a.Own ∧ playerPoolStep s a ≠ none := by
  have hgo : ∀ {a : PlayerPoolAction κ α} {t : PlayerPool κ α}, a.Own →
      playerPoolStep s a = some t →
        ∃ a : PlayerPoolAction κ α, a.Own ∧ playerPoolStep s a ≠ none := by
    intro a t hown hstep
    exact ⟨a, hown, by rw [hstep]; nofun⟩
  have halone : ∀ {a : WaitAction (Fin 2) Unit} {p : WaitState (Fin 2) Unit Unit}, a.alone →
      waitStep 2 s.pool a = some p →
        playerPoolStep s (.pool a) = some { s with pool := p } := by
    intro a p halone hp
    simp only [playerPoolStep, halone, if_true, hp, Option.map_some]
  -- a step of the worker in the pool
  have hwork : ∀ {a : Action (Fin 2) Unit} {p : PoolState (Fin 2) Unit Unit}, a.worker = some w →
      poolStep s.pool.base a = some p →
        waitStep 2 s.pool (.work a) = some ⟨p, s.pool.asleep⟩ := fun hworker hp =>
    waitStep_work.mpr ⟨w, hworker, hw, hawake, hp, rfl⟩
  cases hphase : s.pool.base.workers w with
  | idle =>
    by_cases hsize : s.pool.base.pool.size = 0
    · exact hgo (a := .pool (.sleep w)) trivial (halone rfl
        (waitStep_sleep.mpr ⟨hphase, hw, hawake, h.rest.wait.queue.held, hsize, rfl⟩))
    · exact hgo (a := .pool (.work (.take w))) trivial (halone rfl
        (h.rest.wait.can_take hw hawake hphase hsize))
  | taken slot job =>
    have hjob : (s.pool.base.workers w).job = some (slot, job) := by rw [hphase]; rfl
    obtain ⟨n, hn, htask⟩ := h.play_of_job hjob
    obtain ⟨handler, hhandler⟩ := Option.isSome_iff_exists.mp
      (h.rest.pool.armed hjob).1
    have hp : poolStep s.pool.base (.start w) = some (s.pool.base.move w
        (.running slot job handler (s.pool.base.pool.tasks slot).task)) := by
      simp only [poolStep, hphase, PoolState.callHandler, hhandler, Option.map_some]
    exact hgo (a := .enter w) (t := ⟨_, _, _⟩) trivial (playerPoolStep_enter.mpr
      ⟨slot, job, n, hphase, hn, htask, hwork rfl hp, rfl, rfl⟩)
  | running slot job handler task =>
    have hjob : (s.pool.base.workers w).job = some (slot, job) := by rw [hphase]; rfl
    obtain ⟨n, hn, -⟩ := h.play_of_job hjob
    have hworking : (s.player.stage n).working := by
      have hhosts := h.tracks.held w slot job n hjob hn
      rwa [hphase] at hhosts
    have hnot : s.player.stage n ≠ .running := fun hn' => hloop ⟨slot, job, n, hjob, hn, hn'⟩
    rcases exists_handled hworking hnot (hfree _) with ⟨res, hres⟩ | ⟨a, hhandled, hown, ha⟩
    · obtain ⟨p, hp⟩ : ∃ p, poolStep s.pool.base (.finish w res.taskResult) = some p := by
        simp only [poolStep, hphase, Option.some.injEq, exists_eq']
      exact hgo (a := .leave w) (t := ⟨_, _, _⟩) trivial (playerPoolStep_leave.mpr
        ⟨slot, job, handler, task, n, res, hphase, hn, hres, hwork rfl hp, rfl, rfl⟩)
    · exact hgo (a := .handle w a) (t := ⟨_, _, _⟩) hown (playerPoolStep_handle.mpr
        ⟨slot, job, handler, task, n, hphase, hn, hhandled, ha, rfl, rfl⟩)
  | returned slot job result =>
    have hjob : (s.pool.base.workers w).job = some (slot, job) := by rw [hphase]; rfl
    obtain ⟨n, hn, htask⟩ := h.play_of_job hjob
    obtain ⟨res, hres, -⟩ : ∃ res : PlayResult, s.player.stage n = .returned res ∧ _ := by
      have hhosts := h.tracks.held w slot job n hjob hn
      rwa [hphase] at hhosts
    obtain ⟨callback, hcallback⟩ := Option.isSome_iff_exists.mp
      (h.rest.pool.armed hjob).2
    have hp := poolStep_callback.mpr ⟨slot, job, result, callback, hphase, hcallback, rfl⟩
    exact hgo (a := .complete w) (t := ⟨_, _, _⟩) trivial (playerPoolStep_complete.mpr
      ⟨slot, job, result, n, res, taskIndex n, hphase, hn, hres, htask, hfree _, hwork rfl hp, rfl,
        rfl⟩)
  | called slot =>
    obtain ⟨p, hp⟩ : ∃ p, poolStep s.pool.base (.idle w) = some p := by
      simp only [poolStep, hphase, Option.some.injEq, exists_eq']
    exact hgo (a := .pool (.work (.idle w))) trivial (halone rfl (hwork rfl hp))
  | rejected slot job => exact absurd hphase (h.rest.wait.queue.idle w slot job)

/-- The phase of a worker in its loop. -/
theorem PlayerPoolInv.phase_of_inLoop (h : PlayerPoolInv s) (hloop : s.InLoop w) :
    ∃ slot job handler task n, s.pool.base.workers w = .running slot job handler task ∧
      s.plays[job]? = some n ∧ s.player.stage n = .running := by
  obtain ⟨slot, job, n, hw, hn, hrunning⟩ := hloop
  have hhosts := h.tracks.held w slot job n hw hn
  rw [hrunning] at hhosts
  cases hphase : s.pool.base.workers w with
  | running i other handler task =>
    rw [hphase] at hw
    obtain ⟨-, rfl⟩ := Prod.mk.inj (Option.some.inj hw)
    exact ⟨i, other, handler, task, n, rfl, hn, hrunning⟩
  | taken i other =>
    rw [hphase] at hhosts
    cases hhosts
  | returned i other res =>
    rw [hphase] at hhosts
    obtain ⟨played, hplayed, -⟩ := hhosts
    cases hplayed
  | idle =>
    rw [hphase] at hw
    cases hw
  | called i =>
    rw [hphase] at hw
    cases hw
  | rejected i other =>
    rw [hphase] at hhosts
    exact hhosts.elim

/-- Where the workers wait, one that is awake is in its loop. -/
theorem PlayerPoolInv.inLoop_of_waits (h : PlayerPoolInv s) (hwaits : s.Waits)
    (hw : s.pool.base.workers w ≠ .idle) : s.InLoop w := by
  have hlt : w < 2 := h.rest.wait.within w hw
  exact (hwaits w hlt).resolve_left fun hasleep => hw (h.rest.wait.asleep w hasleep).2

/-- A worker that sleeps or is in its loop takes no step by itself. -/
theorem PlayerPoolInv.stuck_of_waits (h : PlayerPoolInv s) (hwaits : s.Waits)
    {a : PlayerPoolAction κ α} (hown : a.Own) : playerPoolStep s a = none := by
  have hbusy : ∀ {w : ℕ}, s.pool.base.workers w ≠ .idle → ∃ slot job handler task n,
      s.pool.base.workers w = .running slot job handler task ∧ s.plays[job]? = some n ∧
        s.player.stage n = .running := fun hw => h.phase_of_inLoop (h.inLoop_of_waits hwaits hw)
  have hidle : ∀ {w : ℕ}, w < 2 → w ∉ s.pool.asleep → s.pool.base.workers w ≠ .idle := by
    intro w hw hawake hphase
    obtain ⟨_, _, _, hjob, _⟩ := (hwaits w hw).resolve_left hawake
    rw [hphase] at hjob
    cases hjob
  refine Option.eq_none_iff_forall_ne_some.mpr fun t hstep => ?_
  cases a with
  | call a => exact hown
  | submit n woken => exact hown
  | pool a =>
    obtain ⟨halone, hpool, -⟩ := playerPoolStep_pool hstep
    cases a with
    | submit task callback timeDelay woken => exact hown
    | wake w => exact hown
    | sleep w =>
      obtain ⟨hphase, hw, hawake, -⟩ := waitStep_sleep.mp hpool
      exact hidle hw hawake hphase
    | work a =>
      obtain ⟨v, hworker, hw, hawake, hp, -⟩ := waitStep_work.mp hpool
      cases a with
      | take w =>
        cases hworker
        exact hidle hw hawake (poolStep_take hp).1
      | idle w =>
        obtain ⟨slot, hphase, -⟩ := poolStep_idle hp
        obtain ⟨_, _, _, _, _, hrunning, -⟩ := hbusy (w := w) (by rw [hphase]; nofun)
        cases hphase.symm.trans hrunning
      | _ => cases halone
  | enter w =>
    obtain ⟨slot, job, n, hphase, -⟩ := playerPoolStep_enter.mp hstep
    obtain ⟨_, _, _, _, _, hrunning, -⟩ := hbusy (w := w) (by rw [hphase]; nofun)
    cases hphase.symm.trans hrunning
  | handle w a =>
    obtain ⟨slot, job, handler, task, n, hphase, hn, hhandled, hplayer, -⟩ :=
      playerPoolStep_handle.mp hstep
    obtain ⟨_, _, _, _, m, hrunning, hm, hloop⟩ := hbusy (w := w) (by rw [hphase]; nofun)
    cases hphase.symm.trans hrunning
    obtain rfl := Option.some.inj (hn.symm.trans hm)
    exact not_running_of_handled hhandled hown hplayer hloop
  | leave w =>
    obtain ⟨slot, job, handler, task, n, res, hphase, hn, hreturned, -⟩ :=
      playerPoolStep_leave.mp hstep
    obtain ⟨_, _, _, _, m, hrunning, hm, hloop⟩ := hbusy (w := w) (by rw [hphase]; nofun)
    cases hphase.symm.trans hrunning
    obtain rfl := Option.some.inj (hn.symm.trans hm)
    cases hreturned.symm.trans hloop
  | complete w =>
    obtain ⟨slot, job, result, _, _, _, hphase, -⟩ := playerPoolStep_complete.mp hstep
    obtain ⟨_, _, _, _, _, hrunning, -⟩ := hbusy (w := w) (by rw [hphase]; nofun)
    cases hphase.symm.trans hrunning

/-- The workers stop where each of them sleeps or is in its loop, and nowhere else. -/
theorem PlayerPoolInv.stuck_iff (h : PlayerPoolInv s) (hfree : ∀ i, s.player.taskLock i = false) :
    (∀ a : PlayerPoolAction κ α, a.Own → playerPoolStep s a = none) ↔ s.Waits := by
  refine ⟨fun hstuck w hw => ?_, fun hwaits a => h.stuck_of_waits hwaits⟩
  by_contra hgo
  obtain ⟨hawake, hloop⟩ := not_or.mp hgo
  obtain ⟨a, hown, hstep⟩ := h.can_step hfree hw hawake hloop
  exact hstep (hstuck a hown)

/-- Where the workers wait, an accepted play is done, or in its loop, or both workers are in the
loops of other plays. -/
theorem PlayerPoolInv.play_of_waits (h : PlayerPoolInv s) (hwaits : s.Waits) {n : ℕ}
    (hn : n ∈ s.plays) : (∃ res, s.player.stage n = .done res) ∨ s.player.stage n = .running ∨
      s.player.stage n = .queued ∧ ∀ w < 2, s.InLoop w := by
  obtain ⟨job, hjob⟩ := List.mem_iff_getElem?.mp hn
  rcases h.place job with hwait | hcalled | ⟨w, slot, hw⟩
  · refine .inr (.inr ⟨h.tracks.waiting job n hjob hwait, fun w hw => ?_⟩)
    refine (hwaits w hw).resolve_left fun hasleep => ?_
    have hsize : s.pool.base.pool.size ≠ 0 := by
      intro hempty
      have htaken := h.rest.wait.queue.taken_of_empty hempty
      rw [h.tracks.submitted, List.length_map] at htaken
      have hlt := (List.getElem?_eq_some_iff.mp hjob).1
      omega
    -- the wake-up for the play was not lost
    obtain ⟨v, hv, hawake, hidle⟩ := h.rest.wait.awake hsize ⟨w, hasleep⟩
    obtain ⟨_, _, _, hvjob, -⟩ := (hwaits v hv).resolve_left hawake
    rw [hidle] at hvjob
    cases hvjob
  · exact .inl (h.tracks.called job n hjob hcalled)
  · have hbusy : s.pool.base.workers w ≠ .idle := by
      intro hidle
      rw [hidle] at hw
      cases hw
    obtain ⟨slot', job', m, hw', hm, hrunning⟩ := h.inLoop_of_waits hwaits hbusy
    obtain ⟨-, rfl⟩ := Prod.mk.inj (Option.some.inj (hw.symm.trans hw'))
    obtain rfl := Option.some.inj (hjob.symm.trans hm)
    exact .inr (.inl hrunning)

theorem SparesPlay.of_own (s : PlayerPool κ α) {a : PlayerPoolAction κ α} (hown : a.Own) :
    SparesPlay s a := by
  cases a with
  | submit n woken => exact hown.elim
  | _ => trivial

theorem plays_of_own {a : PlayerPoolAction κ α} (hown : a.Own)
    (hstep : playerPoolStep s a = some t) : t.plays = s.plays := by
  cases a with
  | call a => exact hown.elim
  | submit n woken => exact hown.elim
  | pool a => exact (playerPoolStep_pool hstep).2.2.2
  | enter w =>
    obtain ⟨-, -, -, -, -, -, -, -, hplays⟩ := playerPoolStep_enter.mp hstep
    exact hplays
  | handle w a =>
    obtain ⟨-, -, -, -, -, -, -, -, -, -, hplays⟩ := playerPoolStep_handle.mp hstep
    exact hplays
  | leave w =>
    obtain ⟨-, -, -, -, -, -, -, -, -, -, -, hplays⟩ := playerPoolStep_leave.mp hstep
    exact hplays
  | complete w =>
    obtain ⟨-, -, -, -, -, -, -, -, -, -, -, -, -, hplays⟩ := playerPoolStep_complete.mp hstep
    exact hplays

/-- **The plays come to their end, but for their loops.** From every state that the player and its
pool can bring about without overwriting a container that is read for the other slot, the workers
take at most `left` steps before a loop returns. Unless the lock of a slot is kept, they stop
exactly where each of them sleeps or is in its loop; then every play that the pool has accepted is
done, or in its loop, or waits while both workers are in loops. -/
theorem playsEnd_of_reachable (h : Reachable playerPoolStep SparesPlay PlayerPool.init s)
    {as : List (PlayerPoolAction κ α)} (hown : ∀ a ∈ as, a.Own)
    (hrun : run playerPoolStep s as = some t) :
    as.length + t.left ≤ s.left ∧ t.plays = s.plays ∧
      ((∀ i, t.player.taskLock i = false) →
        ((∀ a : PlayerPoolAction κ α, a.Own → playerPoolStep t a = none) ↔ t.Waits)) ∧
      (t.Waits → ∀ n ∈ t.plays, (∃ res, t.player.stage n = .done res) ∨
        t.player.stage n = .running ∨ t.player.stage n = .queued ∧ ∀ w < 2, t.InLoop w) := by
  have hs : PlayerPoolInv s := h.invariant playerPoolInv_init PlayerPoolInv.step
  have hkeep : PlayerPoolInv t ∧ t.plays = s.plays :=
    invariant_of_run (P := fun u => PlayerPoolInv u ∧ u.plays = s.plays)
      (fun u a v hu ha hv => ⟨hu.1.step _ _ _ (.of_own u (hown a ha)) hv,
        (plays_of_own (hown a ha) hv).trans hu.2⟩) ⟨hs, rfl⟩ hrun
  refine ⟨?_, hkeep.2, hkeep.1.stuck_iff, fun hwaits n hn => hkeep.1.play_of_waits hwaits hn⟩
  exact length_le_measure (P := PlayerPoolInv) (fun u a v hu ha hv =>
    ⟨hu.step _ _ _ (.of_own u (hown a ha)) hv, hu.left_lt (hown a ha) hv⟩) hs hrun

/-- Worker 0 gets its play into its loop, and worker 1 goes to sleep. -/
def playOnly : List (PlayerPoolAction ℕ ℕ) :=
  [.pool (.work (.take 0)), .enter 0, .handle 0 (.bus 0), .pool (.sleep 1),
    .handle 0 (.start 0 true), .handle 0 (.check 0), .handle 0 (.run 0)]

theorem playsEnd_onePlay : ∃ s t : PlayerPool ℕ ℕ, t.plays = [0] ∧ t.player.stage 0 = .running ∧
    playOnly.length + t.left ≤ s.left ∧
      ∀ a : PlayerPoolAction ℕ ℕ, a.Own → playerPoolStep t a = none := by
  obtain ⟨s, hs, hreach⟩ := exists_submitted
  obtain ⟨t, ht, hplays, hstage, hjob, hasleep, hfree⟩ : ∃ t, run playerPoolStep s playOnly =
      some t ∧ t.plays = [0] ∧ t.player.stage 0 = .running ∧
        (t.pool.base.workers 0).job = some (0, 0) ∧ 1 ∈ t.pool.asleep ∧
          ∀ i, t.player.taskLock i = false := by
    cases hs
    exact ⟨_, rfl, rfl, rfl, rfl, by decide, by decide⟩
  obtain ⟨hlength, -, hrest, -⟩ := playsEnd_of_reachable hreach
    (by simp [playOnly, PlayerPoolAction.Own, PlayerAction.ofLoop, WaitAction.Own]) ht
  refine ⟨s, t, hplays, hstage, hlength, (hrest hfree).mpr fun w hw => ?_⟩
  obtain rfl | rfl : w = 0 ∨ w = 1 := by omega
  · exact .inr ⟨0, 0, 0, hjob, by rw [hplays]; rfl, hstage⟩
  · exact .inl hasleep

end Rest

end MpegtsReader
