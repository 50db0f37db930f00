import MpegtsReader.PlayerPool

/-!
# The pool serves the player

`playerStep` takes for granted that the pool handles every play that it accepts once, with the slot
of the play, on one of two workers. `served_of_reachable` says that it does, as long as no container
is overwritten that a worker still reads for a play of the other slot.

1. `Tracks`: where each accepted play is, by the worker that has it.
2. `Tracks.advance` moves one play with its worker.
3. `PlayerPoolInv.step` goes through the actions, each of which is one of the player or none.
-/

namespace MpegtsReader

open Transition

variable {κ α : Type}

/-! ## Stages -/

namespace Stage

/-- The pool has accepted the play. -/
def accepted : Stage → Bool
  | none | numbered | claimed | refused => false
  | _ => true

/-- The steps before `handle_play_task` returns. -/
def left : Stage → ℕ
  | handling => 6
  | bound => 5
  | ready => 4
  | looped => 3
  | running => 2
  | ended _ => 1
  | _ => 0

theorem accepted_of_working {f : Stage} (h : f.working) : f.accepted := by
  cases f <;> first | rfl | cases h

end Stage

section Stages

variable {s t : PlayerState κ α} {a : PlayerAction κ α} {n : ℕ}

/-- A caller moves no play that the pool has accepted, and makes it accept none. -/
theorem stage_of_byCaller (h : PlayInv s) (ha : a.byCaller) (hstep : playerStep s a = some t)
    (n : ℕ) : t.stage n = s.stage n ∨
      (s.stage n).accepted = false ∧ (t.stage n).accepted = false := by
  obtain ⟨hcan, rfl⟩ := playerStep_eq_some.mp hstep
  cases a with
  | play request =>
    by_cases hn : n = s.id
    · right
      rw [hn, h.fresh _ (Nat.le_refl _)]
      refine ⟨rfl, ?_⟩
      show (Function.update s.stage s.id .numbered s.id).accepted = false
      rw [Function.update_self]
      rfl
    · exact .inl (Function.update_of_ne hn ..)
  | claim m launched =>
    obtain ⟨hm, -⟩ := of_decide_eq_true hcan
    obtain ⟨g, hg, hstage⟩ : ∃ g : Stage, g.accepted = false ∧
        (s.playClaim m launched).stage = Function.update s.stage m g := by
      unfold PlayerState.playClaim
      dsimp only
      split_ifs
      · exact ⟨.refused, rfl, rfl⟩
      · exact ⟨.claimed, rfl, rfl⟩
    show (s.playClaim m launched).stage n = _ ∨ _ ∧ ((s.playClaim m launched).stage n).accepted = _
    rw [hstage]
    by_cases hn : n = m
    · subst hn
      rw [Function.update_self, hm]
      exact .inr ⟨rfl, hg⟩
    · exact .inl (Function.update_of_ne hn ..)
  | stop playTaskId =>
    left
    show (s.gstPlayerStop playTaskId).stage n = s.stage n
    unfold PlayerState.gstPlayerStop
    dsimp only
    split_ifs <;> rfl
  | pause playTaskId =>
    obtain ⟨_, _, heq⟩ := changeState_eq s playTaskId .paused
    exact .inl (congrArg (·.stage n) heq)
  | resume playTaskId =>
    obtain ⟨_, _, heq⟩ := changeState_eq s playTaskId .playing
    exact .inl (congrArg (·.stage n) heq)
  | seek playTaskId msOffset => exact .inl rfl
  | isPlaying playTaskId => exact .inl rfl
  | _ => cases ha

/-- A step of `handle_play_task` moves its own play, towards the end unless the loop makes it. -/
theorem stage_of_handled (ha : a.handled = some n) (hstep : playerStep s a = some t) :
    (s.stage n).working ∧ ∃ g : Stage, g.working ∧ t.stage = Function.update s.stage n g ∧
      (a.ofLoop = false → g.left < (s.stage n).left) := by
  obtain ⟨hcan, rfl⟩ := playerStep_eq_some.mp hstep
  cases a with
  | bus m =>
    obtain rfl := Option.some.inj ha
    have hm : s.stage m = .handling := of_decide_eq_true hcan
    rw [hm]
    exact ⟨rfl, .bound, rfl, rfl, fun _ => by decide⟩
  | start m changed =>
    obtain rfl := Option.some.inj ha
    have hm : s.stage m = .bound := of_decide_eq_true hcan
    rw [hm]
    cases changed with
    | true => exact ⟨rfl, .ready, rfl, rfl, fun _ => by decide⟩
    | false => exact ⟨rfl, .ended .errUnableToPlay, rfl, rfl, fun _ => by decide⟩
  | check m =>
    obtain rfl := Option.some.inj ha
    obtain ⟨hm, -⟩ := of_decide_eq_true hcan
    rw [hm]
    refine ⟨rfl, ?_⟩
    show ∃ g : Stage, g.working ∧ (s.handleCheck m).stage = _ ∧ _
    unfold PlayerState.handleCheck
    dsimp only
    split_ifs
    · exact ⟨.looped, rfl, rfl, fun _ => by decide⟩
    · exact ⟨.ended .errCanceled, rfl, rfl, fun _ => by decide⟩
  | run m =>
    obtain rfl := Option.some.inj ha
    have hm : s.stage m = .looped := of_decide_eq_true hcan
    rw [hm]
    exact ⟨rfl, .running, rfl, rfl, fun _ => by decide⟩
  | message m k msg =>
    obtain rfl := Option.some.inj ha
    obtain ⟨hm, -⟩ := of_decide_eq_true hcan
    refine ⟨by rw [hm]; rfl, s.stage m, by rw [hm]; rfl, ?_, nofun⟩
    rw [Function.update_eq_self]
    rfl
  | deliver m =>
    obtain rfl := Option.some.inj ha
    obtain ⟨hm, -⟩ := of_decide_eq_true hcan
    obtain ⟨_, _, heq⟩ := handleCall_eq s
    refine ⟨by rw [hm]; rfl, s.stage m, by rw [hm]; rfl, ?_, nofun⟩
    rw [Function.update_eq_self]
    exact congrArg (·.stage) heq
  | cleanup m =>
    obtain rfl := Option.some.inj ha
    obtain ⟨hm, -⟩ := of_decide_eq_true hcan
    rw [hm]
    exact ⟨rfl, .ended .success, rfl, rfl, nofun⟩
  | callback m res =>
    obtain rfl := Option.some.inj ha
    have hm : s.stage m = .ended res := of_decide_eq_true hcan
    rw [hm]
    refine ⟨rfl, .returned res, rfl, ?_, fun _ => Nat.zero_lt_one⟩
    show (s.handleCallback m res).stage = _
    unfold PlayerState.handleCallback
    dsimp only
    split <;> rfl
  | _ => cases ha

end Stages

/-! ## Where the plays are -/

/-- The stage of a play fits the phase of the worker that has it. -/
def Phase.Hosts : Phase (Fin 2) Unit → Stage → Prop
  | .taken .., g => g = .queued
  | .running .., g => g.working
  | .returned _ _ res, g => ∃ played : PlayResult, g = .returned played ∧ played.taskResult = res
  | _, _ => False

/-- What `gst_player_play` submits. -/
def slotSubmission (n : ℕ) : Submission (Fin 2) Unit := ⟨some (taskIndex n), some (), 0⟩

/-- Every accepted play waits, is with a worker, or is done, as its job is in the pool. -/
structure Tracks (s : PlayerPool κ α) : Prop where
  submitted : s.pool.base.accepted = s.plays.map slotSubmission
  once : s.plays.Nodup
  others : ∀ n ∉ s.plays, (s.player.stage n).accepted = false
  waiting : ∀ (job n : ℕ), s.plays[job]? = some n → s.pool.base.taken ≤ job →
    s.player.stage n = .queued
  held : ∀ w slot (job n : ℕ), (s.pool.base.workers w).job = some (slot, job) →
    s.plays[job]? = some n → (s.pool.base.workers w).Hosts (s.player.stage n)
  called : ∀ (job n : ℕ), s.plays[job]? = some n → job ∈ s.pool.base.calls.map Call.job →
    ∃ res, s.player.stage n = .done res

/-- The invariant of the player over its pool. -/
structure PlayerPoolInv (s : PlayerPool κ α) : Prop where
  play : PlayInv s.player
  rest : RestInv 2 s.pool
  tracks : Tracks s

section Tracks

variable {s t : PlayerPool κ α} {w n job other : ℕ} {slot : Fin 16}

theorem tracks_init : Tracks (PlayerPool.init : PlayerPool κ α) where
  submitted := rfl
  once := List.nodup_nil
  others _ _ := rfl
  waiting := nofun
  held := nofun
  called := nofun

theorem Tracks.job_unique (h : Tracks s) (hjob : s.plays[job]? = some n)
    (hother : s.plays[other]? = some n) : other = job := by
  obtain ⟨hlt, hn⟩ := List.getElem?_eq_some_iff.mp hjob
  obtain ⟨hlt', hn'⟩ := List.getElem?_eq_some_iff.mp hother
  exact (List.Nodup.getElem_inj_iff h.once).mp (hn'.trans hn.symm)

/-- A worker with a job has a play. -/
theorem PlayerPoolInv.play_of_job (h : PlayerPoolInv s)
    (hw : (s.pool.base.workers w).job = some (slot, job)) : ∃ n, s.plays[job]? = some n ∧
      (s.pool.base.pool.tasks slot).task = some (taskIndex n) := by
  obtain ⟨-, sub, hsub, hserves⟩ := h.rest.pool.assigned.holds w slot job hw
  rw [h.tracks.submitted, List.getElem?_map] at hsub
  obtain ⟨n, hn, rfl⟩ := Option.map_eq_some_iff.mp hsub
  exact ⟨n, hn, hserves.task⟩

/-- Where a job is. -/
theorem PlayerPoolInv.place (h : PlayerPoolInv s) (job : ℕ) : s.pool.base.taken ≤ job ∨
    job ∈ s.pool.base.calls.map Call.job ∨
      ∃ w slot, (s.pool.base.workers w).job = some (slot, job) := by
  rcases Nat.lt_or_ge job s.pool.base.taken with hlt | hge
  · exact .inr (h.rest.attended job hlt)
  · exact .inl hge

theorem Phase.accepted_of_hosts {phase : Phase (Fin 2) Unit} {g : Stage} (h : phase.Hosts g) :
    g.accepted := by
  cases phase with
  | taken slot job =>
    have hg : g = .queued := h
    rw [hg]
    rfl
  | running slot job handler task => exact Stage.accepted_of_working h
  | returned slot job res =>
    obtain ⟨played, rfl, -⟩ := h
    rfl
  | idle => exact h.elim
  | called slot => exact h.elim
  | rejected slot job => exact h.elim

/-- The accepted plays are the ones of the list. -/
theorem PlayerPoolInv.mem_plays_iff (h : PlayerPoolInv s) :
    n ∈ s.plays ↔ (s.player.stage n).accepted := by
  constructor
  · intro hn
    obtain ⟨job, hjob⟩ := List.mem_iff_getElem?.mp hn
    rcases h.place job with hwait | hcalled | ⟨w, slot, hw⟩
    · rw [h.tracks.waiting job n hjob hwait]
      rfl
    · obtain ⟨res, hres⟩ := h.tracks.called job n hjob hcalled
      rw [hres]
      rfl
    · exact Phase.accepted_of_hosts (h.tracks.held w slot job n hw hjob)
  · intro haccepted
    by_contra hn
    rw [h.tracks.others n hn] at haccepted
    cases haccepted

/-- The worker of a play goes on with it, or is done with it. -/
theorem Tracks.advance (h : Tracks s) (hp : PoolInv s.pool.base) {g : Stage}
    (hw : (s.pool.base.workers w).job = some (slot, job)) (hn : s.plays[job]? = some n)
    (hplays : t.plays = s.plays) (haccepted : t.pool.base.accepted = s.pool.base.accepted)
    (htaken : t.pool.base.taken = s.pool.base.taken)
    (hstage : t.player.stage = Function.update s.player.stage n g)
    (hothers : ∀ v, v ≠ w → t.pool.base.workers v = s.pool.base.workers v)
    (hself : ∀ i j, (t.pool.base.workers w).job = some (i, j) →
      j = job ∧ (t.pool.base.workers w).Hosts g)
    (hcalls : ∀ j ∈ t.pool.base.calls.map Call.job, j ∈ s.pool.base.calls.map Call.job ∨
      j = job ∧ ∃ res, g = .done res) : Tracks t where
  submitted := by rw [haccepted, hplays, h.submitted]
  once := hplays ▸ h.once
  others m hm := by
    rw [hplays] at hm
    have hmn : m ≠ n := by
      rintro rfl
      exact hm (List.mem_of_getElem? hn)
    rw [hstage, Function.update_of_ne hmn]
    exact h.others m hm
  waiting other m hm hwait := by
    rw [hplays] at hm
    rw [htaken] at hwait
    have hmn : m ≠ n := by
      rintro rfl
      have hlt := (hp.assigned.holds w slot job hw).1
      rw [h.job_unique hn hm] at hwait
      omega
    rw [hstage, Function.update_of_ne hmn]
    exact h.waiting other m hm hwait
  held v i other m hv hm := by
    rw [hplays] at hm
    by_cases hvw : v = w
    · subst hvw
      obtain ⟨rfl, hhosts⟩ := hself i other hv
      obtain rfl : n = m := Option.some.inj (hn.symm.trans hm)
      rw [hstage, Function.update_self]
      exact hhosts
    · rw [hothers v hvw] at hv ⊢
      have hmn : m ≠ n := by
        rintro rfl
        rw [h.job_unique hn hm] at hv
        exact hvw (hp.assigned.apart v w i slot job hv hw)
      rw [hstage, Function.update_of_ne hmn]
      exact h.held v i other m hv hm
  called other m hm hcalled := by
    rw [hplays] at hm
    rw [hstage]
    by_cases hmn : m = n
    · subst hmn
      obtain rfl := h.job_unique hn hm
      rw [Function.update_self]
      exact ((hcalls other hcalled).resolve_left (hp.not_called hw)).2
    · rw [Function.update_of_ne hmn]
      rcases hcalls other hcalled with hold | ⟨rfl, -⟩
      · exact h.called other m hm hold
      · exact absurd (Option.some.inj (hm.symm.trans hn)) hmn

/-- The workers have no other jobs than before, and the plays that the pool has accepted are where
they were. -/
theorem Tracks.same (h : Tracks s) (hplays : t.plays = s.plays)
    (haccepted : t.pool.base.accepted = s.pool.base.accepted)
    (htaken : t.pool.base.taken = s.pool.base.taken)
    (hcalls : t.pool.base.calls = s.pool.base.calls)
    (hworkers : ∀ w x, (t.pool.base.workers w).job = some x →
      t.pool.base.workers w = s.pool.base.workers w)
    (hkeep : ∀ n ∈ s.plays, t.player.stage n = s.player.stage n)
    (hothers : ∀ n ∉ s.plays, (t.player.stage n).accepted = false) : Tracks t where
  submitted := by rw [haccepted, hplays, h.submitted]
  once := hplays ▸ h.once
  others := hplays ▸ hothers
  waiting job n hn hwait := by
    rw [hplays] at hn
    rw [htaken] at hwait
    rw [hkeep n (List.mem_of_getElem? hn)]
    exact h.waiting job n hn hwait
  held w slot job n hw hn := by
    rw [hplays] at hn
    have heq := hworkers w _ hw
    rw [heq] at hw ⊢
    rw [hkeep n (List.mem_of_getElem? hn)]
    exact h.held w slot job n hw hn
  called job n hn hcalled := by
    rw [hplays] at hn
    rw [hcalls] at hcalled
    rw [hkeep n (List.mem_of_getElem? hn)]
    exact h.called job n hn hcalled

/-- The play whose job comes next is the worker's now. -/
theorem Tracks.take (h : Tracks s) (hq : QueueInv s.pool.base) (hsize : s.pool.base.pool.size ≠ 0)
    (hbase : t.pool.base = s.pool.base.take w) (hplayer : t.player = s.player)
    (hplays : t.plays = s.plays) : Tracks t := by
  rw [hq.take_eq hsize] at hbase
  constructor
  · rw [hbase, hplays]
    exact h.submitted
  · exact hplays ▸ h.once
  · rw [hplayer, hplays]
    exact h.others
  · intro job n hn hwait
    rw [hplays] at hn
    rw [hbase] at hwait
    rw [hplayer]
    exact h.waiting job n hn (Nat.le_of_succ_le hwait)
  · intro v i job n hv hn
    rw [hplays] at hn
    rw [hbase] at hv ⊢
    rw [hplayer]
    by_cases hvw : v = w
    · subst hvw
      rw [workers_move_self] at hv ⊢
      obtain ⟨-, rfl⟩ := Prod.mk.inj (Option.some.inj hv)
      exact h.waiting _ n hn (Nat.le_refl _)
    · rw [workers_move_of_ne hvw] at hv ⊢
      exact h.held v i job n hv hn
  · intro job n hn hcalled
    rw [hplays] at hn
    rw [hbase] at hcalled
    rw [hplayer]
    exact h.called job n hn hcalled

theorem QueueInv.taken_le {p : PoolState (Fin 2) Unit Unit} (h : QueueInv p) :
    p.taken ≤ p.accepted.length := by
  rcases h.queued with ⟨hlen, -⟩ | ⟨-, hlen, -⟩ <;> omega

/-- A play that the pool accepts waits in it. -/
theorem PlayerPoolInv.accept (h : PlayerPoolInv s) (hn : s.player.stage n = .claimed)
    (hplays : t.plays = s.plays ++ [n])
    (haccepted : t.pool.base.accepted = s.pool.base.accepted ++ [slotSubmission n])
    (htaken : t.pool.base.taken = s.pool.base.taken)
    (hcalls : t.pool.base.calls = s.pool.base.calls)
    (hworkers : t.pool.base.workers = s.pool.base.workers)
    (hstage : t.player.stage = Function.update s.player.stage n .queued) : Tracks t := by
  have hnew : n ∉ s.plays := by
    rw [h.mem_plays_iff, hn]
    nofun
  have hne : ∀ m ∈ s.plays, t.player.stage m = s.player.stage m := fun m hm => by
    rw [hstage, Function.update_of_ne]
    rintro rfl
    exact hnew hm
  -- a job that was taken is one of the old plays
  have hold : ∀ {job m : ℕ}, t.plays[job]? = some m → job < s.pool.base.taken →
      s.plays[job]? = some m := fun {job m} hm hlt => by
    have hle := h.rest.wait.queue.taken_le
    rw [h.tracks.submitted, List.length_map] at hle
    rwa [hplays, List.getElem?_append_left (by omega)] at hm
  constructor
  · rw [haccepted, hplays, h.tracks.submitted, List.map_append]
    rfl
  · rw [hplays]
    exact List.nodup_append'.mpr ⟨h.tracks.once, List.nodup_singleton n,
      List.disjoint_singleton.mpr hnew⟩
  · intro m hm
    rw [hplays, List.mem_append, List.mem_singleton, not_or] at hm
    rw [hstage, Function.update_of_ne hm.2]
    exact h.tracks.others m hm.1
  · intro job m hm hwait
    rw [htaken] at hwait
    rcases Nat.lt_or_ge job s.plays.length with hlt | hge
    · rw [hplays, List.getElem?_append_left hlt] at hm
      rw [hne m (List.mem_of_getElem? hm)]
      exact h.tracks.waiting job m hm hwait
    · rw [hplays, List.getElem?_append_right hge] at hm
      obtain rfl := List.mem_singleton.mp (List.mem_of_getElem? hm)
      rw [hstage, Function.update_self]
  · intro w slot job m hw hm
    rw [hworkers] at hw ⊢
    have hm := hold hm (h.rest.pool.assigned.holds w slot job hw).1
    rw [hne m (List.mem_of_getElem? hm)]
    exact h.tracks.held w slot job m hw hm
  · intro job m hm hcalled
    rw [hcalls] at hcalled
    obtain ⟨c, hc, rfl⟩ := List.mem_map.mp hcalled
    have hm := hold hm (h.rest.pool.called_lt hc)
    rw [hne m (List.mem_of_getElem? hm)]
    exact h.tracks.called c.job m hm hcalled

end Tracks

/-! ## Steps -/

/-- A submission overwrites no container that a worker still reads for the other slot. -/
def SparesPlay (s : PlayerPool κ α) : PlayerPoolAction κ α → Prop
  | .submit n _ => Spared s.pool.base (.submit (some (taskIndex n)) (some ()) 0)
  | _ => True

section Steps

variable {s t : PlayerPool κ α} {w n : ℕ}

theorem accepts_eq (s : PlayerPool κ α) (n : ℕ) :
    s.accepts n = !isQueueFullUnsafe s.pool.base.pool := by
  unfold PlayerPool.accepts threadPoolSubmit
  rw [if_neg (by simp)]
  cases isQueueFullUnsafe s.pool.base.pool with
  | true => rfl
  | false => exact decide_eq_true (Int.natCast_nonneg _)

/-- While a worker is about to call the handler, the other one at most has a play. -/
theorem PlayerPoolInv.few (h : PlayerPoolInv s) {slot : Fin 16} {job : ℕ}
    (hw : s.pool.base.workers w = .taken slot job) :
    ((List.range s.player.id).countP fun m => (s.player.stage m).working) < 2 := by
  have hwlt : w < 2 := h.rest.wait.within w (by rw [hw]; nofun)
  -- a play that is handled is with a worker, which is not this one
  have hother : ∀ {m : ℕ}, (s.player.stage m).working → ∃ v slot' job', v ≠ w ∧ v < 2 ∧
      (s.pool.base.workers v).job = some (slot', job') ∧ s.plays[job']? = some m := by
    intro m hm
    have hmem := h.mem_plays_iff.mpr (Stage.accepted_of_working hm)
    obtain ⟨job', hjob'⟩ := List.mem_iff_getElem?.mp hmem
    rcases h.place job' with hwait | hcalled | ⟨v, slot', hv⟩
    · rw [h.tracks.waiting job' m hjob' hwait] at hm
      cases hm
    · obtain ⟨res, hres⟩ := h.tracks.called job' m hjob' hcalled
      rw [hres] at hm
      cases hm
    · refine ⟨v, slot', job', ?_, h.rest.wait.within v ?_, hv, hjob'⟩
      · rintro rfl
        have hhosts := h.tracks.held v slot' job' m hv hjob'
        rw [hw] at hhosts
        have hqueued : s.player.stage m = .queued := hhosts
        rw [hqueued] at hm
        cases hm
      · intro hidle
        rw [hidle] at hv
        cases hv
  have hunique : ∀ m m' : ℕ, (s.player.stage m).working → (s.player.stage m').working →
      m = m' := by
    intro m m' hm hm'
    obtain ⟨v, i, j, hvw, hv, hvjob, hjm⟩ := hother hm
    obtain ⟨v', i', j', hvw', hv', hvjob', hjm'⟩ := hother hm'
    obtain rfl : v = v' := by omega
    obtain ⟨-, rfl⟩ := Prod.mk.inj (Option.some.inj (hvjob.symm.trans hvjob'))
    exact Option.some.inj (hjm.symm.trans hjm')
  rw [List.countP_eq_length_filter]
  have hnodup := (List.nodup_range (n := s.player.id)).filter
    fun m => (s.player.stage m).working
  cases hfilter : (List.range s.player.id).filter fun m => (s.player.stage m).working with
  | nil => exact Nat.zero_lt_two
  | cons m rest =>
    have hmem : ∀ m' ∈ m :: rest, (s.player.stage m').working := fun m' hm' => by
      rw [← hfilter] at hm'
      exact (List.mem_filter.mp hm').2
    rw [hfilter] at hnodup
    cases rest with
    | nil => exact Nat.one_lt_two
    | cons m' rest =>
      obtain rfl := hunique m m' (hmem m (by simp)) (hmem m' (by simp))
      simp at hnodup

theorem PlayerPoolInv.tracks_call (h : PlayerPoolInv s) {a : PlayerAction κ α}
    (hstep : playerPoolStep s (.call a) = some t) : Tracks t := by
  obtain ⟨hcaller, hplayer, hpool, hplays⟩ := playerPoolStep_call hstep
  have hstage := stage_of_byCaller h.play hcaller hplayer
  refine h.tracks.same hplays (by rw [hpool]) (by rw [hpool]) (by rw [hpool])
    (fun _ _ _ => by rw [hpool]) (fun n hn => ?_) fun n hn => ?_
  · refine (hstage n).resolve_right fun hnone => ?_
    rw [h.mem_plays_iff, hnone.1] at hn
    cases hn
  · rcases hstage n with hsame | ⟨-, hnone⟩
    · rw [hsame]
      exact h.tracks.others n hn
    · exact hnone

theorem PlayerPoolInv.tracks_submit (h : PlayerPoolInv s) {woken : Finset ℕ}
    (hstep : playerPoolStep s (.submit n woken) = some t) : Tracks t := by
  obtain ⟨hplayer, hpool, hplays⟩ := playerPoolStep_submit hstep
  have hbase : t.pool.base = s.pool.base.submit (some (taskIndex n)) (some ()) 0 :=
    poolStep_submit (waitStep_submit hpool).2.1
  obtain ⟨hcan, hafter⟩ := playerStep_eq_some.mp hplayer
  obtain ⟨hn, -⟩ := of_decide_eq_true hcan
  have hres : (t.pool.base.accepted = if s.accepts n then
      s.pool.base.accepted ++ [slotSubmission n] else s.pool.base.accepted) := by
    rw [hbase]
    show (if _ then _ else _) = _
    unfold PlayerPool.accepts
    by_cases hneg : (threadPoolSubmit s.pool.base.pool (some (taskIndex n)) (some ()) 0).2 < 0
    · rw [if_pos hneg, if_neg (by simpa using hneg)]
    · rw [if_neg hneg, if_pos (by simpa using hneg)]
      rfl
  cases haccepts : s.accepts n with
  | true =>
    rw [haccepts] at hafter hplays hres
    refine h.accept hn hplays hres (by rw [hbase]; rfl) (by rw [hbase]; rfl) (by rw [hbase]; rfl) ?_
    rw [← hafter]
    rfl
  | false =>
    rw [haccepts] at hafter hplays hres
    have hstage : t.player.stage = Function.update s.player.stage n .refused := by
      rw [← hafter]
      rfl
    refine h.tracks.same hplays hres (by rw [hbase]; rfl) (by rw [hbase]; rfl)
      (fun _ _ _ => by rw [hbase]; rfl) (fun m hm => ?_) fun m hm => ?_
    · rw [hstage, Function.update_of_ne]
      rintro rfl
      rw [h.mem_plays_iff, hn] at hm
      cases hm
    · rw [hstage]
      by_cases hmn : m = n
      · rw [hmn, Function.update_self]
        rfl
      · rw [Function.update_of_ne hmn]
        exact h.tracks.others m hm

theorem PlayerPoolInv.tracks_pool (h : PlayerPoolInv s) {a : WaitAction (Fin 2) Unit}
    (hstep : playerPoolStep s (.pool a) = some t) : Tracks t := by
  obtain ⟨halone, hpool, hplayer, hplays⟩ := playerPoolStep_pool hstep
  have hkeep : ∀ n ∈ s.plays, t.player.stage n = s.player.stage n := fun _ _ => by rw [hplayer]
  have hothers : ∀ n ∉ s.plays, (t.player.stage n).accepted = false := by
    rw [hplayer]
    exact h.tracks.others
  cases a with
  | submit task callback timeDelay woken => cases halone
  | sleep w =>
    obtain ⟨-, -, -, -, -, heq⟩ := waitStep_sleep.mp hpool
    exact h.tracks.same hplays (by rw [heq]) (by rw [heq]) (by rw [heq]) (fun _ _ _ => by rw [heq])
      hkeep hothers
  | wake w =>
    obtain ⟨-, heq⟩ := waitStep_wake hpool
    exact h.tracks.same hplays (by rw [heq]) (by rw [heq]) (by rw [heq]) (fun _ _ _ => by rw [heq])
      hkeep hothers
  | work a =>
    obtain ⟨-, -, -, -, hp, -⟩ := waitStep_work.mp hpool
    cases a with
    | take w =>
      obtain ⟨-, hsize, hbase⟩ := poolStep_take hp
      exact h.tracks.take h.rest.wait.queue hsize hbase hplayer hplays
    | idle w =>
      obtain ⟨slot, -, hbase⟩ := poolStep_idle hp
      refine h.tracks.same hplays (by rw [hbase]; rfl) (by rw [hbase]; rfl) (by rw [hbase]; rfl)
        (fun v x hv => ?_) hkeep hothers
      rw [hbase] at hv ⊢
      by_cases hvw : v = w
      · rw [hvw, workers_move_self] at hv
        cases hv
      · rw [workers_move_of_ne hvw]
    | _ => cases halone

/-- The worker that has a play takes the next step with it, by `poolStep`. -/
theorem PlayerPoolInv.advance (h : PlayerPoolInv s) {slot : Fin 16} {job : ℕ}
    {phase : Phase (Fin 2) Unit} {g : Stage} {p : PoolState (Fin 2) Unit Unit}
    (hw : (s.pool.base.workers w).job = some (slot, job)) (hn : s.plays[job]? = some n)
    (hbase : t.pool.base = p.move w phase) (hworkers : p.workers = s.pool.base.workers)
    (haccepted : p.accepted = s.pool.base.accepted) (htaken : p.taken = s.pool.base.taken)
    (hplays : t.plays = s.plays)
    (hstage : t.player.stage = Function.update s.player.stage n g)
    (hphase : ∀ i j, phase.job = some (i, j) → j = job ∧ phase.Hosts g)
    (hcalls : ∀ j ∈ p.calls.map Call.job, j ∈ s.pool.base.calls.map Call.job ∨
      j = job ∧ ∃ res, g = .done res) : Tracks t := by
  refine h.tracks.advance h.rest.pool hw hn hplays (by rw [hbase]; exact haccepted)
    (by rw [hbase]; exact htaken) hstage (fun v hv => ?_) (fun i j => ?_)
    (by rw [hbase]; exact hcalls)
  · rw [hbase, workers_move_of_ne hv, hworkers]
  · rw [hbase, workers_move_self]
    exact hphase i j

theorem PlayerPoolInv.tracks_enter (h : PlayerPoolInv s)
    (hstep : playerPoolStep s (.enter w) = some t) : Tracks t := by
  obtain ⟨slot, job, n, hphase, hn, -, hpool, hplayer, hplays⟩ := playerPoolStep_enter.mp hstep
  obtain ⟨-, -, -, -, hp, -⟩ := waitStep_work.mp hpool
  obtain ⟨slot', job', handler, hphase', -, hbase⟩ := poolStep_start hp
  obtain ⟨rfl, rfl⟩ : slot = slot' ∧ job = job' := by
    rw [hphase] at hphase'
    exact Phase.taken.inj hphase'
  refine h.advance (by rw [hphase]; rfl) hn hbase rfl rfl rfl hplays
    (by rw [hplayer]; rfl) (fun i j hij => ?_) fun j hj => .inl hj
  obtain ⟨-, rfl⟩ := Prod.mk.inj (Option.some.inj hij)
  exact ⟨rfl, rfl⟩

theorem PlayerPoolInv.tracks_handle (h : PlayerPoolInv s) {a : PlayerAction κ α}
    (hstep : playerPoolStep s (.handle w a) = some t) : Tracks t := by
  obtain ⟨slot, job, handler, task, n, hphase, hn, hhandled, hplayer, hpool, hplays⟩ :=
    playerPoolStep_handle.mp hstep
  obtain ⟨-, g, hg, hstage, -⟩ := stage_of_handled hhandled hplayer
  refine h.tracks.advance h.rest.pool (by rw [hphase]; rfl) hn hplays (by rw [hpool])
    (by rw [hpool]) hstage (fun v _ => by rw [hpool]) (fun i j hij => ?_) fun j hj => .inl ?_
  · rw [hpool, hphase] at hij ⊢
    obtain ⟨-, rfl⟩ := Prod.mk.inj (Option.some.inj hij)
    exact ⟨rfl, hg⟩
  · rwa [hpool] at hj

theorem PlayerPoolInv.tracks_leave (h : PlayerPoolInv s)
    (hstep : playerPoolStep s (.leave w) = some t) : Tracks t := by
  obtain ⟨slot, job, handler, task, n, res, hphase, hn, hstage, hpool, hplayer, hplays⟩ :=
    playerPoolStep_leave.mp hstep
  obtain ⟨-, -, -, -, hp, -⟩ := waitStep_work.mp hpool
  obtain ⟨slot', job', handler', task', hphase', hbase⟩ := poolStep_finish hp
  obtain ⟨rfl, rfl, -, -⟩ : slot = slot' ∧ job = job' ∧ handler = handler' ∧ task = task' := by
    rw [hphase] at hphase'
    exact Phase.running.inj hphase'
  refine h.advance (by rw [hphase]; rfl) hn hbase rfl rfl rfl hplays
    (by rw [hplayer, Function.update_eq_self]) (fun i j hij => ?_) fun j hj => .inl hj
  obtain ⟨-, rfl⟩ := Prod.mk.inj (Option.some.inj hij)
  exact ⟨rfl, res, hstage, rfl⟩

theorem PlayerPoolInv.tracks_complete (h : PlayerPoolInv s)
    (hstep : playerPoolStep s (.complete w) = some t) : Tracks t := by
  obtain ⟨slot, job, result, n, res, i, hphase, hn, -, -, -, hpool, hplayer, hplays⟩ :=
    playerPoolStep_complete.mp hstep
  obtain ⟨-, -, -, -, hp, -⟩ := waitStep_work.mp hpool
  obtain ⟨slot', job', result', callback, hphase', -, hbase⟩ := poolStep_callback.mp hp
  obtain ⟨rfl, rfl, -⟩ : slot = slot' ∧ job = job' ∧ result = result' := by
    rw [hphase] at hphase'
    exact Phase.returned.inj hphase'
  refine h.advance (g := .done res) (by rw [hphase]; rfl) hn hbase rfl rfl rfl hplays
    (by rw [hplayer]; rfl) nofun fun j hj => ?_
  rw [List.map_append, List.mem_append] at hj
  exact hj.imp_right fun hj => ⟨List.mem_singleton.mp hj, res, rfl⟩

/-- What the player does is a step of the player. -/
theorem PlayerPoolInv.player_step (h : PlayerPoolInv s) {a : PlayerPoolAction κ α}
    (hstep : playerPoolStep s a = some t) :
    t.player = s.player ∨ ∃ b, playerStep s.player b = some t.player := by
  cases a with
  | call a => exact .inr ⟨a, (playerPoolStep_call hstep).2.1⟩
  | submit n woken => exact .inr ⟨_, (playerPoolStep_submit hstep).1⟩
  | pool a => exact .inl (playerPoolStep_pool hstep).2.2.1
  | enter w =>
    obtain ⟨slot, job, n, hphase, hn, -, -, hplayer, -⟩ := playerPoolStep_enter.mp hstep
    have hqueued : s.player.stage n = .queued := by
      have hhosts := h.tracks.held w slot job n (by rw [hphase]; rfl) hn
      rwa [hphase] at hhosts
    refine .inr ⟨.take n, playerStep_eq_some.mpr ⟨?_, hplayer.symm⟩⟩
    exact decide_eq_true ⟨hqueued, h.few hphase⟩
  | handle w a =>
    obtain ⟨-, -, -, -, -, -, -, -, hplayer, -⟩ := playerPoolStep_handle.mp hstep
    exact .inr ⟨a, hplayer⟩
  | leave w =>
    obtain ⟨-, -, -, -, -, -, -, -, -, -, hplayer, -⟩ := playerPoolStep_leave.mp hstep
    exact .inl hplayer
  | complete w =>
    obtain ⟨slot, job, result, n, res, i, hphase, hn, hstage, htask, hfree, -, hplayer, -⟩ :=
      playerPoolStep_complete.mp hstep
    have hjob : (s.pool.base.workers w).job = some (slot, job) := by
      rw [hphase]
      rfl
    obtain ⟨m, hm, htask'⟩ := h.play_of_job hjob
    obtain rfl : n = m := Option.some.inj (hn.symm.trans hm)
    obtain rfl : i = taskIndex n := Option.some.inj (htask.symm.trans htask')
    refine .inr ⟨.complete n res, playerStep_eq_some.mpr ⟨?_, hplayer.symm⟩⟩
    exact decide_eq_true ⟨hstage, hfree⟩

/-- What the pool does is a step of the pool. -/
theorem pool_of_step {a : PlayerPoolAction κ α} (hspared : SparesPlay s a)
    (hstep : playerPoolStep s a = some t) :
    t.pool = s.pool ∨ ∃ b, waitStep 2 s.pool b = some t.pool ∧ SparesRead s.pool b := by
  cases a with
  | call a => exact .inl (playerPoolStep_call hstep).2.2.1
  | submit n woken => exact .inr ⟨_, (playerPoolStep_submit hstep).2.1, hspared⟩
  | pool a =>
    obtain ⟨halone, hpool, -⟩ := playerPoolStep_pool hstep
    refine .inr ⟨a, hpool, ?_⟩
    cases a with
    | submit task callback timeDelay woken => cases halone
    | _ => trivial
  | enter w =>
    obtain ⟨-, -, -, -, -, -, hpool, -⟩ := playerPoolStep_enter.mp hstep
    exact .inr ⟨_, hpool, trivial⟩
  | handle w a =>
    obtain ⟨-, -, -, -, -, -, -, -, -, hpool, -⟩ := playerPoolStep_handle.mp hstep
    exact .inl hpool
  | leave w =>
    obtain ⟨-, -, -, -, -, res, -, -, -, hpool, -⟩ := playerPoolStep_leave.mp hstep
    exact .inr ⟨_, hpool, trivial⟩
  | complete w =>
    obtain ⟨-, -, -, -, -, -, -, -, -, -, -, hpool, -⟩ := playerPoolStep_complete.mp hstep
    exact .inr ⟨_, hpool, trivial⟩

/-- Every step that spares what is read keeps the invariant. -/
theorem PlayerPoolInv.step (s : PlayerPool κ α) (a : PlayerPoolAction κ α) (t : PlayerPool κ α)
    (h : PlayerPoolInv s) (hspared : SparesPlay s a) (hstep : playerPoolStep s a = some t) :
    PlayerPoolInv t where
  play := by
    rcases h.player_step hstep with hsame | ⟨b, hb⟩
    · exact hsame ▸ h.play
    · exact h.play.step _ _ _ hb
  rest := by
    rcases pool_of_step hspared hstep with hsame | ⟨b, hb, hspares⟩
    · exact hsame ▸ h.rest
    · exact h.rest.step _ _ _ hspares hb
  tracks := by
    cases a with
    | call a => exact h.tracks_call hstep
    | submit n woken => exact h.tracks_submit hstep
    | pool a => exact h.tracks_pool hstep
    | enter w => exact h.tracks_enter hstep
    | handle w a => exact h.tracks_handle hstep
    | leave w => exact h.tracks_leave hstep
    | complete w => exact h.tracks_complete hstep

end Steps

/-! ## What the player takes for granted -/

/-- The pool serves the player. -/
structure Served (s : PlayerPool κ α) : Prop where
  accepted : ∀ n, n ∈ s.plays ↔ (s.player.stage n).accepted
  once : s.plays.Nodup
  /-- A worker gets the slot of its own play, and is as far as the play is. -/
  handed : ∀ w slot job, (s.pool.base.workers w).job = some (slot, job) → w < 2 ∧
    ∃ n, s.plays[job]? = some n ∧ (s.pool.base.pool.tasks slot).task = some (taskIndex n) ∧
      (s.pool.base.workers w).Hosts (s.player.stage n)
  /-- A play is done with the call of `play_task_callback` for its job. -/
  done : ∀ (job n : ℕ), s.plays[job]? = some n →
    ((∃ res, s.player.stage n = .done res) ↔ job ∈ s.pool.base.calls.map Call.job)
  /-- The pool refuses a slot exactly while an accepted play waits to be taken. -/
  busy : ∀ n, s.accepts n = false ↔ ∃ job m : ℕ, s.plays[job]? = some m ∧ s.pool.base.taken ≤ job

section Served

variable {s : PlayerPool κ α}

theorem Phase.Hosts.ne_done {phase : Phase (Fin 2) Unit} {g : Stage} (h : phase.Hosts g)
    (res : PlayResult) : g ≠ .done res := by
  rintro rfl
  cases phase with
  | returned slot job result =>
    obtain ⟨played, hplayed, -⟩ := h
    cases hplayed
  | _ => cases h

theorem PlayerPoolInv.busy_iff (h : PlayerPoolInv s) (n : ℕ) : s.accepts n = false ↔
    ∃ job m : ℕ, s.plays[job]? = some m ∧ s.pool.base.taken ≤ job := by
  have hlen : s.pool.base.accepted.length = s.plays.length := by
    rw [h.tracks.submitted, List.length_map]
  rw [accepts_eq, Bool.not_eq_false']
  rcases h.rest.wait.queue.queued with ⟨hall, hring⟩ | ⟨sub, hone, -, hring⟩
  · rw [hring.not_full]
    refine ⟨nofun, ?_⟩
    rintro ⟨job, m, hm, hle⟩
    have hlt := (List.getElem?_eq_some_iff.mp hm).1
    omega
  · refine ⟨fun _ => ?_, fun _ => hring.full⟩
    have hlt : s.pool.base.taken < s.plays.length := by omega
    exact ⟨s.pool.base.taken, _, List.getElem?_eq_getElem hlt, Nat.le_refl _⟩

theorem PlayerPoolInv.toServed (h : PlayerPoolInv s) : Served s where
  accepted _ := h.mem_plays_iff
  once := h.tracks.once
  handed w slot job hw := by
    obtain ⟨n, hn, htask⟩ := h.play_of_job hw
    refine ⟨h.rest.wait.within w ?_, n, hn, htask, h.tracks.held w slot job n hw hn⟩
    intro hidle
    rw [hidle] at hw
    cases hw
  done job n hn := by
    refine ⟨?_, h.tracks.called job n hn⟩
    rintro ⟨res, hres⟩
    rcases h.place job with hwait | hcalled | ⟨w, slot, hw⟩
    · rw [h.tracks.waiting job n hn hwait] at hres
      cases hres
    · exact hcalled
    · exact absurd hres ((h.tracks.held w slot job n hw hn).ne_done res)
  busy := h.busy_iff

theorem playerPoolInv_init : PlayerPoolInv (PlayerPool.init : PlayerPool κ α) where
  play := playInv_init
  rest := restInv_init ()
  tracks := tracks_init

/-- **The player over its pool is the player.** As long as no container is overwritten that a worker
still reads for the other slot, whatever the callers and the workers do is a run of the player and a
run of the pool, and the pool serves the player. -/
theorem served_of_reachable (h : Reachable playerPoolStep SparesPlay PlayerPool.init s) :
    Reachable playerStep (fun _ _ => True) PlayerState.init s.player ∧
      Reachable (waitStep 2) SparesRead (WaitState.init ()) s.pool ∧ Served s := by
  have hinv : PlayerPoolInv s ∧ Reachable playerStep (fun _ _ => True) .init s.player := by
    refine h.invariant (P := fun u =>
      PlayerPoolInv u ∧ Reachable playerStep (fun _ _ => True) .init u.player)
      ⟨playerPoolInv_init, .start⟩ ?_
    rintro s a t ⟨hs, hplayer⟩ hspared hstep
    refine ⟨hs.step _ _ _ hspared hstep, ?_⟩
    rcases hs.player_step hstep with hsame | ⟨b, hb⟩
    · exact hsame ▸ hplayer
    · exact hplayer.next trivial hb
  refine ⟨hinv.2, h.refines PlayerPool.pool rfl ?_, hinv.1.toServed⟩
  intro s a t hspared hstep
  rcases pool_of_step hspared hstep with hsame | ⟨b, hb, hspares⟩
  · exact .inl hsame
  · exact .inr ⟨b, hspares, hb⟩

/-- A worker takes a play and handles it to the end. -/
def handleWhole (w n : ℕ) : List (PlayerPoolAction ℕ ℕ) :=
  [.pool (.work (.take w)), .enter w, .handle w (.bus n), .handle w (.start n true),
    .handle w (.check n), .handle w (.run n), .handle w (.cleanup n),
    .handle w (.callback n .success), .leave w, .complete w, .pool (.work (.idle w))]

/-- A play that is submitted while the workers have nothing to do. -/
theorem exists_submitted : ∃ s : PlayerPool ℕ ℕ, run playerPoolStep PlayerPool.init
    [.call (.play ⟨some 7, none, .single⟩), .call (.claim 0 true), .submit 0 ∅] = some s ∧
      Reachable playerPoolStep SparesPlay PlayerPool.init s := by
  obtain ⟨s, hs, hidle, t, ht⟩ : ∃ s : PlayerPool ℕ ℕ, run playerPoolStep PlayerPool.init
      [.call (.play ⟨some 7, none, .single⟩), .call (.claim 0 true)] = some s ∧
        s.pool = .init () ∧ ∃ t, playerPoolStep s (.submit 0 ∅) = some t := ⟨_, rfl, rfl, _, rfl⟩
  have hreach : Reachable playerPoolStep SparesPlay PlayerPool.init s :=
    Reachable.start.of_run (by simp [SparesPlay]) hs
  have hspared : SparesPlay s (.submit 0 ∅) := by
    unfold SparesPlay Spared
    rw [hidle]
    exact fun _ _ => ⟨rfl, nofun⟩
  refine ⟨t, ?_, hreach.next hspared ht⟩
  cases hs
  exact ht

theorem served_onePlay : ∃ s : PlayerPool ℕ ℕ, s.player.stage 0 = .done .success ∧ Served s := by
  obtain ⟨s, hs, hreach⟩ := exists_submitted
  obtain ⟨t, ht, hstage⟩ : ∃ t, run playerPoolStep s (handleWhole 0 0) = some t ∧
      t.player.stage 0 = .done .success := by
    cases hs
    exact ⟨_, rfl, rfl⟩
  refine ⟨t, hstage, (served_of_reachable (hreach.of_run ?_ ht)).2.2⟩
  simp [handleWhole, SparesPlay]

/-- A play of slot 1 that fails at once, on worker 1. Another call takes the next id, so the play
after it is one of slot 1 again. -/
def failedPlay (n : ℕ) : List (PlayerPoolAction ℕ ℕ) :=
  [.call (.play ⟨none, none, .single⟩), .call (.claim n true), .submit n ∅, .pool (.work (.take 1)),
    .enter 1, .handle 1 (.bus n), .handle 1 (.start n false),
    .handle 1 (.callback n .errUnableToPlay), .leave 1, .complete 1, .pool (.work (.idle 1)),
    .call (.play ⟨none, none, .single⟩)]

/-- Worker 0 is with the first play, in slot 0, while 15 plays of slot 1 come and go. The next one
is put in the container that worker 0 still reads. -/
def otherSlot : List (PlayerPoolAction ℕ ℕ) :=
  [.call (.play ⟨none, none, .single⟩), .call (.claim 0 true), .submit 0 ∅,
    .pool (.work (.take 0)), .enter 0] ++ (List.range' 1 15 2).flatMap failedPlay ++
  [.call (.play ⟨none, none, .single⟩), .call (.claim 31 true), .submit 31 ∅]

theorem run_otherSlot : (run playerPoolStep PlayerPool.init otherSlot).map
    (fun s : PlayerPool ℕ ℕ => ((s.pool.base.workers 0).job, s.plays[0]?,
      (s.pool.base.pool.tasks 0).task)) = some (some (0, 0), some 0, some 1) := by
  decide +kernel

theorem not_served_otherSlot : ¬ ∀ s : PlayerPool ℕ ℕ,
    Reachable playerPoolStep (fun _ _ => True) PlayerPool.init s → Served s := by
  intro h
  obtain ⟨s, hrun, hs⟩ := Option.map_eq_some_iff.mp run_otherSlot
  obtain ⟨hjob, hs⟩ := Prod.mk.inj hs
  obtain ⟨hplay, htask⟩ := Prod.mk.inj hs
  obtain ⟨-, n, hn, hown, -⟩ :=
    (h s (Reachable.start.of_run (fun _ _ _ => trivial) hrun)).handed 0 0 0 hjob
  obtain rfl : 0 = n := Option.some.inj (hplay.symm.trans hn)
  cases htask.symm.trans hown

end Served

end MpegtsReader
