import MpegtsReader.PlayerSteps

/-!
# Callbacks of the player

`handle_play_task` calls the callback of its play with what it reads from the slot, after it has
released the lock, and on the path of a success after it has marked the slot idle. What it reads is
its own as long as no other play takes the slot before that (`called_of_reachable`).
-/

namespace MpegtsReader

open Transition

variable {κ α : Type} {s t : PlayerState κ α}

/-- The callback of the play is still to come. -/
def Stage.awaits : Stage → Bool
  | claimed | queued | handling | bound | ready | looped | running | ended _ => true
  | _ => false

/-- With what `handle_play_task` has returned. -/
def Stage.result : Stage → Option PlayResult
  | returned res | done res => some res
  | _ => Option.none

/-- Every callback is called for one play, with its id, its argument and its result, and every play
whose `handle_play_task` has returned has had its callback, if it has one. -/
structure Called (s : PlayerState κ α) : Prop where
  own : ∀ o ∈ s.outcomes, (s.requests o.play).callback = some o.callback ∧ o.id = o.play ∧
    o.arg = (s.requests o.play).arg ∧ (s.stage o.play).result = some o.res
  once : (s.outcomes.map Outcome.play).Nodup
  due : ∀ n, (s.stage n).result.isSome → (s.requests n).callback.isSome →
    n ∈ s.outcomes.map Outcome.play

/-- A play that takes a slot finds no other there whose callback is still to come; unless neither
has a callback. -/
def Unawaited (s : PlayerState κ α) : PlayerAction κ α → Prop
  | .claim n _ => (s.tasks (taskIndex n)).state = .idle →
    ∀ m : ℕ, m ≠ n → taskIndex m = taskIndex n → (s.stage m).awaits →
      (s.requests m).callback = none ∧ (s.requests n).callback = none
  | _ => True

/-- The slot asks for the callback of the play. -/
structure Fits (n : ℕ) (request : PlayRequest κ α) (task : PlayTask κ α) : Prop where
  callback : task.callback = request.callback
  own : request.callback ≠ none → task.id = n ∧ task.cbArg = request.arg

/-- The invariant of the guarded runs. -/
structure OutcomeInv (s : PlayerState κ α) : Prop where
  play : PlayInv s
  fits : ∀ n : ℕ, (s.stage n).awaits → Fits n (s.requests n) (s.tasks (taskIndex n))
  called : Called s

theorem outcomeInv_init : OutcomeInv (PlayerState.init : PlayerState κ α) where
  play := playInv_init
  fits _ h := nomatch h
  called := ⟨nofun, List.nodup_nil, nofun⟩

theorem Stage.Goes.awaits {f g : Stage} (h : f.Goes g) (hg : g.awaits) : f.awaits := by
  cases h with
  | pass h => cases h <;> first | rfl | cases hg
  | refuse => cases hg
  | loop => rfl
  | cleanup => rfl
  | callback res => cases hg
  | complete res => cases hg

theorem Stage.Passes.result {f g : Stage} (h : f.Passes g) : g.result = f.result := by
  cases h <;> rfl

/-- What a play in progress has asked for is kept. -/
theorem PlayInv.request_eq (h : PlayInv s) {a : PlayerAction κ α} (hstep : playerStep s a = some t)
    {n : ℕ} (hn : s.stage n ≠ .none) : t.requests n = s.requests n := by
  rcases requests_of_step hstep with ⟨_, _, _, hrequests⟩ | ⟨_, hrequests⟩
  · have hne : n ≠ s.id := by
      rintro rfl
      exact hn (h.fresh _ (Nat.le_refl _))
    rw [hrequests, Function.update_of_ne hne]
  · rw [hrequests]

theorem fits_claimedTask (s : PlayerState κ α) (n : ℕ) (launched : Bool) :
    Fits n (s.requests n) (s.claimedTask n launched) := ⟨rfl, fun _ => ⟨rfl, rfl⟩⟩

theorem OutcomeInv.fits_step (h : OutcomeInv s) {a : PlayerAction κ α} (hguard : Unawaited s a)
    (hstep : playerStep s a = some t) (n : ℕ) (hn : (t.stage n).awaits) :
    Fits n (t.requests n) (t.tasks (taskIndex n)) := by
  have hturn := turn_of_step hstep
  rcases hturn.back (fun _ _ => Stage.Goes.awaits) nofun hn with hold | ⟨launched, rfl, _, htasks⟩
  · have hfits := h.fits n hold
    have hne : s.stage n ≠ .none := fun hnone => by
      rw [hnone] at hold
      cases hold
    rw [h.play.request_eq hstep hne]
    rcases hturn.task_cases (taskIndex n) with ⟨hid, hcallback, harg⟩ |
      ⟨m, launched, rfl, hslot, hidle, _, htask⟩
    · exact ⟨hcallback.trans hfits.callback, fun hcb =>
        ⟨hid.trans (hfits.own hcb).1, harg.trans (hfits.own hcb).2⟩⟩
    · rw [htask]
      by_cases hnm : n = m
      · exact hnm ▸ fits_claimedTask s m launched
      · obtain ⟨hnull, hnull'⟩ := hguard (hslot ▸ hidle) n hnm hslot.symm hold
        exact ⟨hnull'.trans hnull.symm, fun hcb => absurd hnull hcb⟩
  · have hrequests : t.requests = s.requests := by
      rcases requests_of_step hstep with ⟨_, hplay, _⟩ | ⟨_, hrequests⟩
      · cases hplay
      · exact hrequests
    rw [hrequests, tasks_self htasks]
    exact fits_claimedTask s n launched

/-- A step that calls nothing. -/
theorem Called.mono (h : Called s) (houtcomes : t.outcomes = s.outcomes)
    (hresult : ∀ n, (t.stage n).result = (s.stage n).result)
    (hrequests : ∀ n, s.stage n ≠ .none → t.requests n = s.requests n) : Called t := by
  have hne : ∀ n, (s.stage n).result.isSome → s.stage n ≠ .none := fun n hn hnone => by
    rw [hnone] at hn
    cases hn
  refine ⟨fun o ho => ?_, houtcomes ▸ h.once, fun n hn hcb => ?_⟩
  · obtain ⟨hcallback, hid, harg, hres⟩ := h.own o (houtcomes ▸ ho)
    rw [hrequests o.play (hne _ (by rw [hres]; rfl)), hresult]
    exact ⟨hcallback, hid, harg, hres⟩
  · rw [hresult] at hn
    rw [hrequests n (hne n hn)] at hcb
    rw [houtcomes]
    exact h.due n hn hcb

/-- Only the callback gives a play its result. -/
theorem Turn.result_eq {a : PlayerAction κ α} (h : Turn s t a) (hfresh : s.stage s.id = .none)
    (ha : ∀ n res, a ≠ .callback n res) (n : ℕ) : (t.stage n).result = (s.stage n).result := by
  have moved : ∀ {m : ℕ} {f g : Stage}, s.stage m = f → t.stage = Function.update s.stage m g →
      g.result = f.result → (t.stage n).result = (s.stage n).result := by
    intro m f g hm hstage hg
    by_cases hnm : n = m
    · subst hnm
      rw [stage_self hstage, hm, hg]
    · rw [stage_of_ne hstage hnm]
  cases h with
  | same hstage _ => rw [hstage]
  | number hstage _ => exact moved hfresh hstage rfl
  | pass hpass hstage _ => exact moved rfl hstage hpass.result
  | claim hm _ hstage _ => exact moved hm hstage rfl
  | refuse hm hstage _ => exact moved hm hstage rfl
  | loop hm _ hstage _ => exact moved hm hstage rfl
  | cleanup hm hstage _ => exact moved hm hstage rfl
  | callback _ _ _ => exact absurd rfl (ha _ _)
  | complete hm hstage _ => exact moved hm hstage rfl
  | stop _ hstage _ => rw [hstage]

/-- The callback of a play, with what the play has asked for. -/
theorem Called.tell (h : Called s) {n : ℕ} {res : PlayResult} (hn : s.stage n = .ended res)
    (hstage : t.stage = Function.update s.stage n (.returned res))
    (hrequests : t.requests = s.requests)
    (houtcomes : ((s.requests n).callback = none ∧ t.outcomes = s.outcomes) ∨
      ∃ callback, (s.requests n).callback = some callback ∧
        t.outcomes = s.outcomes ++ [⟨n, callback, n, res, (s.requests n).arg⟩]) : Called t := by
  have hnew : n ∉ s.outcomes.map Outcome.play := by
    intro hmem
    obtain ⟨o, ho, rfl⟩ := List.mem_map.mp hmem
    have hres := (h.own o ho).2.2.2
    rw [hn] at hres
    cases hres
  have hown : ∀ o ∈ s.outcomes, (t.requests o.play).callback = some o.callback ∧ o.id = o.play ∧
      o.arg = (t.requests o.play).arg ∧ (t.stage o.play).result = some o.res := by
    intro o ho
    have hne : o.play ≠ n := fun heq => hnew (heq ▸ List.mem_map_of_mem ho)
    rw [hrequests, stage_of_ne hstage hne]
    exact h.own o ho
  have hdue : ∀ m, m ≠ n → (t.stage m).result.isSome → (t.requests m).callback.isSome →
      m ∈ s.outcomes.map Outcome.play := by
    intro m hm
    rw [hrequests, stage_of_ne hstage hm]
    exact h.due m
  rcases houtcomes with ⟨hnull, heq⟩ | ⟨callback, hcallback, heq⟩
  · refine ⟨heq ▸ hown, heq ▸ h.once, fun m hm hcb => ?_⟩
    by_cases hmn : m = n
    · rw [hmn, hrequests, hnull] at hcb
      cases hcb
    · exact heq ▸ hdue m hmn hm hcb
  · refine ⟨fun o ho => ?_, ?_, fun m hm hcb => ?_⟩
    · rcases List.mem_append.mp (heq ▸ ho) with hold | hlast
      · exact hown o hold
      · obtain rfl := List.mem_singleton.mp hlast
        rw [hrequests, stage_self hstage]
        exact ⟨hcallback, rfl, rfl, rfl⟩
    · rw [heq, List.map_append]
      refine List.nodup_append.mpr ⟨h.once, List.pairwise_singleton .., ?_⟩
      rintro m hm _ hlast rfl
      obtain rfl : m = n := List.mem_singleton.mp hlast
      exact hnew hm
    · rw [heq, List.map_append, List.mem_append]
      by_cases hmn : m = n
      · exact .inr (List.mem_singleton.mpr hmn)
      · exact .inl (hdue m hmn hm hcb)

theorem OutcomeInv.called_step (h : OutcomeInv s) {a : PlayerAction κ α}
    (hstep : playerStep s a = some t) : Called t := by
  by_cases ha : ∃ n res, a = .callback n res
  · obtain ⟨n, res, rfl⟩ := ha
    obtain ⟨hcan, rfl⟩ := playerStep_eq_some.mp hstep
    have hn : s.stage n = .ended res := of_decide_eq_true hcan
    have hfits := h.fits n (by rw [hn]; rfl)
    show Called (s.handleCallback n res)
    unfold PlayerState.handleCallback
    dsimp only
    split
    · next callback hcallback =>
      have hrequest := hfits.callback.symm.trans hcallback
      obtain ⟨hid, harg⟩ := hfits.own (by rw [hrequest]; nofun)
      rw [hid, harg]
      exact h.called.tell hn rfl rfl (.inr ⟨callback, hrequest, rfl⟩)
    · next hnull => exact h.called.tell hn rfl rfl (.inl ⟨hfits.callback.symm.trans hnull, rfl⟩)
  · have hnot : ∀ n res, a ≠ .callback n res := fun n res heq => ha ⟨n, res, heq⟩
    exact h.called.mono ((kept_of_step hstep).outcomes hnot)
      ((turn_of_step hstep).result_eq (h.play.fresh _ (Nat.le_refl _)) hnot)
      fun _ => h.play.request_eq hstep

theorem OutcomeInv.step (s : PlayerState κ α) (a : PlayerAction κ α) (t : PlayerState κ α)
    (h : OutcomeInv s) (hguard : Unawaited s a) (hstep : playerStep s a = some t) :
    OutcomeInv t where
  play := h.play.step s a t hstep
  fits := h.fits_step hguard hstep
  called := h.called_step hstep

/-- In every run in which no play takes the slot of one whose callback is still to come, every play
gets its callback, once, and its own. -/
theorem called_of_reachable (h : Reachable playerStep Unawaited PlayerState.init s) : Called s :=
  (h.invariant outcomeInv_init OutcomeInv.step).called

/-- The only play so far gets its callback. -/
theorem called_onePlay : ∃ s : PlayerState ℕ ℕ, Called s ∧
    s.outcomes = [⟨0, 7, 0, .success, some 8⟩] := by
  let request : PlayRequest ℕ ℕ := ⟨some 7, some 8, .single⟩
  have hplay : Reachable playerStep Unawaited PlayerState.init
      (PlayerState.init.playNumber request) :=
    Reachable.start.next (a := .play request) trivial rfl
  have hclaim : Reachable playerStep Unawaited PlayerState.init
      ((PlayerState.init.playNumber request).playClaim 0 true) := by
    refine hplay.next (a := .claim 0 true) (fun _ m hm _ hawaits => ?_) rfl
    rw [show (PlayerState.init.playNumber request).stage m = .none from
      Function.update_of_ne hm ..] at hawaits
    cases hawaits
  obtain ⟨s, hs, houtcomes⟩ : ∃ s, run playerStep
      ((PlayerState.init.playNumber request).playClaim 0 true)
      [.submit 0 true, .take 0, .bus 0, .start 0 true, .check 0, .run 0, .cleanup 0,
        .callback 0 .success] = some s ∧ s.outcomes = [⟨0, 7, 0, .success, some 8⟩] := ⟨_, rfl, rfl⟩
  exact ⟨s, called_of_reachable (hclaim.of_run (by simp [Unawaited]) hs), houtcomes⟩

/-- Play 2 takes the slot between the cleanup of play 0 and its callback. -/
theorem run_othersCallback : (run playerStep PlayerState.init
    (.play ⟨some 7, some 8, .single⟩ :: toLoop 0 ++
      [.play ⟨none, none, .single⟩, .play ⟨some 9, some 10, .single⟩, .cleanup 0, .claim 2 true,
        .callback 0 .success])).map (fun s : PlayerState ℕ ℕ => s.outcomes) =
      some [⟨0, 9, 2, .success, some 10⟩] := by
  decide

theorem not_called_othersCallback : ¬ ∀ s : PlayerState ℕ ℕ,
    Reachable playerStep (fun _ _ => True) PlayerState.init s → Called s := by
  intro h
  obtain ⟨s, hrun, houtcomes⟩ := Option.map_eq_some_iff.mp run_othersCallback
  have hreach := Reachable.start.of_run (fun _ _ _ => trivial) hrun
  have hid := ((h s hreach).own _ (houtcomes ▸ List.mem_singleton_self _)).2.1
  exact absurd hid (by decide)

end MpegtsReader
