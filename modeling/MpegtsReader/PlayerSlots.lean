import MpegtsReader.PlayerSteps

/-!
# A play and its slot

The slot of a play becomes idle in its cleanup and once more in `play_task_callback`, when another
play may have it. This late store is the only way to lose a slot (`slotsHeld_of_reachable`).

Ids grow and `id & TASK_QMSK` does not: `untouched_iff` says when the operations on the id of a play
that is over leave the other plays alone.
-/

namespace MpegtsReader

open Transition

variable {κ α : Type} {s t : PlayerState κ α}

/-- A play that occupies its slot keeps it, and no call of `gst_player_play` stores to it. -/
structure SlotsHeld (s : PlayerState κ α) : Prop where
  held : ∀ n : ℕ, (s.stage n).occupies → (s.tasks (taskIndex n)).state ≠ .idle
  kept : ∀ m launched t, playerStep s (.claim m launched) = some t →
    ∀ n : ℕ, (s.stage n).occupies → t.tasks (taskIndex n) = s.tasks (taskIndex n)

/-- `play_task_callback` after a play that has succeeded finds no other play in the slot. -/
def InTime (s : PlayerState κ α) : PlayerAction κ α → Prop
  | .complete n .success =>
    ∀ m : ℕ, m ≠ n → taskIndex m = taskIndex n → ¬ (s.stage m).occupies
  | _ => True

/-- A slot has one play at most, and is not idle then. -/
abbrev Occupied (s : PlayerState κ α) : Prop :=
  Owned Stage.occupies (fun _ _ task => task.state ≠ .idle) s

theorem occupied_init : Occupied (PlayerState.init : PlayerState κ α) where
  alone _ _ _ h := nomatch h
  holds _ h := nomatch h

theorem Occupied.step (s : PlayerState κ α) (a : PlayerAction κ α) (t : PlayerState κ α)
    (h : Occupied s) (hguard : InTime s a) (hstep : playerStep s a = some t) : Occupied t := by
  cases turn_of_step hstep with
  | same hstage htasks => exact h.same hstage htasks
  | number hstage htasks => exact h.pass hstage htasks nofun nofun
  | pass hpass hstage htasks =>
    exact h.pass hstage htasks (fun hg => hpass.occupies ▸ hg) fun _ hne => hne
  | @claim n _ _ hidle hstage htasks =>
    -- whoever had the slot would not have left it idle
    have hothers : ∀ m : ℕ, m ≠ n → taskIndex m = taskIndex n → ¬ (s.stage m).occupies :=
      fun m _ hslot hm => h.holds m hm (hslot.symm ▸ hidle)
    exact h.store hstage htasks hothers fun _ => nofun
  | refuse hn hstage htasks => exact h.store hstage htasks (h.others (hn ▸ rfl)) nofun
  | loop hn _ hstage htasks =>
    exact h.store hstage htasks (h.others (hn ▸ rfl)) fun _ => nofun
  | cleanup hn hstage htasks => exact h.store hstage htasks (h.others (hn ▸ rfl)) nofun
  | callback hn hstage htasks =>
    exact h.pass hstage htasks (fun hg => hn ▸ hg) fun _ hne => hne
  | @complete n res hn hstage htasks =>
    cases res with
    | success => exact h.store hstage htasks hguard nofun
    | errUnableToPlay => exact h.store hstage htasks (h.others (hn ▸ rfl)) nofun
    | errCanceled => exact h.store hstage htasks (h.others (hn ▸ rfl)) nofun
  | stop _ hstage htasks => exact h.change hstage htasks fun _ _ _ => nofun

theorem Occupied.slotsHeld (h : Occupied s) : SlotsHeld s where
  held := h.holds
  kept m launched t hstep n hn := by
    cases turn_of_step hstep with
    | same _ htasks => rw [htasks]
    | pass _ _ htasks => rw [htasks]
    | claim _ hidle _ htasks =>
      have hslot : taskIndex n ≠ taskIndex m := fun hslot => h.holds n hn (hslot.symm ▸ hidle)
      exact tasks_of_ne htasks hslot

/-- In every run in which `play_task_callback` is never late, no play loses its slot. -/
theorem slotsHeld_of_reachable (h : Reachable playerStep InTime PlayerState.init s) : SlotsHeld s :=
  (h.invariant occupied_init Occupied.step).slotsHeld

/-- A play that is in its loop. -/
theorem slotsHeld_onePlay : ∃ s : PlayerState ℕ ℕ, SlotsHeld s ∧ s.stage 0 = .running := by
  obtain ⟨s, hs, hstage⟩ : ∃ s : PlayerState ℕ ℕ, run playerStep PlayerState.init
      (.play ⟨some 7, none, .single⟩ :: toLoop 0) = some s ∧ s.stage 0 = .running := ⟨_, rfl, rfl⟩
  exact ⟨s, slotsHeld_of_reachable (Reachable.start.of_run (by simp [toLoop, InTime]) hs), hstage⟩

/-- Play 0 has come to its end, its callback included, when play 2 takes the slot. Only then comes
`play_task_callback`. -/
def lateCallback : List (PlayerAction ℕ ℕ) :=
  .play ⟨some 7, none, .single⟩ :: toLoop 0 ++
    [.cleanup 0, .callback 0 .success, .play ⟨none, none, .single⟩, .play ⟨some 9, none, .single⟩,
      .claim 2 true, .submit 2 true, .complete 0 .success]

theorem run_lateCallback : (run playerStep PlayerState.init lateCallback).map
    (fun s : PlayerState ℕ ℕ => (s.stage 2, (s.tasks 0).state)) = some (.queued, .idle) := by
  decide

theorem not_slotsHeld_lateCallback : ¬ ∀ s : PlayerState ℕ ℕ,
    Reachable playerStep (fun _ _ => True) PlayerState.init s → SlotsHeld s := by
  intro h
  obtain ⟨s, hrun, hs⟩ := Option.map_eq_some_iff.mp run_lateCallback
  obtain ⟨hstage, hidle⟩ : s.stage 2 = .queued ∧ (s.tasks 0).state = .idle := Prod.ext_iff.mp hs
  have hreach := Reachable.start.of_run (fun _ _ _ => trivial) hrun
  exact (h s hreach).held 2 (by rw [hstage]; rfl) hidle

/-! ## Old ids -/

/-- The playback has finished. -/
def Stage.over : Stage → Bool
  | ended res | returned res => res = .success
  | done _ => true
  | _ => false

/-- The pipeline or the loop that the call hands over. -/
def GstCall.handle : GstCall → Option ℕ
  | getBus h | setState h _ | seek h _ | unrefPipeline h | quit h | run h | unrefLoop h => h

/-- The operations on a play. -/
inductive Controls (playTaskId : ℤ) : PlayerAction κ α → Prop
  | seek (msOffset : ℤ) : Controls playTaskId (.seek playTaskId msOffset)
  | stop : Controls playTaskId (.stop playTaskId)
  | pause : Controls playTaskId (.pause playTaskId)
  | resume : Controls playTaskId (.resume playTaskId)

/-- No operation on the id `n` does anything to another play in the slot. -/
structure Untouched (s : PlayerState κ α) (n : ℕ) : Prop where
  notPlaying : ∀ t, playerStep s (.isPlaying n) = some t → (s.gstPlayerIsPlaying n).2 = false
  spares : ∀ a t, Controls n a → playerStep s a = some t →
    ∀ m : ℕ, m ≠ n → taskIndex m = taskIndex n → (s.stage m).occupies →
      t.tasks (taskIndex m) = s.tasks (taskIndex m) ∧
        ∃ uses, t.uses = s.uses ++ uses ∧ ∀ u ∈ uses, u.call.handle ≠ some m

theorem Stage.not_occupies_of_over {f : Stage} (h : f.over) : ¬ f.occupies := by
  cases f with
  | ended res =>
    obtain rfl : res = .success := of_decide_eq_true h
    decide
  | returned res =>
    obtain rfl : res = .success := of_decide_eq_true h
    decide
  | done _ => nofun
  | _ => cases h

theorem gstPlayerIsPlaying_snd (s : PlayerState κ α) (playTaskId : ℤ) :
    (s.gstPlayerIsPlaying playTaskId).2 = false ↔
      (s.tasks (taskIndex playTaskId)).state = .idle := by
  show decide ((s.tasks (taskIndex playTaskId)).state ≠ .idle) = false ↔ _
  rw [decide_eq_false_iff_not, not_not]

/-- On a slot that is idle only `gst_player_seek` makes a call. -/
theorem Controls.idle {n : ℕ} {a : PlayerAction κ α} (ha : Controls n a)
    (hidle : (s.tasks (taskIndex n)).state = .idle) (hstep : playerStep s a = some t) :
    t.tasks = s.tasks ∧ ∃ uses, t.uses = s.uses ++ uses ∧
      ∀ u ∈ uses, u.call.handle = (s.tasks (taskIndex n)).pipeline := by
  have quiet : t.tasks = s.tasks → t.uses = s.uses → t.tasks = s.tasks ∧
      ∃ uses, t.uses = s.uses ++ uses ∧
        ∀ u ∈ uses, u.call.handle = (s.tasks (taskIndex n)).pipeline :=
    fun htasks huses => ⟨htasks, [], by rw [huses, List.append_nil], nofun⟩
  obtain ⟨-, rfl⟩ := playerStep_eq_some.mp hstep
  cases ha with
  | seek msOffset =>
    refine ⟨rfl, [_], rfl, ?_⟩
    intro u hu
    rw [List.mem_singleton.mp hu]
    rfl
  | stop =>
    have heq : s.gstPlayerStop n = (s.lockTask (taskIndex n)).unlockTask (taskIndex n) :=
      if_pos hidle
    exact quiet (congrArg (·.tasks) heq) (congrArg (·.uses) heq)
  | pause =>
    have heq : s.gstPlayerPause n = s.lockTask (taskIndex n) := if_pos hidle
    exact quiet (congrArg (·.tasks) heq) (congrArg (·.uses) heq)
  | resume =>
    have heq : s.gstPlayerResume n = s.lockTask (taskIndex n) := if_pos hidle
    exact quiet (congrArg (·.tasks) heq) (congrArg (·.uses) heq)

theorem playerStep_of_free {a : PlayerAction κ α} {n : ℕ}
    (ha : Controls n a ∨ a = .isPlaying n) (hlock : s.taskLock (taskIndex n) = false) :
    playerStep s a = some (s.after a) := by
  refine playerStep_eq_some.mpr ⟨?_, rfl⟩
  rcases ha with ha | rfl
  · cases ha <;> exact decide_eq_true hlock
  · exact decide_eq_true hlock

theorem lock_of_playerStep {a : PlayerAction κ α} {n : ℕ}
    (ha : Controls n a ∨ a = .isPlaying n) (hstep : playerStep s a = some t) :
    s.taskLock (taskIndex n) = false := by
  obtain ⟨hcan, -⟩ := playerStep_eq_some.mp hstep
  rcases ha with ha | rfl
  · cases ha <;> exact of_decide_eq_true hcan
  · exact of_decide_eq_true hcan

/-- In every state of every run: the operations on the id of a play that is over do nothing to other
plays if and only if none occupies the slot, or the one that does has lost its slot. -/
theorem untouched_iff {n : ℕ} (h : Reachable playerStep (fun _ _ => True) PlayerState.init s)
    (hn : (s.stage n).over) :
    Untouched s n ↔ (s.taskLock (taskIndex n) = false →
      ∀ m : ℕ, m ≠ n → taskIndex m = taskIndex n → (s.stage m).occupies →
        (s.tasks (taskIndex n)).state = .idle ∧ (s.tasks (taskIndex n)).pipeline ≠ some m) := by
  constructor
  · intro hun hlock m hmn hslot hm
    have hidle := (gstPlayerIsPlaying_snd s n).mp
      (hun.notPlaying _ (playerStep_of_free (.inr rfl) hlock))
    have hseek : Controls n (.seek n 0 : PlayerAction κ α) := .seek 0
    obtain ⟨-, uses, huses, hspare⟩ :=
      hun.spares _ _ hseek (playerStep_of_free (.inl hseek) hlock) m hmn hslot hm
    obtain rfl := List.append_cancel_left huses
    exact ⟨hidle, hspare _ (List.mem_singleton_self _)⟩
  · intro hfree
    -- a slot that is not idle would have a play, and that is another one
    have hidle : s.taskLock (taskIndex n) = false → (s.tasks (taskIndex n)).state = .idle := by
      intro hlock
      by_contra hbusy
      obtain ⟨m, hslot, hm⟩ := (playInv_of_reachable h).busy _ hbusy
      have hmn : m ≠ n := by
        rintro rfl
        exact Stage.not_occupies_of_over hn hm
      exact hbusy (hfree hlock m hmn hslot hm).1
    refine ⟨fun t hstep => ?_, fun a t ha hstep m hmn hslot hm => ?_⟩
    · exact (gstPlayerIsPlaying_snd s n).mpr (hidle (lock_of_playerStep (.inr rfl) hstep))
    · have hlock := lock_of_playerStep (.inl ha) hstep
      obtain ⟨htasks, uses, huses, hhandle⟩ := ha.idle (hidle hlock) hstep
      refine ⟨by rw [htasks], uses, huses, fun u hu => ?_⟩
      rw [hhandle u hu]
      exact (hfree hlock m hmn hslot hm).2

/-- A play to its end. -/
def wholePlay (n : ℕ) : List (PlayerAction κ α) :=
  toLoop n ++ [.cleanup n, .callback n .success, .complete n .success]

/-- The only play so far is over. -/
theorem untouched_onePlay : ∃ s : PlayerState ℕ ℕ, s.stage 0 = .done .success ∧ Untouched s 0 := by
  obtain ⟨s, hs, hid, hstage⟩ : ∃ s : PlayerState ℕ ℕ, run playerStep PlayerState.init
      (.play ⟨some 7, none, .single⟩ :: wholePlay 0) = some s ∧ s.id = 1 ∧
        s.stage 0 = .done .success := ⟨_, rfl, rfl, rfl⟩
  have hreach := Reachable.start.of_run (fun _ _ _ => trivial) hs
  refine ⟨s, hstage, (untouched_iff hreach (by rw [hstage]; rfl)).mpr ?_⟩
  intro _ m hm _ hocc
  rw [(playInv_of_reachable hreach).fresh m (by omega)] at hocc
  cases hocc

/-- Play 0 is over when play 2 plays in its slot. -/
theorem run_oldId : (run playerStep PlayerState.init
    (.play ⟨some 7, none, .single⟩ :: wholePlay 0 ++
      [.play ⟨none, none, .single⟩, .play ⟨some 9, none, .single⟩] ++ toLoop 2)).map
    (fun s : PlayerState ℕ ℕ => (s.stage 0, s.taskLock 0, (s.gstPlayerIsPlaying 0).2)) =
      some (.done .success, false, true) := by
  decide

theorem not_untouched_oldId : ¬ ∀ s : PlayerState ℕ ℕ,
    Reachable playerStep (fun _ _ => True) PlayerState.init s →
      ∀ n, (s.stage n).over → Untouched s n := by
  intro h
  obtain ⟨s, hrun, hs⟩ := Option.map_eq_some_iff.mp run_oldId
  obtain ⟨hstage, hlock, hplaying⟩ : s.stage 0 = .done .success ∧ s.taskLock 0 = false ∧
      (s.gstPlayerIsPlaying 0).2 = true := by
    simpa only [Prod.mk.injEq] using hs
  have hreach := Reachable.start.of_run (fun _ _ _ => trivial) hrun
  have hnot := (h s hreach 0 (by rw [hstage]; rfl)).notPlaying _
    (playerStep_of_free (.inr rfl) hlock)
  exact absurd (hplaying.symm.trans hnot) nofun

end MpegtsReader
