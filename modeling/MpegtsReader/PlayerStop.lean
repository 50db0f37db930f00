import MpegtsReader.PlayerSteps

/-!
# Stopping a play

`gst_player_stop` leaves `GST_TASK_STATE_CANCEL` in the slot for a worker that has not checked it
yet, and quits the loop for one that runs it. A stop is lost where neither helps: between the two
(`looped`), and where a late store makes the slot idle before the check.
-/

namespace MpegtsReader

open Transition

variable {κ α : Type} {s t : PlayerState κ α}

/-- In its slot, and the state is still to be checked. -/
def Stage.unchecked : Stage → Bool
  | claimed | queued | handling | bound | ready => true
  | _ => false

/-- A stop does not come between the creation of the loop and its start, and no slot becomes idle on
account of one play while another that was stopped is still to check it. -/
def Heard (s : PlayerState κ α) : PlayerAction κ α → Prop
  | .stop playTaskId =>
    (s.tasks (taskIndex playTaskId)).state ≠ .idle →
      s.stage (s.tasks (taskIndex playTaskId)).id ≠ .looped
  | .submit n false | .cleanup n | .complete n _ =>
    ∀ m : ℕ, m ≠ n → taskIndex m = taskIndex n → m ∈ s.cancelled → ¬ (s.stage m).unchecked
  | _ => True

/-- What becomes of a play that was stopped. -/
structure Stopped (s : PlayerState κ α) (n : ℕ) : Prop where
  past : (s.stage n).past
  held : (s.stage n).unchecked → (s.tasks (taskIndex n)).state = .cancel
  unlooped : s.stage n ≠ .looped

/-- The invariant of the guarded runs. -/
structure StopInv (s : PlayerState κ α) : Prop where
  play : PlayInv s
  stopped : ∀ n ∈ s.cancelled, Stopped s n

theorem Stage.Passes.unchecked {f g : Stage} (h : f.Passes g) (hg : g.unchecked) : f.unchecked := by
  cases h <;> first | rfl | cases hg

theorem Stage.Passes.ne_looped {f g : Stage} (h : f.Passes g) : g ≠ looped := by
  cases h <;> nofun

namespace Stopped

variable {n m : ℕ} {g : Stage}

/-- Another play goes on, and a cancelled state stays. -/
theorem other (h : Stopped s n) (hstage : t.stage n = s.stage n)
    (htask : (s.stage n).unchecked → (s.tasks (taskIndex n)).state = .cancel →
      (t.tasks (taskIndex n)).state = .cancel) : Stopped t n where
  past := hstage ▸ h.past
  held hn := htask (hstage ▸ hn) (h.held (hstage ▸ hn))
  unlooped := hstage ▸ h.unlooped

/-- The play itself goes on, behind the check. -/
theorem self (hstage : t.stage = Function.update s.stage n g) (hpast : g.past)
    (hchecked : ¬ g.unchecked) (hlooped : g ≠ .looped) : Stopped t n := by
  rw [← stage_self hstage] at hpast hchecked hlooped
  exact ⟨hpast, fun h => absurd h hchecked, hlooped⟩

/-- A play makes the slot idle. -/
theorem idle (h : Stopped s n) {task : PlayTask κ α}
    (hguard : ∀ k : ℕ, k ≠ m → taskIndex k = taskIndex m → k ∈ s.cancelled →
      ¬ (s.stage k).unchecked)
    (hn : n ∈ s.cancelled) (hstage : t.stage = Function.update s.stage m g)
    (htasks : t.tasks = Function.update s.tasks (taskIndex m) task) (hpast : g.past)
    (hchecked : ¬ g.unchecked) (hlooped : g ≠ .looped) : Stopped t n := by
  by_cases hnm : n = m
  · subst hnm
    exact self hstage hpast hchecked hlooped
  · refine h.other (stage_of_ne hstage hnm) fun hun hcancel => ?_
    have hslot : taskIndex n ≠ taskIndex m := fun hslot => hguard n hnm hslot hn hun
    rwa [tasks_of_ne htasks hslot]

theorem step (h : Stopped s n) (hplay : PlayInv s) {a : PlayerAction κ α} (hguard : Heard s a)
    (hn : n ∈ s.cancelled) (hturn : Turn s t a) : Stopped t n := by
  cases hturn with
  | same hstage htasks =>
    exact h.other (by rw [hstage]) fun _ hcancel => by rwa [htasks]
  | number hstage htasks =>
    have hne : n ≠ s.id := by
      rintro rfl
      have hpast := h.past
      rw [hplay.fresh _ (Nat.le_refl _)] at hpast
      cases hpast
    exact h.other (stage_of_ne hstage hne) fun _ hcancel => by rwa [htasks]
  | @pass _ m g hpass hstage htasks =>
    by_cases hnm : n = m
    · subst hnm
      refine ⟨?_, fun hun => ?_, ?_⟩
      · rw [stage_self hstage]
        exact (Stage.Goes.pass hpass).past
      · rw [stage_self hstage] at hun
        rw [htasks]
        exact h.held (hpass.unchecked hun)
      · rw [stage_self hstage]
        exact hpass.ne_looped
    · exact h.other (stage_of_ne hstage hnm) fun _ hcancel => by rwa [htasks]
  | @claim m launched hm hidle hstage htasks =>
    have hne : n ≠ m := by
      rintro rfl
      have hpast := h.past
      rw [hm] at hpast
      cases hpast
    refine h.other (stage_of_ne hstage hne) fun _ hcancel => ?_
    have hslot : taskIndex n ≠ taskIndex m := fun hslot => by
      rw [hslot, hidle] at hcancel
      cases hcancel
    rwa [tasks_of_ne htasks hslot]
  | @loop m hm hcheck hstage htasks =>
    have hne : n ≠ m := by
      rintro rfl
      exact hcheck (h.held (by rw [hm]; rfl))
    refine h.other (stage_of_ne hstage hne) fun _ hcancel => ?_
    have hslot : taskIndex n ≠ taskIndex m := fun hslot => hcheck (hslot ▸ hcancel)
    rwa [tasks_of_ne htasks hslot]
  | refuse _ hstage htasks => exact h.idle hguard hn hstage htasks rfl nofun nofun
  | cleanup _ hstage htasks => exact h.idle hguard hn hstage htasks rfl nofun nofun
  | complete _ hstage htasks => exact h.idle hguard hn hstage htasks rfl nofun nofun
  | @callback m res _ hstage htasks =>
    by_cases hnm : n = m
    · subst hnm
      exact self hstage rfl nofun nofun
    · exact h.other (stage_of_ne hstage hnm) fun _ hcancel => by rwa [htasks]
  | @stop playTaskId _ hstage htasks =>
    refine h.other (by rw [hstage]) fun _ hcancel => ?_
    by_cases hslot : taskIndex n = taskIndex playTaskId
    · rw [hslot, tasks_self htasks]
    · rwa [tasks_of_ne htasks hslot]

end Stopped

/-- A stop of a slot that is not idle. -/
theorem gstPlayerStop_of_busy {playTaskId : ℤ}
    (hbusy : (s.tasks (taskIndex playTaskId)).state ≠ .idle) :
    (s.gstPlayerStop playTaskId).stage = s.stage ∧
      (s.gstPlayerStop playTaskId).tasks = Function.update s.tasks (taskIndex playTaskId)
        { s.tasks (taskIndex playTaskId) with state := .cancel } ∧
      (s.gstPlayerStop playTaskId).cancelled =
        (s.tasks (taskIndex playTaskId)).id :: s.cancelled := by
  have hlocked : ((s.lockTask (taskIndex playTaskId)).tasks (taskIndex playTaskId)).state ≠ .idle :=
    hbusy
  unfold PlayerState.gstPlayerStop
  dsimp only
  rw [if_neg hlocked]
  refine ⟨rfl, rfl, ?_⟩
  show (Function.update s.tasks _ _ _).id :: _ = _
  rw [Function.update_self]
  rfl

theorem gstPlayerStop_of_idle {playTaskId : ℤ}
    (hidle : (s.tasks (taskIndex playTaskId)).state = .idle) :
    (s.gstPlayerStop playTaskId).cancelled = s.cancelled := by
  have hlocked : ((s.lockTask (taskIndex playTaskId)).tasks (taskIndex playTaskId)).state = .idle :=
    hidle
  unfold PlayerState.gstPlayerStop
  dsimp only
  rw [if_pos hlocked]
  rfl

/-- The play that a stop finds in the slot. -/
theorem PlayInv.stopped (h : PlayInv s) {playTaskId : ℤ}
    (hbusy : (s.tasks (taskIndex playTaskId)).state ≠ .idle)
    (hguard : Heard s (.stop playTaskId)) :
    Stopped (s.gstPlayerStop playTaskId) (s.tasks (taskIndex playTaskId)).id := by
  obtain ⟨hstage, htasks, _⟩ := gstPlayerStop_of_busy hbusy
  obtain ⟨n, hslot, hn⟩ := h.busy _ hbusy
  obtain ⟨hid, hpast⟩ := h.named n hn
  rw [hslot] at hid hpast
  refine ⟨hstage ▸ hpast, fun _ => ?_, hstage ▸ hguard hbusy⟩
  rw [hid, tasks_self htasks]

theorem StopInv.step (s : PlayerState κ α) (a : PlayerAction κ α) (t : PlayerState κ α)
    (h : StopInv s) (hguard : Heard s a) (hstep : playerStep s a = some t) : StopInv t := by
  have hold : ∀ n ∈ s.cancelled, Stopped t n := fun n hn =>
    (h.stopped n hn).step h.play hguard hn (turn_of_step hstep)
  refine ⟨h.play.step s a t hstep, ?_⟩
  by_cases ha : ∃ playTaskId, a = .stop playTaskId
  · obtain ⟨playTaskId, rfl⟩ := ha
    obtain ⟨-, rfl⟩ := playerStep_eq_some.mp hstep
    show ∀ n ∈ (s.gstPlayerStop playTaskId).cancelled, Stopped (s.gstPlayerStop playTaskId) n
    by_cases hidle : (s.tasks (taskIndex playTaskId)).state = .idle
    · rw [gstPlayerStop_of_idle hidle]
      exact hold
    · rw [(gstPlayerStop_of_busy hidle).2.2]
      exact List.forall_mem_cons.mpr ⟨h.play.stopped hidle hguard, hold⟩
  · rw [(kept_of_step hstep).cancelled fun playTaskId heq => ha ⟨playTaskId, heq⟩]
    exact hold

end MpegtsReader
