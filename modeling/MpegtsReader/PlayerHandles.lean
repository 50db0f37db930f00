import MpegtsReader.PlayerSteps

/-!
# Pipelines and loops

Which calls hand over a pipeline or a loop that is there. `gst_player_seek` does not look at the
state of its slot, and `gst_player_stop` quits a loop that may not be there yet; a refused play
leaves its released pipeline in the slot, and a message of a play may come after its cleanup, or be
overtaken by it between two calls. `handsLive_of_reachable` says when all goes well.

1. `Owned`: the play in a slot has its own id there, and its own loop once there is one.
2. `HandleInv.pipeline`: what the slot of a play holds until the play is refused or cleaned up.
3. `HandleInv.freed`: what was released belongs to plays that are past that.
-/

namespace MpegtsReader

open Transition

variable {κ α : Type} {s t : PlayerState κ α}

/-- No call has handed over what was not there. -/
def HandsLive (s : PlayerState κ α) : Prop := ∀ u ∈ s.uses, u.live = true

namespace Stage

/-- The loop is there. -/
def inLoop : Stage → Bool
  | looped | running => true
  | _ => false

/-- The play has a pipeline; one that has failed is not cleaned up. -/
def keeps : Stage → Bool
  | claimed | queued | handling | bound | ready | looped | running => true
  | ended res | returned res | done res => res ≠ .success
  | _ => false

/-- Refused, or cleaned up. -/
def released : Stage → Bool
  | refused => true
  | ended res | returned res | done res => res = .success
  | _ => false

theorem keeps_of_occupies {f : Stage} (h : f.occupies) : f.keeps := by
  cases f <;> first | exact h | cases h

theorem occupies_of_inLoop {f : Stage} (h : f.inLoop) : f.occupies := by
  cases f <;> first | rfl | cases h

theorem not_keeps_of_released {f : Stage} (h : f.released) : ¬ f.keeps := by
  cases f with
  | ended res => exact fun hkeeps => of_decide_eq_true hkeeps (of_decide_eq_true h)
  | returned res => exact fun hkeeps => of_decide_eq_true hkeeps (of_decide_eq_true h)
  | done res => exact fun hkeeps => of_decide_eq_true hkeeps (of_decide_eq_true h)
  | refused => nofun
  | _ => cases h

theorem Passes.inLoop {f g : Stage} (h : f.Passes g) (hg : g.inLoop) : f.inLoop := by
  cases h <;> first | rfl | cases hg

theorem Goes.keeps {f g : Stage} (h : f.Goes g) (hg : g.keeps) : f.keeps := by
  cases h with
  | pass h => cases h <;> first | rfl | cases hg
  | refuse => cases hg
  | loop => rfl
  | cleanup => cases hg
  | callback res => exact hg
  | complete res => exact hg

theorem Goes.released {f g : Stage} (h : f.Goes g) (hf : f.released) : g.released := by
  cases h with
  | pass h => cases h <;> cases hf
  | callback res => exact hf
  | complete res => exact hf
  | _ => cases hf

end Stage

/-- The slot has the pipeline of the play that took it last. -/
def HasPipeline (s : PlayerState κ α) (i : Fin 2) : Prop :=
  taskIndex (s.tasks i).id = i ∧ (s.stage (s.tasks i).id).keeps

/-- `gst_parse_launch` succeeds. -/
def PlayerAction.launches : PlayerAction κ α → Bool
  | claim _ launched => launched
  | _ => true

/-- The slot has the loop of the play that took it last. -/
def HasLoop (s : PlayerState κ α) (i : Fin 2) : Prop :=
  taskIndex (s.tasks i).id = i ∧ (s.stage (s.tasks i).id).inLoop

/-- What `cb_message` hands over in this call is in the slot. -/
def MessageCall.Finds (s : PlayerState κ α) (i : Fin 2) : MessageCall → Prop
  | .setState _ | .seek _ => HasPipeline s i
  | .quit => HasLoop s i

/-- `gst_parse_launch` succeeds, no play takes a slot that another one still occupies, seeks come
while the pipeline is there and stops while the loop is, and so does each call of `cb_message`. -/
def Careful (s : PlayerState κ α) : PlayerAction κ α → Prop
  | .claim n launched =>
    (PlayerAction.claim n launched : PlayerAction κ α).launches ∧
      ((s.tasks (taskIndex n)).state = .idle →
        ∀ m : ℕ, m ≠ n → taskIndex m = taskIndex n → ¬ (s.stage m).occupies)
  | .seek playTaskId _ => HasPipeline s (taskIndex playTaskId)
  | .stop playTaskId =>
    (s.tasks (taskIndex playTaskId)).state ≠ .idle →
      (s.stage (s.tasks (taskIndex playTaskId)).id).inLoop
  | .deliver _ => ∀ d ∈ s.dispatch, d.call.Finds s d.slot
  | _ => True

/-- The id of the play, and its loop if it has one. -/
def OwnTask (n : ℕ) (stage : Stage) (task : PlayTask κ α) : Prop :=
  task.id = n ∧ (stage.inLoop → task.loop = some n)

/-- The invariant of the guarded runs. -/
structure HandleInv (s : PlayerState κ α) : Prop where
  play : PlayInv s
  owned : Owned Stage.occupies OwnTask s
  pipeline : ∀ n : ℕ, (s.tasks (taskIndex n)).id = n → (s.stage n).keeps →
    (s.tasks (taskIndex n)).pipeline = some n
  freedPipelines : ∀ n ∈ s.freedPipelines, (s.stage n).released
  freedLoops : ∀ n ∈ s.freedLoops, (s.stage n).released
  uses : HandsLive s

theorem handleInv_init : HandleInv (PlayerState.init : PlayerState κ α) where
  play := playInv_init
  owned := {
    alone _ _ _ h := nomatch h
    holds _ h := nomatch h }
  pipeline _ _ h := nomatch h
  freedPipelines := nofun
  freedLoops := nofun
  uses := nofun

/-! ## The slots -/

theorem HandleInv.owned_step (h : HandleInv s) {a : PlayerAction κ α} (hguard : Careful s a)
    (hturn : Turn s t a) : Owned Stage.occupies OwnTask t := by
  cases hturn with
  | same hstage htasks => exact h.owned.same hstage htasks
  | number hstage htasks => exact h.owned.pass hstage htasks nofun nofun
  | pass hpass hstage htasks =>
    exact h.owned.pass hstage htasks (fun hg => hpass.occupies ▸ hg) fun _ hown =>
      ⟨hown.1, fun hg => hown.2 (hpass.inLoop hg)⟩
  | claim _ hidle hstage htasks =>
    exact h.owned.store hstage htasks (hguard.2 hidle) fun _ => ⟨rfl, nofun⟩
  | refuse hn hstage htasks => exact h.owned.store hstage htasks (h.owned.others (hn ▸ rfl)) nofun
  | @loop n hn _ hstage htasks =>
    have hid := (h.owned.holds n (hn ▸ rfl)).1
    exact h.owned.store hstage htasks (h.owned.others (hn ▸ rfl)) fun _ => ⟨hid, fun _ => rfl⟩
  | cleanup hn hstage htasks => exact h.owned.store hstage htasks (h.owned.others (hn ▸ rfl)) nofun
  | callback hn hstage htasks =>
    exact h.owned.pass hstage htasks (fun hg => hn ▸ hg) fun _ hown => ⟨hown.1, nofun⟩
  | complete _ hstage htasks =>
    -- another play may have the slot by now; neither id nor loop are stored
    have hidle : Owned Stage.occupies OwnTask { s with tasks := t.tasks } :=
      h.owned.change rfl htasks fun _ _ hown => hown
    exact hidle.pass hstage rfl nofun nofun
  | stop _ hstage htasks => exact h.owned.change hstage htasks fun _ _ hown => hown

/-- A step that leaves the pipelines and the ids in the slots as they are. -/
theorem HandleInv.pipeline_of_kept (h : HandleInv s)
    (htasks : ∀ i, (t.tasks i).id = (s.tasks i).id ∧ (t.tasks i).pipeline = (s.tasks i).pipeline)
    (hstage : ∀ n, (t.stage n).keeps → (s.stage n).keeps) (n : ℕ)
    (hid : (t.tasks (taskIndex n)).id = n) (hn : (t.stage n).keeps) :
    (t.tasks (taskIndex n)).pipeline = some n := by
  obtain ⟨hids, hpipelines⟩ := htasks (taskIndex n)
  rw [hpipelines]
  exact h.pipeline n (hids ▸ hid) (hstage n hn)

theorem kept_of_update {i : Fin 2} {task : PlayTask κ α}
    (htasks : t.tasks = Function.update s.tasks i task) (hid : task.id = (s.tasks i).id)
    (hpipeline : task.pipeline = (s.tasks i).pipeline) (j : Fin 2) :
    (t.tasks j).id = (s.tasks j).id ∧ (t.tasks j).pipeline = (s.tasks j).pipeline := by
  by_cases hij : j = i
  · subst hij
    rw [tasks_self htasks]
    exact ⟨hid, hpipeline⟩
  · rw [tasks_of_ne htasks hij]
    exact ⟨rfl, rfl⟩

theorem HandleInv.pipeline_step (h : HandleInv s) {a : PlayerAction κ α} (hguard : Careful s a)
    (hturn : Turn s t a) (n : ℕ) (hid : (t.tasks (taskIndex n)).id = n) (hn : (t.stage n).keeps) :
    (t.tasks (taskIndex n)).pipeline = some n := by
  have hkeeps : (∀ m launched, a ≠ .claim m launched) →
      ∀ m, (t.stage m).keeps → (s.stage m).keeps := by
    intro hnot m hm
    rcases hturn.back (fun _ _ => Stage.Goes.keeps) nofun hm with hold | ⟨launched, heq, _⟩
    · exact hold
    · exact absurd heq (hnot m launched)
  cases hturn with
  | same hstage htasks =>
    exact h.pipeline_of_kept (fun i => by rw [htasks]; exact ⟨rfl, rfl⟩)
      (fun m hm => hstage ▸ hm) n hid hn
  | number _ htasks =>
    exact h.pipeline_of_kept (fun i => by rw [htasks]; exact ⟨rfl, rfl⟩) (hkeeps nofun) n hid hn
  | @pass _ m g hpass hstage htasks =>
    refine h.pipeline_of_kept (fun i => by rw [htasks]; exact ⟨rfl, rfl⟩) (fun k hk => ?_) n hid hn
    by_cases hkm : k = m
    · subst hkm
      exact (Stage.Goes.pass hpass).keeps (stage_self hstage ▸ hk)
    · exact stage_of_ne hstage hkm ▸ hk
  | @claim m launched _ _ hstage htasks =>
    obtain rfl : launched = true := hguard.1
    by_cases hslot : taskIndex n = taskIndex m
    · rw [hslot, tasks_self htasks] at hid ⊢
      exact congrArg some hid
    · have hnm : n ≠ m := by
        rintro rfl
        exact hslot rfl
      rw [tasks_of_ne htasks hslot] at hid ⊢
      exact h.pipeline n hid (stage_of_ne hstage hnm ▸ hn)
  | refuse _ _ htasks =>
    exact h.pipeline_of_kept (kept_of_update htasks rfl rfl) (hkeeps nofun) n hid hn
  | loop _ _ _ htasks =>
    exact h.pipeline_of_kept (kept_of_update htasks rfl rfl) (hkeeps nofun) n hid hn
  | @cleanup m hm hstage htasks =>
    by_cases hslot : taskIndex n = taskIndex m
    · -- the slot is that of the play that is cleaned up
      rw [hslot, tasks_self htasks] at hid
      have hnm : n = m := hid.symm.trans (h.owned.holds m (hm ▸ rfl)).1
      rw [hnm, stage_self hstage] at hn
      cases hn
    · rw [tasks_of_ne htasks hslot] at hid ⊢
      exact h.pipeline n hid (hkeeps nofun n hn)
  | callback _ _ htasks =>
    exact h.pipeline_of_kept (fun i => by rw [htasks]; exact ⟨rfl, rfl⟩) (hkeeps nofun) n hid hn
  | complete _ _ htasks =>
    exact h.pipeline_of_kept (kept_of_update htasks rfl rfl) (hkeeps nofun) n hid hn
  | stop _ hstage htasks =>
    exact h.pipeline_of_kept (kept_of_update htasks rfl rfl) (hkeeps nofun) n hid hn

/-! ## What was released -/

theorem HandleInv.pipeline_eq (h : HandleInv s) {n : ℕ} (hn : (s.stage n).occupies) :
    (s.tasks (taskIndex n)).pipeline = some n :=
  h.pipeline n (h.owned.holds n hn).1 (Stage.keeps_of_occupies hn)

theorem HandleInv.loop_eq (h : HandleInv s) {n : ℕ} (hn : (s.stage n).inLoop) :
    (s.tasks (taskIndex n)).loop = some n :=
  (h.owned.holds n (Stage.occupies_of_inLoop hn)).2 hn

/-- A play that is released stays so. -/
theorem PlayInv.released (h : PlayInv s) {a : PlayerAction κ α} (hturn : Turn s t a) {n : ℕ}
    (hn : (s.stage n).released) : (t.stage n).released := by
  rcases hturn.stage_cases n with hsame | hgoes | ⟨rfl, _⟩ | ⟨hnum, _⟩
  · rwa [hsame]
  · exact hgoes.released hn
  · rw [h.fresh _ (Nat.le_refl _)] at hn
    cases hn
  · rw [hnum] at hn
    cases hn

theorem playSubmit_freed (s : PlayerState κ α) (n : ℕ) :
    (s.playSubmit n false).freedPipelines =
        (s.tasks (taskIndex n)).pipeline.toList ++ s.freedPipelines ∧
      (s.playSubmit n false).freedLoops = s.freedLoops := by
  refine ⟨?_, rfl⟩
  show (Function.update s.tasks _ _ _).pipeline.toList ++ _ = _
  rw [Function.update_self]
  rfl

theorem handleCleanup_freed (s : PlayerState κ α) (n : ℕ) :
    (s.handleCleanup n).freedPipelines =
        (s.tasks (taskIndex n)).pipeline.toList ++ s.freedPipelines ∧
      (s.handleCleanup n).freedLoops = (s.tasks (taskIndex n)).loop.toList ++ s.freedLoops :=
  ⟨rfl, rfl⟩

theorem HandleInv.freed_step (h : HandleInv s) {a : PlayerAction κ α}
    (hstep : playerStep s a = some t) :
    (∀ n ∈ t.freedPipelines, (t.stage n).released) ∧ ∀ n ∈ t.freedLoops, (t.stage n).released := by
  have hturn := turn_of_step hstep
  have hpipelines : ∀ n ∈ s.freedPipelines, (t.stage n).released := fun n hn =>
    h.play.released hturn (h.freedPipelines n hn)
  have hloops : ∀ n ∈ s.freedLoops, (t.stage n).released := fun n hn =>
    h.play.released hturn (h.freedLoops n hn)
  have hcons : ∀ {n : ℕ} {l : List ℕ}, (t.stage n).released → (∀ m ∈ l, (t.stage m).released) →
      ∀ m ∈ (some n).toList ++ l, (t.stage m).released := fun hn hl =>
    List.forall_mem_cons.mpr ⟨hn, hl⟩
  by_cases hsubmit : ∃ n, a = .submit n false
  · obtain ⟨n, rfl⟩ := hsubmit
    obtain ⟨hcan, rfl⟩ := playerStep_eq_some.mp hstep
    obtain ⟨hn, -⟩ : s.stage n = .claimed ∧ _ := of_decide_eq_true hcan
    have hfreed := playSubmit_freed s n
    rw [h.pipeline_eq (hn ▸ rfl)] at hfreed
    have hreleased : ((s.playSubmit n false).stage n).released := by
      rw [stage_self (s := s) (g := .refused) rfl]
      rfl
    exact ⟨hfreed.1 ▸ hcons hreleased hpipelines, hfreed.2 ▸ hloops⟩
  · by_cases hcleanup : ∃ n, a = .cleanup n
    · obtain ⟨n, rfl⟩ := hcleanup
      obtain ⟨hcan, rfl⟩ := playerStep_eq_some.mp hstep
      obtain ⟨hn, -⟩ : s.stage n = .running ∧ _ := of_decide_eq_true hcan
      have hfreed := handleCleanup_freed s n
      rw [h.pipeline_eq (hn ▸ rfl), h.loop_eq (hn ▸ rfl)] at hfreed
      have hreleased : ((s.handleCleanup n).stage n).released := by
        rw [stage_self (s := s) (g := .ended .success) rfl]
        rfl
      exact ⟨hfreed.1 ▸ hcons hreleased hpipelines, hfreed.2 ▸ hcons hreleased hloops⟩
    · obtain ⟨hp, hl⟩ := (kept_of_step hstep).freed (fun n heq => hsubmit ⟨n, heq⟩)
        fun n heq => hcleanup ⟨n, heq⟩
      exact ⟨hp ▸ hpipelines, hl ▸ hloops⟩

/-! ## The calls -/

theorem HandsLive.use (h : HandsLive s) (call : GstCall) (hlive : s.handsLive call = true) :
    HandsLive (s.use call) := by
  intro u hu
  rcases List.mem_append.mp hu with hold | hlast
  · exact h u hold
  · rw [List.mem_singleton.mp hlast]
    exact hlive

theorem HandleInv.live_of_keeps (h : HandleInv s) {n : ℕ}
    (hid : (s.tasks (taskIndex n)).id = n) (hn : (s.stage n).keeps) :
    (s.tasks (taskIndex n)).pipeline.any (fun m => m ∉ s.freedPipelines) = true := by
  rw [h.pipeline n hid hn]
  exact decide_eq_true fun hfreed => Stage.not_keeps_of_released (h.freedPipelines n hfreed) hn

theorem HandleInv.pipeline_live (h : HandleInv s) {n : ℕ} (hn : (s.stage n).occupies) :
    (s.tasks (taskIndex n)).pipeline.any (fun m => m ∉ s.freedPipelines) = true :=
  h.live_of_keeps (h.owned.holds n hn).1 (Stage.keeps_of_occupies hn)

theorem HandleInv.loop_live (h : HandleInv s) {n : ℕ} (hn : (s.stage n).inLoop) :
    (s.tasks (taskIndex n)).loop.any (fun m => m ∉ s.freedLoops) = true := by
  rw [h.loop_eq hn]
  exact decide_eq_true fun hfreed => Stage.not_keeps_of_released (h.freedLoops n hfreed)
    (Stage.keeps_of_occupies (Stage.occupies_of_inLoop hn))

/-- Who has a slot that is not idle. -/
theorem HandleInv.owner (h : HandleInv s) {i : Fin 2} (hbusy : (s.tasks i).state ≠ .idle) :
    ∃ n : ℕ, taskIndex n = i ∧ (s.tasks i).id = n ∧ (s.stage n).occupies := by
  obtain ⟨n, rfl, hn⟩ := h.play.busy i hbusy
  exact ⟨n, rfl, (h.owned.holds n hn).1, hn⟩

theorem HandleInv.hasPipeline_live (h : HandleInv s) {i : Fin 2} (hi : HasPipeline s i) :
    (s.tasks i).pipeline.any (fun m => m ∉ s.freedPipelines) = true := by
  obtain ⟨hslot, hkeeps⟩ := hi
  have hlive := h.live_of_keeps (congrArg (fun i => (s.tasks i).id) hslot) hkeeps
  rwa [hslot] at hlive

theorem HandleInv.hasLoop_live (h : HandleInv s) {i : Fin 2} (hi : HasLoop s i) :
    (s.tasks i).loop.any (fun m => m ∉ s.freedLoops) = true := by
  obtain ⟨hslot, hloop⟩ := hi
  have hlive := h.loop_live hloop
  rwa [hslot] at hlive

theorem HandleInv.seek_live (h : HandleInv s) {playTaskId : ℤ} (msOffset : ℤ)
    (hguard : HasPipeline s (taskIndex playTaskId)) :
    HandsLive (s.gstPlayerSeek playTaskId msOffset) :=
  HandsLive.use (s := s.lockTask (taskIndex playTaskId)) h.uses _ (h.hasPipeline_live hguard)

theorem HandleInv.stop_live (h : HandleInv s) {playTaskId : ℤ}
    (hguard : Careful s (.stop playTaskId)) : HandsLive (s.gstPlayerStop playTaskId) := by
  unfold PlayerState.gstPlayerStop
  dsimp only
  split_ifs with hidle
  · exact h.uses
  · obtain ⟨n, hslot, hid, hn⟩ := h.owner hidle
    have hloop : (s.stage n).inLoop := hid ▸ hguard hidle
    have hpipeline := h.pipeline_live hn
    have hloop := h.loop_live hloop
    rw [hslot] at hpipeline hloop
    have hready : HandsLive ((s.lockTask (taskIndex playTaskId)).use
        (.setState (s.tasks (taskIndex playTaskId)).pipeline .ready)) :=
      HandsLive.use (s := s.lockTask (taskIndex playTaskId)) h.uses _ hpipeline
    exact hready.use _ hloop

theorem HandleInv.changeState_live (h : HandleInv s) (playTaskId : ℤ) (state : GstState) :
    HandsLive (s.changeState playTaskId state) := by
  unfold PlayerState.changeState
  dsimp only
  split_ifs with hidle
  · exact h.uses
  · obtain ⟨n, hslot, _, hn⟩ := h.owner hidle
    have hpipeline := h.pipeline_live hn
    rw [hslot] at hpipeline
    exact HandsLive.use (s := s.lockTask (taskIndex playTaskId)) h.uses _ hpipeline

theorem HandleInv.deliver_live (h : HandleInv s)
    (hguard : ∀ d ∈ s.dispatch, d.call.Finds s d.slot) : HandsLive s.handleCall := by
  unfold PlayerState.handleCall
  split
  · rename_i d hd
    have hlive : s.handsLive (d.call.on (s.tasks d.slot)) = true := by
      have hfinds := hguard d hd
      cases hcall : d.call with
      | setState state =>
        rw [hcall] at hfinds
        exact h.hasPipeline_live hfinds
      | seek msOffset =>
        rw [hcall] at hfinds
        exact h.hasPipeline_live hfinds
      | quit =>
        rw [hcall] at hfinds
        exact h.hasLoop_live hfinds
    exact h.uses.use _ hlive
  · exact h.uses

theorem HandleInv.cleanup_live (h : HandleInv s) {n : ℕ} (hn : s.stage n = .running) :
    HandsLive (s.handleCleanup n) := by
  have hpipeline := h.pipeline_live (n := n) (hn ▸ rfl)
  have hloop := h.loop_live (n := n) (hn ▸ rfl)
  have hunref : HandsLive ((s.lockTask (taskIndex n)).use
      (.unrefLoop (s.tasks (taskIndex n)).loop)) :=
    HandsLive.use (s := s.lockTask (taskIndex n)) h.uses _ hloop
  have hnull := HandsLive.use (s := { (s.lockTask (taskIndex n)).use
    (.unrefLoop (s.tasks (taskIndex n)).loop) with
      freedLoops := (s.tasks (taskIndex n)).loop.toList ++ s.freedLoops })
    hunref (.setState (s.tasks (taskIndex n)).pipeline .null) hpipeline
  exact hnull.use (.unrefPipeline (s.tasks (taskIndex n)).pipeline) hpipeline

theorem HandleInv.refuse_live (h : HandleInv s) {n : ℕ} (hn : s.stage n = .claimed) :
    HandsLive (s.playSubmit n false) := by
  have hpipeline := h.pipeline_live (n := n) (hn ▸ rfl)
  refine HandsLive.use (s := (s.lockTask (taskIndex n)).setTaskState (taskIndex n) .idle) h.uses _
    ?_
  show (Function.update s.tasks _ _ _).pipeline.any _ = true
  rw [Function.update_self]
  exact hpipeline

theorem HandleInv.uses_step (h : HandleInv s) {a : PlayerAction κ α} (hguard : Careful s a)
    (hstep : playerStep s a = some t) : HandsLive t := by
  obtain ⟨hcan, rfl⟩ := playerStep_eq_some.mp hstep
  cases a with
  | play request => exact h.uses
  | claim n launched =>
    show HandsLive (s.playClaim n launched)
    unfold PlayerState.playClaim
    dsimp only
    split_ifs <;> exact h.uses
  | submit n accepted =>
    obtain ⟨hn, -⟩ : s.stage n = .claimed ∧ _ := of_decide_eq_true hcan
    cases accepted with
    | true => exact h.uses
    | false => exact h.refuse_live hn
  | take n => exact h.uses
  | bus n =>
    have hn : s.stage n = .handling := of_decide_eq_true hcan
    exact HandsLive.use h.uses _ (h.pipeline_live (hn ▸ rfl))
  | start n changed =>
    have hn : s.stage n = .bound := of_decide_eq_true hcan
    exact HandsLive.use h.uses (.setState (s.tasks (taskIndex n)).pipeline .playing)
      (h.pipeline_live (hn ▸ rfl))
  | check n =>
    show HandsLive (s.handleCheck n)
    unfold PlayerState.handleCheck
    dsimp only
    split_ifs <;> exact h.uses
  | run n =>
    have hn : s.stage n = .looped := of_decide_eq_true hcan
    exact HandsLive.use h.uses _ (h.loop_live (hn ▸ rfl))
  | message m n msg => exact h.uses
  | deliver m => exact h.deliver_live hguard
  | cleanup n =>
    obtain ⟨hn, -⟩ : s.stage n = .running ∧ _ := of_decide_eq_true hcan
    exact h.cleanup_live hn
  | callback n res =>
    show HandsLive (s.handleCallback n res)
    unfold PlayerState.handleCallback
    dsimp only
    split <;> exact h.uses
  | complete n res => exact h.uses
  | seek playTaskId msOffset => exact h.seek_live msOffset hguard
  | stop playTaskId => exact h.stop_live hguard
  | pause playTaskId => exact h.changeState_live playTaskId .paused
  | resume playTaskId => exact h.changeState_live playTaskId .playing
  | isPlaying playTaskId => exact h.uses

theorem HandleInv.step (s : PlayerState κ α) (a : PlayerAction κ α) (t : PlayerState κ α)
    (h : HandleInv s) (hguard : Careful s a) (hstep : playerStep s a = some t) : HandleInv t where
  play := h.play.step s a t hstep
  owned := h.owned_step hguard (turn_of_step hstep)
  pipeline := h.pipeline_step hguard (turn_of_step hstep)
  freedPipelines := (h.freed_step hstep).1
  freedLoops := (h.freed_step hstep).2
  uses := h.uses_step hguard hstep

/-- In every careful run no call hands over what is not there. -/
theorem handsLive_of_reachable (h : Reachable playerStep Careful PlayerState.init s) :
    HandsLive s :=
  (h.invariant handleInv_init HandleInv.step).uses

/-- A play with a seek, a message and a stop while it is in its loop. -/
theorem handsLive_onePlay : ∃ s : PlayerState ℕ ℕ, HandsLive s ∧
    s.uses.map (·.call) = [.getBus (some 0), .setState (some 0) .playing, .run (some 0),
      .seek (some 0) 5, .setState (some 0) .paused, .setState (some 0) .playing,
      .setState (some 0) .ready, .quit (some 0), .unrefLoop (some 0), .setState (some 0) .null,
      .unrefPipeline (some 0)] := by
  let numbered : PlayerState ℕ ℕ := PlayerState.init.playNumber ⟨some 7, none, .single⟩
  let claimed := numbered.playClaim 0 true
  let running := (((((claimed.playSubmit 0 true).move 0 .handling).handleBus 0).handleStart 0
    true).handleCheck 0).handleRun 0
  have hnumbered : Reachable playerStep Careful PlayerState.init numbered :=
    Reachable.start.next (a := .play ⟨some 7, none, .single⟩) trivial rfl
  have hclaimed : Reachable playerStep Careful PlayerState.init claimed := by
    refine hnumbered.next (a := .claim 0 true) ⟨rfl, fun _ m hm _ hocc => ?_⟩ rfl
    rw [show numbered.stage m = .none from Function.update_of_ne hm ..] at hocc
    cases hocc
  have hrun : run playerStep claimed
      [.submit 0 true, .take 0, .bus 0, .start 0 true, .check 0, .run 0] = some running := rfl
  have hrunning : Reachable playerStep Careful PlayerState.init running :=
    hclaimed.of_run (by simp [Careful]) hrun
  let sought := running.gstPlayerSeek 0 5
  have hsought : Reachable playerStep Careful PlayerState.init sought :=
    hrunning.next (a := .seek 0 5) ⟨rfl, rfl⟩ rfl
  let handled := sought.handleMessage 0 0 .clockLost
  have hhandled : Reachable playerStep Careful PlayerState.init handled :=
    hsought.next (a := .message 0 0 .clockLost) trivial rfl
  have hpaused : Reachable playerStep Careful PlayerState.init handled.handleCall :=
    hhandled.next (a := .deliver 0) (by rintro _ ⟨⟩; exact ⟨rfl, rfl⟩) rfl
  have hplaying : Reachable playerStep Careful PlayerState.init handled.handleCall.handleCall :=
    hpaused.next (a := .deliver 0) (by rintro _ ⟨⟩; exact ⟨rfl, rfl⟩) rfl
  have hstopped : Reachable playerStep Careful PlayerState.init
      (handled.handleCall.handleCall.gstPlayerStop 0) :=
    hplaying.next (a := .stop 0) (fun _ => rfl) rfl
  exact ⟨_, handsLive_of_reachable (hstopped.next (a := .cleanup 0) trivial rfl), rfl⟩

/-- The play has ended and its pipeline is gone, which `gst_player_seek` does not know. -/
theorem run_seekEnded : (run playerStep PlayerState.init
    (.play ⟨some 7, none, .single⟩ :: toLoop 0 ++ [.cleanup 0, .seek 0 30014])).map
    (fun s : PlayerState ℕ ℕ => s.uses.getLast?.map fun u => (u.call, u.live)) =
      some (some (.seek none 30014, false)) := by
  decide

theorem not_handsLive_seekEnded : ¬ ∀ s : PlayerState ℕ ℕ,
    Reachable playerStep (fun _ a => a.launches) PlayerState.init s → HandsLive s := by
  intro h
  obtain ⟨s, hrun, hs⟩ := Option.map_eq_some_iff.mp run_seekEnded
  obtain ⟨u, hu, hcall⟩ := Option.map_eq_some_iff.mp hs
  have hreach : Reachable playerStep (fun _ a => a.launches) PlayerState.init s :=
    Reachable.start.of_run (by simp [toLoop, PlayerAction.launches]) hrun
  have hlive := h s hreach u (List.mem_of_getLast? hu)
  exact absurd (hlive.symm.trans (Prod.ext_iff.mp hcall).2) nofun

/-- Two plays are in their loops. The loop of play 1 handles an error of play 0, which is stopped
and cleaned up between the two calls of `cb_message`. -/
def overtakenMessage : List (PlayerAction ℕ ℕ) :=
  [.play ⟨none, none, .single⟩, .play ⟨none, none, .single⟩] ++ toLoop 0 ++ toLoop 1 ++
    [.message 1 0 .error, .deliver 1, .stop 0, .cleanup 0, .deliver 1]

example : (run playerStep PlayerState.init overtakenMessage).map
    (fun s : PlayerState ℕ ℕ => s.uses.getLast?.map fun u => (u.call, u.live)) =
      some (some (.quit none, false)) := by
  decide

end MpegtsReader
