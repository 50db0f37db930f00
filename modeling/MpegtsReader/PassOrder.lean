import MpegtsReader.Commuting
import MpegtsReader.Edits
import MpegtsReader.Playlist

/-!
# The order of the passes

The editing passes of a stream commute, and none does anything the second time. The exception are
two renumberings of one PID that start at different counters, of which the last one counts. So the
stream that a sequence of passes leaves depends only on which passes it has
(`runPasses_congr_mem`), and the same is true of the passes over a playlist, which all start at 0
(`runPlaylistPasses_congr_mem`).
-/

namespace MpegtsReader

open Commuting

/-! ## One loop -/

section MapAccum

variable {σ τ α : Type}

/-- Two loops can be run in either order when their bodies can, and neither body changes what the
other counts. -/
theorem mapAccum_comm {f : σ → α → σ × α} {g : τ → α → τ × α}
    (hf : ∀ s t a, (f s (g t a).2).1 = (f s a).1) (hg : ∀ s t a, (g t (f s a).2).1 = (g t a).1)
    (h : ∀ s t a, (f s (g t a).2).2 = (g t (f s a).2).2) (s : σ) (t : τ) (as : List α) :
    (mapAccum f s (mapAccum g t as).2).2 = (mapAccum g t (mapAccum f s as).2).2 := by
  induction as generalizing s t with
  | nil => rfl
  | cons a as ih =>
    simp only [mapAccum_cons]
    rw [hf, hg, h, ih]

/-- What the first loop counts does not depend on the second. -/
theorem fst_mapAccum_comm {f : σ → α → σ × α} {g : τ → α → τ × α}
    (hf : ∀ s t a, (f s (g t a).2).1 = (f s a).1) (s : σ) (t : τ) (as : List α) :
    (mapAccum f s (mapAccum g t as).2).1 = (mapAccum f s as).1 := by
  induction as generalizing s t with
  | nil => rfl
  | cons a as ih =>
    simp only [mapAccum_cons]
    rw [hf, ih]

theorem mapAccum_idem {f : σ → α → σ × α} (h : ∀ s a, f s (f s a).2 = f s a) (s : σ)
    (as : List α) : mapAccum f s (mapAccum f s as).2 = mapAccum f s as := by
  induction as generalizing s with
  | nil => rfl
  | cons a as ih =>
    simp only [mapAccum_cons]
    rw [h, ih]

end MapAccum

/-! ## The bodies of the passes -/

/-- The body of the loop of a pass, with the counter that it carries. -/
def passBody : Pass → Byte → Segment → Byte × Segment
  | .pesResetLen, cc, s => (cc, resetLen s)
  | .fixKeyframe pid, cc, s => (cc, fixKeyframe pid s)
  | .updatePcrByPts _, cc, s => (cc, updatePcr s)
  | .updateCc pid _, cc, s => updateCc pid cc s

/-- The counter that the loop starts with. -/
def passCounter : Pass → Byte
  | .updateCc _ initCc => initCc
  | _ => 0

theorem run_eq_mapAccum (pass : Pass) (stream : Stream) : pass.run stream =
    ⟨stream.url, (mapAccum (passBody pass) (passCounter pass) stream.segmentList).2⟩ := by
  cases pass with
  | pesResetLen =>
    exact congrArg (Stream.mk stream.url) ((segmentList_pesResetLen stream).trans
      (congrArg Prod.snd (mapAccum_const resetLen (0 : Byte) stream.segmentList)).symm)
  | fixKeyframe pid =>
    exact congrArg (Stream.mk stream.url) ((segmentList_fixKeyframe stream pid).trans
      (congrArg Prod.snd (mapAccum_const (fixKeyframe pid) (0 : Byte) stream.segmentList)).symm)
  | updatePcrByPts pid =>
    exact congrArg (Stream.mk stream.url) ((segmentList_updatePcrByPts stream pid).trans
      (congrArg Prod.snd (mapAccum_const updatePcr (0 : Byte) stream.segmentList)).symm)
  | updateCc pid initCc => exact congrArg Prod.fst (mpegtsStreamUpdateCc_eq stream pid initCc)

/-- The segment is one that `mpegts_stream_fix_keyframe` marks. -/
def Keyed (pid : BitVec 16) (s : Segment) : Prop :=
  s.header.pusi ∧ s.header.pid.setWidth 16 = pid ∧ s.adaptationField.hasPcr

instance (pid : BitVec 16) (s : Segment) : Decidable (Keyed pid s) :=
  inferInstanceAs (Decidable (_ ∧ _))

/-- The clock reference that `mpegts_stream_update_pcr_by_pts` leaves. -/
def clockOf (s : Segment) : BitVec 64 :=
  match s.pesHeader with
  | none => s.adaptationField.pcr
  | some header =>
    if s.adaptationField.hasPcr ∧ header.pts ≠ 0 then header.pts * 300 else s.adaptationField.pcr

/-- The segment with the random access bit raised where `raise` says so. -/
def Segment.withRandAcc (s : Segment) (raise : Bool) : Segment :=
  { s with adaptationField :=
      { s.adaptationField with randAcc := s.adaptationField.randAcc || raise } }

theorem fixKeyframe_eq (pid : BitVec 16) (s : Segment) :
    fixKeyframe pid s = s.withRandAcc (Keyed pid s) := by
  unfold fixKeyframe
  by_cases h : Keyed pid s
  · exact (if_pos h).trans (by rw [decide_eq_true h, Segment.withRandAcc, Bool.or_true])
  · exact (if_neg h).trans (by rw [decide_eq_false h, Segment.withRandAcc, Bool.or_false])

theorem updatePcr_eq (s : Segment) : updatePcr s = s.withPcr (clockOf s) := by
  unfold clockOf
  cases h : s.pesHeader with
  | none => exact updatePcr_of_none h
  | some header =>
    rw [updatePcr_of_some h]
    by_cases hset : s.adaptationField.hasPcr ∧ header.pts ≠ 0
    · rw [if_pos hset]
      exact (congrArg s.withPcr (if_pos hset)).symm
    · rw [if_neg hset]
      exact (congrArg s.withPcr (if_neg hset)).symm

theorem updateCc_eq (pid : ℤ) (cc : Byte) (s : Segment) : updateCc pid cc s =
    ((if HasPid pid s then cc + 1 else cc) &&& 0xF#8,
      if HasPid pid s then s.withCc (cc.setWidth 4) else s) := by
  unfold updateCc
  split_ifs <;> rfl

section Body

variable (s : Segment)

theorem resetLen_eq_map :
    resetLen s = { s with pesHeader := s.pesHeader.map ({ · with len := 0 }) } := by
  rw [← pesHeader_resetLen]
  exact resetLen_eq s

theorem clockOf_resetLen : clockOf (resetLen s) = clockOf s := by
  rw [resetLen_eq_map]
  unfold clockOf
  cases s.pesHeader <;> rfl

theorem clockOf_withPcr : clockOf (s.withPcr (clockOf s)) = clockOf s := by
  unfold clockOf
  cases h : s.pesHeader with
  | none => simp only [Segment.withPcr, h]
  | some header =>
    simp only [Segment.withPcr, h]
    split_ifs <;> rfl

theorem resetLen_withRandAcc (raise : Bool) :
    resetLen (s.withRandAcc raise) = (resetLen s).withRandAcc raise := by
  rw [resetLen_eq_map, resetLen_eq_map]
  rfl

theorem resetLen_withPcr (pcr : BitVec 64) :
    resetLen (s.withPcr pcr) = (resetLen s).withPcr pcr := by
  rw [resetLen_eq_map, resetLen_eq_map]
  rfl

theorem resetLen_withCc (cc : BitVec 4) : resetLen (s.withCc cc) = (resetLen s).withCc cc := by
  rw [resetLen_eq_map, resetLen_eq_map]
  rfl

theorem withRandAcc_withRandAcc (raise raise' : Bool) :
    (s.withRandAcc raise).withRandAcc raise' = (s.withRandAcc raise').withRandAcc raise := by
  unfold Segment.withRandAcc
  simp only [Bool.or_right_comm]

theorem withRandAcc_self (raise : Bool) :
    (s.withRandAcc raise).withRandAcc raise = s.withRandAcc raise := by
  unfold Segment.withRandAcc
  simp only [Bool.or_assoc, Bool.or_self]

theorem keyed_resetLen (pid : BitVec 16) : Keyed pid (resetLen s) ↔ Keyed pid s := by
  rw [resetLen_eq]
  rfl

theorem hasPid_withRandAcc {pid : ℤ} {raise : Bool} :
    HasPid pid (s.withRandAcc raise) ↔ HasPid pid s := Iff.rfl

theorem hasPid_withPcr {pid : ℤ} {pcr : BitVec 64} :
    HasPid pid (s.withPcr pcr) ↔ HasPid pid s := Iff.rfl

/-- No body changes which packets another one renumbers. -/
theorem hasPid_passBody (pid : ℤ) (pass : Pass) (cc : Byte) :
    HasPid pid (passBody pass cc s).2 ↔ HasPid pid s := by
  cases pass with
  | pesResetLen =>
    simp only [passBody]
    rw [resetLen_eq]
    rfl
  | fixKeyframe pid' =>
    simp only [passBody, fixKeyframe_eq]
    rfl
  | updatePcrByPts pid' =>
    simp only [passBody, updatePcr_eq]
    rfl
  | updateCc pid' initCc =>
    simp only [passBody, updateCc_eq]
    split_ifs <;> rfl

theorem passBody_fst (pass pass' : Pass) (cc cc' : Byte) :
    (passBody pass cc (passBody pass' cc' s).2).1 = (passBody pass cc s).1 := by
  cases pass with
  | updateCc pid initCc =>
    rw [passBody, updateCc_eq, passBody, updateCc_eq]
    simp only [hasPid_passBody]
  | _ => rfl

/-- `mpegts_stream_pes_reset_len` and any other pass. -/
theorem passBody_resetLen (pass : Pass) (cc cc' : Byte) :
    (passBody pass cc (passBody .pesResetLen cc' s).2).2 =
      (passBody .pesResetLen cc' (passBody pass cc s).2).2 := by
  cases pass with
  | pesResetLen => rfl
  | fixKeyframe pid =>
    simp only [passBody, fixKeyframe_eq, resetLen_withRandAcc, keyed_resetLen]
  | updatePcrByPts pid =>
    simp only [passBody, updatePcr_eq, resetLen_withPcr, clockOf_resetLen]
  | updateCc pid initCc =>
    have hpid : HasPid pid (resetLen s) ↔ HasPid pid s := hasPid_passBody s pid .pesResetLen cc
    simp only [passBody, updateCc_eq, hpid]
    split_ifs
    · exact (resetLen_withCc s _).symm
    · rfl

/-- `mpegts_stream_fix_keyframe` and a pass on the header or the clock. -/
theorem passBody_fixKeyframe (pid : BitVec 16) (pass : Pass) (cc cc' : Byte) :
    (passBody pass cc (passBody (.fixKeyframe pid) cc' s).2).2 =
      (passBody (.fixKeyframe pid) cc' (passBody pass cc s).2).2 := by
  cases pass with
  | pesResetLen => exact (passBody_resetLen s (.fixKeyframe pid) cc' cc).symm
  | fixKeyframe pid' =>
    simp only [passBody, fixKeyframe_eq]
    exact withRandAcc_withRandAcc s _ _
  | updatePcrByPts pid' =>
    simp only [passBody, fixKeyframe_eq, updatePcr_eq]
    rfl
  | updateCc pid' initCc =>
    simp only [passBody, fixKeyframe_eq, updateCc_eq, hasPid_withRandAcc]
    split_ifs <;> rfl

theorem passBody_updatePcr (pid : BitVec 16) (pass : Pass) (cc cc' : Byte) :
    (passBody pass cc (passBody (.updatePcrByPts pid) cc' s).2).2 =
      (passBody (.updatePcrByPts pid) cc' (passBody pass cc s).2).2 := by
  cases pass with
  | pesResetLen => exact (passBody_resetLen s (.updatePcrByPts pid) cc' cc).symm
  | fixKeyframe pid' => exact (passBody_fixKeyframe s pid' (.updatePcrByPts pid) cc' cc).symm
  | updatePcrByPts pid' => rfl
  | updateCc pid' initCc =>
    simp only [passBody, updatePcr_eq, updateCc_eq, hasPid_withPcr]
    split_ifs <;> rfl

/-- Two renumberings touch different packets. -/
theorem passBody_updateCc {pid pid' : ℤ} (h : pid ≠ pid') (initCc initCc' cc cc' : Byte) :
    (passBody (.updateCc pid initCc) cc (passBody (.updateCc pid' initCc') cc' s).2).2 =
      (passBody (.updateCc pid' initCc') cc' (passBody (.updateCc pid initCc) cc s).2).2 := by
  simp only [passBody, updateCc_eq]
  by_cases hs : HasPid pid s
  · have hs' : ¬ HasPid pid' s := fun hs' => h (hs.symm.trans hs')
    simp only [if_neg hs', if_pos hs, hasPid_withCc]
  · simp only [if_neg hs]
    split_ifs with hs' hpid
    · exact absurd (hasPid_withCc.mp hpid) hs
    · rfl
    · rfl

theorem passBody_idem (pass : Pass) (cc : Byte) :
    passBody pass cc (passBody pass cc s).2 = passBody pass cc s := by
  refine Prod.ext (passBody_fst s pass pass cc cc) ?_
  cases pass with
  | pesResetLen =>
    simp only [passBody]
    rw [resetLen_eq_map, resetLen_eq_map, Option.map_map]
    rfl
  | fixKeyframe pid =>
    simp only [passBody, fixKeyframe_eq]
    exact withRandAcc_self s _
  | updatePcrByPts pid =>
    simp only [passBody, updatePcr_eq, clockOf_withPcr]
    rfl
  | updateCc pid initCc =>
    simp only [passBody, updateCc_eq]
    split_ifs with h hagain
    · rfl
    · exact absurd (hasPid_withCc.mpr h) hagain
    · rfl

end Body

/-! ## Passes over a stream -/

/-- Two renumberings of one PID start at one counter. -/
def SameCounter (pass pass' : Pass) : Prop :=
  ∀ pid cc cc', pass = .updateCc pid cc → pass' = .updateCc pid cc' → cc = cc'

/-- Different passes that agree do different things to a segment, in either order. -/
theorem passBody_comm {pass pass' : Pass} (hne : pass ≠ pass') (h : SameCounter pass pass')
    (cc cc' : Byte) (s : Segment) : (passBody pass cc (passBody pass' cc' s).2).2 =
      (passBody pass' cc' (passBody pass cc s).2).2 := by
  cases pass' with
  | pesResetLen => exact passBody_resetLen s pass cc cc'
  | fixKeyframe pid => exact passBody_fixKeyframe s pid pass cc cc'
  | updatePcrByPts pid => exact passBody_updatePcr s pid pass cc cc'
  | updateCc pid' initCc' =>
    cases pass with
    | pesResetLen => exact (passBody_resetLen s _ cc' cc).symm
    | fixKeyframe pid => exact (passBody_fixKeyframe s pid _ cc' cc).symm
    | updatePcrByPts pid => exact (passBody_updatePcr s pid _ cc' cc).symm
    | updateCc pid initCc =>
      refine passBody_updateCc s ?_ initCc initCc' cc cc'
      rintro rfl
      exact hne (congrArg (Pass.updateCc pid) (h pid initCc initCc' rfl rfl))

theorem run_comm {pass pass' : Pass} (h : SameCounter pass pass') (stream : Stream) :
    pass'.run (pass.run stream) = pass.run (pass'.run stream) := by
  by_cases hne : pass = pass'
  · rw [hne]
  · simp only [run_eq_mapAccum]
    exact congrArg (Stream.mk stream.url) (mapAccum_comm
      (fun cc cc' s => passBody_fst s pass pass' cc cc')
      (fun cc cc' s => passBody_fst s pass' pass cc' cc)
      (passBody_comm hne h) _ _ stream.segmentList).symm

theorem run_run (pass : Pass) (stream : Stream) :
    pass.run (pass.run stream) = pass.run stream := by
  simp only [run_eq_mapAccum]
  exact congrArg (Stream.mk stream.url) (congrArg Prod.snd
    (mapAccum_idem (fun cc s => passBody_idem s pass cc) _ stream.segmentList))

/-- **The order of the passes.** Two sequences of the same passes, in whatever order and each as
often as one likes, leave the same stream, if their renumberings of one PID all start at one
counter. -/
theorem runPasses_congr_mem {passes passes' : List Pass}
    (hsame : ∀ pass ∈ passes, ∀ pass' ∈ passes, SameCounter pass pass')
    (hmem : ∀ pass, pass ∈ passes ↔ pass ∈ passes') (stream : Stream) :
    runPasses stream passes = runPasses stream passes' := by
  have hsettled : Settled Pass.run passes :=
    ⟨fun pass hpass pass' hpass' => run_comm (hsame pass hpass pass' hpass'),
      fun pass _ => run_run pass⟩
  exact hsettled.foldl_congr_mem hmem stream

theorem runPasses_congr_mem_swapped :
    runPasses (streamOf (fun _ => .zeroed) [audioPacket])
        [.updateCc 0x100 0, .pesResetLen, .updateCc 0x101 5, .pesResetLen] =
      runPasses (streamOf (fun _ => .zeroed) [audioPacket])
        [.updateCc 0x101 5, .updateCc 0x100 0, .pesResetLen] := by
  refine runPasses_congr_mem (by simp [SameCounter]) (fun pass => ?_) _
  simp only [List.mem_cons, List.not_mem_nil, or_false]
  tauto

/-! ## Passes over a playlist -/

/-- `hls_fix_key_frame_info`. -/
def hlsFixKeyFrameInfo (playlist : Playlist) (pid : BitVec 16) : Playlist :=
  let r := iterLoop (fun _ stream => ((), mpegtsStreamFixKeyframe stream pid)) playlist.sublist
    cdslIterInit ()
  { playlist with sublist := r.2.1 }

/-- A call of one of the passes over a playlist with its arguments. -/
inductive PlaylistPass
  | fixKeyFrameInfo (pid : BitVec 16)
  | updatePcrByPts (pid : BitVec 16)
  | fixDiscontinuity (pids : List ℤ)

/-- Run one pass over a playlist. -/
def PlaylistPass.run (playlist : Playlist) : PlaylistPass → Playlist
  | .fixKeyFrameInfo pid => hlsFixKeyFrameInfo playlist pid
  | .updatePcrByPts pid => hlsUpdatePcrByPts playlist pid
  | .fixDiscontinuity pids => hlsFixDiscontinuity playlist pids

/-- Run the passes over a playlist in order. -/
def runPlaylistPasses (playlist : Playlist) (passes : List PlaylistPass) : Playlist :=
  passes.foldl PlaylistPass.run playlist

/-- The pass over each stream. Without a PID `hls_fix_discontinuity` does nothing, and otherwise it
always numbers the same PID from 0 on. -/
def PlaylistPass.pass : PlaylistPass → Option Pass
  | .fixKeyFrameInfo pid => some (.fixKeyframe pid)
  | .updatePcrByPts pid => some (.updatePcrByPts pid)
  | .fixDiscontinuity pids => if pids = [] then none else some (.updateCc 0x100 0)

/-- A pass over one stream of a playlist, with the counter that the stream before has returned. -/
def streamBody (pass : Pass) (cc : Byte) (stream : Stream) : Byte × Stream :=
  ((mapAccum (passBody pass) cc stream.segmentList).1,
    ⟨stream.url, (mapAccum (passBody pass) cc stream.segmentList).2⟩)

/-- The streams after a pass over each of them. -/
def passStreams (streams : List Stream) (pass : Pass) : List Stream :=
  (mapAccum (streamBody pass) 0 streams).2

theorem sublist_hlsFixKeyFrameInfo (playlist : Playlist) (pid : BitVec 16) :
    (hlsFixKeyFrameInfo playlist pid).sublist =
      playlist.sublist.map (mpegtsStreamFixKeyframe · pid) := by
  unfold hlsFixKeyFrameInfo
  simp only [iterLoop_init_snd, mapAccum_const]

/-- A pass that counts nothing does the same to each stream. -/
theorem passStreams_of_map {pass : Pass} {g : Segment → Segment}
    (h : passBody pass = fun cc s => (cc, g s)) (streams : List Stream) :
    passStreams streams pass = streams.map (Pass.run · pass) := by
  have hbody : streamBody pass = fun cc stream => (cc, pass.run stream) := by
    funext cc stream
    rw [run_eq_mapAccum]
    unfold streamBody
    rw [h, mapAccum_const, mapAccum_const]
  unfold passStreams
  rw [hbody, mapAccum_const]

theorem playlistPass_run_eq (pass : PlaylistPass) (playlist : Playlist) : pass.run playlist =
    ⟨playlist.url, pass.pass.elim playlist.sublist (passStreams playlist.sublist)⟩ := by
  cases pass with
  | fixKeyFrameInfo pid =>
    exact congrArg (Playlist.mk playlist.url) ((sublist_hlsFixKeyFrameInfo playlist pid).trans
      (@passStreams_of_map (.fixKeyframe pid) (fixKeyframe pid) rfl playlist.sublist).symm)
  | updatePcrByPts pid =>
    exact congrArg (Playlist.mk playlist.url) ((sublist_hlsUpdatePcrByPts playlist pid).trans
      (@passStreams_of_map (.updatePcrByPts pid) updatePcr rfl playlist.sublist).symm)
  | fixDiscontinuity pids =>
    cases pids with
    | nil => rfl
    | cons pid pids =>
      have hbody : streamBody (.updateCc 0x100 0) = fixStreamCc := by
        funext cc stream
        unfold streamBody fixStreamCc
        rw [mpegtsStreamUpdateCc_eq]
        rfl
      refine congrArg (Playlist.mk playlist.url) ?_
      rw [fixDiscontinuityLoop_cons, ← hbody]
      rfl

section Streams

variable {pass pass' : Pass}

theorem streamBody_fst (pass pass' : Pass) (cc cc' : Byte) (stream : Stream) :
    (streamBody pass cc (streamBody pass' cc' stream).2).1 = (streamBody pass cc stream).1 :=
  fst_mapAccum_comm (fun cc cc' s => passBody_fst s pass pass' cc cc') cc cc' stream.segmentList

theorem streamBody_comm (hne : pass ≠ pass') (h : SameCounter pass pass') (cc cc' : Byte)
    (stream : Stream) : (streamBody pass cc (streamBody pass' cc' stream).2).2 =
      (streamBody pass' cc' (streamBody pass cc stream).2).2 :=
  congrArg (Stream.mk stream.url) (mapAccum_comm
    (fun cc cc' s => passBody_fst s pass pass' cc cc')
    (fun cc cc' s => passBody_fst s pass' pass cc' cc) (passBody_comm hne h) cc cc'
    stream.segmentList)

theorem passStreams_comm (h : SameCounter pass pass') (streams : List Stream) :
    passStreams (passStreams streams pass) pass' =
      passStreams (passStreams streams pass') pass := by
  by_cases hne : pass = pass'
  · rw [hne]
  · exact (mapAccum_comm (fun cc cc' => streamBody_fst pass pass' cc cc')
      (fun cc cc' => streamBody_fst pass' pass cc' cc) (streamBody_comm hne h) 0 0 streams).symm

theorem passStreams_idem (pass : Pass) (streams : List Stream) :
    passStreams (passStreams streams pass) pass = passStreams streams pass := by
  refine congrArg Prod.snd (mapAccum_idem (fun cc stream => ?_) 0 streams)
  exact congrArg (fun r => (r.1, Stream.mk stream.url r.2))
    (mapAccum_idem (fun cc s => passBody_idem s pass cc) cc stream.segmentList)

/-- All renumberings of a playlist are the same. -/
theorem sameCounter_playlistPass {p p' : PlaylistPass} (h : p.pass = some pass)
    (h' : p'.pass = some pass') : SameCounter pass pass' := by
  rintro pid cc cc' rfl rfl
  have hzero : ∀ {q : PlaylistPass} {cc : Byte}, q.pass = some (.updateCc pid cc) → cc = 0 := by
    intro q cc hq
    cases q with
    | fixKeyFrameInfo pid => cases hq
    | updatePcrByPts pid => cases hq
    | fixDiscontinuity pids =>
      simp only [PlaylistPass.pass] at hq
      split_ifs at hq
      exact (Pass.updateCc.inj (Option.some.inj hq)).2.symm
  rw [hzero h, hzero h']

end Streams

theorem playlistPass_run_comm (p p' : PlaylistPass) (playlist : Playlist) :
    p'.run (p.run playlist) = p.run (p'.run playlist) := by
  simp only [playlistPass_run_eq]
  refine congrArg (Playlist.mk playlist.url) ?_
  cases h : p.pass with
  | none => rfl
  | some pass =>
    cases h' : p'.pass with
    | none => rfl
    | some pass' => exact passStreams_comm (sameCounter_playlistPass h h') playlist.sublist

theorem playlistPass_run_run (p : PlaylistPass) (playlist : Playlist) :
    p.run (p.run playlist) = p.run playlist := by
  simp only [playlistPass_run_eq]
  refine congrArg (Playlist.mk playlist.url) ?_
  cases p.pass with
  | none => rfl
  | some pass => exact passStreams_idem pass playlist.sublist

theorem settled_playlistPasses (passes : List PlaylistPass) : Settled PlaylistPass.run passes :=
  ⟨fun p _ p' _ => playlistPass_run_comm p p', fun p _ => playlistPass_run_run p⟩

/-- **The order of the passes over a playlist** does not matter, nor how often they are run. -/
theorem runPlaylistPasses_congr_mem {passes passes' : List PlaylistPass}
    (hmem : ∀ pass, pass ∈ passes ↔ pass ∈ passes') (playlist : Playlist) :
    runPlaylistPasses playlist passes = runPlaylistPasses playlist passes' :=
  (settled_playlistPasses passes).foldl_congr_mem hmem playlist

/-- The passes that are commented out in `main`, in another order and one of them twice. -/
theorem runPlaylistPasses_congr_mem_main :
    runPlaylistPasses ⟨[], [streamOf (fun _ => .zeroed) [audioPacket]]⟩
        [.fixDiscontinuity [0x100, 0, 0xfff], .fixKeyFrameInfo 0x100, .updatePcrByPts 0x100] =
      runPlaylistPasses ⟨[], [streamOf (fun _ => .zeroed) [audioPacket]]⟩
        [.updatePcrByPts 0x100, .fixKeyFrameInfo 0x100, .updatePcrByPts 0x100,
          .fixDiscontinuity [0x100, 0, 0xfff]] := by
  refine runPlaylistPasses_congr_mem (fun pass => ?_) _
  simp only [List.mem_cons, List.not_mem_nil, or_false]
  tauto

end MpegtsReader
