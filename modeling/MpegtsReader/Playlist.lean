import Mathlib.Data.List.Forall2
import MpegtsReader.Layout

/-!
# Passes over a playlist

`hls_fix_discontinuity` and `hls_update_pcr_by_pts`. The first runs one iterator through the streams
for all PIDs and hands the constant PID `0x100` to `mpegts_stream_update_cc`: only its first round
does anything, whatever the PIDs are (`segments_hlsFixDiscontinuity`). The second never compares a
PID and takes a zero PTS for a missing one. `fixDiscontinuity_iff` and `hlsUpdatePcrByPts_iff` say
on which playlists they still do what is asked of them.
-/

namespace MpegtsReader

/-- `hls_playlist_t`: the streams in `sublist`. -/
structure Playlist where
  url : Path
  sublist : List Stream

/-- The packets of the streams, in order. -/
def allSegments (streams : List Stream) : List Segment := streams.flatMap (·.segmentList)

/-! ## Continuity counters -/

/-- `hls_fix_discontinuity`: the body of the inner loop. The PID is a constant. -/
def fixStreamCc (cc : Byte) (stream : Stream) : Byte × Stream :=
  let r := mpegtsStreamUpdateCc stream 0x100 cc
  (r.2, r.1)

/-- `mpegts_stream_update_cc`, with the counter that the stream before has returned. -/
def passCc (pid : ℤ) (cc : Byte) (stream : Stream) : Byte × Stream :=
  let r := mpegtsStreamUpdateCc stream pid cc
  (r.2, r.1)

/-- `hls_fix_discontinuity`: the loop over the PIDs. All rounds share one iterator. -/
def fixDiscontinuityLoop (pids : List ℤ) (sublist : List Stream) (iter : ListIter) : List Stream :=
  match pids with
  | [] => sublist
  | _ :: pids =>
    let r := iterLoop fixStreamCc sublist iter 0
    fixDiscontinuityLoop pids r.2.1 r.2.2

/-- `hls_fix_discontinuity`. -/
def hlsFixDiscontinuity (playlist : Playlist) (pids : List ℤ) : Playlist :=
  { playlist with sublist := fixDiscontinuityLoop pids playlist.sublist cdslIterInit }

/-- The packets with this PID are numbered from `n` on, modulo 16. -/
def NumberedFrom (pid : ℤ) (n : ℕ) (segments : List Segment) : Prop :=
  ∀ i (hi : i < (segments.filter (HasPid pid ·)).length),
    (segments.filter (HasPid pid ·))[i].header.continuityCounter = BitVec.ofNat 4 (n + i)

/-- The segment with another counter. -/
def Segment.withCc (s : Segment) (cc : BitVec 4) : Segment :=
  { s with header := { s.header with continuityCounter := cc } }

/-- Number the packets with this PID from `n` on. -/
def renumber (pid : ℤ) : ℕ → List Segment → List Segment
  | _, [] => []
  | n, s :: rest =>
    if HasPid pid s then s.withCc (BitVec.ofNat 4 n) :: renumber pid (n + 1) rest
    else s :: renumber pid n rest

/-! ### One PID -/

section Renumber

variable {pid : ℤ} {n : ℕ} {s : Segment} {rest : List Segment}

theorem hasPid_withCc {cc : BitVec 4} : HasPid pid (s.withCc cc) ↔ HasPid pid s := Iff.rfl

theorem renumber_of_hasPid (h : HasPid pid s) : renumber pid n (s :: rest) =
    s.withCc (BitVec.ofNat 4 n) :: renumber pid (n + 1) rest := if_pos h

theorem renumber_of_not (h : ¬ HasPid pid s) :
    renumber pid n (s :: rest) = s :: renumber pid n rest := if_neg h

theorem numberedFrom_of_hasPid (h : HasPid pid s) : NumberedFrom pid n (s :: rest) ↔
    s.header.continuityCounter = BitVec.ofNat 4 n ∧ NumberedFrom pid (n + 1) rest := by
  have hfilter : (s :: rest).filter (HasPid pid ·) = s :: rest.filter (HasPid pid ·) :=
    List.filter_cons_of_pos (decide_eq_true h)
  unfold NumberedFrom
  simp only [hfilter]
  constructor
  · intro hnum
    refine ⟨hnum 0 (by simp), fun i hi => ?_⟩
    have := hnum (i + 1) (by simpa using hi)
    rwa [List.getElem_cons_succ, ← Nat.add_assoc, Nat.add_right_comm] at this
  · rintro ⟨hhead, htail⟩ i hi
    cases i with
    | zero => exact hhead
    | succ i =>
      rw [List.getElem_cons_succ, htail i (by simpa using hi), Nat.add_assoc, Nat.add_comm 1]

theorem numberedFrom_of_not (h : ¬ HasPid pid s) :
    NumberedFrom pid n (s :: rest) ↔ NumberedFrom pid n rest := by
  have hfilter : (s :: rest).filter (HasPid pid ·) = rest.filter (HasPid pid ·) :=
    List.filter_cons_of_neg (by simpa using h)
  unfold NumberedFrom
  simp only [hfilter]

/-- The packets are numbered after all. -/
theorem numberedFrom_renumber (pid : ℤ) (n : ℕ) (segments : List Segment) :
    NumberedFrom pid n (renumber pid n segments) := by
  induction segments generalizing n with
  | nil => intro i hi; cases hi
  | cons s rest ih =>
    by_cases h : HasPid pid s
    · rw [renumber_of_hasPid h, numberedFrom_of_hasPid (hasPid_withCc.mpr h)]
      exact ⟨rfl, ih (n + 1)⟩
    · rw [renumber_of_not h, numberedFrom_of_not h]
      exact ih n

/-- Packets of another PID are left alone. -/
theorem numberedFrom_renumber_of_ne {q : ℤ} (hq : q ≠ pid) {m : ℕ} {segments : List Segment} :
    NumberedFrom q m (renumber pid n segments) ↔ NumberedFrom q m segments := by
  induction segments generalizing n m with
  | nil => rfl
  | cons s rest ih =>
    by_cases hs : HasPid pid s
    · have hnot : ¬ HasPid q s := fun h => hq (h.symm.trans hs)
      rw [renumber_of_hasPid hs, numberedFrom_of_not (fun h => hnot (hasPid_withCc.mp h)),
        numberedFrom_of_not hnot, ih]
    · rw [renumber_of_not hs]
      by_cases hqs : HasPid q s
      · rw [numberedFrom_of_hasPid hqs, numberedFrom_of_hasPid hqs, ih]
      · rw [numberedFrom_of_not hqs, numberedFrom_of_not hqs, ih]

end Renumber

/-! ### The loops -/

theorem counter_succ (n : ℕ) :
    (BitVec.ofNat 8 (n % 16) + 1) &&& 0xF#8 = BitVec.ofNat 8 ((n + 1) % 16) := by
  have h : ∀ k < 16, (BitVec.ofNat 8 k + 1) &&& 0xF#8 = BitVec.ofNat 8 ((k + 1) % 16) := by decide
  rw [h _ (Nat.mod_lt n (by omega)), Nat.mod_add_mod]

theorem counter_mask (n : ℕ) : BitVec.ofNat 8 (n % 16) &&& 0xF#8 = BitVec.ofNat 8 (n % 16) := by
  have h : ∀ k < 16, BitVec.ofNat 8 k &&& 0xF#8 = BitVec.ofNat 8 k := by decide
  exact h _ (Nat.mod_lt n (by omega))

theorem counter_field (n : ℕ) : (BitVec.ofNat 8 (n % 16)).setWidth 4 = BitVec.ofNat 4 n := by
  have h : ∀ k < 16, (BitVec.ofNat 8 k).setWidth 4 = BitVec.ofNat 4 k := by decide
  rw [h _ (Nat.mod_lt n (by omega))]
  apply BitVec.eq_of_toNat_eq
  simp

/-- The counter that the loop carries is the number of packets seen, modulo 16. -/
theorem mapAccum_updateCc (pid : ℤ) (n : ℕ) (segments : List Segment) :
    (mapAccum (updateCc pid) (BitVec.ofNat 8 (n % 16)) segments).2 = renumber pid n segments := by
  induction segments generalizing n with
  | nil => rfl
  | cons s rest ih =>
    rw [mapAccum_cons]
    by_cases h : HasPid pid s
    · rw [renumber_of_hasPid h, updateCc, if_pos h]
      simp only
      rw [counter_succ, ih, counter_field]
      rfl
    · rw [renumber_of_not h, updateCc, if_neg h]
      simp only
      rw [counter_mask, ih]

/-- The counter is carried across the streams as if they were one. -/
theorem mapAccum_passCc (pid : ℤ) (cc : Byte) (streams : List Stream) :
    (mapAccum (passCc pid) cc streams).1 =
        (mapAccum (updateCc pid) cc (allSegments streams)).1 ∧
      allSegments (mapAccum (passCc pid) cc streams).2 =
        (mapAccum (updateCc pid) cc (allSegments streams)).2 := by
  induction streams generalizing cc with
  | nil => exact ⟨rfl, rfl⟩
  | cons stream rest ih =>
    have hcons : allSegments (stream :: rest) = stream.segmentList ++ allSegments rest :=
      List.flatMap_cons
    obtain ⟨hfst, hsnd⟩ := ih (mapAccum (updateCc pid) cc stream.segmentList).1
    rw [hcons, mapAccum_append, mapAccum_cons]
    unfold passCc
    rw [mpegtsStreamUpdateCc_eq]
    refine ⟨hfst, ?_⟩
    simp only
    rw [← hsnd]
    rfl

theorem allSegments_mapAccum_fixStreamCc (cc : Byte) (streams : List Stream) :
    allSegments (mapAccum fixStreamCc cc streams).2 =
      (mapAccum (updateCc 0x100) cc (allSegments streams)).2 :=
  (mapAccum_passCc 0x100 cc streams).2

/-- Behind the last stream the remaining rounds do nothing. -/
theorem fixDiscontinuityLoop_of_exhausted (pids : List ℤ) {sublist : List Stream} {iter : ListIter}
    (h : sublist.length ≤ iter.next) : fixDiscontinuityLoop pids sublist iter = sublist := by
  induction pids with
  | nil => rfl
  | cons pid pids ih =>
    unfold fixDiscontinuityLoop
    rw [iterLoop_of_exhausted fixStreamCc 0 h]
    exact ih

theorem fixDiscontinuityLoop_cons (pid : ℤ) (pids : List ℤ) (sublist : List Stream) :
    fixDiscontinuityLoop (pid :: pids) sublist cdslIterInit =
      (mapAccum fixStreamCc 0 sublist).2 := by
  obtain ⟨iter, hloop, hend⟩ := iterLoop_init fixStreamCc sublist 0
  unfold fixDiscontinuityLoop
  rw [hloop]
  exact fixDiscontinuityLoop_of_exhausted pids (by rwa [length_mapAccum])

/-- `hls_fix_discontinuity` numbers the packets of PID `0x100`, whatever PIDs are given. -/
theorem segments_hlsFixDiscontinuity (playlist : Playlist) (pids : List ℤ) :
    allSegments (hlsFixDiscontinuity playlist pids).sublist =
      if pids = [] then allSegments playlist.sublist
      else renumber 0x100 0 (allSegments playlist.sublist) := by
  unfold hlsFixDiscontinuity
  cases pids with
  | nil => rfl
  | cons pid pids =>
    rw [if_neg (List.cons_ne_nil _ _)]
    simp only
    rw [fixDiscontinuityLoop_cons, allSegments_mapAccum_fixStreamCc]
    exact mapAccum_updateCc 0x100 0 _

/-! ### What is asked of the counters -/

/-- The packets of every given PID are numbered from 0 on, and the packets of other PIDs keep their
counters. -/
structure CountersFixed (pids : List ℤ) (before after : List Segment) : Prop where
  numbered : ∀ pid ∈ pids, NumberedFrom pid 0 after
  kept : List.Forall₂ (fun s t => (∀ pid ∈ pids, ¬ HasPid pid s) →
    t.header.continuityCounter = s.header.continuityCounter) before after

section Kept

variable {pid : ℤ} {kept : Segment → Prop} {n : ℕ} {segments : List Segment}

theorem forall₂_renumber_of_disjoint (h : ∀ s, HasPid pid s → ¬ kept s) :
    List.Forall₂ (fun s t => kept s → t.header.continuityCounter = s.header.continuityCounter)
      segments (renumber pid n segments) := by
  induction segments generalizing n with
  | nil => exact .nil
  | cons s rest ih =>
    by_cases hs : HasPid pid s
    · rw [renumber_of_hasPid hs]
      exact .cons (fun hkept => absurd hkept (h s hs)) ih
    · rw [renumber_of_not hs]
      exact .cons (fun _ => rfl) ih

/-- Where the renumbered packets are to keep their counters, they must be numbered already. -/
theorem forall₂_renumber_iff (h : ∀ s, HasPid pid s → kept s) :
    List.Forall₂ (fun s t => kept s → t.header.continuityCounter = s.header.continuityCounter)
      segments (renumber pid n segments) ↔ NumberedFrom pid n segments := by
  induction segments generalizing n with
  | nil => exact ⟨fun _ i hi => absurd hi (by simp), fun _ => .nil⟩
  | cons s rest ih =>
    by_cases hs : HasPid pid s
    · rw [renumber_of_hasPid hs, List.forall₂_cons, ih, numberedFrom_of_hasPid hs]
      exact and_congr_left fun _ => ⟨fun hcc => (hcc (h s hs)).symm, fun hcc _ => hcc.symm⟩
    · rw [renumber_of_not hs, List.forall₂_cons, ih, numberedFrom_of_not hs]
      exact and_iff_right fun _ => rfl

end Kept

/-- **Continuity counters.** `hls_fix_discontinuity` numbers the packets of the given PIDs, and only
those, exactly when no PID is given or all of them but PID `0x100` are numbered already, and PID
`0x100` as well if it is not given. -/
theorem fixDiscontinuity_iff (playlist : Playlist) (pids : List ℤ) :
    CountersFixed pids (allSegments playlist.sublist)
        (allSegments (hlsFixDiscontinuity playlist pids).sublist) ↔
      pids = [] ∨
        (∀ pid ∈ pids, pid ≠ 0x100 → NumberedFrom pid 0 (allSegments playlist.sublist)) ∧
        (0x100 ∉ pids → NumberedFrom 0x100 0 (allSegments playlist.sublist)) := by
  rw [segments_hlsFixDiscontinuity]
  by_cases hnil : pids = []
  · subst hnil
    rw [if_pos rfl]
    exact iff_of_true ⟨fun pid hpid => absurd hpid (List.not_mem_nil),
      List.forall₂_same.mpr fun s _ _ => rfl⟩ (Or.inl rfl)
  · rw [if_neg hnil, or_iff_right hnil]
    have hkept : List.Forall₂ (fun s t => (∀ pid ∈ pids, ¬ HasPid pid s) →
          t.header.continuityCounter = s.header.continuityCounter) (allSegments playlist.sublist)
          (renumber 0x100 0 (allSegments playlist.sublist)) ↔
        (0x100 ∉ pids → NumberedFrom 0x100 0 (allSegments playlist.sublist)) := by
      by_cases hmem : 0x100 ∈ pids
      · exact iff_of_true (forall₂_renumber_of_disjoint fun s hs h => h _ hmem hs)
          (fun h => absurd hmem h)
      · have hall : ∀ s, HasPid 0x100 s → ∀ pid ∈ pids, ¬ HasPid pid s := by
          intro s hs pid hpid hs'
          unfold HasPid at hs hs'
          rw [hs] at hs'
          exact hmem (hs' ▸ hpid)
        rw [forall₂_renumber_iff hall]
        exact ⟨fun h _ => h, fun h => h hmem⟩
    constructor
    · rintro ⟨hnum, hk⟩
      exact ⟨fun pid hpid hne => (numberedFrom_renumber_of_ne hne).mp (hnum pid hpid),
        hkept.mp hk⟩
    · rintro ⟨hnum, hk⟩
      refine ⟨fun pid hpid => ?_, hkept.mpr hk⟩
      by_cases hne : pid = 0x100
      · subst hne
        exact numberedFrom_renumber _ _ _
      · exact (numberedFrom_renumber_of_ne hne).mpr (hnum pid hpid hne)

/-- A packet of PID 0x101 with counter 5. -/
def audioPacket : TsPacket := filled 0x15010147#32 (by decide) []

/-- A PID other than `0x100` is never numbered. -/
theorem not_countersFixed_audioPacket :
    ¬ ∀ (playlist : Playlist) (pids : List ℤ), pids.Nodup →
      CountersFixed pids (allSegments playlist.sublist)
        (allSegments (hlsFixDiscontinuity playlist pids).sublist) := by
  intro h
  have hnum := (h ⟨[], [streamOf (fun _ => .zeroed) [audioPacket]]⟩ [0x101] (by decide)).numbered
    0x101 (List.mem_singleton_self _)
  rw [segments_hlsFixDiscontinuity, if_neg (List.cons_ne_nil _ _),
    numberedFrom_renumber_of_ne (by decide)] at hnum
  have hsegments : allSegments [streamOf (fun _ => .zeroed) [audioPacket]] =
      [audioPacket.segment .zeroed] := by
    rw [streamOf_eq]
    rfl
  rw [hsegments, numberedFrom_of_hasPid (by decide)] at hnum
  exact absurd hnum.1 (by decide)

/-! ## Clock references -/

/-- `hls_update_pcr_by_pts`. -/
def hlsUpdatePcrByPts (playlist : Playlist) (pid : BitVec 16) : Playlist :=
  let r := iterLoop (fun _ stream => ((), mpegtsStreamUpdatePcrByPts stream pid)) playlist.sublist
    cdslIterInit ()
  { playlist with sublist := r.2.1 }

/-- The segment has an adaptation field with a PCR inside. -/
def Segment.CarriesPcr (s : Segment) : Prop :=
  s.header.HasAdaptation ∧ s.adaptationField.hasPcr ∧ 7 ≤ s.adaptationField.len.toNat

/-- The segment of this PID carries a PCR, and its PES header, which is there, carries a PTS. -/
def ClockedBy (pid : BitVec 16) (s : Segment) (header : PesHeader) : Prop :=
  s.header.pid.setWidth 16 = pid ∧ s.CarriesPcr ∧ (header.ptsInd = 2#2 ∨ header.ptsInd = 3#2)

/-- `t` is `s` with the PCR that its PTS gives when the segment is to be set, and `s` otherwise. -/
structure SetsPcr (pid : BitVec 16) (s t : Segment) : Prop where
  set : ∀ header, s.pesHeader = some header → ClockedBy pid s header →
    t = s.withPcr (300 * header.pts)
  kept : (∀ header, s.pesHeader = some header → ¬ ClockedBy pid s header) → t = s

/-- Exactly the segments of this PID that carry a PCR and a PTS are set, in every stream. -/
def ClockUpdated (pid : BitVec 16) (before after : List Stream) : Prop :=
  List.Forall₂ (fun stream stream' => List.Forall₂ (SetsPcr pid) stream.segmentList
    stream'.segmentList) before after

/-- Where a PCR is held that the PTS would change, the PTS is nonzero exactly if it is to be set. -/
def PcrConsistent (pid : BitVec 16) (s : Segment) : Prop :=
  ∀ header, s.pesHeader = some header → s.adaptationField.hasPcr →
    s.adaptationField.pcr ≠ 300 * header.pts → (header.pts ≠ 0 ↔ ClockedBy pid s header)

theorem sublist_hlsUpdatePcrByPts (playlist : Playlist) (pid : BitVec 16) :
    (hlsUpdatePcrByPts playlist pid).sublist =
      playlist.sublist.map (mpegtsStreamUpdatePcrByPts · pid) := by
  unfold hlsUpdatePcrByPts
  simp only [iterLoop_init_snd, mapAccum_const]

/-! ### One segment -/

theorem withPcr_eq_self_iff {s : Segment} {pcr : BitVec 64} :
    s.withPcr pcr = s ↔ s.adaptationField.pcr = pcr := by
  constructor
  · intro h
    rw [← h]
    rfl
  · rintro rfl
    rfl

/-- The loop body sets what is to be set exactly on the consistent segments. -/
theorem setsPcr_updatePcr_iff (pid : BitVec 16) (s : Segment) :
    SetsPcr pid s (updatePcr s) ↔ PcrConsistent pid s := by
  cases hpes : s.pesHeader with
  | none =>
    rw [updatePcr_of_none hpes]
    have hno : ∀ header, s.pesHeader ≠ some header := fun header h => by rw [hpes] at h; cases h
    exact iff_of_true ⟨fun header h => absurd h (hno header), fun _ => rfl⟩
      fun header h => absurd h (hno header)
  | some header =>
    have hkept : (∀ h, s.pesHeader = some h → ¬ ClockedBy pid s h) ↔ ¬ ClockedBy pid s header := by
      rw [hpes]
      simp
    rw [updatePcr_of_some hpes, BitVec.mul_comm]
    constructor
    · rintro ⟨hset, hkeep⟩ header' h' hp hne
      obtain rfl : header = header' := Option.some.inj (hpes.symm.trans h')
      constructor
      · intro hpts
        by_contra hclock
        have h := hkeep (hkept.mpr hclock)
        rw [if_pos ⟨hp, hpts⟩, withPcr_eq_self_iff] at h
        exact hne h
      · intro hclock hpts
        have h := hset header hpes hclock
        rw [if_neg fun hc => hc.2 hpts] at h
        exact hne (withPcr_eq_self_iff.mp h.symm)
    · intro hcons
      constructor
      · intro header' h' hclock
        obtain rfl : header = header' := Option.some.inj (hpes.symm.trans h')
        by_cases heq : s.adaptationField.pcr = 300 * header.pts
        · rw [withPcr_eq_self_iff.mpr heq, ite_self]
        · have hp := hclock.2.1.2.1
          rw [if_pos ⟨hp, (hcons header hpes hp heq).mpr hclock⟩]
      · intro hclock
        by_cases heq : s.adaptationField.pcr = 300 * header.pts
        · rw [withPcr_eq_self_iff.mpr heq, ite_self]
        · exact if_neg fun hc => hclock header hpes ((hcons header hpes hc.1 heq).mp hc.2)

/-- **Clock references.** `hls_update_pcr_by_pts` sets the PCR of exactly the segments of the PID
that carry a PCR and a PTS when every segment of the playlist is `PcrConsistent`, and only then. -/
theorem hlsUpdatePcrByPts_iff (playlist : Playlist) (pid : BitVec 16) :
    ClockUpdated pid playlist.sublist (hlsUpdatePcrByPts playlist pid).sublist ↔
      ∀ s ∈ allSegments playlist.sublist, PcrConsistent pid s := by
  unfold ClockUpdated
  rw [sublist_hlsUpdatePcrByPts, List.forall₂_map_right_iff, List.forall₂_same]
  simp only [segmentList_updatePcrByPts, List.forall₂_map_right_iff, List.forall₂_same,
    setsPcr_updatePcr_iff]
  unfold allSegments
  simp only [List.mem_flatMap, forall_exists_index, and_imp]
  exact ⟨fun h s stream hstream hs => h stream hstream s hs,
    fun h stream hstream s hs => h s stream hstream hs⟩

/-- The PCR of another PID is overwritten. -/
theorem not_clockUpdated_clockPacket :
    ¬ ∀ (playlist : Playlist) (pid : BitVec 16),
      ClockUpdated pid playlist.sublist (hlsUpdatePcrByPts playlist pid).sublist := by
  intro h
  have hupdated := h ⟨[], [streamOf (fun _ => .zeroed) [clockPacket]]⟩ 0x101
  unfold ClockUpdated at hupdated
  rw [sublist_hlsUpdatePcrByPts, List.forall₂_map_right_iff, List.forall₂_same] at hupdated
  have hstream := hupdated _ (List.mem_singleton_self _)
  rw [segmentList_updatePcrByPts, streamOf_eq, List.forall₂_map_right_iff,
    List.forall₂_same] at hstream
  have hcons := (setsPcr_updatePcr_iff _ _).mp
    (hstream (clockPacket.segment .zeroed) (List.mem_singleton_self _))
  have hpes : (clockPacket.segment .zeroed).pesHeader = some (pesOf (clockPacket.memory .zeroed)
      clockPacket.pesAt Stale.zeroed.pesHeader) := by
    rw [TsPacket.segment_pesHeader, if_pos (by decide)]
  have hclock := (hcons _ hpes (by decide) (by decide)).mp (by decide)
  exact absurd hclock.1 (by decide)

end MpegtsReader
