import MpegtsReader.Playlist

/-!
# Continuity counters of a stream

`mpegts_stream_update_cc` numbers the packets of a PID from the initial counter on, modulo 16, and
the counter that it returns goes on in the next stream (`updateCc_counts`). It does so whether or
not a packet carries payload, while the counter of a packet without payload is not to advance:
`continuityKept_iff` says on which streams the counters are continuous all the same.
-/

namespace MpegtsReader

/-- `mpegts_stream_get_last_cc`: the body of the loop. -/
def lastCc (pid : ℤ) (last : Byte) (segment : Segment) : Byte × Segment :=
  (if HasPid pid segment then segment.header.continuityCounter.setWidth 8 else last, segment)

/-- `mpegts_stream_get_last_cc`. -/
def mpegtsStreamGetLastCc (stream : Stream) (pid : ℤ) : Byte :=
  (iterLoop (lastCc pid) stream.segmentList cdslIterInit 0).1

/-- The number of packets with the PID. -/
def countPid (pid : ℤ) (segments : List Segment) : ℕ := segments.countP (HasPid pid ·)

section Counting

variable {pid : ℤ} {n : ℕ} {s : Segment} {rest segments : List Segment}

@[simp] theorem countPid_nil : countPid pid [] = 0 := rfl

theorem countPid_of_hasPid (h : HasPid pid s) :
    countPid pid (s :: rest) = countPid pid rest + 1 :=
  List.countP_cons_of_pos (decide_eq_true h)

theorem countPid_of_not (h : ¬ HasPid pid s) : countPid pid (s :: rest) = countPid pid rest :=
  List.countP_cons_of_neg (by simpa using h)

/-- The counter that is returned is the number of packets seen, modulo 16. -/
theorem mapAccum_updateCc_fst (pid : ℤ) (n : ℕ) (segments : List Segment) :
    (mapAccum (updateCc pid) (BitVec.ofNat 8 (n % 16)) segments).1 =
      BitVec.ofNat 8 ((n + countPid pid segments) % 16) := by
  induction segments generalizing n with
  | nil => rfl
  | cons s rest ih =>
    rw [mapAccum_cons]
    by_cases h : HasPid pid s
    · rw [countPid_of_hasPid h, updateCc, if_pos h]
      simp only
      rw [counter_succ, ih, Nat.add_assoc, Nat.add_comm 1]
    · rw [countPid_of_not h, updateCc, if_neg h]
      simp only
      rw [counter_mask, ih]

/-- A packet is given the number of packets with the PID before it. -/
theorem getElem?_renumber (pid : ℤ) (n : ℕ) (segments : List Segment) (j : ℕ) :
    (renumber pid n segments)[j]? = segments[j]?.map fun s =>
      if HasPid pid s then s.withCc (BitVec.ofNat 4 (n + countPid pid (segments.take j)))
      else s := by
  induction segments generalizing n j with
  | nil => rfl
  | cons s rest ih =>
    by_cases h : HasPid pid s
    · rw [renumber_of_hasPid h]
      cases j with
      | zero => simp [h]
      | succ j =>
        rw [List.getElem?_cons_succ, ih, List.getElem?_cons_succ, List.take_succ_cons,
          countPid_of_hasPid h, Nat.add_assoc, Nat.add_comm 1]
    · rw [renumber_of_not h]
      cases j with
      | zero => simp [h]
      | succ j =>
        rw [List.getElem?_cons_succ, ih, List.getElem?_cons_succ, List.take_succ_cons,
          countPid_of_not h]

/-- The last counter of a numbered list. -/
theorem mapAccum_lastCc_renumber (pid : ℤ) (n : ℕ) (last : Byte) (segments : List Segment) :
    (mapAccum (lastCc pid) last (renumber pid n segments)).1 =
      if countPid pid segments = 0 then last
      else (BitVec.ofNat 4 (n + countPid pid segments - 1)).setWidth 8 := by
  induction segments generalizing n last with
  | nil => rfl
  | cons s rest ih =>
    by_cases h : HasPid pid s
    · rw [renumber_of_hasPid h, mapAccum_cons, lastCc, if_pos (hasPid_withCc.mpr h), ih,
        countPid_of_hasPid h, if_neg (Nat.succ_ne_zero _)]
      by_cases hzero : countPid pid rest = 0
      · rw [if_pos hzero, hzero]
        rfl
      · rw [if_neg hzero]
        congr 2
        omega
    · rw [renumber_of_not h, mapAccum_cons, lastCc, if_neg h, ih, countPid_of_not h]

theorem mpegtsStreamGetLastCc_eq (stream : Stream) (pid : ℤ) :
    mpegtsStreamGetLastCc stream pid = (mapAccum (lastCc pid) 0 stream.segmentList).1 :=
  iterLoop_init_fst ..

/-- An initial counter of four bits is the counter that the loop carries. -/
theorem setWidth_counter (c : BitVec 4) : c.setWidth 8 = BitVec.ofNat 8 (c.toNat % 16) := by
  apply BitVec.eq_of_toNat_eq
  have hlt := c.isLt
  simp only [BitVec.toNat_setWidth, BitVec.toNat_ofNat]
  omega

theorem mpegtsStreamUpdateCc_renumber (stream : Stream) (pid : ℤ) (c : BitVec 4) :
    mpegtsStreamUpdateCc stream pid (c.setWidth 8) =
      ({ stream with segmentList := renumber pid c.toNat stream.segmentList },
        BitVec.ofNat 8 ((c.toNat + countPid pid stream.segmentList) % 16)) := by
  rw [mpegtsStreamUpdateCc_eq, setWidth_counter, mapAccum_updateCc, mapAccum_updateCc_fst]

end Counting

/-! ## Numbering -/

/-- The packets of `before` with the PID are numbered from `c` on in `after`, and nothing else is
changed; the result is the counter of the packet that would come next. -/
structure Numbers (pid : ℤ) (c : BitVec 4) (before after : Stream) (result : Byte) : Prop where
  url : after.url = before.url
  packet : ∀ j, after.segmentList[j]? = before.segmentList[j]?.map fun s =>
    if HasPid pid s then
      s.withCc (BitVec.ofNat 4 (c.toNat + countPid pid (before.segmentList.take j)))
    else s
  counted : result.toNat = (c.toNat + countPid pid before.segmentList) % 16
  next : 0 < countPid pid before.segmentList →
    result.toNat = ((mpegtsStreamGetLastCc after pid).toNat + 1) % 16

theorem numbers_updateCc (stream : Stream) (pid : ℤ) (c : BitVec 4) :
    Numbers pid c stream (mpegtsStreamUpdateCc stream pid (c.setWidth 8)).1
      (mpegtsStreamUpdateCc stream pid (c.setWidth 8)).2 := by
  rw [mpegtsStreamUpdateCc_renumber]
  have hresult : (BitVec.ofNat 8 ((c.toNat + countPid pid stream.segmentList) % 16)).toNat =
      (c.toNat + countPid pid stream.segmentList) % 16 := by
    rw [BitVec.toNat_ofNat]
    omega
  refine ⟨rfl, getElem?_renumber pid c.toNat stream.segmentList, hresult, fun hpos => ?_⟩
  rw [hresult, mpegtsStreamGetLastCc_eq, mapAccum_lastCc_renumber, if_neg hpos.ne',
    BitVec.toNat_setWidth, BitVec.toNat_ofNat]
  omega

/-- **Numbering.** The packets of a PID are numbered from the initial counter on, and streams that
are numbered one after another, each with the result of the one before, as if they were one. -/
theorem updateCc_counts (pid : ℤ) (c : BitVec 4) :
    (∀ stream : Stream, Numbers pid c stream (mpegtsStreamUpdateCc stream pid (c.setWidth 8)).1
      (mpegtsStreamUpdateCc stream pid (c.setWidth 8)).2) ∧
    ∀ (url : Path) (streams : List Stream),
      let r := mapAccum (passCc pid) (c.setWidth 8) streams
      let whole := mpegtsStreamUpdateCc ⟨url, allSegments streams⟩ pid (c.setWidth 8)
      allSegments r.2 = whole.1.segmentList ∧ r.1 = whole.2 := by
  refine ⟨fun stream => numbers_updateCc stream pid c, fun url streams => ?_⟩
  obtain ⟨hfst, hsnd⟩ := mapAccum_passCc pid (c.setWidth 8) streams
  rw [mpegtsStreamUpdateCc_eq]
  exact ⟨hsnd, hfst⟩

/-! ## Continuity -/

/-- The packet carries payload. -/
def Segment.HasPayload (s : Segment) : Prop :=
  s.header.adaptationFieldCtrl = 1#2 ∨ s.header.adaptationFieldCtrl = 3#2

instance (s : Segment) : Decidable s.HasPayload := inferInstanceAs (Decidable (_ ∨ _))

/-- The counters of the packets with the PID are continuous, behind a packet with the counter `prev`
if there is one: a packet with payload has the next counter, one without the same again. -/
def CcContinuous (pid : ℤ) : Option (BitVec 4) → List Segment → Prop
  | _, [] => True
  | prev, s :: rest =>
    if HasPid pid s then
      (∀ cc ∈ prev, s.header.continuityCounter = if s.HasPayload then cc + 1 else cc) ∧
        CcContinuous pid (some s.header.continuityCounter) rest
    else CcContinuous pid prev rest

instance decidableCcContinuous (pid : ℤ) :
    (prev : Option (BitVec 4)) → (segments : List Segment) →
      Decidable (CcContinuous pid prev segments)
  | _, [] => isTrue trivial
  | prev, s :: rest => by
    have := decidableCcContinuous pid (some s.header.continuityCounter) rest
    have := decidableCcContinuous pid prev rest
    unfold CcContinuous
    infer_instance

/-- The packets with the PID. -/
def packetsOf (pid : ℤ) (segments : List Segment) : List Segment :=
  segments.filter (HasPid pid ·)

/-- A continuous stream that starts with payload and the counter `c` is left as it is, and the
counters that are assigned are continuous. -/
structure ContinuityKept (stream : Stream) (pid : ℤ) (c : BitVec 4) : Prop where
  kept : CcContinuous pid none stream.segmentList →
    (∀ first ∈ (packetsOf pid stream.segmentList).head?,
      first.HasPayload ∧ first.header.continuityCounter = c) →
    (mpegtsStreamUpdateCc stream pid (c.setWidth 8)).1 = stream
  assigned : CcContinuous pid none (mpegtsStreamUpdateCc stream pid (c.setWidth 8)).1.segmentList

section Continuity

variable {pid : ℤ} {n : ℕ} {prev : Option (BitVec 4)} {s : Segment} {rest segments : List Segment}

theorem ccContinuous_of_hasPid (h : HasPid pid s) : CcContinuous pid prev (s :: rest) ↔
    (∀ cc ∈ prev, s.header.continuityCounter = if s.HasPayload then cc + 1 else cc) ∧
      CcContinuous pid (some s.header.continuityCounter) rest := by
  rw [CcContinuous, if_pos h]

theorem ccContinuous_of_not (h : ¬ HasPid pid s) :
    CcContinuous pid prev (s :: rest) ↔ CcContinuous pid prev rest := by
  rw [CcContinuous, if_neg h]

@[simp] theorem packetsOf_nil : packetsOf pid [] = [] := rfl

theorem packetsOf_of_hasPid (h : HasPid pid s) :
    packetsOf pid (s :: rest) = s :: packetsOf pid rest :=
  List.filter_cons_of_pos (decide_eq_true h)

theorem packetsOf_of_not (h : ¬ HasPid pid s) : packetsOf pid (s :: rest) = packetsOf pid rest :=
  List.filter_cons_of_neg (by simpa using h)

theorem ofNat_succ (n : ℕ) : BitVec.ofNat 4 (n + 1) = BitVec.ofNat 4 n + 1 :=
  BitVec.ofNat_add n 1

/-- Behind a packet every further one has to carry payload: its counter has advanced. -/
theorem ccContinuous_renumber_some : CcContinuous pid (some (BitVec.ofNat 4 n))
    (renumber pid (n + 1) segments) ↔ ∀ s ∈ packetsOf pid segments, s.HasPayload := by
  induction segments generalizing n with
  | nil => simp [renumber, CcContinuous]
  | cons s rest ih =>
    by_cases h : HasPid pid s
    · rw [renumber_of_hasPid h, ccContinuous_of_hasPid (hasPid_withCc.mpr h),
        packetsOf_of_hasPid h, List.forall_mem_cons]
      refine and_congr ?_ ih
      have hpayload : (s.withCc (BitVec.ofNat 4 (n + 1))).HasPayload ↔ s.HasPayload := Iff.rfl
      have hcc : (s.withCc (BitVec.ofNat 4 (n + 1))).header.continuityCounter =
          BitVec.ofNat 4 n + 1 := ofNat_succ n
      have hne : BitVec.ofNat 4 n + 1 ≠ BitVec.ofNat 4 n := by
        generalize BitVec.ofNat 4 n = cc
        revert cc
        decide
      simp only [hcc, hpayload, Option.mem_def, Option.some.injEq, forall_eq']
      split_ifs with hs
      · exact iff_of_true rfl hs
      · exact iff_of_false hne hs
    · rw [renumber_of_not h, ccContinuous_of_not h, packetsOf_of_not h]
      exact ih

/-- The first packet may have any counter. -/
theorem ccContinuous_renumber_none : CcContinuous pid none (renumber pid n segments) ↔
    ∀ s ∈ (packetsOf pid segments).tail, s.HasPayload := by
  induction segments with
  | nil => simp [renumber, CcContinuous]
  | cons s rest ih =>
    by_cases h : HasPid pid s
    · rw [renumber_of_hasPid h, ccContinuous_of_hasPid (hasPid_withCc.mpr h),
        packetsOf_of_hasPid h, List.tail_cons]
      exact (and_iff_right nofun).trans ccContinuous_renumber_some
    · rw [renumber_of_not h, ccContinuous_of_not h, packetsOf_of_not h]
      exact ih

/-- A continuous list all of whose packets carry payload is numbered already. -/
theorem renumber_eq_self_some
    (hc : CcContinuous pid (some (BitVec.ofNat 4 n)) segments)
    (hp : ∀ s ∈ packetsOf pid segments, s.HasPayload) :
    renumber pid (n + 1) segments = segments := by
  induction segments generalizing n with
  | nil => rfl
  | cons s rest ih =>
    by_cases h : HasPid pid s
    · rw [packetsOf_of_hasPid h, List.forall_mem_cons] at hp
      obtain ⟨hcc, hrest⟩ := (ccContinuous_of_hasPid h).mp hc
      have hcc := hcc _ rfl
      rw [if_pos hp.1, ← ofNat_succ] at hcc
      rw [hcc] at hrest
      rw [renumber_of_hasPid h, ih hrest hp.2, ← hcc]
      rfl
    · rw [packetsOf_of_not h] at hp
      rw [renumber_of_not h, ih ((ccContinuous_of_not h).mp hc) hp]

theorem renumber_eq_self_none (hc : CcContinuous pid none segments)
    (hfirst : ∀ s ∈ (packetsOf pid segments).head?,
      s.header.continuityCounter = BitVec.ofNat 4 n)
    (hp : ∀ s ∈ (packetsOf pid segments).tail, s.HasPayload) :
    renumber pid n segments = segments := by
  induction segments with
  | nil => rfl
  | cons s rest ih =>
    by_cases h : HasPid pid s
    · rw [packetsOf_of_hasPid h] at hfirst hp
      have hcc := hfirst s rfl
      have hrest := ((ccContinuous_of_hasPid h).mp hc).2
      rw [hcc] at hrest
      rw [renumber_of_hasPid h, renumber_eq_self_some hrest hp, ← hcc]
      rfl
    · rw [packetsOf_of_not h] at hfirst hp
      rw [renumber_of_not h, ih ((ccContinuous_of_not h).mp hc) hfirst hp]

end Continuity

/-- **Continuity.** Continuous counters are left alone and the assigned ones are continuous exactly
when every packet with the PID but the first carries payload. -/
theorem continuityKept_iff (stream : Stream) (pid : ℤ) (c : BitVec 4) :
    ContinuityKept stream pid c ↔
      ∀ s ∈ (packetsOf pid stream.segmentList).tail, s.HasPayload := by
  have hassigned : CcContinuous pid none
      (mpegtsStreamUpdateCc stream pid (c.setWidth 8)).1.segmentList ↔
        ∀ s ∈ (packetsOf pid stream.segmentList).tail, s.HasPayload := by
    rw [mpegtsStreamUpdateCc_renumber]
    exact ccContinuous_renumber_none
  refine ⟨fun h => hassigned.mp h.assigned, fun hp => ⟨fun hc hfirst => ?_, hassigned.mpr hp⟩⟩
  rw [mpegtsStreamUpdateCc_renumber]
  simp only
  rw [renumber_eq_self_none hc (fun s hs => ?_) hp]
  rw [(hfirst s hs).2, BitVec.ofNat_toNat, BitVec.setWidth_eq]

theorem sync_fieldPacket : (0x20000147#32).setWidth 8 = 0x47#8 := by decide

/-- A packet of PID 0x100 without payload: an adaptation field with a PCR. -/
def fieldPacket : TsPacket :=
  filled 0x20000147#32 sync_fieldPacket [0xb7, 0x10, 0, 0, 0, 0, 0x7e, 0]

/-- The packet without payload is given a counter of its own. -/
theorem not_continuityKept_fieldPacket :
    ¬ ∀ (stream : Stream) (pid : ℤ) (c : BitVec 4), ContinuityKept stream pid c := by
  intro h
  have hassigned := (h (streamOf (fun _ => .zeroed) [clearPacket, fieldPacket]) 0x100 0).assigned
  have hlist : (streamOf (fun _ => .zeroed) [clearPacket, fieldPacket]).segmentList =
      [clearPacket.segment .zeroed, fieldPacket.segment .zeroed] := by
    rw [streamOf_eq]
    rfl
  rw [mpegtsStreamUpdateCc_renumber, hlist] at hassigned
  have hpayload := ccContinuous_renumber_none.mp hassigned (fieldPacket.segment .zeroed)
  rw [packetsOf_of_hasPid (by decide), packetsOf_of_hasPid (by decide)] at hpayload
  exact absurd (hpayload List.mem_cons_self) (by decide)

end MpegtsReader
