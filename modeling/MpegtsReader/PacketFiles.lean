import MpegtsReader.Confined
import MpegtsReader.PassOrder
import MpegtsReader.WriteFile

/-!
# Files of packets

What `write_ts_segment` writes for a segment is a packet again (`Writes`), with the header of the
segment, so a list of segments is written as a file of packets. `Reworked` says what the passes over
a playlist make of a segment, and `Rewritten` what is written then: each byte is a function of the
packet that was read, of the memory its segment was allocated in, and of the passes.
-/

namespace MpegtsReader

open Buffer

/-! ## One packet -/

theorem setWidth_writeHeader (header : TsHeader) : (writeHeader header).setWidth 8 = 0x47#8 := by
  rw [← headerFields_sync, headerFields_writeHeader]
  rfl

/-- The packet that is written for the segment. -/
def Writes (segment : Segment) (p : TsPacket) : Prop :=
  p.word = writeHeader segment.header ∧ writtenPayload segment = some p.body

section Writes

variable {s : Segment} {p : TsPacket} {segments : List Segment} {packets : List TsPacket}

theorem Writes.emit (h : Writes s p) : emit s = some p.bytes := by
  obtain ⟨hword, hbody⟩ := h
  obtain ⟨r, hr, hpayload⟩ := Option.map_eq_some_iff.mp hbody
  unfold MpegtsReader.emit
  rw [hr, TsPacket.bytes, hword, ← hpayload]
  unfold writeTsSegment at hr
  obtain ⟨payload, -, hpure⟩ := Option.bind_eq_some_iff.mp hr
  obtain rfl := Option.some.inj hpure
  rfl

/-- Every field of the header is written, but for the scrambling control. -/
theorem Writes.header (h : Writes s p) :
    p.header = { s.header with sync := tsSync, tscrambleControl := 0 } := by
  rw [TsPacket.header, h.1, headerFields_writeHeader]

theorem exists_writes (h : s.PatchesFit) : ∃ p, Writes s p := by
  obtain ⟨out, hout⟩ := exists_emit_iff.mpr h
  obtain ⟨r, hr, -⟩ := Option.map_eq_some_iff.mp hout
  exact ⟨⟨writeHeader s.header, r.1.payload, setWidth_writeHeader s.header⟩, rfl,
    Option.map_eq_some_iff.mpr ⟨r, hr, rfl⟩⟩

/-! ## All packets of a file -/

theorem exists_forall₂_writes (h : ∀ s ∈ segments, s.PatchesFit) :
    ∃ packets, List.Forall₂ Writes segments packets := by
  induction segments with
  | nil => exact ⟨[], .nil⟩
  | cons s rest ih =>
    obtain ⟨p, hp⟩ := exists_writes (h s List.mem_cons_self)
    obtain ⟨packets, hpackets⟩ := ih fun t ht => h t (List.mem_cons_of_mem s ht)
    exact ⟨p :: packets, .cons hp hpackets⟩

theorem emitAll_of_writes (h : List.Forall₂ Writes segments packets) :
    emitAll segments = some (fileOf packets) := by
  induction h with
  | nil => rfl
  | cons hp _ ih => exact (emitAll_cons_eq_iff ..).mpr ⟨hp.emit, ih⟩

end Writes

/-! ## What the passes make of a segment -/

/-- The pass raises the random access bit of the segment. -/
def PlaylistPass.raises (s : Segment) : PlaylistPass → Bool
  | .fixKeyFrameInfo pid => Keyed pid s
  | _ => false

/-- The pass sets clock references. -/
def PlaylistPass.setsPcr : PlaylistPass → Bool
  | .updatePcrByPts _ => true
  | _ => false

/-- The pass numbers packets. -/
def PlaylistPass.numbers : PlaylistPass → Bool
  | .fixDiscontinuity pids => pids ≠ []
  | _ => false

/-- The segment after the passes, but for its counter. -/
def reworked (passes : List PlaylistPass) (s : Segment) : Segment :=
  (s.withRandAcc (passes.any (·.raises s))).withPcr
    (if passes.any (·.setsPcr) then clockOf s else s.adaptationField.pcr)

/-- `s'` is what the passes leave of `s`. Only a packet of PID `0x100` is given another counter. -/
def Reworked (passes : List PlaylistPass) (s s' : Segment) : Prop :=
  ∃ cc, (cc = s.header.continuityCounter ∨ HasPid 0x100 s ∧ passes.any (·.numbers)) ∧
    s' = (reworked passes s).withCc cc

section Reworked

variable {s s' : Segment} {passes : List PlaylistPass} {pass : PlaylistPass}

theorem Reworked.refl (s : Segment) : Reworked [] s s := by
  refine ⟨s.header.continuityCounter, .inl rfl, ?_⟩
  unfold reworked Segment.withRandAcc
  simp only [List.any_nil, Bool.or_false]
  rfl

theorem clockOf_reworked (passes : List PlaylistPass) (s : Segment) (cc : BitVec 4) :
    clockOf ((reworked passes s).withCc cc) = clockOf s := by
  unfold reworked
  split_ifs
  · exact clockOf_withPcr s
  · rfl

theorem reworked_concat (passes : List PlaylistPass) (pass : PlaylistPass) (s : Segment) :
    reworked (passes ++ [pass]) s =
      (s.withRandAcc (passes.any (·.raises s) || pass.raises s)).withPcr
        (if passes.any (·.setsPcr) || pass.setsPcr then clockOf s else s.adaptationField.pcr) := by
  unfold reworked
  simp only [List.any_append, List.any_cons, List.any_nil, Bool.or_false]

theorem reworked_fixDiscontinuity (passes : List PlaylistPass) (pids : List ℤ) (s : Segment) :
    reworked (passes ++ [.fixDiscontinuity pids]) s = reworked passes s := by
  rw [reworked_concat, PlaylistPass.raises, PlaylistPass.setsPcr, Bool.or_false, Bool.or_false]
  · rfl
  · nofun
  · nofun

theorem counter_concat {cc : BitVec 4}
    (h : cc = s.header.continuityCounter ∨ HasPid 0x100 s ∧ passes.any (·.numbers))
    (pass : PlaylistPass) :
    cc = s.header.continuityCounter ∨ HasPid 0x100 s ∧ (passes ++ [pass]).any (·.numbers) :=
  h.imp_right fun h => ⟨h.1, by rw [List.any_append, h.2, Bool.true_or]⟩

/-- A call of `hls_fix_discontinuity` without a PID does nothing. -/
theorem Reworked.skip (h : Reworked passes s s') (hpass : pass.pass = none) :
    Reworked (passes ++ [pass]) s s' := by
  obtain ⟨cc, hcc, rfl⟩ := h
  cases pass with
  | fixKeyFrameInfo pid => cases hpass
  | updatePcrByPts pid => cases hpass
  | fixDiscontinuity pids =>
    exact ⟨cc, counter_concat hcc _, by rw [reworked_fixDiscontinuity]⟩

/-- One more pass. -/
theorem Reworked.step (h : Reworked passes s s') {p : Pass} (hpass : pass.pass = some p)
    (c : Byte) : Reworked (passes ++ [pass]) s (passBody p c s').2 := by
  obtain ⟨cc, hcc, rfl⟩ := h
  have hkept := counter_concat hcc pass
  cases pass with
  | fixKeyFrameInfo pid =>
    cases hpass
    refine ⟨cc, hkept, ?_⟩
    rw [passBody, fixKeyframe_eq, reworked_concat]
    unfold reworked Segment.withRandAcc
    simp only [PlaylistPass.raises, PlaylistPass.setsPcr, Bool.or_false, ← Bool.or_assoc]
    rfl
  | updatePcrByPts pid =>
    cases hpass
    refine ⟨cc, hkept, ?_⟩
    rw [passBody, updatePcr_eq, clockOf_reworked, reworked_concat]
    simp only [PlaylistPass.raises, PlaylistPass.setsPcr, Bool.or_false, Bool.or_true, if_true]
    rfl
  | fixDiscontinuity pids =>
    have hpids : pids ≠ [] ∧ p = .updateCc 0x100 0 := by
      simp only [PlaylistPass.pass] at hpass
      split_ifs at hpass with hnil
      exact ⟨hnil, (Option.some.inj hpass).symm⟩
    obtain ⟨hpids, rfl⟩ := hpids
    rw [passBody, updateCc_eq]
    by_cases hs : HasPid 0x100 ((reworked passes s).withCc cc)
    · rw [if_pos hs, if_pos hs]
      refine ⟨c.setWidth 4, .inr ⟨hs, ?_⟩, by rw [reworked_fixDiscontinuity]; rfl⟩
      rw [List.any_append, List.any_cons, PlaylistPass.numbers, decide_eq_true hpids,
        Bool.true_or, Bool.or_true]
    · rw [if_neg hs, if_neg hs]
      exact ⟨cc, hkept, by rw [reworked_fixDiscontinuity]⟩

/-- The passes move nothing that the writer looks at to place its stores. -/
theorem Reworked.patchesFit (h : Reworked passes s s') (hfit : s.PatchesFit) : s'.PatchesFit := by
  obtain ⟨cc, -, rfl⟩ := h
  exact hfit

end Reworked

/-! ## What is written for a packet -/

namespace TsPacket

variable (p : TsPacket) (stale : Stale) (passes : List PlaylistPass)

/-- `rand_acc` behind the passes. -/
def writtenRandAcc : Bool := p.heldRandAcc stale || passes.any (·.raises (p.segment stale))

/-- `pcr` behind the passes, in a segment with `has_pcr`. -/
def writtenPcr : BitVec 64 :=
  if passes.any (·.setsPcr) ∧ p.HasPes stale ∧ p.heldPts stale ≠ 0 then p.heldPts stale * 300
  else p.heldPcr stale

/-- The byte of the body that is written at offset `j`. -/
def writtenByte (j : ℕ) : Byte :=
  if p.HasPes stale ∧ p.patchAt stale + 2 ≤ j ∧ j ≤ p.patchAt stale + 5 then
    p.memory stale (p.pesAt + (j - p.patchAt stale))
  else if j = 1 ∧ p.writtenRandAcc stale passes then p.byte j ||| 0x40#8
  else if p.heldHasPcr stale ∧ 2 ≤ j ∧ j ≤ 7 then
    pcrByte (p.writtenPcr stale passes) (j - 2) (p.byte j)
  else p.byte j

/-- The header word that is written, when the counter `n` is the next one of PID `0x100`. -/
def writtenWord (n : ℕ) : BitVec 32 :=
  writeHeader (if p.header.pid = 0x100 ∧ passes.any (·.numbers) then
    { p.header with continuityCounter := BitVec.ofNat 4 n } else p.header)

end TsPacket

/-- The packet `p` was read into memory, the passes were run over its playlist, which has `n`
packets of PID `0x100` before it, and `p'` was written. -/
structure Rewritten (stale : Stale) (passes : List PlaylistPass) (n : ℕ) (p p' : TsPacket) :
    Prop where
  word : p'.word = p.writtenWord passes n
  body : ∀ j (hj : j < 184), p'.body[j] = p.writtenByte stale passes j

section Rewritten

variable {s s' : Segment} {passes : List PlaylistPass} {p p' : TsPacket} {stale : Stale}

/-- The adaptation field behind the passes. -/
theorem adaptationField_reworked (p : TsPacket) (stale : Stale) (passes : List PlaylistPass)
    (cc : BitVec 4) :
    let adp := ((reworked passes (p.segment stale)).withCc cc).adaptationField
    adp.randAcc = p.writtenRandAcc stale passes ∧ adp.hasPcr = p.heldHasPcr stale ∧
      (p.heldHasPcr stale → adp.pcr = p.writtenPcr stale passes) := by
  refine ⟨?_, p.segment_heldHasPcr stale, fun hp => ?_⟩
  · rw [TsPacket.writtenRandAcc, ← p.segment_heldRandAcc stale]
    rfl
  · change (if passes.any (·.setsPcr) then clockOf (p.segment stale)
      else (p.segment stale).adaptationField.pcr) = _
    unfold clockOf TsPacket.writtenPcr
    rw [p.segment_heldPcr stale hp, p.segment_heldHasPcr stale, TsPacket.segment_pesHeader]
    by_cases hset : passes.any (·.setsPcr)
    · by_cases hpes : p.HasPes stale
      · rw [if_pos hset, if_pos hpes]
        exact if_congr (by simp only [hp, hset, hpes, true_and]; rfl) rfl rfl
      · rw [if_pos hset, if_neg hpes, if_neg fun h => hpes h.2.1]
    · rw [if_neg hset, if_neg fun h => hset h.1]

theorem Writes.body_eq (hw : Writes s' p') (h : Reworked passes (p.segment stale) s') {j : ℕ}
    (hj : j < 184) : p'.body[j] = p.writtenByte stale passes j := by
  obtain ⟨cc, -, rfl⟩ := h
  have hbody := hw.2
  rw [writtenPayload_eq, patch_payloadStores_eq_some_iff] at hbody
  obtain ⟨hra, hhas, hpcr⟩ := adaptationField_reworked p stale passes cc
  have hat : patchAt ((reworked passes (p.segment stale)).withCc cc) = p.patchAt stale :=
    p.patchAt_segment stale
  have hsome : ((reworked passes (p.segment stale)).withCc cc).pesHeader =
      (p.segment stale).pesHeader := rfl
  rw [hbody.2 j hj]
  unfold TsPacket.writtenByte
  by_cases hin : p.HasPes stale ∧ p.patchAt stale + 2 ≤ j ∧ j ≤ p.patchAt stale + 5
  · obtain ⟨hpes, hlo, hhi⟩ := hin
    obtain ⟨k, rfl⟩ : ∃ k, j = p.patchAt stale + k := ⟨j - p.patchAt stale, by omega⟩
    have hread := p.pesByte_pesOf stale hpes (show 2 ≤ k by omega) (by omega)
    have hwrite := effect_segmentPesStores (hsome.trans (segment_pesHeader_of_hasPes hpes))
      (show 2 ≤ k by omega) (by omega)
    rw [if_pos ⟨hpes, hlo, hhi⟩, Nat.add_sub_cancel_left, ← hread, ← hwrite, hat]
  · have hheld : ((reworked passes (p.segment stale)).withCc cc).payload[j] = p.byte j :=
      (p.byte_of_lt hj).symm
    rw [if_neg hin, effect_segmentPesStores_of_not, effect_adaptationStores, hra, hhas, hheld]
    · by_cases hp : p.heldHasPcr stale
      · rw [hpcr hp]
      · have hout : ¬ (p.heldHasPcr stale ∧ 2 ≤ j ∧ j ≤ 7) := fun h => hp h.1
        rw [if_neg hout, if_neg hout]
    · rw [hsome, hat, TsPacket.isSome_segment_pesHeader]
      intro hpes
      by_contra hout
      exact hin ⟨hpes, by omega, by omega⟩

theorem header_reworked (p : TsPacket) (stale : Stale) (passes : List PlaylistPass)
    (cc : BitVec 4) : ((reworked passes (p.segment stale)).withCc cc).header =
      { p.header with continuityCounter := cc } := by
  rw [← p.segment_header stale]
  rfl

/-- The header that is read from the packet that was written is the one in memory. -/
theorem Writes.header_of_reworked (hw : Writes s' p')
    (h : Reworked passes (p.segment stale) s') : p'.header = s'.header := by
  obtain ⟨cc, -, rfl⟩ := h
  have hp : { p.header with sync := tsSync, tscrambleControl := 0 } = p.header := by
    refine TsHeader.ext ?_ rfl rfl rfl rfl ?_ rfl rfl
    · exact ((headerFields_sync p.word).trans p.sync).symm
    · exact (headerFields_tscrambleControl p.word).symm
  rw [hw.header, header_reworked, ← hp]

theorem hasPid_segment_iff (p : TsPacket) (stale : Stale) :
    HasPid 0x100 (p.segment stale) ↔ p.header.pid = 0x100 := by
  unfold HasPid
  rw [TsPacket.segment_header]
  constructor
  · intro h
    apply BitVec.eq_of_toNat_eq
    exact_mod_cast h
  · intro h
    rw [h]
    rfl

/-- The packet that is written for a segment behind the passes, when the packets of PID `0x100` are
numbered. -/
theorem Writes.rewritten (hw : Writes s' p') (h : Reworked passes (p.segment stale) s') {n : ℕ}
    (hn : passes.any (·.numbers) → HasPid 0x100 s' →
      s'.header.continuityCounter = BitVec.ofNat 4 n) : Rewritten stale passes n p p' where
  word := by
    obtain ⟨cc, hcc, rfl⟩ := h
    rw [hw.1, header_reworked, TsPacket.writtenWord]
    by_cases hset : p.header.pid = 0x100 ∧ passes.any (·.numbers)
    · have hcounter : cc = BitVec.ofNat 4 n := hn hset.2 ((hasPid_segment_iff p stale).mpr hset.1)
      rw [if_pos hset, hcounter]
    · rcases hcc with hcc | ⟨hpid, hnumbers⟩
      · rw [if_neg hset, hcc, TsPacket.segment_header]
      · exact absurd ⟨(hasPid_segment_iff p stale).mp hpid, hnumbers⟩ hset
  body j hj := hw.body_eq h hj

end Rewritten

end MpegtsReader
