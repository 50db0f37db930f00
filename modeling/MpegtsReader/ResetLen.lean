import MpegtsReader.Confined

/-!
# Clearing the PES length

`mpegts_stream_pes_reset_len`, the write and a second read. `parse_pes_header` leaves a header of
length 0 undecoded and puts `payload_start` behind its first six bytes, so the timestamps that the
first read decoded are never decoded again: `resetLen_keeps_iff` shows that no packet with a decoded
PTS survives. The written file is again a file of packets (`exists_written_packets`), each with the
adaptation field of the packet it was read from.
-/

namespace MpegtsReader

open Buffer

/-! ## The written packets -/

theorem writeHeader_sync (header : TsHeader) : (writeHeader header).setWidth 8 = 0x47#8 := by
  have h := congrArg TsHeader.sync (headerFields_writeHeader header)
  rw [headerFields_sync] at h
  exact h

/-- The packet that is written for a segment with this payload. -/
def writtenPacket (segment : Segment) (body : Vector Byte 184) : TsPacket :=
  ⟨writeHeader segment.header, body, writeHeader_sync segment.header⟩

theorem emit_eq_some_iff {segment : Segment} {out : List Byte} :
    emit segment = some out ↔
      ∃ body, writtenPayload segment = some body ∧ (writtenPacket segment body).bytes = out := by
  unfold emit writtenPayload writeTsSegment
  cases patch segment.payload (payloadStores segment) with
  | none => simp
  | some payload => simp [writtenPacket, TsPacket.bytes]

/-- The packet is written for the segment. -/
def WrittenAs (segment : Segment) (p : TsPacket) : Prop :=
  ∃ body, writtenPayload segment = some body ∧ p = writtenPacket segment body

/-- What is written is a file of packets. -/
theorem exists_written_packets {segments : List Segment} {out : List Byte}
    (h : emitAll segments = some out) :
    ∃ packets, out = fileOf packets ∧ List.Forall₂ WrittenAs segments packets := by
  induction segments generalizing out with
  | nil =>
    cases h
    exact ⟨[], rfl, .nil⟩
  | cons segment rest ih =>
    rw [emitAll_cons] at h
    simp only [Option.bind_eq_some_iff, Option.map_eq_some_iff] at h
    obtain ⟨a, ha, b, hb, rfl⟩ := h
    obtain ⟨body, hbody, rfl⟩ := emit_eq_some_iff.mp ha
    obtain ⟨packets, rfl, hpackets⟩ := ih hb
    exact ⟨writtenPacket segment body :: packets, by simp [fileOf],
      .cons ⟨body, hbody, rfl⟩ hpackets⟩

/-! ## The round trip -/

/-- Clear the PES lengths of a file's stream, write it in place and read it again. -/
def resetLenAndReread (stale stale' : ℕ → Stale) (packets : List TsPacket) : Option Stream :=
  let written := mpegtsStreamWrite (oneFile [] (fileOf packets))
    (mpegtsStreamPesResetLen (streamOf stale packets)) none
  (written.map Prod.fst).map fun fs => (mpegtsStreamReadSegment fs stale' (mpegtsStreamInit [])).1

/-- The packet has a PES header wholly inside, decoded with a PTS. -/
structure DecodesPts (p : TsPacket) : Prop where
  inside : p.pesAt + 9 + (p.byte (p.pesAt + 8)).toNat ≤ 184
  code : StartCode p.byte p.pesAt
  len : pesLen p.byte p.pesAt ≠ 0
  ptsInd : pesPtsInd p.byte p.pesAt = 2#2 ∨ pesPtsInd p.byte p.pesAt = 3#2

/-- The second segment has the PES header of the first with its length cleared, and its payload. -/
structure LenReset (first second : Segment) : Prop where
  pes : ∃ before after, first.pesHeader = some before ∧ second.pesHeader = some after ∧
    after.len = 0 ∧ after.streamId = before.streamId ∧ after.ptsInd = before.ptsInd ∧
    after.pts = before.pts ∧ after.dts = before.dts ∧ after.pesHeaderLen = before.pesHeaderLen
  payloadStart : second.payloadStart = first.payloadStart

/-- Every packet with a decoded PTS is read again with the same header but for its length. -/
def LenResetKeeps (stale stale' : ℕ → Stale) (packets : List TsPacket) : Prop :=
  ∀ i (hi : i < packets.length), DecodesPts packets[i] → ∃ stream second,
    resetLenAndReread stale stale' packets = some stream ∧
      stream.segmentList[i]? = some second ∧ LenReset (packets[i].segment (stale i)) second

/-- The second read sees the packets written for the edited segments. -/
theorem exists_reread {stale stale' : ℕ → Stale} {packets : List TsPacket} {stream : Stream}
    (h : resetLenAndReread stale stale' packets = some stream) :
    ∃ packets', List.Forall₂ WrittenAs ((segmentsFrom stale 0 packets).map resetLen) packets' ∧
      stream = streamOf stale' packets' := by
  have hseg : (mpegtsStreamPesResetLen (streamOf stale packets)).segmentList =
      (segmentsFrom stale 0 packets).map resetLen := by
    rw [segmentList_pesResetLen, streamOf_eq]
  have hurl : (mpegtsStreamPesResetLen (streamOf stale packets)).url = [] := by
    rw [streamOf_eq]
    rfl
  have hfile : oneFile [] (fileOf packets)
      ((none : Option Path).getD (mpegtsStreamPesResetLen (streamOf stale packets)).url) =
        some (fileOf packets) := by
    rw [hurl]
    exact Function.update_self ..
  unfold resetLenAndReread at h
  simp only [map_fst_mpegtsStreamWrite none hfile, hseg, Option.getD_none, hurl, Option.map_map,
    Option.map_eq_some_iff, Function.comp_apply] at h
  obtain ⟨out, hout, rfl⟩ := h
  obtain ⟨packets', rfl, hpackets⟩ := exists_written_packets hout
  refine ⟨packets', hpackets, ?_⟩
  -- the file is as long as before, so nothing of it is left behind what is written
  have hlen : (fileOf packets).length ≤ (fileOf packets').length := by
    rw [length_of_emitAll hout, List.length_map, length_segmentsFrom, length_fileOf]
  rw [List.drop_eq_nil_of_le hlen, List.append_nil]
  unfold streamOf oneFile
  rw [Function.update_idem]

/-! ## One packet -/

section Packet

variable {p q : TsPacket} {stale stale' : Stale}

/-- The packet written after the length is cleared has the adaptation field of the old one. -/
theorem pesAt_of_writtenAs (h : WrittenAs (resetLen (p.segment stale)) q) : q.pesAt = p.pesAt := by
  obtain ⟨body, hbody, rfl⟩ := h
  have hheader : (resetLen (p.segment stale)).header = p.header := by
    rw [resetLen_eq]
    rfl
  have hctrl : (writtenPacket (resetLen (p.segment stale)) body).header.adaptationFieldCtrl =
      p.header.adaptationFieldCtrl := by
    unfold TsPacket.header writtenPacket
    rw [headerFields_writeHeader, hheader]
    rfl
  have hhas : (writtenPacket (resetLen (p.segment stale)) body).header.HasAdaptation ↔
      p.header.HasAdaptation := by
    unfold TsHeader.HasAdaptation
    rw [hctrl]
  have hzero : body[0] = p.body[0] := by
    have he := edited_resetLen (Edited.refl (p.segment stale))
    have h0 := (he.writtenPayload_iff.mp hbody).2 0 (by omega)
    rwa [effect_segmentPesStores_of_not (fun _ => Or.inl (by omega)),
      effect_adaptationStores_of_not (Or.inl rfl)] at h0
  unfold TsPacket.pesAt
  simp only [hhas]
  rw [show (writtenPacket (resetLen (p.segment stale)) body).fieldLen = p.fieldLen from hzero]

theorem DecodesPts.hasPes (h : DecodesPts p) (stale : Stale) : p.HasPes stale := by
  have hin := h.inside
  have h0 := p.memory_eq_byte stale (show p.pesAt < 184 by omega)
  have h1 := p.memory_eq_byte stale (show p.pesAt + 1 < 184 by omega)
  have h2 := p.memory_eq_byte stale (show p.pesAt + 2 < 184 by omega)
  exact ⟨h0.trans h.code.1, h1.trans h.code.2.1, h2.trans h.code.2.2⟩

/-- The first read puts `payload_start` behind the optional part of the header. -/
theorem DecodesPts.payloadStart_ge (h : DecodesPts p) (stale : Stale) :
    p.pesAt + 9 ≤ (p.segment stale).payloadStart := by
  have hin := h.inside
  have hlen : pesLen (p.memory stale) p.pesAt ≠ 0 := by
    have hl := h.len
    unfold pesLen at hl ⊢
    rwa [p.memory_eq_byte stale (by omega), p.memory_eq_byte stale (by omega)]
  rw [TsPacket.segment_payloadStart, if_pos (h.hasPes stale), pesEnd, if_neg hlen]
  omega

/-- A header read with length 0 ends behind its first six bytes. -/
theorem payloadStart_of_len_zero {header : PesHeader}
    (h : (q.segment stale').pesHeader = some header) (hlen : header.len = 0) :
    (q.segment stale').payloadStart = q.pesAt + 6 := by
  obtain ⟨hpes, rfl⟩ := eq_of_segment_pesHeader h
  rw [pesOf_len] at hlen
  rw [TsPacket.segment_payloadStart, if_pos hpes, pesEnd, if_pos hlen]

/-- A decoded PTS is never read again: either the length is not 0 or the payload starts earlier. -/
theorem DecodesPts.not_lenReset (h : DecodesPts p)
    (hq : WrittenAs (resetLen (p.segment stale)) q) :
    ¬ LenReset (p.segment stale) (q.segment stale') := by
  rintro ⟨⟨before, after, -, hafter, hlen, -⟩, hstart⟩
  have hge := h.payloadStart_ge stale
  rw [← hstart, payloadStart_of_len_zero hafter hlen, pesAt_of_writtenAs hq] at hge
  omega

end Packet

/-! ## Streams -/

theorem not_lenResetKeeps {stale stale' : ℕ → Stale} {packets : List TsPacket} {p : TsPacket}
    (hp : p ∈ packets) (hpts : DecodesPts p) : ¬ LenResetKeeps stale stale' packets := by
  intro hkeep
  obtain ⟨i, hi, rfl⟩ := List.getElem_of_mem hp
  obtain ⟨stream, second, hstream, hsecond, hreset⟩ := hkeep i hi hpts
  obtain ⟨packets', hwritten, rfl⟩ := exists_reread hstream
  have hlen := hwritten.length_eq
  rw [List.length_map, length_segmentsFrom] at hlen
  have hi' : i < packets'.length := hlen ▸ hi
  rw [getElem?_streamOf stale' hi', Option.some.injEq] at hsecond
  have hget := getElem?_segmentsFrom stale 0 packets hi
  obtain ⟨hlt, hfirst⟩ := List.getElem?_eq_some_iff.mp hget
  have hq := hwritten.get (by rwa [List.length_map]) hi'
  rw [List.get_eq_getElem, List.getElem_map, hfirst, Nat.zero_add] at hq
  rw [← hsecond] at hreset
  exact hpts.not_lenReset hq hreset

/-- **Clearing the PES length.** Clearing the lengths of a stream, writing it and reading it again
keeps the timestamps that were decoded exactly when none was. -/
theorem resetLen_keeps_iff (stale stale' : ℕ → Stale) (packets : List TsPacket) :
    LenResetKeeps stale stale' packets ↔ ∀ p ∈ packets, ¬ DecodesPts p := by
  constructor
  · exact fun hkeep p hp hpts => not_lenResetKeeps hp hpts hkeep
  · exact fun h i hi hpts => absurd hpts (h _ (List.getElem_mem hi))

/-- The PTS of a packet with a PES length does not survive. -/
theorem not_lenResetKeeps_clockPacket :
    ¬ ∀ (stale stale' : ℕ → Stale) (packets : List TsPacket), (∀ p ∈ packets, p.WellFormed) →
      LenResetKeeps stale stale' packets := by
  intro h
  have hkeep := h (fun _ => .zeroed) (fun _ => .zeroed) [clockPacket] (by decide)
  have hpts : DecodesPts clockPacket := ⟨by decide, by decide, by decide, by decide⟩
  exact not_lenResetKeeps (List.mem_singleton_self _) hpts hkeep

end MpegtsReader
