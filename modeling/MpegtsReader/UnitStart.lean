import MpegtsReader.Bounds
import MpegtsReader.Confined

/-!
# Which packets get a PES header

`parse_pes_header` is called on every packet, at the offset behind its adaptation field, and takes
the start code alone for a PES header. `pesDetected_iff` is the exact condition under which the
packets of a stream that get one are those that start a unit, so that the passes that clear the
length and set the clock leave every other packet alone.
-/

namespace MpegtsReader

namespace TsPacket

/-- The packet carries payload. -/
def HasPayload (p : TsPacket) : Prop :=
  p.header.adaptationFieldCtrl = 1#2 ∨ p.header.adaptationFieldCtrl = 3#2

instance (p : TsPacket) : Decidable p.HasPayload := inferInstanceAs (Decidable (_ ∨ _))

/-- The payload of the packet begins with the start code. -/
def StartsWithCode (p : TsPacket) : Prop := p.pesAt + 2 < 184 ∧ StartCode p.byte p.pesAt

/-- The packet starts a unit with a PES header. -/
def StartsUnit (p : TsPacket) : Prop := p.HasPayload ∧ p.header.pusi ∧ p.StartsWithCode

/-- The packet goes on with a unit, or carries no payload. -/
def Continues (p : TsPacket) : Prop := p.header.pusi = false ∨ ¬ p.HasPayload

end TsPacket

/-! ## The property -/

/-- In the stream of these packets a PES header is attached to the packets that start a unit and to
no others, and after any passes the two that look at PES headers leave the other packets as they
are. -/
structure PesDetected (stale : ℕ → Stale) (packets : List TsPacket) : Prop where
  attached : ∀ i (hi : i < packets.length),
    (packets[i].segment (stale i)).pesHeader.isSome ↔ packets[i].StartsUnit
  resetLen : ∀ (passes : List Pass) i (hi : i < packets.length), packets[i].Continues →
    (mpegtsStreamPesResetLen (runPasses (streamOf stale packets) passes)).segmentList[i]? =
      (runPasses (streamOf stale packets) passes).segmentList[i]?
  updatePcr : ∀ (passes : List Pass) (pid : BitVec 16) i (hi : i < packets.length),
    packets[i].Continues →
    (mpegtsStreamUpdatePcrByPts (runPasses (streamOf stale packets) passes) pid).segmentList[i]? =
      (runPasses (streamOf stale packets) passes).segmentList[i]?

/-- A start code behind the adaptation field is the start of a unit. -/
def CodeStartsUnit (p : TsPacket) (stale : Stale) : Prop :=
  StartCode (p.memory stale) p.pesAt → p.pesAt + 2 < 184 ∧ p.header.pusi ∧ p.HasPayload

/-! ## Packets and passes -/

section Packet

variable {p : TsPacket} {stale : Stale}

theorem isSome_pesHeader_iff_startsUnit :
    ((p.segment stale).pesHeader.isSome ↔ p.StartsUnit) ↔ CodeStartsUnit p stale := by
  rw [TsPacket.isSome_segment_pesHeader]
  constructor
  · intro h hcode
    obtain ⟨hpayload, hpusi, hin, -⟩ := h.mp hcode
    exact ⟨hin, hpusi, hpayload⟩
  · intro h
    constructor
    · intro hcode
      obtain ⟨hin, hpusi, hpayload⟩ := h hcode
      exact ⟨hpayload, hpusi, hin, (p.startCode_memory stale hin).mp hcode⟩
    · rintro ⟨-, -, hin, hcode⟩
      exact (p.startCode_memory stale hin).mpr hcode

theorem CodeStartsUnit.not_hasPes (h : CodeStartsUnit p stale) (hc : p.Continues) :
    ¬ p.HasPes stale := by
  intro hcode
  obtain ⟨-, hpusi, hpayload⟩ := h hcode
  rcases hc with hc | hc
  · rw [hc] at hpusi
    cases hpusi
  · exact hc hpayload

theorem resetLen_of_none {s : Segment} (h : s.pesHeader = none) : resetLen s = s := by
  unfold resetLen
  rw [h]

/-- The segment of a packet that continues a unit has no PES header, whatever has been run. -/
theorem CodeStartsUnit.edited (h : CodeStartsUnit p stale) (hc : p.Continues) {s : Segment}
    (he : Edited (p.segment stale) s) : s.pesHeader = none := by
  rw [← Option.not_isSome_iff_eq_none, he.isSome_pesHeader]
  exact h.not_hasPes hc

end Packet

/-- **Detection of PES headers.** The packets that start a unit are told from the others, and the
others left alone, exactly when no start code stands behind the adaptation field of a packet without
`payload_unit_start_indicator` or without payload, or reaches behind the end of a packet. -/
theorem pesDetected_iff (stale : ℕ → Stale) (packets : List TsPacket) :
    PesDetected stale packets ↔
      ∀ i (hi : i < packets.length), CodeStartsUnit packets[i] (stale i) := by
  refine ⟨fun h i hi => isSome_pesHeader_iff_startsUnit.mp (h.attached i hi), fun h => ?_⟩
  have hnone (passes : List Pass) (i : ℕ) (hi : i < packets.length) (hc : packets[i].Continues) :
      ∃ s, (runPasses (streamOf stale packets) passes).segmentList[i]? = some s ∧
        s.pesHeader = none := by
    obtain ⟨s, hs, he⟩ := exists_edited stale passes hi
    exact ⟨s, hs, (h i hi).edited hc he⟩
  constructor
  · exact fun i hi => isSome_pesHeader_iff_startsUnit.mpr (h i hi)
  · intro passes i hi hc
    obtain ⟨s, hs, hpes⟩ := hnone passes i hi hc
    rw [segmentList_pesResetLen, List.getElem?_map, hs, Option.map_some, resetLen_of_none hpes]
  · intro passes pid i hi hc
    obtain ⟨s, hs, hpes⟩ := hnone passes i hi hc
    rw [segmentList_updatePcrByPts, List.getElem?_map, hs, Option.map_some,
      updatePcr_of_none hpes]

/-- A packet that continues a unit and happens to begin with a start code. -/
def slicePacket : TsPacket := filled 0x10000147#32 clearPacket.sync [0, 0, 1, 0xb6, 0x12, 0x34]

/-- A start code in the middle of a unit is taken for a PES header. -/
theorem not_pesDetected_slicePacket :
    ¬ ∀ (stale : ℕ → Stale) (packets : List TsPacket), (∀ p ∈ packets, p.WellFormed) →
      PesDetected stale packets := by
  intro h
  have hdetected := h (fun _ => .zeroed) [slicePacket] (by decide)
  have hunit := isSome_pesHeader_iff_startsUnit.mp (hdetected.attached 0 (by decide)) (by decide)
  exact absurd hunit.2.1 (by decide)

end MpegtsReader
