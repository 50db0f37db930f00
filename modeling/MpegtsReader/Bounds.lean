import MpegtsReader.Layout

/-!
# Accesses of the parser

Which bytes of memory `parse_ts_segment` dereferences. The adaptation field is safe whatever its
lengths say, but the PES parser starts behind the length that the packet claims and trusts the
header length that it finds there. `PesInside` is the exact condition on the bytes of a packet under
which every access stays in the payload and `payload_start` does not pass its end
(`parse_inside_iff`).
-/

namespace MpegtsReader

open Logged

/-- The last byte that `get_pes_pts` dereferences: it stops at a wrong marker. -/
def ptsLast (mem : ℕ → Byte) (marker : Byte) (src : ℕ) : ℕ :=
  if mem src &&& marker = marker then src + 4 else src

/-- The timestamps that `PTS_DTS_flags` announces are read below `n`. -/
def TimestampsBelow (n : ℕ) (mem : ℕ → Byte) (data : ℕ) : Prop :=
  (pesPtsInd mem data = 2#2 → ptsLast mem ptsOnlyMask (data + 9) < n) ∧
    (pesPtsInd mem data = 3#2 →
      ptsLast mem ptsMask (data + 9) < n ∧ ptsLast mem dtsMask (data + 14) < n)

/-- The PES header at `data`, if there is one, is read below `n`. -/
def PesBelow (n : ℕ) (mem : ℕ → Byte) (data : ℕ) : Prop :=
  data + 2 < n ∧ (StartCode mem data → data + 5 < n ∧
    (pesLen mem data ≠ 0 → data + 8 < n ∧ TimestampsBelow n mem data))

/-- The PES header at `data`, if there is one, is read inside the payload and ends there. -/
def PesInside (mem : ℕ → Byte) (data : ℕ) : Prop :=
  data + 2 < 184 ∧ (StartCode mem data → data + 5 < 184 ∧ (pesLen mem data ≠ 0 →
    data + 8 < 184 ∧ TimestampsBelow 184 mem data ∧ data + 9 + (mem (data + 8)).toNat ≤ 184))

/-! ## The accesses of each function -/

section Below

variable {n : ℕ} {mem : ℕ → Byte} {data : ℕ}

theorem below_getPesPts {marker : Byte} {src : ℕ} :
    Below n (getPesPts mem marker src) ↔ ptsLast mem marker src < n := by
  unfold getPesPts ptsLast
  rw [below_bind, below_deref, val_deref]
  by_cases h : mem src &&& marker = marker
  · rw [if_pos h, if_pos h]
    simp only [below_bind, below_deref, below_pure, and_true]
    omega
  · rw [if_neg h, if_neg h]
    simp only [below_pure, and_true]

theorem below_readTimestamps {pesHeader : PesHeader} :
    Below n (readTimestamps mem data pesHeader) ↔
      (pesHeader.ptsInd = 2#2 → ptsLast mem ptsOnlyMask (data + 9) < n) ∧
      (pesHeader.ptsInd = 3#2 →
        ptsLast mem ptsMask (data + 9) < n ∧ ptsLast mem dtsMask (data + 14) < n) := by
  unfold readTimestamps
  by_cases h2 : pesHeader.ptsInd = 2#2
  · have h3 : pesHeader.ptsInd ≠ 3#2 := by rw [h2]; decide
    rw [if_pos h2]
    simp only [below_bind, below_getPesPts, below_pure, and_true, h2, forall_const,
      show (2#2 = 3#2) = False by decide, false_imp_iff]
  · rw [if_neg h2]
    by_cases h3 : pesHeader.ptsInd = 3#2
    · rw [if_pos h3]
      simp only [below_bind, below_getPesPts, below_pure, and_true, h3, forall_const,
        show (3#2 = 2#2) = False by decide, false_imp_iff, true_and]
    · rw [if_neg h3]
      simp only [below_pure, h2, h3, false_imp_iff, and_self]

theorem below_parsePesBody {block : PesHeader} :
    Below n (parsePesBody mem data block) ↔ data + 5 < n ∧
      (pesLen mem data ≠ 0 → data + 8 < n ∧ TimestampsBelow n mem data) := by
  unfold parsePesBody
  simp only [below_bind, below_deref, val_deref]
  by_cases hl : lenWord (mem (data + 4)) (mem (data + 5)) = 0
  · simp only [hl, if_true, below_pure, and_true, pesLen, ne_eq, not_true, false_imp_iff]
    omega
  · simp only [hl, if_false, below_bind, readPesFlags, below_deref, below_pure, val_bind, val_deref,
      val_pure, below_readTimestamps, and_true, pesLen, ne_eq, not_false_iff, forall_const,
      TimestampsBelow, pesPtsInd]
    constructor
    · rintro ⟨-, -, h5, ⟨-, -, h8⟩, hts⟩
      exact ⟨h5, h8, hts⟩
    · rintro ⟨h5, h8, hts⟩
      exact ⟨by omega, by omega, h5, ⟨by omega, by omega, h8⟩, hts⟩

theorem below_parsePesHeader {block : PesHeader} :
    Below n (parsePesHeader mem data block) ↔ PesBelow n mem data := by
  unfold parsePesHeader PesBelow
  simp only [below_bind, below_deref, val_deref]
  have hiff := startWord_eq_one_iff (mem data) (mem (data + 1)) (mem (data + 2))
  by_cases hc : StartCode mem data
  · simp only [hiff.mpr hc, ne_eq, not_true, if_false, below_parsePesBody, hc, forall_const]
    constructor
    · rintro ⟨-, -, h2, hbody⟩
      exact ⟨h2, hbody⟩
    · rintro ⟨h2, hbody⟩
      exact ⟨by omega, by omega, h2, hbody⟩
  · have hw : ¬ startWord (mem data) (mem (data + 1)) (mem (data + 2)) = 1 :=
      fun h => hc (hiff.mp h)
    simp only [hw, ne_eq, not_false_iff, if_true, below_pure, hc, false_imp_iff, and_true]
    omega

end Below

/-! ## The accesses to a packet -/

namespace TsPacket

variable (p : TsPacket) (stale : Stale)

theorem below_parse : Below 184 (p.parse stale) ↔ PesBelow 184 (p.memory stale) p.pesAt := by
  have had : Below 184 (parseAdaptationField (p.memory stale) p.header
      stale.segment.adaptationField) := by
    intro i hi
    have := below_parseAdaptationField (p.memory stale) p.header stale.segment.adaptationField i hi
    omega
  have hparse : Below 184 (p.parse stale) ↔
      Below 184 (parseAdaptationField (p.memory stale) p.header stale.segment.adaptationField) ∧
      Below 184 (parsePesHeader (p.memory stale) (parseAdaptationField (p.memory stale) p.header
        stale.segment.adaptationField).val.2 stale.pesHeader) := by
    unfold parse parsePayload
    simp only [below_bind, below_pure, and_true]
    rfl
  rw [hparse, and_iff_right had, cursor_eq, below_parsePesHeader]

theorem startCode_memory {data : ℕ} (h : data + 2 < 184) :
    StartCode (p.memory stale) data ↔ StartCode p.byte data := by
  unfold StartCode
  rw [p.memory_eq_byte stale (by omega), p.memory_eq_byte stale (by omega),
    p.memory_eq_byte stale h]

theorem pesLen_memory {data : ℕ} (h : data + 5 < 184) :
    pesLen (p.memory stale) data = pesLen p.byte data := by
  unfold pesLen
  rw [p.memory_eq_byte stale (by omega), p.memory_eq_byte stale h]

theorem ptsLast_memory {marker : Byte} {src : ℕ} :
    ptsLast (p.memory stale) marker src < 184 ↔ ptsLast p.byte marker src < 184 := by
  by_cases h : src < 184
  · unfold ptsLast
    rw [p.memory_eq_byte stale h]
  · have hge : ∀ mem : ℕ → Byte, src ≤ ptsLast mem marker src := by
      intro mem
      unfold ptsLast
      split_ifs <;> omega
    have h1 := hge (p.memory stale)
    have h2 := hge p.byte
    omega

theorem timestampsBelow_memory {data : ℕ} (h : data + 8 < 184) :
    TimestampsBelow 184 (p.memory stale) data ↔ TimestampsBelow 184 p.byte data := by
  unfold TimestampsBelow pesPtsInd
  rw [p.memory_eq_byte stale (by omega)]
  simp only [ptsLast_memory]

/-- What is read inside the payload does not depend on the memory behind it. -/
theorem pesInside_memory :
    PesInside (p.memory stale) p.pesAt ↔ PesInside p.byte p.pesAt := by
  unfold PesInside
  refine and_congr_right fun h2 => ?_
  rw [p.startCode_memory stale h2]
  refine forall_congr' fun _ => and_congr_right fun h5 => ?_
  rw [p.pesLen_memory stale h5]
  refine forall_congr' fun _ => and_congr_right fun h8 => ?_
  rw [p.timestampsBelow_memory stale h8, p.memory_eq_byte stale h8]

theorem inside_iff_memory :
    (Below 184 (p.parse stale) ∧ (p.segment stale).payloadStart ≤ 184) ↔
      PesInside (p.memory stale) p.pesAt := by
  rw [below_parse, segment_payloadStart]
  by_cases hc : p.HasPes stale
  · have hcode : StartCode (p.memory stale) p.pesAt := hc
    rw [if_pos hc]
    unfold PesBelow PesInside pesEnd
    simp only [hcode, forall_const]
    by_cases hl : pesLen (p.memory stale) p.pesAt = 0
    · rw [if_pos hl]
      simp only [hl, ne_eq, not_true, false_imp_iff, and_true]
      omega
    · rw [if_neg hl]
      simp only [hl, ne_eq, not_false_iff, forall_const]
      exact ⟨fun ⟨⟨h2, h5, h8, hts⟩, hend⟩ => ⟨h2, h5, h8, hts, hend⟩,
        fun ⟨h2, h5, h8, hts, hend⟩ => ⟨⟨h2, h5, h8, hts⟩, hend⟩⟩
  · have hcode : ¬ StartCode (p.memory stale) p.pesAt := hc
    rw [if_neg hc]
    unfold PesBelow PesInside
    simp only [hcode, false_imp_iff, and_true]
    omega

/-- **Accesses of the parser.** Parsing a packet dereferences bytes of its payload only, and leaves
`payload_start` inside it, exactly when the bytes of the packet satisfy `PesInside`. -/
theorem parse_inside_iff :
    (Below 184 (p.parse stale) ∧ (p.segment stale).payloadStart ≤ 184) ↔
      PesInside p.byte p.pesAt := by
  rw [inside_iff_memory, pesInside_memory]

end TsPacket

/-- A packet that is all adaptation field. -/
def stuffingPacket : TsPacket := filled 0x20000147#32 (by decide) [183, 0]

/-- Behind an adaptation field that fills the packet the start code is read past its end. -/
theorem not_inside_stuffingPacket :
    ¬ ∀ (p : TsPacket) (stale : Stale),
      Below 184 (p.parse stale) ∧ (p.segment stale).payloadStart ≤ 184 := by
  intro h
  have hbelow := (h stuffingPacket .zeroed).1
  rw [TsPacket.below_parse] at hbelow
  exact absurd hbelow.1 (by decide)

end MpegtsReader
