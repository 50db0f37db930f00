import MpegtsReader.Packet

/-!
# The packet header

`parse_header` and `write_header`. The reader shifts the scrambling control by 4 into a two-bit
field and so always stores 0; the writer masks it away as well. Every other field survives:
`parseHeader_writeHeader_iff` is the exact round trip of the fields, `writeHeader_headerFields` that
of the word.
-/

namespace MpegtsReader

/-- `TS_SYNC`. -/
def tsSync : BitVec 8 := 0x47#8

/-- `SYNC_MASK`. -/
def syncMask : BitVec 32 := 0xff#32

/-- The fields `parse_header` stores once the sync byte is accepted. -/
def headerFields (v : BitVec 32) : TsHeader :=
  let sync : BitVec 8 := (v &&& syncMask).setWidth 8
  let v := v >>> 8
  let pid : BitVec 13 := (v &&& 0x1f#32).setWidth 13
  let tei := isSet v 0x80#32
  let pusi := isSet v 0x40#32
  let prior := isSet v 0x20#32
  let v := v >>> 8
  let pid := pid <<< 8
  let pid : BitVec 13 := (pid.setWidth 32 ||| (v &&& 0xff#32)).setWidth 13
  let v := v >>> 8
  { sync, tei, pusi, prior, pid
    -- `(v & 0xc0) >> 4` leaves the scrambling control in bits 2 and 3, which the field cuts off
    tscrambleControl := ((v &&& 0xc0#32) >>> 4).setWidth 2
    adaptationFieldCtrl := ((v &&& 0x30#32) >>> 4).setWidth 2
    continuityCounter := (v &&& 0xf#32).setWidth 4 }

/-- `parse_header`. -/
def parseHeader (v : BitVec 32) : Except LogErr TsHeader :=
  if (headerFields v).sync ≠ tsSync then
    .error ⟨.EINVAL, s!"invalid ts_sync value : {(headerFields v).sync.toNat}\n"⟩
  else
    .ok (headerFields v)

/-- `write_header`: the word that is written to the file. -/
def writeHeader (header : TsHeader) : BitVec 32 :=
  let tsHeader : BitVec 32 :=
    (header.tscrambleControl.setWidth 32 <<< 4) &&& 0xC0#32 |||
      (header.adaptationFieldCtrl.setWidth 32 <<< 4) &&& 0x30#32 |||
      (header.continuityCounter.setWidth 32 &&& 0xF#32)
  let tsHeader := tsHeader <<< 8
  let tsHeader := tsHeader ||| (header.pid.setWidth 32 &&& 0xFF#32)
  let tsHeader := tsHeader <<< 8
  let tsHeader := tsHeader ||| ((header.pid.setWidth 32 >>> 8) &&& 0x1F#32)
  let tsHeader := tsHeader ||| (if header.tei then 0x80#32 else 0)
  let tsHeader := tsHeader ||| (if header.pusi then 0x40#32 else 0)
  let tsHeader := tsHeader ||| (if header.prior then 0x20#32 else 0)
  let tsHeader := tsHeader <<< 8
  tsHeader ||| tsSync.setWidth 32

/-- `adaptation_field_ctrl` announces an adaptation field (2 or 3). -/
def TsHeader.HasAdaptation (header : TsHeader) : Prop :=
  header.adaptationFieldCtrl = 2#2 ∨ header.adaptationFieldCtrl = 3#2

instance (header : TsHeader) : Decidable header.HasAdaptation :=
  inferInstanceAs (Decidable (_ ∨ _))

/-! ## Fields of the parsed header -/

@[simp] theorem headerFields_sync (v : BitVec 32) : (headerFields v).sync = v.setWidth 8 := by
  unfold headerFields syncMask
  apply BitVec.eq_of_getLsbD_eq
  intro i hi
  interval_cases i <;> simp

/-- The scrambling control is lost on reading. -/
@[simp] theorem headerFields_tscrambleControl (v : BitVec 32) :
    (headerFields v).tscrambleControl = 0 := by
  unfold headerFields
  apply BitVec.eq_of_getLsbD_eq
  intro i hi
  interval_cases i <;> simp

theorem headerFields_adaptationFieldCtrl (v : BitVec 32) :
    (headerFields v).adaptationFieldCtrl = v.extractLsb' 28 2 := by
  unfold headerFields
  apply BitVec.eq_of_getLsbD_eq
  intro i hi
  interval_cases i <;> simp

theorem headerFields_continuityCounter (v : BitVec 32) :
    (headerFields v).continuityCounter = v.extractLsb' 24 4 := by
  unfold headerFields
  apply BitVec.eq_of_getLsbD_eq
  intro i hi
  interval_cases i <;> simp

/-- The PID is assembled from two bytes of the word. -/
theorem getElem_headerFields_pid (v : BitVec 32) {i : ℕ} (hi : i < 13) :
    (headerFields v).pid[i] = if i < 8 then v.getLsbD (i + 16) else v.getLsbD i := by
  unfold headerFields
  interval_cases i <;> simp

theorem headerFields_tei (v : BitVec 32) : (headerFields v).tei = v.getLsbD 15 :=
  (isSet_twoPow (v >>> 8) (by decide : 7 < 32)).trans (BitVec.getLsbD_ushiftRight ..)

theorem headerFields_pusi (v : BitVec 32) : (headerFields v).pusi = v.getLsbD 14 :=
  (isSet_twoPow (v >>> 8) (by decide : 6 < 32)).trans (BitVec.getLsbD_ushiftRight ..)

theorem headerFields_prior (v : BitVec 32) : (headerFields v).prior = v.getLsbD 13 :=
  (isSet_twoPow (v >>> 8) (by decide : 5 < 32)).trans (BitVec.getLsbD_ushiftRight ..)

theorem parseHeader_of_sync {v : BitVec 32} (h : v.setWidth 8 = tsSync) :
    parseHeader v = .ok (headerFields v) := by
  unfold parseHeader
  rw [headerFields_sync, if_neg (not_not.mpr h)]

theorem parseHeader_eq_ok_iff {v : BitVec 32} {header : TsHeader} :
    parseHeader v = .ok header ↔ v.setWidth 8 = tsSync ∧ headerFields v = header := by
  unfold parseHeader
  rw [headerFields_sync]
  by_cases h : v.setWidth 8 = tsSync
  · rw [if_neg (not_not.mpr h)]; simp [h]
  · rw [if_pos h]; simp [h]

/-! ## Round trips -/

/-- Bit `i` of the written word. -/
theorem getLsbD_writeHeader (header : TsHeader) {i : ℕ} (hi : i < 32) :
    (writeHeader header).getLsbD i =
      if i < 8 then tsSync.getLsbD i
      else if i < 13 then header.pid.getLsbD (i - 8 + 8)
      else if i = 13 then header.prior
      else if i = 14 then header.pusi
      else if i = 15 then header.tei
      else if i < 24 then header.pid.getLsbD (i - 16)
      else if i < 28 then header.continuityCounter.getLsbD (i - 24)
      else if i < 30 then header.adaptationFieldCtrl.getLsbD (i - 28)
      else false := by
  have hbit : ∀ b : Bool, (if b then 0x80#32 else 0) = (BitVec.ofBool b).setWidth 32 <<< 7 ∧
      (if b then 0x40#32 else 0) = (BitVec.ofBool b).setWidth 32 <<< 6 ∧
      (if b then 0x20#32 else 0) = (BitVec.ofBool b).setWidth 32 <<< 5 := by decide
  unfold writeHeader tsSync
  rw [(hbit header.tei).1, (hbit header.pusi).2.1, (hbit header.prior).2.2]
  interval_cases i <;> simp

/-- Reading back a written header restores every field but the scrambling control. -/
theorem headerFields_writeHeader (header : TsHeader) :
    headerFields (writeHeader header) = { header with sync := tsSync, tscrambleControl := 0 } := by
  have hbit : ∀ i, i < 32 → _ := fun i hi => getLsbD_writeHeader header (i := i) hi
  refine TsHeader.ext ?_ ?_ ?_ ?_ ?_ ?_ ?_ ?_
  · rw [headerFields_sync]
    apply BitVec.eq_of_getLsbD_eq
    intro i hi
    rw [BitVec.getLsbD_setWidth, hbit i (by omega)]
    simp [hi]
  · rw [headerFields_tei, hbit 15 (by omega)]; rfl
  · rw [headerFields_pusi, hbit 14 (by omega)]; rfl
  · rw [headerFields_prior, hbit 13 (by omega)]; rfl
  · apply BitVec.eq_of_getLsbD_eq
    intro i hi
    rw [BitVec.getLsbD_eq_getElem hi, getElem_headerFields_pid _ hi, hbit (i + 16) (by omega),
      hbit i (by omega)]
    interval_cases i <;> simp
  · exact headerFields_tscrambleControl _
  · rw [headerFields_adaptationFieldCtrl]
    apply BitVec.eq_of_getLsbD_eq
    intro i hi
    rw [BitVec.getLsbD_extractLsb', hbit (28 + i) (by omega)]
    interval_cases i <;> simp
  · rw [headerFields_continuityCounter]
    apply BitVec.eq_of_getLsbD_eq
    intro i hi
    rw [BitVec.getLsbD_extractLsb', hbit (24 + i) (by omega)]
    interval_cases i <;> simp

/-- **The header round trip.** A header with the right sync byte is restored by writing and reading
it exactly when its packet is not scrambled. -/
theorem parseHeader_writeHeader_iff {header : TsHeader} (hsync : header.sync = tsSync) :
    parseHeader (writeHeader header) = .ok header ↔ header.tscrambleControl = 0 := by
  rw [parseHeader_eq_ok_iff, headerFields_writeHeader]
  constructor
  · rintro ⟨-, h⟩
    exact (congrArg TsHeader.tscrambleControl h).symm
  · intro h
    refine ⟨?_, TsHeader.ext hsync.symm rfl rfl rfl rfl h.symm rfl rfl⟩
    have hfields := congrArg TsHeader.sync (headerFields_writeHeader header)
    rwa [headerFields_sync] at hfields

theorem parseHeader_writeHeader_clear :
    parseHeader (writeHeader ⟨tsSync, true, true, true, 0x1abc#13, 0, 3, 9⟩) =
      .ok ⟨tsSync, true, true, true, 0x1abc#13, 0, 3, 9⟩ :=
  (parseHeader_writeHeader_iff rfl).mpr rfl

/-- The header of a packet that is scrambled with the even key. -/
theorem not_parseHeader_writeHeader_scrambled :
    ¬ ∀ header : TsHeader, header.sync = tsSync →
      parseHeader (writeHeader header) = .ok header := by
  intro h
  have heq := h ⟨tsSync, false, false, false, 0x100#13, 2, 1, 0⟩ rfl
  have hcontrol := congrArg TsHeader.tscrambleControl (parseHeader_eq_ok_iff.mp heq).2
  rw [headerFields_tscrambleControl] at hcontrol
  exact absurd hcontrol (by decide)

/-- Writing back a parsed header restores the word but for its two scrambling bits. -/
theorem writeHeader_headerFields {v : BitVec 32} (h : v.setWidth 8 = tsSync) :
    writeHeader (headerFields v) = v &&& 0x3fffffff#32 := by
  apply BitVec.eq_of_getLsbD_eq
  intro i hi
  have hs : ∀ k, k < 8 → tsSync.getLsbD k = v.getLsbD k := by
    intro k hk
    rw [← h, BitVec.getLsbD_setWidth]
    simp [hk]
  rw [getLsbD_writeHeader _ hi, headerFields_tei, headerFields_pusi, headerFields_prior,
    headerFields_adaptationFieldCtrl, headerFields_continuityCounter]
  by_cases h8 : i < 8
  · rw [if_pos h8, hs i h8]
    interval_cases i <;> simp
  · interval_cases i <;> simp [getElem_headerFields_pid]

end MpegtsReader
