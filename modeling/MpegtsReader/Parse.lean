import MpegtsReader.Header
import MpegtsReader.Clock

/-!
# Parsing a packet

`get_pes_pts`, `parse_adaptation_field`, `parse_pes_header` and `parse_ts_segment`. The parsers run
over `mem`, the memory from `payload[0]` on, and log every index they dereference (a byte that the
source dereferences several times in a row is logged once). Fields that a path does not assign keep
the contents of the block they live in. `val_parseAdaptationField` and `val_parsePesHeader` give the
parsed values in closed form.
-/

namespace MpegtsReader

open Logged

/-! ## Timestamps -/

/-- `PTS_MASK`. -/
def ptsMask : Byte := 0b00110001#8

/-- `DTS_MASK`. -/
def dtsMask : Byte := 0b00010001#8

/-- `PTS_ONLY_MASK`. -/
def ptsOnlyMask : Byte := 0b00100001#8

/-- `get_pes_pts`. -/
def getPesPts (mem : ℕ → Byte) (marker : Byte) (src : ℕ) : Logged (BitVec 64) := do
  let s0 ← deref mem src
  if s0 &&& marker = marker then
    let s1 ← deref mem (src + 1)
    let s2 ← deref mem (src + 2)
    let s3 ← deref mem (src + 3)
    let s4 ← deref mem (src + 4)
    let v := (((promote s0 &&& 0x0F#32) >>> 1) <<< 30).signExtend 64
    let v := v + ((promote s1 <<< 7 ||| promote s2 >>> 1) <<< 15).signExtend 64
    return v + (promote s3 <<< 7 ||| promote s4 >>> 1).signExtend 64
  else
    return 0

/-! ## Adaptation field -/

/-- `parse_adaptation_field`: the PCR, when its flag is set. -/
def readPcr (mem : ℕ → Byte) (dest : TsAdaptField) (data : ℕ) : Logged (TsAdaptField × ℕ) :=
  if dest.hasPcr then do
    let r ← parsePcr mem data
    return ({ dest with pcr := r.1 }, r.2)
  else
    return (dest, data)

/-- `parse_adaptation_field`: the OPCR, when its flag is set. -/
def readOpcr (mem : ℕ → Byte) (dest : TsAdaptField) (data : ℕ) : Logged (TsAdaptField × ℕ) :=
  if dest.hasOpcr then do
    let r ← parsePcr mem data
    return ({ dest with opcr := r.1 }, r.2)
  else
    return (dest, data)

/-- `parse_adaptation_field`: the splice countdown, when its flag is set. -/
def readSplice (mem : ℕ → Byte) (dest : TsAdaptField) (data : ℕ) : Logged (TsAdaptField × ℕ) :=
  if dest.hasSplic then do
    let b ← deref mem data
    return ({ dest with spliceCount := b }, data + 1)
  else
    return (dest, data)

/-- `parse_adaptation_field`: the length of the private data, when its flag is set. The data itself
is skipped and never read. -/
def readPrivate (mem : ℕ → Byte) (dest : TsAdaptField) (data : ℕ) : Logged (TsAdaptField × ℕ) :=
  if dest.hasPrivate then do
    let b ← deref mem data
    return ({ dest with privLen := b }, data + 1 + b.toNat)
  else
    return (dest, data)

/-- `parse_adaptation_field`: the fields stored and the cursor returned. -/
def parseAdaptationField (mem : ℕ → Byte) (header : TsHeader) (dest : TsAdaptField) :
    Logged (TsAdaptField × ℕ) :=
  if header.HasAdaptation then do
    let len ← deref mem 0
    let flags ← deref mem 1
    let dest := { dest with
      len := len
      discontinuity := isSet flags 0x80#8
      randAcc := isSet flags 0x40#8
      prior := isSet flags 0x20#8
      hasPcr := isSet flags 0x10#8
      hasOpcr := isSet flags 0x08#8
      hasSplic := isSet flags 0x04#8
      hasPrivate := isSet flags 0x02#8
      adExt := isSet flags 0x01#8 }
    let r ← readPcr mem dest 2
    let r ← readOpcr mem r.1 r.2
    let r ← readSplice mem r.1 r.2
    let r ← readPrivate mem r.1 r.2
    -- the cursor returned ignores what the optional fields advanced over
    return (r.1, 1 + len.toNat)
  else
    return (dest, 0)

/-! ## PES header -/

/-- `data[0] << 16 | data[1] << 8 | data[2]`. -/
def startWord (d0 d1 d2 : Byte) : BitVec 32 := promote d0 <<< 16 ||| promote d1 <<< 8 ||| promote d2

/-- `(data[4] << 8) | data[5]`. -/
def lenWord (d4 d5 : Byte) : BitVec 16 := (promote d4 <<< 8 ||| promote d5).setWidth 16

/-- `(data[7] & 0xC0) >> 6`. -/
def ptsIndWord (d7 : Byte) : BitVec 2 := ((promote d7 &&& 0xC0#32) >>> 6).setWidth 2

/-- `parse_pes_header`: the timestamps announced by `pts_ind`. -/
def readTimestamps (mem : ℕ → Byte) (data : ℕ) (pesHeader : PesHeader) : Logged PesHeader :=
  if pesHeader.ptsInd = 2#2 then do
    let pts ← getPesPts mem ptsOnlyMask (data + 9)
    return { pesHeader with pts }
  else if pesHeader.ptsInd = 3#2 then do
    let pts ← getPesPts mem ptsMask (data + 9)
    let dts ← getPesPts mem dtsMask (data + 14)
    return { pesHeader with pts, dts }
  else
    return pesHeader

/-- `parse_pes_header`: the flags and the length of the optional part. -/
def readPesFlags (mem : ℕ → Byte) (data : ℕ) (pesHeader : PesHeader) : Logged PesHeader := do
  let d6 ← deref mem (data + 6)
  let d7 ← deref mem (data + 7)
  let d8 ← deref mem (data + 8)
  return { pesHeader with
    scramble := ((promote d6 &&& 0x30#32) >>> 4).setWidth 2
    priority := isSet d6 0x8#8
    alignInd := isSet d6 0x4#8
    cpRight := isSet d6 0x2#8
    original := isSet d6 0x1#8
    ptsInd := ptsIndWord d7
    pesHeaderLen := d8 }

/-- `parse_pes_header` after the start code. -/
def parsePesBody (mem : ℕ → Byte) (data : ℕ) (block : PesHeader) :
    Logged (Option PesHeader × ℕ) := do
  let d3 ← deref mem (data + 3)
  let d4 ← deref mem (data + 4)
  let d5 ← deref mem (data + 5)
  let pesHeader := { block with
    streamId := d3
    len := lenWord d4 d5 }
  if pesHeader.len = 0 then
    -- the rest of the header is left unread and unassigned
    return (some pesHeader, data + 6)
  else
    let pesHeader ← readPesFlags mem data pesHeader
    let pesHeader ← readTimestamps mem data pesHeader
    return (some pesHeader, data + 9 + pesHeader.pesHeaderLen.toNat)

/-- `parse_pes_header`: the header attached to the segment and the cursor returned. `block` is the
memory `malloc` returns for the header. -/
def parsePesHeader (mem : ℕ → Byte) (data : ℕ) (block : PesHeader) :
    Logged (Option PesHeader × ℕ) := do
  let d0 ← deref mem data
  let d1 ← deref mem (data + 1)
  let d2 ← deref mem (data + 2)
  if startWord d0 d1 d2 ≠ 1 then
    return (none, data)
  else
    parsePesBody mem data block

/-! ## Segments -/

/-- `parse_ts_segment`, once header and payload are in the segment. -/
def parsePayload (stale : Stale) (segment : Segment) : Logged Segment := do
  let mem := memory segment.payload stale.beyond
  let r ← parseAdaptationField mem segment.header segment.adaptationField
  let s ← parsePesHeader mem r.2 stale.pesHeader
  return { segment with adaptationField := r.1, pesHeader := s.1, payloadStart := s.2 }

/-- The ways `parse_ts_segment` ends: `TRUE` with the segment and what is left of the file, `FALSE`
at the end of the file, or the exit of the process in `LOG_ERR`. -/
inductive ParseTs
  | parsed (segment : Segment) (fd : List Byte)
  | eof
  | failed (err : LogErr)

/-- `parse_ts_segment`. `fd` is the part of the file that has not been read yet, and `read` returns
fewer bytes than asked for only at the end of the file. -/
def parseTsSegment (stale : Stale) (fd : List Byte) : ParseTs :=
  if fd.take 4 = [] then .eof
  else
    match parseHeader (leWord (fd.take 4)) with
    | .error e => .failed e
    | .ok header =>
      let fd := fd.drop 4
      if h : (fd.take 184).length = 184 then
        let payload : Vector Byte 184 := ⟨(fd.take 184).toArray, by simpa using h⟩
        let segment := { mpegtsSegmentInit stale.segment with header, payload }
        .parsed (parsePayload stale segment).val (fd.drop 184)
      else
        .failed ⟨.EBADFD, "unexpected EOS\n"⟩

/-! ## The adaptation field in closed form -/

/-- Offset of the OPCR: after the flags and the PCR. -/
def opcrAt (flags : Byte) : ℕ := 2 + if isSet flags 0x10#8 then 6 else 0

/-- Offset of the splice countdown. -/
def spliceAt (flags : Byte) : ℕ := opcrAt flags + if isSet flags 0x08#8 then 6 else 0

/-- Offset of the length of the private data. -/
def privateAt (flags : Byte) : ℕ := spliceAt flags + if isSet flags 0x04#8 then 1 else 0

/-- The adaptation field parsed into a block that holds `dest`. -/
def adaptationOf (mem : ℕ → Byte) (dest : TsAdaptField) : TsAdaptField where
  len := mem 0
  discontinuity := isSet (mem 1) 0x80#8
  randAcc := isSet (mem 1) 0x40#8
  prior := isSet (mem 1) 0x20#8
  hasPcr := isSet (mem 1) 0x10#8
  hasOpcr := isSet (mem 1) 0x08#8
  hasSplic := isSet (mem 1) 0x04#8
  hasPrivate := isSet (mem 1) 0x02#8
  adExt := isSet (mem 1) 0x01#8
  pcr := if isSet (mem 1) 0x10#8 then pcrValue mem 2 else dest.pcr
  opcr := if isSet (mem 1) 0x08#8 then pcrValue mem (opcrAt (mem 1)) else dest.opcr
  spliceCount := if isSet (mem 1) 0x04#8 then mem (spliceAt (mem 1)) else dest.spliceCount
  privLen := if isSet (mem 1) 0x02#8 then mem (privateAt (mem 1)) else dest.privLen

theorem privateAt_le (flags : Byte) : privateAt flags ≤ 15 := by
  unfold privateAt spliceAt opcrAt
  split_ifs <;> omega

theorem val_parseAdaptationField (mem : ℕ → Byte) (header : TsHeader) (dest : TsAdaptField) :
    (parseAdaptationField mem header dest).val =
      if header.HasAdaptation then (adaptationOf mem dest, 1 + (mem 0).toNat) else (dest, 0) := by
  unfold parseAdaptationField adaptationOf privateAt spliceAt opcrAt
  by_cases h : header.HasAdaptation
  · rw [if_pos h, if_pos h]
    simp only [val_bind, val_deref, val_pure, Prod.mk.injEq, and_true]
    cases isSet (mem 1) 0x10#8 <;> cases isSet (mem 1) 0x08#8 <;> cases isSet (mem 1) 0x04#8 <;>
      cases isSet (mem 1) 0x02#8 <;> rfl
  · rw [if_neg h, if_neg h]; rfl

/-- The adaptation field is read inside the first sixteen bytes, whatever its lengths say. -/
theorem below_parseAdaptationField (mem : ℕ → Byte) (header : TsHeader) (dest : TsAdaptField) :
    Below 16 (parseAdaptationField mem header dest) := by
  unfold parseAdaptationField
  by_cases h : header.HasAdaptation
  · rw [if_pos h]
    cases h1 : isSet (mem 1) 0x10#8 <;> cases h2 : isSet (mem 1) 0x08#8 <;>
      cases h3 : isSet (mem 1) 0x04#8 <;> cases h4 : isSet (mem 1) 0x02#8 <;>
      simp [readPcr, readOpcr, readSplice, readPrivate, parsePcr, h1, h2, h3, h4]
  · rw [if_neg h]; exact below_pure _ _

/-! ## The PES header in closed form -/

/-- The memory holds the start code `00 00 01` at `data`. -/
def StartCode (mem : ℕ → Byte) (data : ℕ) : Prop :=
  mem data = 0 ∧ mem (data + 1) = 0 ∧ mem (data + 2) = 1

instance (mem : ℕ → Byte) (data : ℕ) : Decidable (StartCode mem data) :=
  inferInstanceAs (Decidable (_ ∧ _ ∧ _))

theorem startWord_eq_one_iff (d0 d1 d2 : Byte) :
    startWord d0 d1 d2 = 1 ↔ d0 = 0 ∧ d1 = 0 ∧ d2 = 1 := by
  constructor
  · intro h
    have hbit : ∀ i, (startWord d0 d1 d2).getLsbD i = (1#32).getLsbD i := fun i => by rw [h]; rfl
    unfold startWord at hbit
    refine ⟨?_, ?_, ?_⟩ <;> apply BitVec.eq_of_getLsbD_eq <;> intro i hi
    · have := hbit (i + 16)
      interval_cases i <;> simpa using this
    · have := hbit (i + 8)
      interval_cases i <;> simpa using this
    · have := hbit i
      interval_cases i <;> simpa using this
  · rintro ⟨rfl, rfl, rfl⟩
    rfl

/-- `PES_packet_length` of the header at `data`. -/
def pesLen (mem : ℕ → Byte) (data : ℕ) : BitVec 16 := lenWord (mem (data + 4)) (mem (data + 5))

/-- `PTS_DTS_flags` of the header at `data`. -/
def pesPtsInd (mem : ℕ → Byte) (data : ℕ) : BitVec 2 := ptsIndWord (mem (data + 7))

/-- The PES header parsed at `data` into a block that holds `block`. -/
def pesOf (mem : ℕ → Byte) (data : ℕ) (block : PesHeader) : PesHeader :=
  if pesLen mem data = 0 then
    { block with streamId := mem (data + 3), len := 0 }
  else
    { block with
      streamId := mem (data + 3)
      len := pesLen mem data
      scramble := ((promote (mem (data + 6)) &&& 0x30#32) >>> 4).setWidth 2
      priority := isSet (mem (data + 6)) 0x8#8
      alignInd := isSet (mem (data + 6)) 0x4#8
      cpRight := isSet (mem (data + 6)) 0x2#8
      original := isSet (mem (data + 6)) 0x1#8
      ptsInd := pesPtsInd mem data
      pesHeaderLen := mem (data + 8)
      pts :=
        if pesPtsInd mem data = 2#2 then (getPesPts mem ptsOnlyMask (data + 9)).val
        else if pesPtsInd mem data = 3#2 then (getPesPts mem ptsMask (data + 9)).val
        else block.pts
      dts :=
        if pesPtsInd mem data = 3#2 then (getPesPts mem dtsMask (data + 14)).val else block.dts }

/-- `payload_start` behind a PES header at `data`. -/
def pesEnd (mem : ℕ → Byte) (data : ℕ) : ℕ :=
  if pesLen mem data = 0 then data + 6 else data + 9 + (mem (data + 8)).toNat

theorem val_parsePesBody (mem : ℕ → Byte) (data : ℕ) (block : PesHeader) :
    (parsePesBody mem data block).val = (some (pesOf mem data block), pesEnd mem data) := by
  unfold parsePesBody pesOf pesEnd pesLen pesPtsInd
  by_cases hl : lenWord (mem (data + 4)) (mem (data + 5)) = 0
  · simp only [val_bind, val_deref, hl, if_true, val_pure]
  · simp only [val_bind, val_deref, hl, if_false, val_pure, readPesFlags, readTimestamps]
    by_cases h2 : ptsIndWord (mem (data + 7)) = 2#2
    · have h3 : ptsIndWord (mem (data + 7)) ≠ 3#2 := by rw [h2]; decide
      simp [h2]
    · by_cases h3 : ptsIndWord (mem (data + 7)) = 3#2
      · simp [h3]
      · simp [h2, h3]

theorem val_parsePesHeader (mem : ℕ → Byte) (data : ℕ) (block : PesHeader) :
    (parsePesHeader mem data block).val =
      if StartCode mem data then (some (pesOf mem data block), pesEnd mem data)
      else (none, data) := by
  unfold parsePesHeader
  by_cases hc : StartCode mem data
  · have hw := (startWord_eq_one_iff ..).mpr hc
    simp only [val_bind, val_deref, hw, ne_eq, not_true, if_false, hc, if_true, val_parsePesBody]
  · have hw : ¬ startWord (mem data) (mem (data + 1)) (mem (data + 2)) = 1 :=
      fun h => hc ((startWord_eq_one_iff ..).mp h)
    simp only [val_bind, val_deref, hw, ne_eq, not_false_iff, if_true, hc, if_false, val_pure]

@[simp] theorem pesOf_streamId (mem : ℕ → Byte) (data : ℕ) (block : PesHeader) :
    (pesOf mem data block).streamId = mem (data + 3) := by
  unfold pesOf
  split_ifs <;> rfl

@[simp] theorem pesOf_len (mem : ℕ → Byte) (data : ℕ) (block : PesHeader) :
    (pesOf mem data block).len = pesLen mem data := by
  unfold pesOf
  by_cases h : pesLen mem data = 0
  · rw [if_pos h, h]
  · rw [if_neg h]

/-- `escr` and the flags after it are never assigned. -/
@[simp] theorem pesOf_escr (mem : ℕ → Byte) (data : ℕ) (block : PesHeader) :
    (pesOf mem data block).escr = block.escr := by
  unfold pesOf
  split_ifs <;> rfl

theorem pesLen_hi (mem : ℕ → Byte) (data : ℕ) :
    (pesLen mem data >>> 8).setWidth 8 = mem (data + 4) := by
  unfold pesLen lenWord
  apply BitVec.eq_of_getLsbD_eq
  intro i hi
  interval_cases i <;> simp

theorem pesLen_lo (mem : ℕ → Byte) (data : ℕ) :
    (pesLen mem data &&& 0xff#16).setWidth 8 = mem (data + 5) := by
  unfold pesLen lenWord
  apply BitVec.eq_of_getLsbD_eq
  intro i hi
  interval_cases i <;> simp

/-! ## Segments in closed form -/

namespace TsPacket

/-- The header of a packet as `parse_header` reads it. -/
def header (p : TsPacket) : TsHeader := headerFields p.word

/-- The segment that `parse_ts_segment` makes of a packet, with the accesses it performs. -/
def parse (p : TsPacket) (stale : Stale) : Logged Segment :=
  parsePayload stale
    { mpegtsSegmentInit stale.segment with header := p.header, payload := p.body }

/-- The segment that `parse_ts_segment` makes of a packet. -/
def segment (p : TsPacket) (stale : Stale) : Segment := (p.parse stale).val

/-- The length byte of the adaptation field. -/
abbrev fieldLen (p : TsPacket) : Byte := p.body[0]

/-- The offset at which `parse_ts_segment` looks for a PES header. -/
def pesAt (p : TsPacket) : ℕ := if p.header.HasAdaptation then 1 + p.fieldLen.toNat else 0

/-- `parse_ts_segment` finds a PES header. Behind a long adaptation field it looks for the start
code past the end of the payload. -/
def HasPes (p : TsPacket) (stale : Stale) : Prop := StartCode (p.memory stale) p.pesAt

instance (p : TsPacket) (stale : Stale) : Decidable (p.HasPes stale) :=
  inferInstanceAs (Decidable (StartCode _ _))

variable (p : TsPacket) (stale : Stale)

theorem memory_of_lt {i : ℕ} (h : i < 184) : p.memory stale i = p.body[i] :=
  MpegtsReader.memory_of_lt h

/-- The cursor that `parse_adaptation_field` hands to `parse_pes_header`. -/
theorem cursor_eq : (parseAdaptationField (p.memory stale) p.header
    stale.segment.adaptationField).val.2 = p.pesAt := by
  rw [val_parseAdaptationField, pesAt, fieldLen, ← p.memory_of_lt stale]
  split_ifs <;> rfl

@[simp] theorem segment_header : (p.segment stale).header = p.header := rfl

@[simp] theorem segment_payload : (p.segment stale).payload = p.body := rfl

theorem segment_adaptationField : (p.segment stale).adaptationField =
    if p.header.HasAdaptation then adaptationOf (p.memory stale) stale.segment.adaptationField
    else stale.segment.adaptationField := by
  change (parseAdaptationField (p.memory stale) p.header stale.segment.adaptationField).val.1 = _
  rw [val_parseAdaptationField]
  split_ifs <;> rfl

theorem segment_pesHeader : (p.segment stale).pesHeader =
    if p.HasPes stale then some (pesOf (p.memory stale) p.pesAt stale.pesHeader) else none := by
  change (parsePesHeader (p.memory stale) (parseAdaptationField (p.memory stale) p.header
    stale.segment.adaptationField).val.2 stale.pesHeader).val.1 = _
  rw [cursor_eq, val_parsePesHeader]
  by_cases h : p.HasPes stale
  · rw [if_pos h, if_pos (show StartCode (p.memory stale) p.pesAt from h)]
  · rw [if_neg h, if_neg (show ¬ StartCode (p.memory stale) p.pesAt from h)]

theorem segment_payloadStart : (p.segment stale).payloadStart =
    if p.HasPes stale then pesEnd (p.memory stale) p.pesAt else p.pesAt := by
  change (parsePesHeader (p.memory stale) (parseAdaptationField (p.memory stale) p.header
    stale.segment.adaptationField).val.2 stale.pesHeader).val.2 = _
  rw [cursor_eq, val_parsePesHeader]
  by_cases h : p.HasPes stale
  · rw [if_pos h, if_pos (show StartCode (p.memory stale) p.pesAt from h)]
  · rw [if_neg h, if_neg (show ¬ StartCode (p.memory stale) p.pesAt from h)]

end TsPacket

end MpegtsReader
