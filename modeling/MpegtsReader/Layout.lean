import MpegtsReader.Framing

/-!
# The layout of a packet

What the bytes of a packet say, read off the packet alone: its well-formedness and the offsets that
the reader and the writer use. The lemmas at the end tie the parsed segment to them; where a field
is not assigned on a path it is tied to the `Stale` memory instead.
-/

namespace MpegtsReader

/-! ## Well-formed packets -/

namespace TsPacket

/-- A byte of the body, zero past its end. -/
def byte (p : TsPacket) (i : ℕ) : Byte := if h : i < 184 then p.body[i] else 0

/-- The flags of the adaptation field. -/
def flags (p : TsPacket) : Byte := p.body[1]

/-- The end of the optional fields of the adaptation field, the extension included. -/
def fieldsEnd (p : TsPacket) : ℕ :=
  let private_ :=
    privateAt p.flags +
      if isSet p.flags 0x02#8 then 1 + (p.byte (privateAt p.flags)).toNat else 0
  private_ + if isSet p.flags 0x01#8 then 1 + (p.byte private_).toNat else 0

/-- The adaptation field of the packet, when it has one, lies inside the packet with all its
optional fields, and the extension of its PCR is below 300. -/
structure WellFormed (p : TsPacket) : Prop where
  inside : p.header.HasAdaptation → p.fieldLen.toNat ≤ 183
  fields : p.header.HasAdaptation → p.fieldLen ≠ 0 → p.fieldsEnd ≤ 1 + p.fieldLen.toNat
  ext : p.header.HasAdaptation → p.fieldLen ≠ 0 → isSet p.flags 0x10#8 →
    (pcrExt (p.byte 6) (p.byte 7)).toNat < 300

instance (p : TsPacket) : Decidable p.WellFormed :=
  decidable_of_iff (_ ∧ _ ∧ _) ⟨fun ⟨a, b, c⟩ => ⟨a, b, c⟩, fun ⟨a, b, c⟩ => ⟨a, b, c⟩⟩

theorem byte_of_lt (p : TsPacket) {i : ℕ} (h : i < 184) : p.byte i = p.body[i] := dif_pos h

/-- A well-formed adaptation field with a PCR is at least seven bytes long. -/
theorem WellFormed.pcr_inside {p : TsPacket} (h : p.WellFormed) (ha : p.header.HasAdaptation)
    (hl : p.fieldLen ≠ 0) (hp : isSet p.flags 0x10#8) : 7 ≤ p.fieldLen.toNat := by
  have hfields := h.fields ha hl
  unfold fieldsEnd privateAt spliceAt opcrAt at hfields
  rw [if_pos hp] at hfields
  dsimp only at hfields
  omega

/-- The length of the private data that the writer adds to its cursor: the byte the reader stored
when the flag is set, what `malloc` returned otherwise. -/
def privLen (p : TsPacket) (stale : Stale) : Byte :=
  if isSet p.flags 0x02#8 then p.byte (privateAt p.flags)
  else stale.segment.adaptationField.privLen

/-- The offset at which `write_ts_segment` patches the PES header. -/
def patchAt (p : TsPacket) (stale : Stale) : ℕ :=
  if p.header.HasAdaptation ∧ p.fieldLen ≠ 0 then p.fieldLen.toNat + 1 + (p.privLen stale).toNat
  else 0

end TsPacket

/-- Memory that holds zeros. -/
def Stale.zeroed : Stale where
  segment := ⟨⟨0, false, false, false, 0, 0, 0, 0⟩,
    ⟨0, false, false, false, false, false, false, false, false, 0, 0, 0, 0⟩,
    Vector.replicate 184 0, none, 0⟩
  beyond := fun _ => 0
  pesHeader := ⟨0, 0, 0, false, false, false, false, 0, false, false, false, false, false, false,
    0, 0, 0⟩

/-- The packet with this header word whose body starts with `start` and is filled up with `ff`. -/
def filled (word : BitVec 32) (sync : word.setWidth 8 = 0x47#8) (start : List Byte) : TsPacket where
  word := word
  body := ⟨((start ++ List.replicate 184 0xff#8).take 184).toArray, by
    rw [List.size_toArray, List.length_take, List.length_append, List.length_replicate]
    omega⟩
  sync := sync

/-- A packet of PID 0x100 that holds nothing but payload. -/
def clearPacket : TsPacket := filled 0x10000147#32 (by decide) []

/-- The same packet, scrambled with the even key. -/
def scrambledPacket : TsPacket := filled 0x90000147#32 (by decide) []

/-- A packet that starts a unit: an adaptation field with a PCR and a PES header with a PTS. -/
def clockPacket : TsPacket := filled 0x30004147#32 (by decide)
  [7, 0x10, 0, 0, 0, 1, 0x7e, 0, 0, 0, 1, 0xe0, 0, 20, 0x80, 0x80, 5, 0x21, 0, 1, 0, 3]

/-- A packet with one byte of private data in front of its PES header. -/
def privatePacket : TsPacket := filled 0x30004147#32 (by decide)
  [3, 2, 1, 0xaa, 0, 0, 1, 0xe0, 0, 0]

/-! ## The parsed segment -/

namespace TsPacket

variable (p : TsPacket) (stale : Stale)

theorem memory_eq_byte {i : ℕ} (h : i < 184) : p.memory stale i = p.byte i := by
  rw [p.memory_of_lt stale h, p.byte_of_lt h]

theorem pcrValue_memory {data : ℕ} (h : data + 5 < 184) :
    pcrValue (p.memory stale) data = pcrValue p.byte data := by
  unfold pcrValue
  simp only [memory_eq_byte p stale (show data < 184 by omega),
    memory_eq_byte p stale (show data + 1 < 184 by omega),
    memory_eq_byte p stale (show data + 2 < 184 by omega),
    memory_eq_byte p stale (show data + 3 < 184 by omega),
    memory_eq_byte p stale (show data + 4 < 184 by omega), memory_eq_byte p stale h]

section Present

variable {p} (h : p.header.HasAdaptation)
include h

theorem segment_len : (p.segment stale).adaptationField.len = p.fieldLen := by
  rw [segment_adaptationField, if_pos h]
  exact p.memory_of_lt stale (i := 0) (by omega)

theorem segment_randAcc : (p.segment stale).adaptationField.randAcc = isSet p.flags 0x40#8 := by
  rw [segment_adaptationField, if_pos h, flags, ← p.memory_of_lt stale (i := 1) (by omega)]
  rfl

theorem segment_hasPcr : (p.segment stale).adaptationField.hasPcr = isSet p.flags 0x10#8 := by
  rw [segment_adaptationField, if_pos h, flags, ← p.memory_of_lt stale (i := 1) (by omega)]
  rfl

theorem segment_pcr (hp : isSet p.flags 0x10#8) :
    (p.segment stale).adaptationField.pcr = pcrValue p.byte 2 := by
  rw [segment_adaptationField, if_pos h, ← p.pcrValue_memory stale (by omega)]
  rw [flags, ← p.memory_of_lt stale (i := 1) (by omega)] at hp
  exact if_pos hp

theorem segment_privLen : (p.segment stale).adaptationField.privLen = p.privLen stale := by
  have hle := privateAt_le p.flags
  rw [segment_adaptationField, if_pos h, privLen, ← p.memory_eq_byte stale (by omega), flags,
    ← p.memory_of_lt stale (i := 1) (by omega)]
  rfl

end Present

theorem segment_stale (h : ¬ p.header.HasAdaptation) :
    (p.segment stale).adaptationField = stale.segment.adaptationField := by
  rw [segment_adaptationField, if_neg h]

/-- `rand_acc` of the parsed segment: the flag of an adaptation field that is there, what `malloc`
returned otherwise. -/
def heldRandAcc : Bool :=
  if p.header.HasAdaptation then isSet p.flags 0x40#8 else stale.segment.adaptationField.randAcc

/-- `has_pcr` of the parsed segment. -/
def heldHasPcr : Bool :=
  if p.header.HasAdaptation then isSet p.flags 0x10#8 else stale.segment.adaptationField.hasPcr

/-- `pcr` of a parsed segment with `has_pcr`. -/
def heldPcr : BitVec 64 :=
  if p.header.HasAdaptation then pcrValue p.byte 2 else stale.segment.adaptationField.pcr

/-- `pes_header->pts` of a parsed segment with a PES header. -/
def heldPts : BitVec 64 := (pesOf (p.memory stale) p.pesAt stale.pesHeader).pts

theorem segment_heldRandAcc : (p.segment stale).adaptationField.randAcc = p.heldRandAcc stale := by
  unfold heldRandAcc
  by_cases h : p.header.HasAdaptation
  · rw [if_pos h, segment_randAcc stale h]
  · rw [if_neg h, segment_stale p stale h]

theorem segment_heldHasPcr : (p.segment stale).adaptationField.hasPcr = p.heldHasPcr stale := by
  unfold heldHasPcr
  by_cases h : p.header.HasAdaptation
  · rw [if_pos h, segment_hasPcr stale h]
  · rw [if_neg h, segment_stale p stale h]

theorem segment_heldPcr (hp : p.heldHasPcr stale) :
    (p.segment stale).adaptationField.pcr = p.heldPcr stale := by
  unfold heldPcr
  unfold heldHasPcr at hp
  by_cases h : p.header.HasAdaptation
  · rw [if_pos h] at hp ⊢
    exact segment_pcr stale h hp
  · rw [if_neg h, segment_stale p stale h]

/-- The offset that the writer recomputes for a parsed segment. -/
theorem patchAt_segment : MpegtsReader.patchAt (p.segment stale) = p.patchAt stale := by
  unfold MpegtsReader.patchAt patchAt
  rw [segment_header]
  by_cases h : p.header.HasAdaptation
  · rw [segment_len stale h, segment_privLen stale h]
  · rw [if_neg (fun h' => h h'.1), if_neg (fun h' => h h'.1)]

/-- Behind an adaptation field of length zero a start code leaves no flag set. -/
theorem flags_of_hasPes (hl : p.fieldLen = 0) (ha : p.header.HasAdaptation)
    (hpes : p.HasPes stale) : p.flags = 0 := by
  have hat : p.pesAt = 1 := by rw [pesAt, if_pos ha, hl]; rfl
  have h := hpes.1
  rw [hat, p.memory_of_lt stale (by omega)] at h
  exact h

/-- The byte `k` of the stored PES header is the byte that was read at offset `k`. -/
theorem pesByte_pesOf (hpes : p.HasPes stale) {k : ℕ} (hk : 2 ≤ k) (hk' : k ≤ 5) :
    pesByte (pesOf (p.memory stale) p.pesAt stale.pesHeader) k = p.memory stale (p.pesAt + k) := by
  unfold pesByte
  interval_cases k
  · exact hpes.2.2.symm
  · exact pesOf_streamId _ _ _
  · simp only [pesOf_len]; exact pesLen_hi _ _
  · simp only [pesOf_len]; exact pesLen_lo _ _

end TsPacket

end MpegtsReader
