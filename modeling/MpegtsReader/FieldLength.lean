import MpegtsReader.Confined

/-!
# The length of the adaptation field

`adaptation_field_length` bounds the field, and the reader's cursor and the writer's are both
computed from it. The reader takes flags and optional fields without a look at the length, so that a
short field is completed with what follows it (`fieldOnly_iff`); the writer adds the length of the
private data once more and has no length byte in a field of length zero (`offsetsAgree_iff`).
-/

namespace MpegtsReader

open Buffer

/-! ## What is read of the field -/

/-- The end of the bytes that `parse_adaptation_field` reads when it finds these flags. -/
def readEnd (flags : Byte) : ℕ := privateAt flags + if isSet flags 0x02#8 then 1 else 0

theorem readEnd_le (flags : Byte) : readEnd flags ≤ 16 := by
  have := privateAt_le flags
  unfold readEnd
  split_ifs <;> omega

theorem two_le_opcrAt (flags : Byte) : 2 ≤ opcrAt flags := Nat.le_add_right ..

theorem opcrAt_le_spliceAt (flags : Byte) : opcrAt flags ≤ spliceAt flags := Nat.le_add_right ..

theorem spliceAt_le_privateAt (flags : Byte) : spliceAt flags ≤ privateAt flags :=
  Nat.le_add_right ..

theorem privateAt_le_readEnd (flags : Byte) : privateAt flags ≤ readEnd flags :=
  Nat.le_add_right ..

theorem two_le_readEnd (flags : Byte) : 2 ≤ readEnd flags :=
  (two_le_opcrAt flags).trans <| (opcrAt_le_spliceAt flags).trans <|
    (spliceAt_le_privateAt flags).trans (privateAt_le_readEnd flags)

theorem pcrValue_congr {mem mem' : ℕ → Byte} {data : ℕ}
    (h : ∀ k < 6, mem (data + k) = mem' (data + k)) : pcrValue mem data = pcrValue mem' data := by
  unfold pcrValue
  rw [show mem data = mem' data from h 0 (by omega), h 1 (by omega), h 2 (by omega),
    h 3 (by omega), h 4 (by omega), h 5 (by omega)]

/-- What is stored is a function of the bytes in front of `readEnd`. -/
theorem adaptationOf_congr {mem mem' : ℕ → Byte} (dest : TsAdaptField)
    (h : ∀ i < readEnd (mem 1), mem i = mem' i) :
    adaptationOf mem dest = adaptationOf mem' dest := by
  have hend := two_le_readEnd (mem 1)
  have hflags : mem' 1 = mem 1 := (h 1 (by omega)).symm
  have h1 := two_le_opcrAt (mem 1)
  have h2 := opcrAt_le_spliceAt (mem 1)
  have h3 := spliceAt_le_privateAt (mem 1)
  have h4 := privateAt_le_readEnd (mem 1)
  have hpcr : (if isSet (mem 1) 0x10#8 then pcrValue mem 2 else dest.pcr) =
      if isSet (mem 1) 0x10#8 then pcrValue mem' 2 else dest.pcr := by
    split_ifs with hp
    · have hlast : opcrAt (mem 1) = 2 + 6 := by rw [opcrAt, if_pos hp]
      exact pcrValue_congr fun k hk => h (2 + k) (by omega)
    · rfl
  have hopcr : (if isSet (mem 1) 0x08#8 then pcrValue mem (opcrAt (mem 1)) else dest.opcr) =
      if isSet (mem 1) 0x08#8 then pcrValue mem' (opcrAt (mem 1)) else dest.opcr := by
    split_ifs with hp
    · have hlast : spliceAt (mem 1) = opcrAt (mem 1) + 6 := by rw [spliceAt, if_pos hp]
      exact pcrValue_congr fun k hk => h (opcrAt (mem 1) + k) (by omega)
    · rfl
  have hsplice : (if isSet (mem 1) 0x04#8 then mem (spliceAt (mem 1)) else dest.spliceCount) =
      if isSet (mem 1) 0x04#8 then mem' (spliceAt (mem 1)) else dest.spliceCount := by
    split_ifs with hp
    · have hlast : privateAt (mem 1) = spliceAt (mem 1) + 1 := by rw [privateAt, if_pos hp]
      exact h (spliceAt (mem 1)) (by omega)
    · rfl
  have hpriv : (if isSet (mem 1) 0x02#8 then mem (privateAt (mem 1)) else dest.privLen) =
      if isSet (mem 1) 0x02#8 then mem' (privateAt (mem 1)) else dest.privLen := by
    split_ifs with hp
    · have hlast : readEnd (mem 1) = privateAt (mem 1) + 1 := by rw [readEnd, if_pos hp]
      exact h (privateAt (mem 1)) (by omega)
    · rfl
  unfold adaptationOf
  rw [hflags, h 0 (by omega), hpcr, hopcr, hsplice, hpriv]

/-- The sixth byte of a clock reference counts. -/
theorem pcrValue_last {mem mem' : ℕ → Byte} {data : ℕ}
    (h : ∀ k < 5, mem (data + k) = mem' (data + k)) (hv : pcrValue mem data = pcrValue mem' data) :
    mem (data + 5) = mem' (data + 5) := by
  unfold pcrValue at hv
  rw [show mem data = mem' data from h 0 (by omega), h 1 (by omega), h 2 (by omega),
    h 3 (by omega), h 4 (by omega)] at hv
  have hext := (BitVec.add_right_inj _).mp hv
  apply BitVec.eq_of_getLsbD_eq
  intro i hi
  have hbit := congrArg (fun x : BitVec 64 => x.getLsbD i) hext
  simp only [getLsbD_pcrExt _ _ (show i < 64 by omega), if_pos hi] at hbit
  exact hbit

/-- The last byte that is read counts, whatever it is. -/
theorem adaptationOf_last {mem mem' : ℕ → Byte} {dest : TsAdaptField} {last : ℕ}
    (hend : last + 1 = readEnd (mem 1)) (hlast : 2 ≤ last) (h : ∀ i < last, mem i = mem' i)
    (heq : adaptationOf mem dest = adaptationOf mem' dest) : mem last = mem' last := by
  have hflags : mem' 1 = mem 1 := (h 1 (by omega)).symm
  unfold readEnd at hend
  by_cases hpriv : isSet (mem 1) 0x02#8
  · rw [if_pos hpriv] at hend
    have hfield := congrArg TsAdaptField.privLen heq
    simp only [adaptationOf, hflags, if_pos hpriv] at hfield
    rwa [show privateAt (mem 1) = last by omega] at hfield
  · rw [if_neg hpriv, privateAt] at hend
    by_cases hsplice : isSet (mem 1) 0x04#8
    · rw [if_pos hsplice] at hend
      have hfield := congrArg TsAdaptField.spliceCount heq
      simp only [adaptationOf, hflags, if_pos hsplice] at hfield
      rwa [show spliceAt (mem 1) = last by omega] at hfield
    · rw [if_neg hsplice, spliceAt] at hend
      by_cases hopcr : isSet (mem 1) 0x08#8
      · rw [if_pos hopcr] at hend
        have hfield := congrArg TsAdaptField.opcr heq
        simp only [adaptationOf, hflags, if_pos hopcr] at hfield
        have hsixth := pcrValue_last (fun k hk => h _ (by omega)) hfield
        rwa [show opcrAt (mem 1) + 5 = last by omega] at hsixth
      · rw [if_neg hopcr, opcrAt] at hend
        by_cases hpcr : isSet (mem 1) 0x10#8
        · rw [if_pos hpcr] at hend
          have hfield := congrArg TsAdaptField.pcr heq
          simp only [adaptationOf, hflags, if_pos hpcr] at hfield
          have hsixth := pcrValue_last (fun k hk => h _ (by omega)) hfield
          rwa [show 2 + 5 = last by omega] at hsixth
        · rw [if_neg hpcr] at hend
          omega

/-! ## Packets with the same field -/

/-- The packets have the same header word and the same adaptation field. -/
structure SameField (p q : TsPacket) : Prop where
  word : q.word = p.word
  field : ∀ i (hi : i < 184), i ≤ p.fieldLen.toNat → q.body[i] = p.body[i]

/-- What `parse_adaptation_field` stores in the segment of a packet. -/
def storedField (p : TsPacket) (stale : Stale) : TsAdaptField :=
  (parseAdaptationField (p.memory stale) p.header stale.segment.adaptationField).val.1

/-- The adaptation field alone decides what is stored: in a segment that holds the same before, the
same is stored for every packet with that field. -/
def FieldOnly (p : TsPacket) : Prop :=
  ∀ q, SameField p q → ∀ stale stale' : Stale,
    stale'.segment.adaptationField = stale.segment.adaptationField →
      storedField q stale' = storedField p stale

theorem storedField_eq {p : TsPacket} (h : p.header.HasAdaptation) (stale : Stale) :
    storedField p stale = adaptationOf (p.memory stale) stale.segment.adaptationField := by
  unfold storedField
  rw [val_parseAdaptationField, if_pos h]

/-- The packet with the top bit of one byte flipped. -/
def flipTop (p : TsPacket) (i : ℕ) (hi : i < 184) : TsPacket :=
  { p with body := p.body.set i (p.body[i] ^^^ 0x80#8) }

theorem xor_top_ne (b : Byte) : b ^^^ 0x80#8 ≠ b := by
  revert b
  decide

theorem isSet_xor_top (b : Byte) : isSet (b ^^^ 0x80#8) 0x80#8 = !isSet b 0x80#8 := by
  revert b
  decide

theorem sameField_flipTop {p : TsPacket} {i : ℕ} (hi : i < 184) (hout : p.fieldLen.toNat < i) :
    SameField p (flipTop p i hi) :=
  ⟨rfl, fun j hj hle => Vector.getElem_set_ne hi hj (by omega)⟩

theorem FieldOnly.readEnd_le {p : TsPacket} (h : FieldOnly p) (ha : p.header.HasAdaptation) :
    readEnd p.flags ≤ 1 + p.fieldLen.toNat := by
  by_contra hshort
  have hle := MpegtsReader.readEnd_le p.flags
  have hflags : p.memory .zeroed 1 = p.flags := p.memory_of_lt _ (by omega)
  by_cases hzero : p.fieldLen.toNat = 0
  · -- the flags themselves are behind the field
    have hstored := h _ (sameField_flipTop (i := 1) (by omega) (by omega)) .zeroed .zeroed rfl
    rw [storedField_eq (p := flipTop p 1 _) ha, storedField_eq ha] at hstored
    have hdisc := congrArg TsAdaptField.discontinuity hstored
    have hflip : (flipTop p 1 (by omega)).memory .zeroed 1 = p.flags ^^^ 0x80#8 := by
      rw [TsPacket.memory_of_lt _ _ (by omega)]
      exact Vector.getElem_set_self _
    simp only [adaptationOf, hflip, hflags, isSet_xor_top] at hdisc
    cases hbit : isSet p.flags 0x80#8 <;> rw [hbit] at hdisc <;> cases hdisc
  · obtain ⟨last, hlast⟩ : ∃ last, last + 1 = readEnd p.flags :=
      ⟨readEnd p.flags - 1, by omega⟩
    have hin : last < 184 := by omega
    have hstored := h _ (sameField_flipTop (i := last) hin (by omega)) .zeroed .zeroed rfl
    rw [storedField_eq (p := flipTop p last _) ha, storedField_eq ha] at hstored
    have hsame := adaptationOf_last (by rw [hflags]; exact hlast) (by omega) (fun i hi => ?_)
      hstored.symm
    · rw [p.memory_of_lt _ hin, TsPacket.memory_of_lt _ _ hin] at hsame
      exact xor_top_ne _ (hsame.trans (Vector.getElem_set_self _)).symm
    · rw [p.memory_of_lt _ (by omega), TsPacket.memory_of_lt _ _ (by omega)]
      exact (Vector.getElem_set_ne hin (by omega) (by omega)).symm

/-- **Nothing behind the field.** The bytes behind an adaptation field have no part in what is
stored for it exactly when its flags and the fields they announce lie inside it. -/
theorem fieldOnly_iff (p : TsPacket) :
    FieldOnly p ↔ (p.header.HasAdaptation → readEnd p.flags ≤ 1 + p.fieldLen.toNat) := by
  refine ⟨fun h ha => h.readEnd_le ha, fun h q hq stale stale' hdest => ?_⟩
  have hheader : q.header = p.header := by
    unfold TsPacket.header
    rw [hq.word]
  by_cases ha : p.header.HasAdaptation
  · have hend := h ha
    have hle := readEnd_le p.flags
    have hflags : q.memory stale' 1 = p.flags := by
      have := two_le_readEnd p.flags
      rw [q.memory_of_lt _ (by omega)]
      exact hq.field 1 (by omega) (by omega)
    rw [storedField_eq (hheader ▸ ha), storedField_eq ha, hdest]
    refine adaptationOf_congr _ fun i hi => ?_
    rw [hflags] at hi
    rw [q.memory_of_lt _ (by omega), p.memory_of_lt _ (by omega)]
    exact hq.field i (by omega) (by omega)
  · unfold storedField
    rw [val_parseAdaptationField, val_parseAdaptationField, if_neg (hheader ▸ ha), if_neg ha]
    exact hdest

/-- One byte of stuffing in front of a payload. -/
def stuffedPacket : TsPacket := filled 0x30000147#32 (by decide) [0, 0x10]

/-- The first byte behind a field of length zero is taken for its flags. -/
theorem not_fieldOnly_stuffedPacket :
    ¬ ∀ p : TsPacket, p.header.HasAdaptation → p.fieldLen.toNat ≤ 183 → FieldOnly p := by
  intro h
  have hend := (h stuffedPacket (by decide) (by decide)).readEnd_le (by decide)
  exact absurd hend (by decide)

/-! ## The offset behind the field -/

/-- The writer stands where the reader stood behind the adaptation field, and a PES header that was
read inside the packet is written over its own bytes, but for the two zeros of its start code. -/
structure OffsetsAgree (p : TsPacket) (stale : Stale) : Prop where
  cursor : (writeAdaptationField (p.segment stale) 0).2 =
    (parseAdaptationField (p.memory stale) p.header stale.segment.adaptationField).val.2
  pes : (p.segment stale).pesHeader.isSome → p.pesAt + 5 < 184 →
    (writePesHeader (p.segment stale) (writeAdaptationField (p.segment stale) 0).2).1.map Prod.fst =
      [p.pesAt + 2, p.pesAt + 3, p.pesAt + 4, p.pesAt + 5]

/-- The two offsets, from the bytes of the packet and the memory. -/
theorem patchAt_eq_pesAt_iff (p : TsPacket) (stale : Stale) :
    p.patchAt stale = p.pesAt ↔
      (p.header.HasAdaptation → p.fieldLen ≠ 0 ∧ p.privLen stale = 0) := by
  unfold TsPacket.patchAt TsPacket.pesAt
  by_cases ha : p.header.HasAdaptation
  · by_cases hl : p.fieldLen = 0
    · rw [if_neg fun h => h.2 hl, if_pos ha]
      exact ⟨fun h => absurd h (by omega), fun h => absurd hl (h ha).1⟩
    · rw [if_pos ⟨ha, hl⟩, if_pos ha]
      constructor
      · intro h _
        have hzero : (p.privLen stale).toNat = 0 := by omega
        exact ⟨hl, BitVec.eq_of_toNat_eq hzero⟩
      · intro h
        have hzero : (p.privLen stale).toNat = 0 := by rw [(h ha).2]; rfl
        omega
  · rw [if_neg fun h => ha h.1, if_neg ha]
    exact ⟨fun _ h => absurd h ha, fun _ => rfl⟩

/-- **Offsets of reader and writer.** The two agree exactly when a packet with an adaptation field
has one of non-zero length and the segment holds no length of private data. -/
theorem offsetsAgree_iff (p : TsPacket) (stale : Stale) :
    OffsetsAgree p stale ↔ (p.header.HasAdaptation → p.fieldLen ≠ 0 ∧ p.privLen stale = 0) := by
  rw [← patchAt_eq_pesAt_iff, ← TsPacket.patchAt_segment, ← p.cursor_eq stale]
  have hcursor : (writeAdaptationField (p.segment stale) 0).2 = patchAt (p.segment stale) := by
    rw [writeAdaptationField_eq]
  refine ⟨fun h => hcursor ▸ h.cursor, fun h => ⟨hcursor.trans h, fun hsome _ => ?_⟩⟩
  obtain ⟨header, hheader⟩ := Option.isSome_iff_exists.mp hsome
  rw [hcursor, h, p.cursor_eq stale, writePesHeader, hheader]
  rfl

/-- Private data is counted twice. -/
theorem not_offsetsAgree_privatePacket :
    ¬ ∀ (p : TsPacket) (stale : Stale), p.WellFormed → OffsetsAgree p stale := by
  intro h
  have hcursor := (h privatePacket .zeroed (by decide)).cursor
  rw [writeAdaptationField_eq, TsPacket.patchAt_segment, privatePacket.cursor_eq] at hcursor
  exact absurd hcursor (by decide)

end MpegtsReader
