import MpegtsReader.Edits

/-!
# What an edited stream changes in its packets

The frame of the editing passes. A payload that is written after some passes may differ from the one
read in the random access bit and the PCR of an adaptation field that carries them, and in the
length of the PES header; `EditConfined` is the exact condition on a packet, and on the memory its
segment is allocated in, under which nothing else ever changes (`runPasses_confined_iff`). An edited
segment is confined by what its own fields are (`writes_confined_iff`), and the passes reach four
kinds of them.
-/

namespace MpegtsReader

open Buffer

/-- The payload that `write_ts_segment` writes for a segment. -/
def writtenPayload (segment : Segment) : Option (Vector Byte 184) :=
  (writeTsSegment segment).map fun r => r.1.payload

theorem writtenPayload_eq (segment : Segment) :
    writtenPayload segment = patch segment.payload (payloadStores segment) := by
  unfold writtenPayload writeTsSegment
  cases patch segment.payload (payloadStores segment) <;> rfl

/-! ## The frame -/

namespace TsPacket

variable (p : TsPacket) (stale : Stale)

/-- The packet has an adaptation field with flags. -/
def CarriesFlags : Prop := p.header.HasAdaptation ∧ p.fieldLen ≠ 0

/-- The packet has an adaptation field with a PCR inside. -/
def CarriesPcr : Prop := p.CarriesFlags ∧ isSet p.flags 0x10#8 ∧ 7 ≤ p.fieldLen.toNat

/-- The bytes of the body that the passes are there to change: the PCR, and the length of the PES
header where `parse_pes_header` found it. -/
def MayChange (j : ℕ) : Prop :=
  p.CarriesPcr ∧ 2 ≤ j ∧ j ≤ 7 ∨ p.HasPes stale ∧ (j = p.pesAt + 4 ∨ j = p.pesAt + 5)

/-- `body` is the body of the packet but for the bytes that may change and the random access bit of
an adaptation field with flags. -/
def Confined (body : Vector Byte 184) : Prop :=
  ∀ j (hj : j < 184), ¬ p.MayChange stale j → body[j] = p.body[j] ∨
    j = 1 ∧ p.CarriesFlags ∧ body[j] &&& 0xbf#8 = p.body[j] &&& 0xbf#8

/-- A clock reference that the passes may leave in the segment. -/
def PcrToWrite (v : BitVec 64) : Prop :=
  v = p.heldPcr stale ∨ p.HasPes stale ∧ p.heldPts stale ≠ 0 ∧ v = p.heldPts stale * 300

end TsPacket

/-- No sequence of passes makes the writer change a byte outside the frame. -/
structure EditConfined (stale : Stale) (p : TsPacket) : Prop where
  /-- A random access bit that is set in a packet without flags is set already. -/
  randAcc : ¬ p.CarriesFlags →
    p.heldRandAcc stale ∨ p.header.pusi ∧ p.heldHasPcr stale → p.flags.getLsbD 6 = true
  /-- A PCR that is written into a packet without one finds its bytes already there. -/
  pcr : ¬ p.CarriesPcr → p.heldHasPcr stale → ∀ v, p.PcrToWrite stale v →
    ∀ j < 6, (p.HasPes stale → 4 ≤ j) → pcrByte v j (p.byte (2 + j)) = p.byte (2 + j)
  /-- The PES header is written inside the payload, over its own length bytes and otherwise over
  bytes equal to those that were read, also when its length is cleared. -/
  pes : p.HasPes stale → p.patchAt stale + 5 < 184 ∧ ∀ k, 2 ≤ k → k ≤ 5 →
    p.patchAt stale + k = p.pesAt + 4 ∨ p.patchAt stale + k = p.pesAt + 5 ∨
      p.byte (p.patchAt stale + k) = p.memory stale (p.pesAt + k) ∧
        (4 ≤ k → p.byte (p.patchAt stale + k) = 0)

/-! ## One segment -/

/-- What the fields of an edited segment must be for its write to stay inside the frame. -/
structure WriteConfined (stale : Stale) (p : TsPacket) (s : Segment) : Prop where
  randAcc : ¬ p.CarriesFlags → s.adaptationField.randAcc → p.flags.getLsbD 6 = true
  pcr : ¬ p.CarriesPcr → p.heldHasPcr stale → ∀ j < 6, (p.HasPes stale → 4 ≤ j) →
    pcrByte s.adaptationField.pcr j (p.byte (2 + j)) = p.byte (2 + j)
  pes : ∀ header, s.pesHeader = some header → p.patchAt stale + 5 < 184 ∧ ∀ k, 2 ≤ k → k ≤ 5 →
    p.patchAt stale + k = p.pesAt + 4 ∨ p.patchAt stale + k = p.pesAt + 5 ∨
      pesByte header k = p.byte (p.patchAt stale + k)

section Segment

variable {p : TsPacket} {stale : Stale} {s : Segment}

theorem Edited.patchAt_eq (he : Edited (p.segment stale) s) : patchAt s = p.patchAt stale := by
  have hctrl : s.header.HasAdaptation ↔ (p.segment stale).header.HasAdaptation := by
    unfold TsHeader.HasAdaptation
    rw [he.ctrl]
  rw [← TsPacket.patchAt_segment]
  simp only [patchAt, hctrl, he.len, he.privLen]

theorem Edited.isSome_pesHeader (he : Edited (p.segment stale) s) :
    s.pesHeader.isSome ↔ p.HasPes stale := by
  rw [← TsPacket.isSome_segment_pesHeader]
  rcases he.pesHeader with h | h <;> rw [h]
  rw [Option.isSome_map]

/-- A PCR that the packet does not carry and a PES header meet only at the start of the payload. -/
theorem offsets_of_pcr (hw : p.WellFormed) (hnot : ¬ p.CarriesPcr) (hp : p.heldHasPcr stale)
    (hpes : p.HasPes stale) : p.patchAt stale = 0 ∧ p.pesAt = 0 := by
  unfold TsPacket.heldHasPcr at hp
  by_cases ha : p.header.HasAdaptation
  · rw [if_pos ha] at hp
    by_cases hl : p.fieldLen = 0
    · rw [TsPacket.flags_of_hasPes p stale hl ha hpes] at hp
      exact absurd hp (by decide)
    · exact absurd ⟨⟨ha, hl⟩, hp, hw.pcr_inside ha hl hp⟩ hnot
  · constructor
    · rw [TsPacket.patchAt, if_neg fun h => ha h.1]
    · rw [TsPacket.pesAt, if_neg ha]

/-- A PCR of the packet lies before the PES header that is written. -/
theorem patchAt_of_carriesPcr (stale : Stale) (h : p.CarriesPcr) : 8 ≤ p.patchAt stale := by
  obtain ⟨hf, -, hlen⟩ := h
  rw [TsPacket.patchAt, if_pos ⟨hf.1, hf.2⟩]
  omega

theorem randAcc_masked (b : Byte) : (b ||| 0x40#8) &&& 0xbf#8 = b &&& 0xbf#8 := by
  revert b
  decide

/-- The bytes of the payload written for an edited segment. -/
theorem Edited.writtenPayload_iff (he : Edited (p.segment stale) s) {body : Vector Byte 184} :
    writtenPayload s = some body ↔ (p.HasPes stale → p.patchAt stale + 5 < 184) ∧
      ∀ j (hj : j < 184), body[j] = effect (segmentPesStores s) j
        (effect (adaptationStores s.adaptationField 0) j p.body[j]) := by
  have hpayload : s.payload = p.body := he.payload
  rw [writtenPayload_eq, patch_payloadStores_eq_some_iff, he.isSome_pesHeader, he.patchAt_eq,
    hpayload]

theorem WriteConfined.of_confined (hw : p.WellFormed) (he : Edited (p.segment stale) s)
    {body : Vector Byte 184} (hbody : writtenPayload s = some body) (hc : p.Confined stale body) :
    WriteConfined stale p s := by
  obtain ⟨hin, hb⟩ := he.writtenPayload_iff.mp hbody
  constructor
  · intro hnot hra
    have hfree : ¬ p.MayChange stale 1 := by
      rintro (⟨-, h, -⟩ | ⟨-, h | h⟩) <;> omega
    have hkept : body[1] = p.body[1] := by
      rcases hc 1 (by omega) hfree with h | ⟨-, h, -⟩
      · exact h
      · exact absurd h hnot
    have hone := hb 1 (by omega)
    rw [effect_segmentPesStores_of_not (fun _ => Or.inl (by omega)), effect_adaptationStores_one,
      if_pos hra, hkept] at hone
    exact (or_bit6_eq_self_iff _).mp hone.symm
  · intro hnot hp j hj hlate
    have hat : p.HasPes stale → p.patchAt stale = 0 ∧ p.pesAt = 0 := offsets_of_pcr hw hnot hp
    have hfree : ¬ p.MayChange stale (2 + j) := by
      rintro (⟨h, -⟩ | ⟨hpes, h⟩)
      · exact hnot h
      · have := hlate hpes
        have := (hat hpes).2
        omega
    have hkept : body[2 + j] = p.body[2 + j] := by
      rcases hc (2 + j) (by omega) hfree with h | ⟨h, -⟩
      · exact h
      · omega
    have hpcr := hb (2 + j) (by omega)
    have hout : s.pesHeader.isSome → 2 + j < patchAt s + 2 ∨ patchAt s + 5 < 2 + j := by
      intro hsome
      have hpes := he.isSome_pesHeader.mp hsome
      rw [he.patchAt_eq, (hat hpes).1]
      have := hlate hpes
      omega
    have hflag : s.adaptationField.hasPcr := by
      rw [he.hasPcr, TsPacket.segment_heldHasPcr]
      exact hp
    rw [effect_segmentPesStores_of_not hout, effect_adaptationStores_pcr _ hj, if_pos hflag,
      hkept] at hpcr
    rw [p.byte_of_lt (by omega)]
    exact hpcr.symm
  · intro header hheader
    have hpes : p.HasPes stale := he.isSome_pesHeader.mp (by rw [hheader]; rfl)
    have hlt := hin hpes
    refine ⟨hlt, fun k hk2 hk5 => ?_⟩
    by_cases h4 : p.patchAt stale + k = p.pesAt + 4
    · exact Or.inl h4
    · by_cases h5 : p.patchAt stale + k = p.pesAt + 5
      · exact Or.inr (Or.inl h5)
      · refine Or.inr (Or.inr ?_)
        have hfree : ¬ p.MayChange stale (p.patchAt stale + k) := by
          rintro (⟨h, -, h7⟩ | ⟨-, h | h⟩)
          · have := patchAt_of_carriesPcr stale h
            omega
          · exact h4 h
          · exact h5 h
        have hkept : body[p.patchAt stale + k] = p.body[p.patchAt stale + k] := by
          rcases hc _ (by omega) hfree with h | ⟨h, -⟩
          · exact h
          · omega
        rw [p.byte_of_lt (by omega), ← hkept, hb, ← effect_segmentPesStores hheader hk2 hk5,
          he.patchAt_eq]

/-- A byte that the PES header is not written to. -/
theorem WriteConfined.adaptation_byte (hw : p.WellFormed) (he : Edited (p.segment stale) s)
    (hs : WriteConfined stale p s) {j : ℕ} (hj : j < 184) (hfree : ¬ p.MayChange stale j)
    (hout : s.pesHeader.isSome → j < patchAt s + 2 ∨ patchAt s + 5 < j) :
    effect (adaptationStores s.adaptationField 0) j p.body[j] = p.body[j] ∨
      j = 1 ∧ p.CarriesFlags ∧
        effect (adaptationStores s.adaptationField 0) j p.body[j] &&& 0xbf#8 =
          p.body[j] &&& 0xbf#8 := by
  by_cases hfar : j = 0 ∨ 7 < j
  · exact Or.inl (effect_adaptationStores_of_not hfar _)
  · by_cases h1 : j = 1
    · subst h1
      rw [effect_adaptationStores_one]
      by_cases hra : s.adaptationField.randAcc
      · rw [if_pos hra]
        by_cases hf : p.CarriesFlags
        · exact Or.inr ⟨rfl, hf, randAcc_masked _⟩
        · exact Or.inl ((or_bit6_eq_self_iff _).mpr (hs.randAcc hf hra))
      · rw [if_neg hra]
        exact Or.inl rfl
    · obtain ⟨i, rfl⟩ : ∃ i, j = 2 + i := ⟨j - 2, by omega⟩
      rw [effect_adaptationStores_pcr _ (by omega)]
      by_cases hp : s.adaptationField.hasPcr
      · rw [if_pos hp]
        rw [he.hasPcr, TsPacket.segment_heldHasPcr] at hp
        by_cases hcarries : p.CarriesPcr
        · exact absurd (Or.inl ⟨hcarries, by omega, by omega⟩) hfree
        · have hlate : p.HasPes stale → 4 ≤ i := by
            intro hpes
            have hat := (offsets_of_pcr hw hcarries hp hpes).1
            have := hout (he.isSome_pesHeader.mpr hpes)
            rw [he.patchAt_eq, hat] at this
            omega
          have := hs.pcr hcarries hp i (by omega) hlate
          rw [p.byte_of_lt hj] at this
          exact Or.inl this
      · rw [if_neg hp]
        exact Or.inl rfl

/-- One of the four bytes that the PES header is written to. -/
theorem WriteConfined.pes_byte (he : Edited (p.segment stale) s) (hs : WriteConfined stale p s)
    {j : ℕ} (hj : j < 184) (hfree : ¬ p.MayChange stale j) (hsome : s.pesHeader.isSome)
    (hlo : patchAt s + 2 ≤ j) (hhi : j ≤ patchAt s + 5) (b : Byte) :
    effect (segmentPesStores s) j b = p.body[j] := by
  obtain ⟨header, hheader⟩ := Option.isSome_iff_exists.mp hsome
  obtain ⟨k, rfl⟩ : ∃ k, j = patchAt s + k := ⟨j - patchAt s, by omega⟩
  rw [effect_segmentPesStores hheader (by omega) (by omega)]
  have hpes := he.isSome_pesHeader.mp hsome
  have hk := (hs.pes header hheader).2 k (by omega) (by omega)
  rw [← he.patchAt_eq] at hk
  rcases hk with h | h | h
  · exact absurd (Or.inr ⟨hpes, Or.inl h⟩) hfree
  · exact absurd (Or.inr ⟨hpes, Or.inr h⟩) hfree
  · rwa [p.byte_of_lt hj] at h

theorem WriteConfined.confined (hw : p.WellFormed) (he : Edited (p.segment stale) s)
    (hs : WriteConfined stale p s) :
    ∃ body, writtenPayload s = some body ∧ p.Confined stale body := by
  have hin : p.HasPes stale → p.patchAt stale + 5 < 184 := by
    intro hpes
    obtain ⟨header, hheader⟩ := Option.isSome_iff_exists.mp (he.isSome_pesHeader.mpr hpes)
    exact (hs.pes header hheader).1
  refine ⟨Vector.ofFn fun j : Fin 184 => effect (segmentPesStores s) j
    (effect (adaptationStores s.adaptationField 0) j p.body[j]), ?_, ?_⟩
  · rw [he.writtenPayload_iff]
    exact ⟨hin, fun j hj => Vector.getElem_ofFn hj⟩
  · intro j hj hfree
    rw [Vector.getElem_ofFn]
    simp only [Fin.getElem_fin]
    by_cases hout : s.pesHeader.isSome → j < patchAt s + 2 ∨ patchAt s + 5 < j
    · rw [effect_segmentPesStores_of_not hout]
      exact hs.adaptation_byte hw he hj hfree hout
    · push Not at hout
      obtain ⟨hsome, hlo, hhi⟩ := hout
      exact Or.inl (hs.pes_byte he hj hfree hsome hlo hhi _)

/-- The write of an edited segment stays inside the frame exactly when its fields say so. -/
theorem writes_confined_iff (hw : p.WellFormed) (he : Edited (p.segment stale) s) :
    (∃ body, writtenPayload s = some body ∧ p.Confined stale body) ↔ WriteConfined stale p s :=
  ⟨fun ⟨_, hbody, hc⟩ => .of_confined hw he hbody hc, fun hs => hs.confined hw he⟩

end Segment

/-! ## All edits of a segment -/

section Reach

variable {p : TsPacket} {stale : Stale}

theorem segment_pesHeader_of_hasPes (hpes : p.HasPes stale) : (p.segment stale).pesHeader =
    some (pesOf (p.memory stale) p.pesAt stale.pesHeader) := by
  rw [TsPacket.segment_pesHeader, if_pos hpes]

theorem eq_of_segment_pesHeader {header : PesHeader}
    (h : (p.segment stale).pesHeader = some header) :
    p.HasPes stale ∧ header = pesOf (p.memory stale) p.pesAt stale.pesHeader := by
  rw [TsPacket.segment_pesHeader] at h
  split_ifs at h with hpes
  exact ⟨hpes, (Option.some.inj h).symm⟩

theorem pesByte_withoutLen (header : PesHeader) {k : ℕ} (hk : 2 ≤ k) (hk' : k ≤ 5) :
    pesByte { header with len := 0 } k = if 4 ≤ k then 0 else pesByte header k := by
  interval_cases k <;> simp [pesByte]

theorem EditConfined.write (hc : EditConfined stale p) {s : Segment}
    (he : Edited (p.segment stale) s) : WriteConfined stale p s := by
  constructor
  · intro hnot hra
    have h := he.randAcc hra
    rw [TsPacket.segment_heldRandAcc, TsPacket.segment_heldHasPcr] at h
    exact hc.randAcc hnot h
  · intro hnot hp
    refine hc.pcr hnot hp _ ?_
    rcases he.pcr with h | ⟨header, hheader, hpts, h⟩
    · exact Or.inl (h.trans (TsPacket.segment_heldPcr p stale hp))
    · obtain ⟨hpes, rfl⟩ := eq_of_segment_pesHeader hheader
      exact Or.inr ⟨hpes, hpts, h⟩
  · intro header hheader
    have hpes : p.HasPes stale := he.isSome_pesHeader.mp (by rw [hheader]; rfl)
    obtain ⟨hin, hk⟩ := hc.pes hpes
    refine ⟨hin, fun k hk2 hk5 => ?_⟩
    rcases hk k hk2 hk5 with h | h | ⟨hsame, hzero⟩
    · exact Or.inl h
    · exact Or.inr (Or.inl h)
    · refine Or.inr (Or.inr ?_)
      have hread := TsPacket.pesByte_pesOf p stale hpes hk2 hk5
      rcases he.pesHeader with h | h <;> rw [hheader, segment_pesHeader_of_hasPes hpes] at h
      · rw [Option.some.inj h, hread, hsame]
      · rw [Option.some.inj h, pesByte_withoutLen _ hk2 hk5]
        split_ifs with h4
        · exact (hzero h4).symm
        · rw [hread, hsame]

/-- The four edits that decide: none, each of the passes that write a body. -/
theorem EditConfined.of_writes (hnone : WriteConfined stale p (p.segment stale))
    (hkey : WriteConfined stale p (fixKeyframe (p.header.pid.setWidth 16) (p.segment stale)))
    (hpcr : WriteConfined stale p (updatePcr (p.segment stale)))
    (hlen : WriteConfined stale p (resetLen (p.segment stale))) : EditConfined stale p := by
  constructor
  · rintro hnot (hra | ⟨hpusi, hp⟩)
    · refine hnone.randAcc hnot ?_
      rw [TsPacket.segment_heldRandAcc]
      exact hra
    · refine hkey.randAcc hnot ?_
      rw [← TsPacket.segment_heldHasPcr] at hp
      unfold fixKeyframe
      rw [if_pos ⟨hpusi, rfl, hp⟩]
  · rintro hnot hp v (rfl | ⟨hpes, hpts, rfl⟩)
    · rw [← TsPacket.segment_heldPcr p stale hp]
      exact hnone.pcr hnot hp
    · have hset : (updatePcr (p.segment stale)).adaptationField.pcr = p.heldPts stale * 300 := by
        have hp' := hp
        rw [← TsPacket.segment_heldHasPcr] at hp'
        rw [updatePcr_of_some (segment_pesHeader_of_hasPes hpes), if_pos ⟨hp', hpts⟩]
        rfl
      rw [← hset]
      exact hpcr.pcr hnot hp
  · intro hpes
    have hread := segment_pesHeader_of_hasPes hpes
    obtain ⟨hin, hk⟩ := hnone.pes _ hread
    have hclear := (hlen.pes _ (by rw [pesHeader_resetLen, hread]; rfl)).2
    refine ⟨hin, fun k hk2 hk5 => ?_⟩
    rcases hk k hk2 hk5 with h | h | hsame
    · exact Or.inl h
    · exact Or.inr (Or.inl h)
    · rcases hclear k hk2 hk5 with h | h | hzero
      · exact Or.inl h
      · exact Or.inr (Or.inl h)
      · refine Or.inr (Or.inr ⟨?_, fun h4 => ?_⟩)
        · rw [← hsame, TsPacket.pesByte_pesOf p stale hpes hk2 hk5]
        · rw [← hzero, pesByte_withoutLen _ hk2 hk5, if_pos h4]

end Reach

/-! ## Streams -/

/-- A pass that maps the segments, run on its own. -/
theorem getElem?_runPasses_singleton (stale : ℕ → Stale) {packets : List TsPacket} (pass : Pass)
    (f : Segment → Segment)
    (hpass : ∀ stream : Stream, (pass.run stream).segmentList = stream.segmentList.map f) {i : ℕ}
    (hi : i < packets.length) :
    (runPasses (streamOf stale packets) [pass]).segmentList[i]? =
      some (f (packets[i].segment (stale i))) := by
  change (pass.run (streamOf stale packets)).segmentList[i]? = _
  rw [hpass, List.getElem?_map, getElem?_streamOf stale hi, Option.map_some]

/-- **The frame of the editing passes.** In a stream of well-formed packets every sequence of passes
followed by the write changes each body inside its frame only, exactly when every packet is
`EditConfined` in the memory its segment was allocated in. -/
theorem runPasses_confined_iff (stale : ℕ → Stale) (packets : List TsPacket)
    (hw : ∀ p ∈ packets, p.WellFormed) :
    (∀ (passes : List Pass) i (hi : i < packets.length), ∃ s body,
      (runPasses (streamOf stale packets) passes).segmentList[i]? = some s ∧
        writtenPayload s = some body ∧ packets[i].Confined (stale i) body) ↔
      ∀ i (hi : i < packets.length), EditConfined (stale i) packets[i] := by
  constructor
  · intro h i hi
    have hwi : packets[i].WellFormed := hw _ (List.getElem_mem hi)
    have hwrite : ∀ passes s, (runPasses (streamOf stale packets) passes).segmentList[i]? = some s →
        Edited (packets[i].segment (stale i)) s → WriteConfined (stale i) packets[i] s := by
      intro passes s hs he
      obtain ⟨s', body, hs', hbody⟩ := h passes i hi
      obtain rfl : s' = s := Option.some.inj (hs'.symm.trans hs)
      exact (writes_confined_iff hwi he).mp ⟨body, hbody⟩
    have hrefl := Edited.refl (packets[i].segment (stale i))
    refine .of_writes ?_ ?_ ?_ ?_
    · exact hwrite [] _ (getElem?_streamOf stale hi) hrefl
    · let pid := packets[i].header.pid.setWidth 16
      exact hwrite [.fixKeyframe pid] _ (getElem?_runPasses_singleton stale (.fixKeyframe pid)
        (fixKeyframe pid) (segmentList_fixKeyframe · pid) hi) (edited_fixKeyframe pid hrefl)
    · exact hwrite [.updatePcrByPts 0] _ (getElem?_runPasses_singleton stale (.updatePcrByPts 0)
        updatePcr (segmentList_updatePcrByPts · 0) hi) (edited_updatePcr hrefl)
    · exact hwrite [.pesResetLen] _ (getElem?_runPasses_singleton stale .pesResetLen resetLen
        segmentList_pesResetLen hi) (edited_resetLen hrefl)
  · intro h passes i hi
    obtain ⟨s, hs, he⟩ := exists_edited stale passes hi
    obtain ⟨body, hbody⟩ :=
      (writes_confined_iff (hw _ (List.getElem_mem hi)) he).mpr ((h i hi).write he)
    exact ⟨s, body, hs, hbody⟩

/-- Setting the PCR and clearing the length of a packet that has both changes its frame only. -/
theorem runPasses_confined_clockPacket :
    ∃ s body, (runPasses (streamOf (fun _ => .zeroed) [clockPacket])
        [.updatePcrByPts 0x100, .pesResetLen]).segmentList[0]? = some s ∧
      writtenPayload s = some body ∧ clockPacket.Confined .zeroed body := by
  have hw : ∀ p ∈ [clockPacket], p.WellFormed := by decide
  have hconf : EditConfined .zeroed clockPacket := by
    have hf : clockPacket.CarriesFlags := by unfold TsPacket.CarriesFlags; decide
    have hp : clockPacket.CarriesPcr := ⟨hf, by decide, by decide⟩
    refine ⟨fun h => absurd hf h, fun h => absurd hp h, fun _ => ⟨by decide, fun k hk2 hk5 => ?_⟩⟩
    interval_cases k <;> decide
  refine (runPasses_confined_iff (fun _ => .zeroed) [clockPacket] hw).mpr (fun i hi => ?_) _ 0
    (by decide)
  obtain rfl : i = 0 := by simpa using hi
  exact hconf

/-- Private data shifts the PES header that is written into the bytes behind it. -/
theorem not_confined_privatePacket :
    ¬ ∀ (stale : ℕ → Stale) (packets : List TsPacket), (∀ p ∈ packets, p.WellFormed) →
      ∀ (passes : List Pass) i (hi : i < packets.length), ∃ s body,
        (runPasses (streamOf stale packets) passes).segmentList[i]? = some s ∧
          writtenPayload s = some body ∧ packets[i].Confined (stale i) body := by
  intro h
  have hw : ∀ p ∈ [privatePacket], p.WellFormed := by decide
  obtain ⟨s, body, hs, hbody⟩ := h (fun _ => .zeroed) [privatePacket] hw [] 0 (by decide)
  have hread : (streamOf (fun _ => .zeroed) [privatePacket]).segmentList[0]? =
      some (privatePacket.segment .zeroed) := getElem?_streamOf _ (by decide)
  obtain rfl := Option.some.inj (hread.symm.trans hs)
  have hwrite := (writes_confined_iff (hw _ (List.mem_singleton_self _)) (.refl _)).mp ⟨body, hbody⟩
  have hpes := segment_pesHeader_of_hasPes
    (show privatePacket.HasPes .zeroed by decide)
  rcases (hwrite.pes _ hpes).2 2 (by decide) (by decide) with h | h | h
  · exact absurd h (by decide)
  · exact absurd h (by decide)
  · exact absurd h (by decide)

end MpegtsReader
