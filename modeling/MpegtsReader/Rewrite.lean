import MpegtsReader.Layout

/-!
# Rewriting a stream in place

Reading a file and writing it back without an edit. `RewriteStable` is the exact condition on a
packet, and on the memory its segment is allocated in, under which the 188 bytes come back
(`rewriteInPlace_eq_iff`). The scrambling control is lost, the PCR is read with its low bit in the
wrong place, the flags of an absent adaptation field are whatever `malloc` returned, and the writer
looks for the PES header at an offset of its own.
-/

namespace MpegtsReader

open Buffer

/-! ## The condition -/

/-- Reading the packet into the memory `stale` and writing it back restores its bytes. -/
structure RewriteStable (stale : Stale) (p : TsPacket) : Prop where
  /-- The packet is not scrambled. -/
  clear : p.word.extractLsb' 30 2 = 0
  /-- A PCR is one that `write_pcr` restores after `parse_pcr`. -/
  pcr : p.header.HasAdaptation → isSet p.flags 0x10#8 → PcrRestored p.byte 2
  /-- Without an adaptation field a stale `rand_acc` finds its bit already set. -/
  staleRandAcc : ¬ p.header.HasAdaptation → stale.segment.adaptationField.randAcc →
    p.flags.getLsbD 6 = true
  /-- Without an adaptation field a stale PCR finds its bytes already there, those apart that the
  PES header overwrites. -/
  stalePcr : ¬ p.header.HasAdaptation → stale.segment.adaptationField.hasPcr →
    ∀ j < 6, (p.HasPes stale → 4 ≤ j) →
      pcrByte stale.segment.adaptationField.pcr j (p.byte (2 + j)) = p.byte (2 + j)
  /-- A PES header is patched inside the payload and over bytes equal to those that were read. -/
  pes : p.HasPes stale → p.patchAt stale + 5 < 184 ∧
    ∀ k, 2 ≤ k → k ≤ 5 → p.byte (p.patchAt stale + k) = p.memory stale (p.pesAt + k)

/-! ## One packet -/

/-- A write is without effect exactly when its PES stores fall on bytes that already hold their
values and its adaptation stores change no byte that the PES stores leave alone. -/
theorem patch_payloadStores_eq_self_iff (segment : Segment) :
    patch segment.payload (payloadStores segment) = some segment.payload ↔
      (∀ header, segment.pesHeader = some header → patchAt segment + 5 < 184 ∧
        ∀ k (hk : patchAt segment + k < 184), 2 ≤ k → k ≤ 5 →
          pesByte header k = segment.payload[patchAt segment + k]) ∧
      ∀ j (hj : j < 184), (segment.pesHeader.isSome → j < patchAt segment + 2 ∨
          patchAt segment + 5 < j) →
        effect (adaptationStores segment.adaptationField 0) j segment.payload[j] =
          segment.payload[j] := by
  rw [patch_payloadStores_eq_some_iff]
  constructor
  · rintro ⟨hin, h⟩
    refine ⟨fun header hheader => ⟨hin (by rw [hheader]; rfl), fun k hk hk2 hk5 => ?_⟩,
      fun j hj hout => ?_⟩
    · rw [h _ hk, effect_segmentPesStores hheader hk2 hk5]
    · conv_rhs => rw [h j hj]
      rw [effect_segmentPesStores_of_not hout]
  · rintro ⟨hp, ha⟩
    constructor
    · intro hsome
      obtain ⟨header, hheader⟩ := Option.isSome_iff_exists.mp hsome
      exact (hp header hheader).1
    · intro j hj
      by_cases hout : segment.pesHeader.isSome → j < patchAt segment + 2 ∨ patchAt segment + 5 < j
      · rw [effect_segmentPesStores_of_not hout, ha j hj hout]
      · push Not at hout
        obtain ⟨hsome, hlo, hhi⟩ := hout
        obtain ⟨header, hheader⟩ := Option.isSome_iff_exists.mp hsome
        obtain ⟨k, rfl⟩ : ∃ k, j = patchAt segment + k := ⟨j - patchAt segment, by omega⟩
        rw [effect_segmentPesStores hheader (by omega) (by omega),
          (hp header hheader).2 k hj (by omega) (by omega)]

/-- Setting a bit that is set changes nothing. -/
theorem or_bit6_eq_self_iff (b : Byte) : b ||| 0x40#8 = b ↔ b.getLsbD 6 = true := by
  revert b
  decide

/-- The adaptation stores change none of the bytes in `out` exactly when those that fall there
already hold their values. -/
theorem adaptationStores_eq_self_iff (adp : TsAdaptField) (p : TsPacket) (out : ℕ → Prop) :
    (∀ j (hj : j < 184), out j → effect (adaptationStores adp 0) j p.body[j] = p.body[j]) ↔
      (out 1 → adp.randAcc → p.flags.getLsbD 6 = true) ∧
      (adp.hasPcr → ∀ j (hj : j < 6), out (2 + j) →
        pcrByte adp.pcr j p.body[2 + j] = p.body[2 + j]) := by
  constructor
  · intro h
    refine ⟨fun hout hra => ?_, fun hp j hj hout => ?_⟩
    · have h1 := h 1 (by omega) hout
      rw [effect_adaptationStores_one, if_pos hra] at h1
      exact (or_bit6_eq_self_iff _).mp h1
    · have h2 := h (2 + j) (by omega) hout
      rwa [effect_adaptationStores_pcr adp hj, if_pos hp] at h2
  · rintro ⟨hra, hpcr⟩ j hj hout
    by_cases hfar : j = 0 ∨ 7 < j
    · exact effect_adaptationStores_of_not hfar _
    · by_cases h1 : j = 1
      · subst h1
        rw [effect_adaptationStores_one]
        split_ifs with hr
        · exact (or_bit6_eq_self_iff _).mpr (hra hout hr)
        · rfl
      · obtain ⟨i, rfl⟩ : ∃ i, j = 2 + i := ⟨j - 2, by omega⟩
        rw [effect_adaptationStores_pcr adp (by omega)]
        split_ifs with hp
        · exact hpcr hp i (by omega) hout
        · rfl

theorem word_clear_iff (v : BitVec 32) : v &&& 0x3fffffff#32 = v ↔ v.extractLsb' 30 2 = 0 := by
  constructor
  · intro h
    apply BitVec.eq_of_getLsbD_eq
    intro i hi
    rw [← h]
    interval_cases i <;> simp
  · intro h
    have hbit : ∀ i, (v.extractLsb' 30 2).getLsbD i = (0#2).getLsbD i := fun i => by rw [h]; rfl
    apply BitVec.eq_of_getLsbD_eq
    intro i hi
    have h0 := hbit 0
    have h1 := hbit 1
    simp only [BitVec.getLsbD_extractLsb'] at h0 h1
    interval_cases i <;> simp_all

namespace TsPacket

variable {p : TsPacket} {stale : Stale}

/-- A packet comes back exactly when its header word and its body do. -/
theorem emit_segment_iff : emit (p.segment stale) = some p.bytes ↔
    p.word.extractLsb' 30 2 = 0 ∧
      patch p.body (payloadStores (p.segment stale)) = some p.body := by
  unfold emit writeTsSegment
  rw [segment_header, segment_payload, header, writeHeader_headerFields p.sync, bytes]
  cases hw : patch p.body (payloadStores (p.segment stale)) with
  | none => simp
  | some payload =>
    simp only [Option.bind_eq_bind, Option.bind_some, Option.pure_def, Option.map_some,
      Option.some.injEq]
    constructor
    · intro h
      obtain ⟨hword, hbody⟩ := List.append_inj h rfl
      exact ⟨(word_clear_iff _).mp (leBytes_injective hword), Vector.toList_inj.mp hbody⟩
    · rintro ⟨hword, rfl⟩
      rw [(word_clear_iff _).mpr hword]

theorem isSome_segment_pesHeader : (p.segment stale).pesHeader.isSome ↔ p.HasPes stale := by
  rw [segment_pesHeader]
  split_ifs with h <;> simp [h]

/-- The bytes that the PES stores leave alone. -/
def Untouched (p : TsPacket) (stale : Stale) (j : ℕ) : Prop :=
  p.HasPes stale → j < p.patchAt stale + 2 ∨ p.patchAt stale + 5 < j

/-- The PES stores fall on bytes that hold their values. -/
theorem pes_restored_iff :
    (∀ header, (p.segment stale).pesHeader = some header → p.patchAt stale + 5 < 184 ∧
      ∀ k (hk : p.patchAt stale + k < 184), 2 ≤ k → k ≤ 5 →
        pesByte header k = p.body[p.patchAt stale + k]) ↔
    (p.HasPes stale → p.patchAt stale + 5 < 184 ∧
      ∀ k, 2 ≤ k → k ≤ 5 → p.byte (p.patchAt stale + k) = p.memory stale (p.pesAt + k)) := by
  rw [segment_pesHeader]
  constructor
  · intro h hpes
    rw [if_pos hpes] at h
    obtain ⟨hin, hk⟩ := h _ rfl
    refine ⟨hin, fun k hk2 hk5 => ?_⟩
    rw [p.byte_of_lt (by omega), ← hk k (by omega) hk2 hk5, pesByte_pesOf p stale hpes hk2 hk5]
  · intro h header hheader
    by_cases hpes : p.HasPes stale
    · rw [if_pos hpes, Option.some.injEq] at hheader
      obtain ⟨hin, hk⟩ := h hpes
      refine ⟨hin, fun k hk' hk2 hk5 => ?_⟩
      rw [← hheader, pesByte_pesOf p stale hpes hk2 hk5, ← hk k hk2 hk5, p.byte_of_lt hk']
    · rw [if_neg hpes] at hheader
      cases hheader

/-- The writer's PES header stands behind the PCR, if there is one. -/
theorem untouched_pcr (hw : p.WellFormed) (ha : p.header.HasAdaptation)
    (hp : isSet p.flags 0x10#8) {j : ℕ} (hj : j < 6) : p.Untouched stale (2 + j) := by
  intro hpes
  by_cases hl : p.fieldLen = 0
  · rw [flags_of_hasPes p stale hl ha hpes] at hp
    exact absurd hp (by decide)
  · have := hw.pcr_inside ha hl hp
    rw [patchAt, if_pos ⟨ha, hl⟩]
    omega

/-- The adaptation stores of the parsed segment leave the untouched bytes as they were. -/
def AdaptationRestored (p : TsPacket) (stale : Stale) : Prop :=
  (p.Untouched stale 1 → (p.segment stale).adaptationField.randAcc → p.flags.getLsbD 6 = true) ∧
    ((p.segment stale).adaptationField.hasPcr → ∀ j (hj : j < 6), p.Untouched stale (2 + j) →
      pcrByte (p.segment stale).adaptationField.pcr j p.body[2 + j] = p.body[2 + j])

/-- With an adaptation field only the PCR is at stake: the flag it rewrites was read. -/
theorem adaptationRestored_present (hw : p.WellFormed) (ha : p.header.HasAdaptation) :
    p.AdaptationRestored stale ↔ (isSet p.flags 0x10#8 → PcrRestored p.byte 2) := by
  unfold AdaptationRestored
  rw [segment_randAcc stale ha, segment_hasPcr stale ha]
  have hra : isSet p.flags 0x40#8 → p.flags.getLsbD 6 = true :=
    fun h => (isSet_twoPow p.flags (by decide : 6 < 8)).symm.trans h
  rw [and_iff_right fun _ => hra]
  refine forall_congr' fun hp => ?_
  rw [segment_pcr stale ha hp, ← pcr_rewrite_iff]
  constructor
  · intro h j hj
    rw [p.byte_of_lt (by omega)]
    exact h j hj (untouched_pcr hw ha hp hj)
  · intro h j hj _
    have := h j hj
    rwa [p.byte_of_lt (by omega)] at this

/-- Without one, what `malloc` returned is written. -/
theorem adaptationRestored_absent (ha : ¬ p.header.HasAdaptation) :
    p.AdaptationRestored stale ↔
      (stale.segment.adaptationField.randAcc → p.flags.getLsbD 6 = true) ∧
      (stale.segment.adaptationField.hasPcr → ∀ j < 6, (p.HasPes stale → 4 ≤ j) →
        pcrByte stale.segment.adaptationField.pcr j (p.byte (2 + j)) = p.byte (2 + j)) := by
  have hat : p.patchAt stale = 0 := by rw [patchAt, if_neg fun h => ha h.1]
  have hone : p.Untouched stale 1 := fun _ => Or.inl (by omega)
  have hout : ∀ j, p.Untouched stale (2 + j) ↔ (p.HasPes stale → 4 ≤ j) := by
    intro j
    unfold Untouched
    rw [hat]
    refine forall_congr' fun _ => ?_
    omega
  unfold AdaptationRestored
  rw [segment_stale p stale ha]
  refine and_congr (forall_prop_of_true hone) (forall_congr' fun _ => forall₂_congr fun j hj => ?_)
  rw [hout, p.byte_of_lt (by omega)]

/-- **Rewriting one packet.** Reading a well-formed packet and writing it back restores it exactly
when `RewriteStable` holds. -/
theorem rewrite_iff (hw : p.WellFormed) :
    emit (p.segment stale) = some p.bytes ↔ RewriteStable stale p := by
  have hpatch := patch_payloadStores_eq_self_iff (p.segment stale)
  rw [patchAt_segment, segment_payload, isSome_segment_pesHeader, pes_restored_iff] at hpatch
  have hbody := hpatch.trans (and_congr_right'
    (adaptationStores_eq_self_iff _ p (p.Untouched stale)))
  change _ ↔ _ ∧ p.AdaptationRestored stale at hbody
  rw [emit_segment_iff, hbody]
  constructor
  · rintro ⟨hclear, hpes, had⟩
    by_cases ha : p.header.HasAdaptation
    · exact ⟨hclear, fun _ => (adaptationRestored_present hw ha).mp had,
        fun h => absurd ha h, fun h => absurd ha h, hpes⟩
    · obtain ⟨hra, hpcr⟩ := (adaptationRestored_absent ha).mp had
      exact ⟨hclear, fun h => absurd h ha, fun _ => hra, fun _ => hpcr, hpes⟩
  · rintro ⟨hclear, hpcr, hra, hstale, hpes⟩
    refine ⟨hclear, hpes, ?_⟩
    by_cases ha : p.header.HasAdaptation
    · exact (adaptationRestored_present hw ha).mpr (hpcr ha)
    · exact (adaptationRestored_absent ha).mpr ⟨hra ha, hstale ha⟩

end TsPacket

/-! ## A whole file -/

/-- Read a file and write it back in place. `none` is a write that leaves a payload. -/
def rewriteInPlace (fs : FileSystem) (stale : ℕ → Stale) (url : Path) : Option FileSystem :=
  let r := mpegtsStreamReadSegment fs stale (mpegtsStreamInit url)
  match r.2 with
  | some _ => some fs
  | none => (mpegtsStreamWrite fs r.1 none).map Prod.fst

theorem length_of_emit {segment : Segment} {out : List Byte} (h : emit segment = some out) :
    out.length = 188 := by
  unfold emit writeTsSegment at h
  cases hw : patch segment.payload (payloadStores segment) with
  | none => rw [hw] at h; cases h
  | some payload =>
    rw [hw] at h
    simp only [Option.bind_eq_bind, Option.bind_some, Option.pure_def, Option.map_some,
      Option.some.injEq] at h
    rw [← h, List.length_append, length_leBytes, Vector.length_toList]

theorem emitAll_cons_eq_iff (segment : Segment) (rest : List Segment) (p : TsPacket)
    (ps : List TsPacket) :
    emitAll (segment :: rest) = some (fileOf (p :: ps)) ↔
      emit segment = some p.bytes ∧ emitAll rest = some (fileOf ps) := by
  rw [emitAll_cons, show fileOf (p :: ps) = p.bytes ++ fileOf ps by simp [fileOf]]
  simp only [Option.bind_eq_some_iff, Option.map_eq_some_iff]
  constructor
  · rintro ⟨out, hout, tail, htail, heq⟩
    obtain ⟨rfl, rfl⟩ := List.append_inj heq (by rw [length_of_emit hout, p.length_bytes])
    exact ⟨hout, htail⟩
  · rintro ⟨hout, htail⟩
    exact ⟨_, hout, _, htail, rfl⟩

/-- A file is emitted back exactly when each packet is. -/
theorem emitAll_segmentsFrom_iff (stale : ℕ → Stale) (n : ℕ) (packets : List TsPacket) :
    emitAll (segmentsFrom stale n packets) = some (fileOf packets) ↔
      ∀ i (hi : i < packets.length),
        emit (packets[i].segment (stale (n + i))) = some packets[i].bytes := by
  induction packets generalizing n with
  | nil => simp [segmentsFrom, fileOf]
  | cons p ps ih =>
    rw [segmentsFrom, emitAll_cons_eq_iff, ih]
    constructor
    · rintro ⟨h0, h⟩ i hi
      cases i with
      | zero => exact h0
      | succ i =>
        have := h i (by simpa using hi)
        rwa [Nat.add_assoc, Nat.add_comm 1] at this
    · intro h
      refine ⟨h 0 (by simp), fun i hi => ?_⟩
      have := h (i + 1) (by simpa using hi)
      rwa [Nat.add_assoc, Nat.add_comm 1]

/-- The file that an in-place rewrite leaves. -/
theorem rewriteInPlace_eq {fs : FileSystem} {stale : ℕ → Stale} {url : Path}
    {packets : List TsPacket} (hfile : fs url = some (fileOf packets)) :
    rewriteInPlace fs stale url =
      (emitAll (segmentsFrom stale 0 packets)).map fun out =>
        Function.update fs url (some (out ++ (fileOf packets).drop out.length)) := by
  unfold rewriteInPlace
  rw [mpegtsStreamReadSegment_fileOf stale hfile]
  exact map_fst_mpegtsStreamWrite (none : Option Path) hfile

theorem length_of_emitAll {segments : List Segment} {out : List Byte}
    (h : emitAll segments = some out) : out.length = 188 * segments.length := by
  induction segments generalizing out with
  | nil => cases h; rfl
  | cons segment rest ih =>
    rw [emitAll_cons] at h
    simp only [Option.bind_eq_some_iff, Option.map_eq_some_iff] at h
    obtain ⟨a, ha, b, hb, rfl⟩ := h
    rw [List.length_append, length_of_emit ha, ih hb, List.length_cons]
    omega

theorem rewriteInPlace_eq_self_iff {fs : FileSystem} {stale : ℕ → Stale} {url : Path}
    {packets : List TsPacket} (hfile : fs url = some (fileOf packets)) :
    rewriteInPlace fs stale url = some fs ↔
      emitAll (segmentsFrom stale 0 packets) = some (fileOf packets) := by
  rw [rewriteInPlace_eq hfile, Option.map_eq_some_iff]
  constructor
  · rintro ⟨out, hout, hupd⟩
    have hlen : (fileOf packets).length ≤ out.length := by
      rw [length_of_emitAll hout, length_segmentsFrom, length_fileOf]
    have hat := congrFun hupd url
    rw [Function.update_self, hfile, List.drop_eq_nil_of_le hlen, List.append_nil,
      Option.some.injEq] at hat
    rw [hout, hat]
  · intro hout
    refine ⟨_, hout, ?_⟩
    rw [List.drop_length, List.append_nil, ← hfile, Function.update_eq_self]

/-- **Rewriting in place.** Reading a file of well-formed packets and writing it back leaves every
byte as it was exactly when each packet is `RewriteStable` in the memory its segment was allocated
in. -/
theorem rewriteInPlace_eq_iff (fs : FileSystem) (stale : ℕ → Stale) (url : Path)
    (packets : List TsPacket) (hfile : fs url = some (fileOf packets))
    (hw : ∀ p ∈ packets, p.WellFormed) :
    rewriteInPlace fs stale url = some fs ↔
      ∀ i (hi : i < packets.length), RewriteStable (stale i) packets[i] := by
  rw [rewriteInPlace_eq_self_iff hfile, emitAll_segmentsFrom_iff]
  refine forall₂_congr fun i hi => ?_
  rw [Nat.zero_add]
  exact TsPacket.rewrite_iff (hw _ (List.getElem_mem hi))

/-- Memory in which the last segment had its random access bit set, and a clock reference. -/
def Stale.keyed : Stale :=
  let segment := Stale.zeroed.segment
  { Stale.zeroed with
    segment := { segment with
      adaptationField := { segment.adaptationField with randAcc := true, pcr := 77 } } }

/-- Packets with an adaptation field, a PCR and a PES header come back, and so does one without that
has the bit of the memory set. -/
theorem rewriteInPlace_clocks :
    rewriteInPlace (oneFile [] (fileOf [clockPacket, clearPacket, clockPacket]))
        (fun _ => .keyed) [] =
      some (oneFile [] (fileOf [clockPacket, clearPacket, clockPacket])) := by
  have hfile : oneFile [] (fileOf [clockPacket, clearPacket, clockPacket]) [] =
      some (fileOf [clockPacket, clearPacket, clockPacket]) := rfl
  have hw : ∀ p ∈ [clockPacket, clearPacket, clockPacket], p.WellFormed := by decide
  have hclock : RewriteStable .keyed clockPacket := by
    refine ⟨by decide, by decide, fun h => absurd (by decide) h, fun h => absurd (by decide) h,
      fun _ => ⟨by decide, fun k hk2 hk5 => ?_⟩⟩
    interval_cases k <;> decide
  have hclear : RewriteStable .keyed clearPacket :=
    ⟨by decide, by decide, by decide, by decide, fun h => absurd h (by decide)⟩
  refine (rewriteInPlace_eq_iff _ _ _ _ hfile hw).mpr fun i hi => ?_
  match i, hi with
  | 0, _ => exact hclock
  | 1, _ => exact hclear
  | 2, _ => exact hclock
  | _ + 3, h => exact absurd h (by simp)

/-- The scrambling control of a packet is lost. -/
theorem not_rewriteInPlace_scrambled :
    ¬ ∀ (fs : FileSystem) (stale : ℕ → Stale) (url : Path) (packets : List TsPacket),
      fs url = some (fileOf packets) → (∀ p ∈ packets, p.WellFormed) →
        rewriteInPlace fs stale url = some fs := by
  intro h
  have hfile : oneFile [] (fileOf [scrambledPacket]) [] = some (fileOf [scrambledPacket]) := rfl
  have hw : ∀ p ∈ [scrambledPacket], p.WellFormed := by decide
  have hback := h _ (fun _ => .zeroed) [] [scrambledPacket] hfile hw
  rw [rewriteInPlace_eq_self_iff hfile, emitAll_segmentsFrom_iff] at hback
  have hclear := ((TsPacket.rewrite_iff (hw _ (List.mem_singleton_self _))).mp
    (hback 0 (by decide))).clear
  exact absurd hclear (by decide)

end MpegtsReader
