import MpegtsReader.Confined

/-!
# Independence of uninitialised memory

Two runs over one file that differ only in what `malloc` returns. `Agree` relates the segments of
the two runs in every decoded field and every field that a pass, a printer or the writer consults;
the passes keep it (`agree_updatePcr`) and the writer respects it (`Agree.emit_eq`), so the outputs
are equal as soon as the parsed segments agree. `Determined` is the exact condition on the bytes of
a packet under which they do: the `memset` of `mpegts_segment_init` clears the list link only, and
`malloc` is all that `parse_pes_header` starts from.
-/

namespace MpegtsReader

open Buffer

/-! ## Agreement of two segments -/

/-- The segments agree in every decoded field and in every field that a pass, a printer or the
writer consults. The optional fields are decoded under their flags; the length of the private data
is consulted behind every non-empty adaptation field. -/
structure Agree (s t : Segment) : Prop where
  header : s.header = t.header
  payload : s.payload = t.payload
  len : s.adaptationField.len = t.adaptationField.len
  discontinuity : s.adaptationField.discontinuity = t.adaptationField.discontinuity
  randAcc : s.adaptationField.randAcc = t.adaptationField.randAcc
  prior : s.adaptationField.prior = t.adaptationField.prior
  hasPcr : s.adaptationField.hasPcr = t.adaptationField.hasPcr
  hasOpcr : s.adaptationField.hasOpcr = t.adaptationField.hasOpcr
  hasSplic : s.adaptationField.hasSplic = t.adaptationField.hasSplic
  hasPrivate : s.adaptationField.hasPrivate = t.adaptationField.hasPrivate
  adExt : s.adaptationField.adExt = t.adaptationField.adExt
  pcr : s.adaptationField.hasPcr → s.adaptationField.pcr = t.adaptationField.pcr
  opcr : s.adaptationField.hasOpcr → s.adaptationField.opcr = t.adaptationField.opcr
  spliceCount : s.adaptationField.hasSplic →
    s.adaptationField.spliceCount = t.adaptationField.spliceCount
  privLen : s.header.HasAdaptation → s.adaptationField.len ≠ 0 →
    s.adaptationField.privLen = t.adaptationField.privLen
  pesHeader : s.pesHeader = t.pesHeader
  payloadStart : s.payloadStart = t.payloadStart

theorem agree_fixKeyframe (pid : BitVec 16) {s t : Segment} (h : Agree s t) :
    Agree (fixKeyframe pid s) (fixKeyframe pid t) := by
  have hcond : (t.header.pusi ∧ t.header.pid.setWidth 16 = pid ∧ t.adaptationField.hasPcr) ↔
      (s.header.pusi ∧ s.header.pid.setWidth 16 = pid ∧ s.adaptationField.hasPcr) := by
    rw [h.header, h.hasPcr]
  unfold fixKeyframe
  by_cases hc : s.header.pusi ∧ s.header.pid.setWidth 16 = pid ∧ s.adaptationField.hasPcr
  · rw [if_pos hc, if_pos (hcond.mpr hc)]
    exact { h with randAcc := rfl }
  · rw [if_neg hc, if_neg (fun ht => hc (hcond.mp ht))]
    exact h

theorem agree_updatePcr {s t : Segment} (h : Agree s t) : Agree (updatePcr s) (updatePcr t) := by
  cases hs : s.pesHeader with
  | none =>
    rw [updatePcr_of_none hs, updatePcr_of_none (h.pesHeader.symm.trans hs)]
    exact h
  | some header =>
    rw [updatePcr_of_some hs, updatePcr_of_some (h.pesHeader.symm.trans hs), ← h.hasPcr]
    split_ifs
    · exact { h with pcr := fun _ => rfl }
    · exact h

/-- The writer consults nothing else. -/
theorem Agree.emit_eq {s t : Segment} (h : Agree s t) : emit s = emit t := by
  have hat : patchAt s = patchAt t := by
    unfold patchAt
    rw [← h.header, ← h.len]
    by_cases hc : s.header.HasAdaptation ∧ s.adaptationField.len ≠ 0
    · rw [if_pos hc, if_pos hc, h.privLen hc.1 hc.2]
    · rw [if_neg hc, if_neg hc]
  have had : adaptationStores s.adaptationField 0 = adaptationStores t.adaptationField 0 := by
    unfold adaptationStores
    rw [← h.randAcc, ← h.hasPcr]
    by_cases hp : s.adaptationField.hasPcr
    · rw [h.pcr hp]
    · rw [if_neg hp, if_neg hp]
  have hpes : segmentPesStores s = segmentPesStores t := by
    unfold segmentPesStores writePesHeader
    rw [h.pesHeader, hat]
  unfold emit writeTsSegment
  rw [payloadStores_eq, payloadStores_eq, had, hpes, h.payload, h.header]
  cases patch t.payload _ <;> rfl

/-! ## Two runs -/

/-- The passes `mpegts_stream_fix_keyframe` and `mpegts_stream_update_pcr_by_pts`. -/
def Pass.SetsClock : Pass → Prop
  | .fixKeyframe _ => True
  | .updatePcrByPts _ => True
  | _ => False

/-- Whatever `malloc` returns in two runs over the file of these packets, the segments read agree,
and so does the file system after any of the two passes and the write. -/
def StaleIndependent (packets : List TsPacket) : Prop :=
  ∀ stale₁ stale₂ : ℕ → Stale,
    List.Forall₂ Agree (streamOf stale₁ packets).segmentList (streamOf stale₂ packets).segmentList ∧
    ∀ passes : List Pass, (∀ pass ∈ passes, pass.SetsClock) → ∀ fs path,
      (mpegtsStreamWrite fs (runPasses (streamOf stale₁ packets) passes) path).map Prod.fst =
        (mpegtsStreamWrite fs (runPasses (streamOf stale₂ packets) passes) path).map Prod.fst

theorem forall₂_map_map {α : Type} {R : α → α → Prop} {f : α → α}
    (hf : ∀ a b, R a b → R (f a) (f b)) {as bs : List α} (h : List.Forall₂ R as bs) :
    List.Forall₂ R (as.map f) (bs.map f) :=
  List.forall₂_map_left_iff.mpr (List.forall₂_map_right_iff.mpr (h.imp hf))

/-- Two streams that agree in their segments and are called the same. -/
def StreamsAgree (s t : Stream) : Prop :=
  s.url = t.url ∧ List.Forall₂ Agree s.segmentList t.segmentList

theorem streamsAgree_run {pass : Pass} (hpass : pass.SetsClock) {s t : Stream}
    (h : StreamsAgree s t) : StreamsAgree (pass.run s) (pass.run t) := by
  obtain ⟨hurl, hseg⟩ := h
  cases pass with
  | fixKeyframe pid =>
    refine ⟨hurl, ?_⟩
    simp only [Pass.run, segmentList_fixKeyframe]
    exact forall₂_map_map (fun _ _ => agree_fixKeyframe pid) hseg
  | updatePcrByPts pid =>
    refine ⟨hurl, ?_⟩
    simp only [Pass.run, segmentList_updatePcrByPts]
    exact forall₂_map_map (fun _ _ => agree_updatePcr) hseg
  | pesResetLen => exact hpass.elim
  | updateCc pid initCc => exact hpass.elim

theorem streamsAgree_runPasses {passes : List Pass} (hpasses : ∀ pass ∈ passes, pass.SetsClock)
    {s t : Stream} (h : StreamsAgree s t) :
    StreamsAgree (runPasses s passes) (runPasses t passes) := by
  induction passes generalizing s t with
  | nil => exact h
  | cons pass passes ih =>
    exact ih (fun q hq => hpasses q (List.mem_cons_of_mem _ hq))
      (streamsAgree_run (hpasses pass (List.mem_cons_self ..)) h)

theorem emitAll_congr {as bs : List Segment} (h : List.Forall₂ Agree as bs) :
    emitAll as = emitAll bs := by
  induction h with
  | nil => rfl
  | cons hab _ ih => rw [emitAll_cons, emitAll_cons, hab.emit_eq, ih]

theorem StreamsAgree.write_eq {s t : Stream} (h : StreamsAgree s t) (fs : FileSystem)
    (path : Option Path) :
    (mpegtsStreamWrite fs s path).map Prod.fst = (mpegtsStreamWrite fs t path).map Prod.fst := by
  obtain ⟨hurl, hseg⟩ := h
  cases hfile : fs (path.getD s.url) with
  | none =>
    have hfile' : fs (path.getD t.url) = none := by rw [← hurl]; exact hfile
    unfold mpegtsStreamWrite
    simp only [hfile, hfile', Option.map_some]
  | some content =>
    have hfile' : fs (path.getD t.url) = some content := by rw [← hurl]; exact hfile
    rw [map_fst_mpegtsStreamWrite path hfile, map_fst_mpegtsStreamWrite path hfile', hurl,
      emitAll_congr hseg]

/-- The outputs agree as soon as the parsed segments do. -/
theorem StaleIndependent.of_agree {packets : List TsPacket}
    (h : ∀ stale₁ stale₂ : ℕ → Stale, List.Forall₂ Agree
      (streamOf stale₁ packets).segmentList (streamOf stale₂ packets).segmentList) :
    StaleIndependent packets := by
  refine fun stale₁ stale₂ => ⟨h stale₁ stale₂, fun passes hpasses fs path => ?_⟩
  have hurl : (streamOf stale₁ packets).url = (streamOf stale₂ packets).url := by
    rw [streamOf_eq, streamOf_eq]
  exact (streamsAgree_runPasses hpasses ⟨hurl, h stale₁ stale₂⟩).write_eq fs path

/-! ## One packet -/

/-- The bytes of the start code. -/
def startCodeByte (k : ℕ) : Byte := if k = 2 then 1 else 0

/-- What a pass, a printer or the writer consults is a function of the bytes of the packet. -/
structure Determined (p : TsPacket) : Prop where
  /-- Without an adaptation field all its flags are stale. -/
  adaptation : p.header.HasAdaptation
  /-- Without private data its length is stale, and the writer adds it to the offset of the PES
  header behind a non-empty adaptation field. -/
  privLen : p.fieldLen ≠ 0 → isSet p.flags 0x02#8
  /-- A PES header always has stale flags, and a start code may be completed by the memory behind
  the payload: a byte of the packet itself rules it out. -/
  noPes : ∃ k < 3, p.pesAt + k < 184 ∧ p.byte (p.pesAt + k) ≠ startCodeByte k

section Packet

variable {p : TsPacket}

theorem hasPes_iff {stale : Stale} :
    p.HasPes stale ↔ ∀ k < 3, p.memory stale (p.pesAt + k) = startCodeByte k := by
  constructor
  · rintro ⟨h0, h1, h2⟩ k hk
    interval_cases k
    · exact h0
    · exact h1
    · exact h2
  · intro h
    exact ⟨h 0 (by omega), h 1 (by omega), h 2 (by omega)⟩

theorem Determined.not_hasPes (hd : Determined p) (stale : Stale) : ¬ p.HasPes stale := by
  obtain ⟨k, hk, hin, hne⟩ := hd.noPes
  intro hpes
  have := hasPes_iff.mp hpes k hk
  rw [p.memory_eq_byte stale hin] at this
  exact hne this

/-- Memory that goes on behind the payload with what is missing of the start code. -/
def codeBehind (p : TsPacket) (pesHeader : PesHeader) : Stale where
  segment := Stale.zeroed.segment
  beyond j := if j + 184 = p.pesAt + 2 then 1 else 0
  pesHeader := pesHeader

theorem hasPes_codeBehind (h : ∀ k < 3, p.pesAt + k < 184 → p.byte (p.pesAt + k) = startCodeByte k)
    (pesHeader : PesHeader) : p.HasPes (codeBehind p pesHeader) := by
  rw [hasPes_iff]
  intro k hk
  by_cases hin : p.pesAt + k < 184
  · rw [p.memory_eq_byte _ hin, h k hk hin]
  · have hbeyond : p.memory (codeBehind p pesHeader) (p.pesAt + k) =
        if p.pesAt + k - 184 + 184 = p.pesAt + 2 then 1 else 0 := dif_neg hin
    have hk2 : p.pesAt + k - 184 + 184 = p.pesAt + 2 ↔ k = 2 := by omega
    rw [hbeyond]
    simp only [hk2, startCodeByte]

theorem segment_adaptationOf (ha : p.header.HasAdaptation) (stale : Stale) :
    (p.segment stale).adaptationField =
      adaptationOf (p.memory stale) stale.segment.adaptationField := by
  rw [TsPacket.segment_adaptationField, if_pos ha]

/-- A determined packet is read into the same segment whatever `malloc` returns. -/
theorem Determined.agree (hd : Determined p) (s t : Stale) :
    Agree (p.segment s) (p.segment t) := by
  have hs := segment_adaptationOf hd.adaptation s
  have ht := segment_adaptationOf hd.adaptation t
  -- the fields lie in the packet, so the two memories agree on them
  have hmem : ∀ i < 184, p.memory s i = p.memory t i := fun i hi => by
    rw [p.memory_of_lt s hi, p.memory_of_lt t hi]
  have hflags := hmem 1 (by omega)
  have hpriv := privateAt_le (p.memory t 1)
  have hsplice : spliceAt (p.memory t 1) ≤ privateAt (p.memory t 1) := Nat.le_add_right ..
  have hopcr : opcrAt (p.memory t 1) ≤ 8 := by
    unfold opcrAt
    split_ifs <;> omega
  constructor
  case header => rfl
  case payload => rfl
  case pesHeader =>
    rw [TsPacket.segment_pesHeader, TsPacket.segment_pesHeader, if_neg (hd.not_hasPes s),
      if_neg (hd.not_hasPes t)]
  case payloadStart =>
    rw [TsPacket.segment_payloadStart, TsPacket.segment_payloadStart, if_neg (hd.not_hasPes s),
      if_neg (hd.not_hasPes t)]
  case pcr =>
    intro hp
    rw [TsPacket.segment_hasPcr s hd.adaptation] at hp
    rw [TsPacket.segment_pcr s hd.adaptation hp, TsPacket.segment_pcr t hd.adaptation hp]
  case opcr =>
    intro hp
    simp only [hs, ht, adaptationOf, hflags] at hp ⊢
    rw [if_pos hp, if_pos hp, p.pcrValue_memory s (by omega), p.pcrValue_memory t (by omega)]
  case spliceCount =>
    intro hp
    simp only [hs, ht, adaptationOf, hflags] at hp ⊢
    rw [if_pos hp, if_pos hp, hmem _ (by omega)]
  case privLen =>
    intro _ hl
    rw [TsPacket.segment_len s hd.adaptation] at hl
    rw [TsPacket.segment_privLen s hd.adaptation, TsPacket.segment_privLen t hd.adaptation]
    unfold TsPacket.privLen
    rw [if_pos (hd.privLen hl), if_pos (hd.privLen hl)]
  all_goals simp only [hs, ht, adaptationOf, hflags, hmem 0 (by omega)]

/-- Only determined packets are. -/
theorem Determined.of_agree (h : ∀ s t : Stale, Agree (p.segment s) (p.segment t)) :
    Determined p := by
  have ha : p.header.HasAdaptation := by
    by_contra ha
    let set : Stale := { Stale.zeroed with
      segment := { Stale.zeroed.segment with
        adaptationField := { Stale.zeroed.segment.adaptationField with randAcc := true } } }
    have hagree := (h Stale.zeroed set).randAcc
    rw [TsPacket.segment_stale p _ ha, TsPacket.segment_stale p _ ha] at hagree
    exact Bool.false_ne_true hagree
  refine ⟨ha, fun hl => ?_, ?_⟩
  · by_contra hflag
    let set : Stale := { Stale.zeroed with
      segment := { Stale.zeroed.segment with
        adaptationField := { Stale.zeroed.segment.adaptationField with privLen := 1 } } }
    have hagree := (h Stale.zeroed set).privLen ha (by rwa [TsPacket.segment_len _ ha])
    rw [TsPacket.segment_privLen _ ha, TsPacket.segment_privLen _ ha] at hagree
    unfold TsPacket.privLen at hagree
    rw [if_neg hflag, if_neg hflag] at hagree
    exact absurd hagree (by decide)
  · by_contra hcode
    push Not at hcode
    let clear := Stale.zeroed.pesHeader
    have hagree := (h (codeBehind p clear) (codeBehind p { clear with escr := true })).pesHeader
    rw [segment_pesHeader_of_hasPes (hasPes_codeBehind hcode _),
      segment_pesHeader_of_hasPes (hasPes_codeBehind hcode _)] at hagree
    have hescr := congrArg PesHeader.escr (Option.some.inj hagree)
    rw [pesOf_escr, pesOf_escr] at hescr
    exact Bool.false_ne_true hescr

end Packet

/-! ## Files -/

theorem segmentsFrom_const (stale : Stale) (n : ℕ) (packets : List TsPacket) :
    segmentsFrom (fun _ => stale) n packets = packets.map (·.segment stale) := by
  induction packets generalizing n with
  | nil => rfl
  | cons p ps ih => rw [segmentsFrom, ih, List.map_cons]

theorem forall₂_segmentsFrom {packets : List TsPacket} (h : ∀ p ∈ packets, Determined p)
    (stale₁ stale₂ : ℕ → Stale) (n : ℕ) :
    List.Forall₂ Agree (segmentsFrom stale₁ n packets) (segmentsFrom stale₂ n packets) := by
  induction packets generalizing n with
  | nil => exact .nil
  | cons p ps ih =>
    exact .cons ((h p (List.mem_cons_self ..)).agree _ _)
      (ih (fun q hq => h q (List.mem_cons_of_mem _ hq)) _)

theorem StaleIndependent.agree {packets : List TsPacket} (h : StaleIndependent packets)
    {p : TsPacket} (hp : p ∈ packets) (s t : Stale) : Agree (p.segment s) (p.segment t) := by
  have hconst := (h (fun _ => s) (fun _ => t)).1
  rw [streamOf_eq, streamOf_eq] at hconst
  simp only [segmentsFrom_const, List.forall₂_map_left_iff, List.forall₂_map_right_iff,
    List.forall₂_same] at hconst
  exact hconst p hp

/-- **Independence of uninitialised memory.** What is read from a file, and what is written after
the passes that set the clock, does not depend on what `malloc` returned exactly when every packet
of the file is `Determined`. -/
theorem staleIndependent_iff (packets : List TsPacket) :
    StaleIndependent packets ↔ ∀ p ∈ packets, Determined p := by
  constructor
  · exact fun h p hp => .of_agree (h.agree hp)
  · intro h
    refine .of_agree fun stale₁ stale₂ => ?_
    rw [streamOf_eq, streamOf_eq]
    exact forall₂_segmentsFrom h stale₁ stale₂ 0

/-- A packet without an adaptation field is read with stale flags. -/
theorem not_staleIndependent_clearPacket :
    ¬ ∀ packets : List TsPacket, (∀ p ∈ packets, p.WellFormed) → StaleIndependent packets := by
  intro h
  have hind := h [clearPacket] (by decide)
  have hd := Determined.of_agree (hind.agree (List.mem_singleton_self _))
  exact absurd hd.adaptation (by decide)

end MpegtsReader
