import MpegtsReader.Parse

/-!
# Writing a packet

`write_adaptation_field`, `write_pes_header` and `write_ts_segment`. The writers patch the payload
in place before it is written out; each is the list of its stores and the cursor it returns. A store
outside the 184 bytes of the payload overwrites other objects: `writeTsSegment` then has no result.
-/

namespace MpegtsReader

open Buffer

/-- `write_adaptation_field`: the stores. -/
def adaptationStores (adp : TsAdaptField) (wb : ℕ) : List (Update Byte) :=
  (if adp.randAcc then [(wb + 1, fun b => b ||| 0x40#8)] else []) ++
    (if adp.hasPcr then writePcr (wb + 2) adp.pcr else [])

/-- `write_adaptation_field`. The cursor it returns is recomputed from the lengths. -/
def writeAdaptationField (segment : Segment) (wb : ℕ) : List (Update Byte) × ℕ :=
  let adp := segment.adaptationField
  if segment.header.adaptationFieldCtrl &&& 2#2 ≠ 0 then
    if adp.len ≠ 0 then
      (adaptationStores adp wb, wb + adp.len.toNat + 1 + adp.privLen.toNat)
    else
      (adaptationStores adp wb, wb)
  else
    (adaptationStores adp wb, wb)

/-- `write_pes_header`: the stores. -/
def pesStores (header : PesHeader) (wb : ℕ) : List (Update Byte) :=
  [put (wb + 2) 1, put (wb + 3) header.streamId, put (wb + 4) ((header.len >>> 8).setWidth 8),
    put (wb + 5) ((header.len &&& 0xff#16).setWidth 8)]

/-- `write_pes_header`. -/
def writePesHeader (segment : Segment) (wb : ℕ) : List (Update Byte) × ℕ :=
  match segment.pesHeader with
  | none => ([], wb)
  | some header => (pesStores header wb, wb + 6 + header.pesHeaderLen.toNat)

/-- The stores that `write_ts_segment` performs on the payload. -/
def payloadStores (segment : Segment) : List (Update Byte) :=
  let r := writeAdaptationField segment 0
  r.1 ++ (writePesHeader segment r.2).1

/-- `write_ts_segment`: the patched segment and the bytes written to the file. -/
def writeTsSegment (segment : Segment) : Option (Segment × List Byte) := do
  let payload ← patch segment.payload (payloadStores segment)
  return ({ segment with payload }, leBytes (writeHeader segment.header) ++ payload.toList)

/-! ## Where the stores fall -/

/-- The cursor that `write_adaptation_field` hands to `write_pes_header`. -/
def patchAt (segment : Segment) : ℕ :=
  if segment.header.HasAdaptation ∧ segment.adaptationField.len ≠ 0 then
    segment.adaptationField.len.toNat + 1 + segment.adaptationField.privLen.toNat
  else 0

theorem hasAdaptation_iff (header : TsHeader) :
    header.HasAdaptation ↔ header.adaptationFieldCtrl &&& 2#2 ≠ 0 := by
  unfold TsHeader.HasAdaptation
  generalize header.adaptationFieldCtrl = c
  revert c
  decide

theorem writeAdaptationField_eq (segment : Segment) :
    writeAdaptationField segment 0 =
      (adaptationStores segment.adaptationField 0, patchAt segment) := by
  have hiff := hasAdaptation_iff segment.header
  unfold writeAdaptationField patchAt
  by_cases hc : segment.header.HasAdaptation
  · rw [if_pos (hiff.mp hc)]
    by_cases hl : segment.adaptationField.len ≠ 0
    · rw [if_pos hl, if_pos ⟨hc, hl⟩, Nat.zero_add]
    · rw [if_neg hl, if_neg (fun h => hl h.2)]
  · rw [if_neg (fun h => hc (hiff.mpr h)), if_neg (fun h => hc h.1)]

/-- The PES stores of a segment. -/
def segmentPesStores (segment : Segment) : List (Update Byte) :=
  (writePesHeader segment (patchAt segment)).1

theorem payloadStores_eq (segment : Segment) :
    payloadStores segment =
      adaptationStores segment.adaptationField 0 ++ segmentPesStores segment := by
  unfold payloadStores segmentPesStores
  rw [writeAdaptationField_eq]

theorem segmentPesStores_none {segment : Segment} (h : segment.pesHeader = none) :
    segmentPesStores segment = [] := by
  unfold segmentPesStores writePesHeader
  rw [h]

theorem segmentPesStores_some {segment : Segment} {header : PesHeader}
    (h : segment.pesHeader = some header) :
    segmentPesStores segment = pesStores header (patchAt segment) := by
  unfold segmentPesStores writePesHeader
  rw [h]

/-- The adaptation stores stay inside the first eight bytes. -/
theorem adaptationStores_fst {adp : TsAdaptField} {u : Update Byte}
    (hu : u ∈ adaptationStores adp 0) : 1 ≤ u.1 ∧ u.1 ≤ 7 := by
  unfold adaptationStores at hu
  rcases List.mem_append.mp hu with h | h
  · split_ifs at h
    · rw [List.mem_singleton.mp h]; simp
    · cases h
  · split_ifs at h
    · have := writePcr_fst h; omega
    · cases h

theorem pesStores_fst {header : PesHeader} {wb : ℕ} {u : Update Byte}
    (hu : u ∈ pesStores header wb) : wb + 2 ≤ u.1 ∧ u.1 ≤ wb + 5 := by
  simp only [pesStores, List.mem_cons, List.not_mem_nil, or_false] at hu
  rcases hu with rfl | rfl | rfl | rfl <;> simp

theorem inBounds_pesStores {header : PesHeader} {wb : ℕ} :
    InBounds 184 (pesStores header wb) ↔ wb + 5 < 184 := by
  simp only [pesStores, inBounds_cons, put_fst, inBounds_nil, and_true]
  omega

theorem inBounds_adaptationStores (adp : TsAdaptField) : InBounds 184 (adaptationStores adp 0) := by
  intro u hu
  have := adaptationStores_fst hu
  omega

/-- The value that the store `k` of a PES header leaves, for `2 ≤ k ≤ 5`. -/
def pesByte (header : PesHeader) (k : ℕ) : Byte :=
  match k with
  | 2 => 1
  | 3 => header.streamId
  | 4 => (header.len >>> 8).setWidth 8
  | _ => (header.len &&& 0xff#16).setWidth 8

theorem effect_pesStores (header : PesHeader) (wb : ℕ) {k : ℕ} (hk : 2 ≤ k) (hk' : k ≤ 5)
    (old : Byte) : effect (pesStores header wb) (wb + k) old = pesByte header k := by
  unfold pesStores pesByte
  interval_cases k <;> simp

theorem effect_pesStores_of_not {header : PesHeader} {wb j : ℕ} (h : j < wb + 2 ∨ wb + 5 < j)
    (old : Byte) : effect (pesStores header wb) j old = old := by
  apply effect_eq_self
  intro u hu he
  have := pesStores_fst hu
  omega

/-- The adaptation stores set the random access bit. -/
theorem effect_adaptationStores_one (adp : TsAdaptField) (old : Byte) :
    effect (adaptationStores adp 0) 1 old = if adp.randAcc then old ||| 0x40#8 else old := by
  unfold adaptationStores
  rw [effect_append]
  have hpcr : ∀ x, effect (if adp.hasPcr then writePcr (0 + 2) adp.pcr else []) 1 x = x := by
    intro x
    apply effect_eq_self
    intro u hu he
    split_ifs at hu
    · have := writePcr_fst hu; omega
    · cases hu
  rw [hpcr]
  split_ifs <;> rfl

theorem effect_adaptationStores_pcr (adp : TsAdaptField) {j : ℕ} (hj : j < 6) (old : Byte) :
    effect (adaptationStores adp 0) (2 + j) old =
      if adp.hasPcr then pcrByte adp.pcr j old else old := by
  unfold adaptationStores
  rw [effect_append]
  have hra : effect (if adp.randAcc then [(0 + 1, fun b : Byte => b ||| 0x40#8)] else []) (2 + j)
      old = old := by
    apply effect_eq_self
    intro u hu he
    split_ifs at hu
    · rw [List.mem_singleton.mp hu] at he; simp at he; omega
    · cases hu
  rw [hra]
  split_ifs
  · exact effect_writePcr 2 adp.pcr hj old
  · rfl

theorem effect_adaptationStores_of_not {adp : TsAdaptField} {j : ℕ} (h : j = 0 ∨ 7 < j)
    (old : Byte) : effect (adaptationStores adp 0) j old = old := by
  apply effect_eq_self
  intro u hu he
  have := adaptationStores_fst hu
  omega

/-- What the adaptation stores do to any byte. -/
theorem effect_adaptationStores (adp : TsAdaptField) (j : ℕ) (old : Byte) :
    effect (adaptationStores adp 0) j old =
      if j = 1 ∧ adp.randAcc then old ||| 0x40#8
      else if adp.hasPcr ∧ 2 ≤ j ∧ j ≤ 7 then pcrByte adp.pcr (j - 2) old else old := by
  by_cases hfar : j = 0 ∨ 7 < j
  · rw [effect_adaptationStores_of_not hfar, if_neg (by omega), if_neg (by omega)]
  · by_cases hone : j = 1
    · subst hone
      rw [effect_adaptationStores_one]
      by_cases hra : adp.randAcc
      · rw [if_pos hra, if_pos ⟨rfl, hra⟩]
      · rw [if_neg hra, if_neg fun h => hra h.2, if_neg (by omega)]
    · obtain ⟨i, rfl⟩ : ∃ i, j = 2 + i := ⟨j - 2, by omega⟩
      have hnot : ¬ (2 + i = 1 ∧ adp.randAcc) := fun h => hone h.1
      rw [effect_adaptationStores_pcr adp (by omega), if_neg hnot, Nat.add_sub_cancel_left]
      by_cases hp : adp.hasPcr
      · rw [if_pos hp, if_pos ⟨hp, by omega, by omega⟩]
      · rw [if_neg hp, if_neg fun h => hp h.1]

/-! ## The written payload -/

theorem inBounds_segmentPesStores {segment : Segment} :
    InBounds 184 (segmentPesStores segment) ↔
      (segment.pesHeader.isSome → patchAt segment + 5 < 184) := by
  cases h : segment.pesHeader with
  | none => simp [segmentPesStores_none h]
  | some header => simp [segmentPesStores_some h, inBounds_pesStores]

theorem effect_segmentPesStores {segment : Segment} {header : PesHeader}
    (h : segment.pesHeader = some header) {k : ℕ} (hk : 2 ≤ k) (hk' : k ≤ 5) (old : Byte) :
    effect (segmentPesStores segment) (patchAt segment + k) old = pesByte header k := by
  rw [segmentPesStores_some h, effect_pesStores header _ hk hk']

theorem effect_segmentPesStores_of_not {segment : Segment} {j : ℕ}
    (h : segment.pesHeader.isSome → j < patchAt segment + 2 ∨ patchAt segment + 5 < j)
    (old : Byte) : effect (segmentPesStores segment) j old = old := by
  cases hp : segment.pesHeader with
  | none => rw [segmentPesStores_none hp, effect_nil]
  | some header =>
    rw [segmentPesStores_some hp]
    exact effect_pesStores_of_not (h (by rw [hp]; rfl)) old

/-- The payload that `write_ts_segment` writes, byte by byte: the PES stores come last. -/
theorem patch_payloadStores_eq_some_iff {segment : Segment} {payload : Vector Byte 184} :
    patch segment.payload (payloadStores segment) = some payload ↔
      (segment.pesHeader.isSome → patchAt segment + 5 < 184) ∧
      ∀ j (hj : j < 184), payload[j] = effect (segmentPesStores segment) j
        (effect (adaptationStores segment.adaptationField 0) j segment.payload[j]) := by
  rw [patch_eq_some_iff, payloadStores_eq, inBounds_append,
    and_iff_right (inBounds_adaptationStores _), inBounds_segmentPesStores]
  simp only [effect_append]

end MpegtsReader
