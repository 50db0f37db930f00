import MpegtsReader.Bounds
import MpegtsReader.ResetLen

/-!
# The layout of a timestamp

A timestamp of 33 bits stands in five bytes: a nibble that tells its kind, and groups of 3, 15 and
15 bits with a marker bit behind each. `get_pes_pts` puts the first group at bit 30 of an `int`, so
that bit 32 of the timestamp is lost and bit 31 becomes the sign: `timestamps_decoded_iff` says
which timestamps are stored as they are.
-/

namespace MpegtsReader

open Logged

/-- The timestamp `t` of this kind stands at `src`. -/
structure TimestampAt (mem : ℕ → Byte) (src : ℕ) (kind : BitVec 4) (t : BitVec 33) : Prop where
  byte0 : mem src = kind ++ t.extractLsb' 30 3 ++ 1#1
  byte1 : mem (src + 1) = t.extractLsb' 22 8
  byte2 : mem (src + 2) = t.extractLsb' 15 7 ++ 1#1
  byte3 : mem (src + 3) = t.extractLsb' 7 8
  byte4 : mem (src + 4) = t.extractLsb' 0 7 ++ 1#1

instance (mem : ℕ → Byte) (src : ℕ) (kind : BitVec 4) (t : BitVec 33) :
    Decidable (TimestampAt mem src kind t) :=
  decidable_of_iff (_ ∧ _ ∧ _ ∧ _ ∧ _)
    ⟨fun ⟨a, b, c, d, e⟩ => ⟨a, b, c, d, e⟩, fun ⟨a, b, c, d, e⟩ => ⟨a, b, c, d, e⟩⟩

/-- The mask of a kind: its bits and the first marker bit. -/
def kindMask (kind : BitVec 4) : Byte := kind ++ 0#3 ++ 1#1

theorem and_kindMask (kind : BitVec 4) (x : BitVec 3) :
    ((kind ++ x ++ 1#1 : BitVec 8) &&& kindMask kind) = kindMask kind := by
  revert kind x
  decide

/-! ## The bits of the value -/

theorem getLsbD_group0 (s0 : Byte) {i : ℕ} (hi : i < 64) :
    ((((promote s0 &&& 0x0F#32) >>> 1) <<< 30).signExtend 64).getLsbD i =
      if i < 30 then false else if i = 30 then s0.getLsbD 1 else s0.getLsbD 2 := by
  rw [BitVec.getLsbD_signExtend, BitVec.msb_eq_getLsbD_last]
  interval_cases i <;> simp

theorem getLsbD_group1 (s1 s2 : Byte) {i : ℕ} (hi : i < 64) :
    (((promote s1 <<< 7 ||| promote s2 >>> 1) <<< 15).signExtend 64).getLsbD i =
      if i < 15 then false
      else if i < 22 then s2.getLsbD (i - 14)
      else if i < 30 then s1.getLsbD (i - 22)
      else false := by
  rw [BitVec.getLsbD_signExtend, BitVec.msb_eq_getLsbD_last]
  interval_cases i <;> simp

theorem getLsbD_group2 (s3 s4 : Byte) {i : ℕ} (hi : i < 64) :
    ((promote s3 <<< 7 ||| promote s4 >>> 1).signExtend 64).getLsbD i =
      if i < 7 then s4.getLsbD (i + 1) else if i < 15 then s3.getLsbD (i - 7) else false := by
  rw [BitVec.getLsbD_signExtend, BitVec.msb_eq_getLsbD_last]
  interval_cases i <;> simp

/-- Where the summands do not overlap, the sum is their union. -/
theorem getLsbD_add_add {x y z : BitVec 64}
    (hxy : ∀ j < 64, (x.getLsbD j && y.getLsbD j) = false)
    (hz : ∀ j < 64, ((x.getLsbD j || y.getLsbD j) && z.getLsbD j) = false) (i : ℕ) :
    (x + y + z).getLsbD i = (x.getLsbD i || y.getLsbD i || z.getLsbD i) := by
  have hxy' : x + y = x ||| y := BitVec.add_eq_or_of_and_eq_zero x y <|
    BitVec.eq_of_getLsbD_eq fun j hj => by rw [BitVec.getLsbD_and, hxy j hj, BitVec.getLsbD_zero]
  rw [hxy', BitVec.add_eq_or_of_and_eq_zero, BitVec.getLsbD_or, BitVec.getLsbD_or]
  apply BitVec.eq_of_getLsbD_eq
  intro j hj
  rw [BitVec.getLsbD_and, BitVec.getLsbD_or, hz j hj, BitVec.getLsbD_zero]

/-- The bits of the value are bits of the bytes. -/
theorem getLsbD_getPesPts {mem : ℕ → Byte} {marker : Byte} {src : ℕ}
    (hmark : mem src &&& marker = marker) {i : ℕ} (hi : i < 64) :
    (getPesPts mem marker src).val.getLsbD i =
      if i < 7 then (mem (src + 4)).getLsbD (i + 1)
      else if i < 15 then (mem (src + 3)).getLsbD (i - 7)
      else if i < 22 then (mem (src + 2)).getLsbD (i - 14)
      else if i < 30 then (mem (src + 1)).getLsbD (i - 22)
      else if i = 30 then (mem src).getLsbD 1
      else (mem src).getLsbD 2 := by
  unfold getPesPts
  rw [val_bind, val_deref, if_pos hmark]
  simp only [val_bind, val_deref, val_pure]
  rw [getLsbD_add_add (fun j hj => ?_) fun j hj => ?_, getLsbD_group0 _ hi, getLsbD_group1 _ _ hi,
    getLsbD_group2 _ _ hi]
  · split_ifs <;> first | omega | simp
  · rw [getLsbD_group0 _ hj, getLsbD_group1 _ _ hj]
    split_ifs <;> first | omega | simp
  · rw [getLsbD_group0 _ hj, getLsbD_group1 _ _ hj, getLsbD_group2 _ _ hj]
    split_ifs <;> first | omega | simp

/-! ## The value -/

section Value

variable {mem : ℕ → Byte} {src : ℕ} {kind : BitVec 4} {t : BitVec 33}

/-- A bit in front of a marker bit. -/
theorem getLsbD_marked {w : ℕ} (x : BitVec w) (i : ℕ) :
    (x ++ 1#1).getLsbD (i + 1) = x.getLsbD i := by
  rw [BitVec.getLsbD_append]
  simp

theorem TimestampAt.getLsbD_byte0 (h : TimestampAt mem src kind t) {i : ℕ} (hi : i < 3) :
    (mem src).getLsbD (i + 1) = t.getLsbD (30 + i) := by
  have hbyte : (mem src).getLsbD (i + 1) =
      (kind ++ t.extractLsb' 30 3 ++ 1#1).getLsbD (i + 1) := by
    rw [h.byte0]
  rw [hbyte, getLsbD_marked, BitVec.getLsbD_append, if_pos hi, BitVec.getLsbD_extractLsb']
  simp [hi]

/-- From bit 31 on the value repeats bit 31 of the timestamp. -/
theorem TimestampAt.getLsbD_value (h : TimestampAt mem src kind t) {i : ℕ} (hi : i < 64) :
    (getPesPts mem (kindMask kind) src).val.getLsbD i = t.getLsbD (min i 31) := by
  have hmark : mem src &&& kindMask kind = kindMask kind := by
    rw [h.byte0]
    exact and_kindMask kind _
  rw [getLsbD_getPesPts hmark hi]
  split_ifs with h7 h15 h22 h30 heq
  · rw [h.byte4, show min i 31 = i by omega]
    exact (getLsbD_marked _ i).trans (by simp [h7])
  · rw [h.byte3, show min i 31 = i by omega, BitVec.getLsbD_extractLsb']
    simp [show i - 7 < 8 by omega, show 7 + (i - 7) = i by omega]
  · rw [h.byte2, show min i 31 = i by omega, show i - 14 = i - 15 + 1 by omega]
    exact (getLsbD_marked _ _).trans
      (by simp [show i - 15 < 7 by omega, show 15 + (i - 15) = i by omega])
  · rw [h.byte1, show min i 31 = i by omega, BitVec.getLsbD_extractLsb']
    simp [show i - 22 < 8 by omega, show 22 + (i - 22) = i by omega]
  · subst heq
    exact h.getLsbD_byte0 (i := 0) (by decide)
  · rw [show min i 31 = 31 by omega]
    exact h.getLsbD_byte0 (i := 1) (by decide)

/-- A timestamp is stored as it is when it is below `2 ^ 31`, and only then. -/
theorem TimestampAt.value_iff (h : TimestampAt mem src kind t) :
    (getPesPts mem (kindMask kind) src).val = t.setWidth 64 ↔ t.toNat < 2 ^ 31 := by
  rw [BitVec.toNat_lt_iff_getLsbD_eq_false 31 (by decide)]
  constructor
  · intro hv k
    have hbit (i : ℕ) (hi : i < 64) : t.getLsbD (min i 31) = t.getLsbD i := by
      rw [← h.getLsbD_value hi, hv, BitVec.getLsbD_setWidth]
      simp [hi]
    -- bit 33 is beyond the timestamp
    have h33 : t.getLsbD 31 = false :=
      (hbit 33 (by decide)).trans (BitVec.getLsbD_of_ge _ _ (by decide))
    by_cases hk : 31 + k < 64
    · rw [← hbit _ hk, show min (31 + k) 31 = 31 by omega, h33]
    · exact BitVec.getLsbD_of_ge _ _ (by omega)
  · intro hlt
    apply BitVec.eq_of_getLsbD_eq
    intro i hi
    rw [h.getLsbD_value hi, BitVec.getLsbD_setWidth]
    by_cases h31 : i < 31
    · rw [show min i 31 = i by omega]
      simp [hi]
    · rw [show min i 31 = 31 + 0 by omega, hlt 0, show i = 31 + (i - 31) by omega, hlt (i - 31),
        Bool.and_false]

end Value

/-! ## Packets -/

/-- The PES header lies inside the packet with its timestamps, as `PTS_DTS_flags` announces them. -/
structure CarriesStamps (p : TsPacket) (pts dts : BitVec 33) : Prop extends DecodesPts p where
  ptsOnly : pesPtsInd p.byte p.pesAt = 2#2 → 5 ≤ (p.byte (p.pesAt + 8)).toNat ∧
    TimestampAt p.byte (p.pesAt + 9) 2#4 pts
  both : pesPtsInd p.byte p.pesAt = 3#2 → 10 ≤ (p.byte (p.pesAt + 8)).toNat ∧
    TimestampAt p.byte (p.pesAt + 9) 3#4 pts ∧ TimestampAt p.byte (p.pesAt + 14) 1#4 dts

/-- The segment has a PES header with these timestamps. -/
def StampsStored (p : TsPacket) (segment : Segment) (pts dts : BitVec 33) : Prop :=
  ∃ header, segment.pesHeader = some header ∧ header.pts = pts.setWidth 64 ∧
    (pesPtsInd p.byte p.pesAt = 3#2 → header.dts = dts.setWidth 64)

theorem TimestampAt.memory {p : TsPacket} {src : ℕ} {kind : BitVec 4} {t : BitVec 33}
    (h : TimestampAt p.byte src kind t) (hin : src + 4 < 184) (stale : Stale) :
    TimestampAt (p.memory stale) src kind t where
  byte0 := (p.memory_eq_byte stale (by omega)).trans h.byte0
  byte1 := (p.memory_eq_byte stale (by omega)).trans h.byte1
  byte2 := (p.memory_eq_byte stale (by omega)).trans h.byte2
  byte3 := (p.memory_eq_byte stale (by omega)).trans h.byte3
  byte4 := (p.memory_eq_byte stale hin).trans h.byte4

theorem stampsStored_iff {p : TsPacket} {stale : Stale} (hpes : p.HasPes stale)
    (pts dts : BitVec 33) :
    StampsStored p (p.segment stale) pts dts ↔
      (pesOf (p.memory stale) p.pesAt stale.pesHeader).pts = pts.setWidth 64 ∧
        (pesPtsInd p.byte p.pesAt = 3#2 →
          (pesOf (p.memory stale) p.pesAt stale.pesHeader).dts = dts.setWidth 64) := by
  unfold StampsStored
  simp only [segment_pesHeader_of_hasPes hpes, Option.some.injEq, exists_eq_left']

/-- **Decoding timestamps.** The timestamps of a PES header are stored as they are exactly when they
are below `2 ^ 31`. -/
theorem timestamps_decoded_iff {p : TsPacket} {pts dts : BitVec 33} (h : CarriesStamps p pts dts)
    (stale : Stale) :
    StampsStored p (p.segment stale) pts dts ↔
      pts.toNat < 2 ^ 31 ∧ (pesPtsInd p.byte p.pesAt = 3#2 → dts.toNat < 2 ^ 31) := by
  have hin := h.inside
  have hlen : pesLen (p.memory stale) p.pesAt ≠ 0 := by
    rw [p.pesLen_memory stale (by omega)]
    exact h.len
  have hind : pesPtsInd (p.memory stale) p.pesAt = pesPtsInd p.byte p.pesAt := by
    unfold pesPtsInd
    rw [p.memory_eq_byte stale (by omega)]
  rw [stampsStored_iff (h.hasPes stale)]
  simp only [pesOf, if_neg hlen, hind]
  rcases h.ptsInd with h2 | h3
  · obtain ⟨hlong, hpts⟩ := h.ptsOnly h2
    have hvalue := (hpts.memory (by omega) stale).value_iff
    have hne : ¬ (2#2 = 3#2) := by decide
    rw [h2, if_pos rfl]
    simp only [hne, false_imp_iff, and_true]
    exact hvalue
  · obtain ⟨hlong, hpts, hdts⟩ := h.both h3
    have hvalue := (hpts.memory (by omega) stale).value_iff
    have hvalue' := (hdts.memory (by omega) stale).value_iff
    have hne : ¬ (3#2 = 2#2) := by decide
    rw [h3, if_neg hne, if_pos rfl]
    simp only [true_imp_iff]
    exact and_congr hvalue hvalue'

/-- A packet with the timestamp `2 ^ 31`, after six and a half hours. -/
def latePacket : TsPacket := filled 0x10004147#32 (by decide)
  [0, 0, 1, 0xe0, 0, 20, 0x80, 0x80, 5, 0x25, 0, 1, 0, 1]

theorem carriesStamps_clockPacket : CarriesStamps clockPacket 1 0 :=
  ⟨⟨by decide, by decide, by decide, by decide⟩, by decide, by decide⟩

theorem timestamps_decoded_clockPacket :
    StampsStored clockPacket (clockPacket.segment .zeroed) 1 0 :=
  (timestamps_decoded_iff carriesStamps_clockPacket .zeroed).mpr (by decide)

/-- Bit 31 of a timestamp is taken for a sign. -/
theorem not_timestamps_decoded_latePacket :
    ¬ ∀ (p : TsPacket) (pts dts : BitVec 33) (stale : Stale), CarriesStamps p pts dts →
      StampsStored p (p.segment stale) pts dts := by
  intro h
  have hstamps : CarriesStamps latePacket 0x80000000#33 0 :=
    ⟨⟨by decide, by decide, by decide, by decide⟩, by decide, by decide⟩
  have hlate := (stampsStored_iff (by decide) _ _).mp (h _ _ _ .zeroed hstamps)
  exact absurd hlate.1 (by decide)

end MpegtsReader
