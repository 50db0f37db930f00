import MpegtsReader.Parse

/-!
# The layout of a clock reference

A clock reference of 27 MHz is a base of 33 bits, six reserved bits and an extension of nine bits,
and its value is 300 times the base plus the extension. `parse_pcr` reads the value where
`BaseFits` holds of the base and nowhere else (`pcrValue_exact_iff`), and so does
`parse_adaptation_field` (`clocksExact_iff`). `write_pcr` has the same fault and adds bits to what
its destination holds (`parsePcr_writePcr_iff`).
-/

namespace MpegtsReader

open Buffer Logged

/-- The base of the clock reference at `data`. -/
def clockBase (mem : ℕ → Byte) (data : ℕ) : BitVec 33 :=
  mem data ++ mem (data + 1) ++ mem (data + 2) ++ mem (data + 3) ++
    (mem (data + 4)).extractLsb' 7 1

/-- The extension of the clock reference at `data`. -/
def clockExt (mem : ℕ → Byte) (data : ℕ) : BitVec 9 :=
  (mem (data + 4)).extractLsb' 0 1 ++ mem (data + 5)

/-- The value of a clock reference. -/
def clockValue (base : BitVec 33) (ext : BitVec 9) : ℕ := 300 * base.toNat + ext.toNat

/-- The base is even and below `2 ^ 31`. -/
def BaseFits (base : BitVec 33) : Prop := base.toNat < 2 ^ 31 ∧ base.toNat % 2 = 0

instance (base : BitVec 33) : Decidable (BaseFits base) := inferInstanceAs (Decidable (_ ∧ _))

theorem baseFits_iff {base : BitVec 33} :
    BaseFits base ↔
      base.getLsbD 31 = false ∧ base.getLsbD 32 = false ∧ base.getLsbD 0 = false := by
  have hlt : base.toNat < 2 ^ 31 ↔ base.getLsbD 31 = false ∧ base.getLsbD 32 = false := by
    rw [BitVec.toNat_lt_iff_getLsbD_eq_false 31 (by decide)]
    constructor
    · exact fun h => ⟨h 0, h 1⟩
    · rintro ⟨h31, h32⟩ k
      obtain rfl | rfl | hk : k = 0 ∨ k = 1 ∨ 33 ≤ 31 + k := by omega
      · exact h31
      · exact h32
      · exact BitVec.getLsbD_of_ge _ _ hk
  have heven : base.toNat % 2 = 0 ↔ base.getLsbD 0 = false := by
    rw [BitVec.getLsbD, Nat.testBit_zero]
    simp
  rw [BaseFits, hlt, heven, and_assoc]

/-! ## Bits -/

theorem pcrExt_eq (mem : ℕ → Byte) (data : ℕ) :
    pcrExt (mem (data + 4)) (mem (data + 5)) = (clockExt mem data).setWidth 64 := by
  apply BitVec.eq_of_getLsbD_eq
  intro i hi
  rw [getLsbD_pcrExt _ _ hi, BitVec.getLsbD_setWidth, clockExt, BitVec.getLsbD_append,
    BitVec.getLsbD_extractLsb']
  by_cases h8 : i < 8
  · simp [h8, hi]
  · by_cases he : i = 8
    · subst he; simp
    · simp [h8, hi, he, show ¬ i - 8 < 1 by omega]

theorem clockExt_setWidth (mem : ℕ → Byte) (data : ℕ) :
    (clockExt mem data).setWidth 8 = mem (data + 5) := by
  unfold clockExt
  rw [BitVec.setWidth_append]
  simp

/-- Bit `i` of the base, from the bytes. -/
theorem getLsbD_clockBase (mem : ℕ → Byte) (data : ℕ) {i : ℕ} (hi : i < 33) :
    (clockBase mem data).getLsbD i =
      if 25 ≤ i then (mem data).getLsbD (i - 25)
      else if 17 ≤ i then (mem (data + 1)).getLsbD (i - 17)
      else if 9 ≤ i then (mem (data + 2)).getLsbD (i - 9)
      else if i = 0 then (mem (data + 4)).getLsbD 7
      else (mem (data + 3)).getLsbD (i - 1) := by
  unfold clockBase
  simp only [BitVec.getLsbD_append, BitVec.getLsbD_extractLsb']
  interval_cases i <;> simp

/-- Such bytes give the base back when the two top bits and the lowest bit are zero, and what stands
in bit 7 of the fifth byte is in bit 7 of the base already. -/
theorem pcrBase_eq_iff {base : BitVec 33} {d0 d1 d2 d3 d4 : Byte}
    (h0 : ∀ i < 8, d0.getLsbD i = base.getLsbD (i + 25))
    (h1 : ∀ i < 8, d1.getLsbD i = base.getLsbD (i + 17))
    (h2 : ∀ i < 8, d2.getLsbD i = base.getLsbD (i + 9))
    (h3 : ∀ i < 8, d3.getLsbD i = base.getLsbD (i + 1)) :
    pcrBase d0 d1 d2 d3 d4 = base.setWidth 64 ↔
      BaseFits base ∧ (d4.getLsbD 7 → base.getLsbD 7) := by
  rw [baseFits_iff]
  constructor
  · intro h
    have hbit (i : ℕ) (hi : i < 64) : (pcrBase d0 d1 d2 d3 d4).getLsbD i = base.getLsbD i := by
      rw [h, BitVec.getLsbD_setWidth]
      simp [hi]
    have h31 := hbit 31 (by decide)
    have h32 := hbit 32 (by decide)
    have h33 := hbit 33 (by decide)
    rw [getLsbD_pcrBase_sign _ _ _ _ _ (by decide) (by decide)] at h31 h32 h33
    rw [h33, BitVec.getLsbD_of_ge _ _ (by decide)] at h31 h32
    have hlow := hbit 0 (by decide)
    have h7 := hbit 7 (by decide)
    rw [getLsbD_pcrBase _ _ _ _ _ (by decide)] at hlow h7
    simp only [h3 6 (by decide)] at h7
    refine ⟨⟨h31.symm, h32.symm, by simpa using hlow.symm⟩, fun h4 => ?_⟩
    simpa [h4] using h7.symm
  · rintro ⟨⟨h31, h32, hlow⟩, h7⟩
    apply BitVec.eq_of_getLsbD_eq
    intro i hi
    rw [BitVec.getLsbD_setWidth]
    by_cases h : i < 31
    · rw [getLsbD_pcrBase _ _ _ _ _ h]
      split_ifs
      · rw [h0 _ (by omega), Nat.sub_add_cancel ‹_›]; simp [hi]
      · rw [h1 _ (by omega), Nat.sub_add_cancel ‹_›]; simp [hi]
      · rw [h2 _ (by omega), Nat.sub_add_cancel ‹_›]; simp [hi]
      · subst i; rw [hlow, Bool.and_false]
      · rw [h3 _ (by omega), Nat.sub_add_cancel (by omega)]
        by_cases hi7 : i = 7
        · subst hi7
          cases h4 : d4.getLsbD 7
          · simp
          · simp [h7 h4]
        · simp [hi, hi7]
    · rw [getLsbD_pcrBase_sign _ _ _ _ _ (by omega) hi, h0 6 (by decide), h31]
      obtain rfl | rfl | hk : i = 31 ∨ i = 32 ∨ 33 ≤ i := by omega
      · rw [h31, Bool.and_false]
      · rw [h32, Bool.and_false]
      · rw [BitVec.getLsbD_of_ge _ _ hk, Bool.and_false]

/-! ## The value -/

/-- A negative base makes the value huge, or leaves what is above 300 of the extension. -/
theorem value_of_negative {b e : ℕ} (hb : 2 ^ 64 - 2 ^ 31 ≤ b) (hb' : b < 2 ^ 64) (he : e < 2 ^ 9) :
    2 ^ 63 ≤ (300 * b + e) % 2 ^ 64 ∨ 300 ≤ e ∧ (300 * b + e) % 2 ^ 64 = e - 300 := by
  obtain ⟨d, rfl⟩ : ∃ d, b = 2 ^ 64 - d := ⟨2 ^ 64 - b, by omega⟩
  by_cases hd : e < 300 * d
  · have hsum : 300 * (2 ^ 64 - d) + e =
        (300 * (61489146912365172 - d) + (16 + e)) + 2 ^ 64 * 299 := by omega
    have hlt : 300 * (61489146912365172 - d) + (16 + e) < 2 ^ 64 := by omega
    rw [hsum, Nat.add_mul_mod_self_left, Nat.mod_eq_of_lt hlt]
    omega
  · obtain rfl : d = 1 := by omega
    have hsum : 300 * (2 ^ 64 - 1) + e = (e - 300) + 2 ^ 64 * 300 := by omega
    have hlt : e - 300 < 2 ^ 64 := by omega
    rw [hsum, Nat.add_mul_mod_self_left, Nat.mod_eq_of_lt hlt]
    omega

/-- A base that is read as an `int` and an extension of nine bits are known from the value, as soon
as the low byte of the extension is known. -/
theorem base_ext_of_value {b e b' e' : ℕ} (hb : b < 2 ^ 33) (he : e < 2 ^ 9) (he' : e' < 2 ^ 9)
    (hint : b' < 2 ^ 31 ∨ 2 ^ 64 - 2 ^ 31 ≤ b' ∧ b' < 2 ^ 64) (hlow : e' % 256 = e % 256)
    (h : (300 * b' + e') % 2 ^ 64 = 300 * b + e) : b' = b ∧ e' = e := by
  rcases hint with hpos | ⟨hneg, hlt⟩
  · have hsmall : 300 * b' + e' < 2 ^ 64 := by omega
    rw [Nat.mod_eq_of_lt hsmall] at h
    omega
  · have hvalue := value_of_negative hneg hlt he'
    rw [h] at hvalue
    clear h hneg hlt
    omega

theorem pcrBase_int (d0 d1 d2 d3 d4 : Byte) :
    (pcrBase d0 d1 d2 d3 d4).toNat < 2 ^ 31 ∨
      2 ^ 64 - 2 ^ 31 ≤ (pcrBase d0 d1 d2 d3 d4).toNat ∧
        (pcrBase d0 d1 d2 d3 d4).toNat < 2 ^ 64 := by
  cases h : d0.getLsbD 6
  · exact .inl (pcrBase_lt d1 d2 d3 d4 h)
  · exact .inr ⟨pcrBase_ge d1 d2 d3 d4 h, BitVec.isLt _⟩

/-- The value that `parse_pcr` stores is that of a base and an extension when it reads just
these. -/
theorem pcrValue_eq_iff {mem : ℕ → Byte} {data : ℕ} {base : BitVec 33} {ext : BitVec 9}
    (hlow : mem (data + 5) = ext.setWidth 8) :
    (pcrValue mem data).toNat = clockValue base ext ↔
      pcrBase (mem data) (mem (data + 1)) (mem (data + 2)) (mem (data + 3)) (mem (data + 4)) =
          base.setWidth 64 ∧
        clockExt mem data = ext := by
  have hbase : (base.setWidth 64).toNat = base.toNat := by
    rw [BitVec.toNat_setWidth, Nat.mod_eq_of_lt (base.isLt.trans (by decide))]
  have hext : (pcrExt (mem (data + 4)) (mem (data + 5))).toNat = (clockExt mem data).toNat := by
    rw [pcrExt_eq, BitVec.toNat_setWidth,
      Nat.mod_eq_of_lt ((clockExt mem data).isLt.trans (by decide))]
  have hbyte : (clockExt mem data).toNat % 256 = ext.toNat % 256 := by
    have htoNat := congrArg BitVec.toNat ((clockExt_setWidth mem data).trans hlow)
    rwa [BitVec.toNat_setWidth, BitVec.toNat_setWidth] at htoNat
  rw [toNat_pcrValue, hext]
  constructor
  · intro h
    obtain ⟨hb, he⟩ := base_ext_of_value base.isLt ext.isLt (clockExt mem data).isLt
      (pcrBase_int ..) hbyte h
    exact ⟨BitVec.eq_of_toNat_eq (hb.trans hbase.symm), BitVec.eq_of_toNat_eq he⟩
  · rintro ⟨hb, rfl⟩
    have hlt := base.isLt
    have hlt' := (clockExt mem data).isLt
    rw [hb, hbase, Nat.mod_eq_of_lt (by omega)]
    rfl

/-! ## Reading -/

theorem pcrValue_exact_iff (mem : ℕ → Byte) (data : ℕ) :
    (pcrValue mem data).toNat = clockValue (clockBase mem data) (clockExt mem data) ↔
      BaseFits (clockBase mem data) := by
  rw [pcrValue_eq_iff (clockExt_setWidth mem data).symm, and_iff_left rfl, pcrBase_eq_iff]
  · refine and_iff_left_of_imp fun hfits h4 => ?_
    -- the lowest bit of the base stands in bit 7 of this byte
    have hlow := (baseFits_iff.mp hfits).2.2
    rw [getLsbD_clockBase mem data (by decide)] at hlow
    exact absurd (h4.symm.trans hlow) (by decide)
  all_goals
    intro i hi
    rw [getLsbD_clockBase mem data (by omega)]
    split_ifs <;> first | contradiction | omega | rw [Nat.add_sub_cancel]

/-- The PCR is stored with its value, and so is the OPCR that follows a PCR. -/
structure ClocksExact (mem : ℕ → Byte) (adp : TsAdaptField) : Prop where
  pcr : isSet (mem 1) 0x10#8 → adp.pcr.toNat = clockValue (clockBase mem 2) (clockExt mem 2)
  opcr : isSet (mem 1) 0x10#8 → isSet (mem 1) 0x08#8 →
    adp.opcr.toNat = clockValue (clockBase mem 8) (clockExt mem 8)

theorem clocksExact_iff {header : TsHeader} (h : header.HasAdaptation) (mem : ℕ → Byte)
    (dest : TsAdaptField) :
    ClocksExact mem (parseAdaptationField mem header dest).val.1 ↔
      (isSet (mem 1) 0x10#8 → BaseFits (clockBase mem 2)) ∧
        (isSet (mem 1) 0x10#8 → isSet (mem 1) 0x08#8 → BaseFits (clockBase mem 8)) := by
  rw [val_parseAdaptationField, if_pos h]
  have hpcr (hp : isSet (mem 1) 0x10#8) : (adaptationOf mem dest).pcr = pcrValue mem 2 := if_pos hp
  have hopcr (hp : isSet (mem 1) 0x10#8) (ho : isSet (mem 1) 0x08#8) :
      (adaptationOf mem dest).opcr = pcrValue mem 8 := by
    have hat : opcrAt (mem 1) = 8 := by rw [opcrAt, if_pos hp]
    rw [adaptationOf]
    simp only [ho, if_true, hat]
  constructor
  · rintro ⟨hexact, hexact'⟩
    refine ⟨fun hp => ?_, fun hp ho => ?_⟩
    · rw [← pcrValue_exact_iff, ← hpcr hp]
      exact hexact hp
    · rw [← pcrValue_exact_iff, ← hopcr hp ho]
      exact hexact' hp ho
  · rintro ⟨hfits, hfits'⟩
    refine ⟨fun hp => ?_, fun hp ho => ?_⟩
    · rw [hpcr hp, pcrValue_exact_iff]
      exact hfits hp
    · rw [hopcr hp ho, pcrValue_exact_iff]
      exact hfits' hp ho

/-- With extensions below 300 the values are ordered as the pairs of base and extension. -/
theorem clockValue_lt {base base' : BitVec 33} {ext ext' : BitVec 9} (he : ext.toNat < 300)
    (h : base < base' ∨ base = base' ∧ ext < ext') :
    clockValue base ext < clockValue base' ext' := by
  unfold clockValue
  rcases h with h | ⟨rfl, h⟩
  · rw [BitVec.lt_def] at h
    omega
  · rw [BitVec.lt_def] at h
    omega

/-- **Decoding clock references.** `parse_pcr` stores the value of a clock reference exactly when
its base fits, `parse_adaptation_field` does so with the PCR and the OPCR, and references that fit,
with extensions below 300, are stored in order. -/
theorem clocks_decoded_iff (mem : ℕ → Byte) (data : ℕ) :
    ((parsePcr mem data).val.1.toNat =
        clockValue (clockBase mem data) (clockExt mem data) ↔ BaseFits (clockBase mem data)) ∧
    (∀ (header : TsHeader) dest, header.HasAdaptation →
      (ClocksExact mem (parseAdaptationField mem header dest).val.1 ↔
        (isSet (mem 1) 0x10#8 → BaseFits (clockBase mem 2)) ∧
          (isSet (mem 1) 0x10#8 → isSet (mem 1) 0x08#8 → BaseFits (clockBase mem 8)))) ∧
    ∀ mem' data', BaseFits (clockBase mem data) → BaseFits (clockBase mem' data') →
      (clockExt mem data).toNat < 300 → (clockExt mem' data').toNat < 300 →
      (clockBase mem data < clockBase mem' data' ∨
        clockBase mem data = clockBase mem' data' ∧ clockExt mem data < clockExt mem' data') →
      (parsePcr mem data).val.1 < (parsePcr mem' data').val.1 := by
  refine ⟨pcrValue_exact_iff mem data, fun header dest h => clocksExact_iff h mem dest, ?_⟩
  intro mem' data' hfits hfits' he _ hlt
  rw [BitVec.lt_def]
  simp only [val_parsePcr, (pcrValue_exact_iff mem data).mpr hfits,
    (pcrValue_exact_iff mem' data').mpr hfits']
  exact clockValue_lt he hlt

/-- The bases 2 and 4, one behind the other. -/
theorem clocks_decoded_evenBases :
    (parsePcr (fun i => if i = 3 then 1 else if i = 9 then 2 else 0) 0).val.1 <
      (parsePcr (fun i => if i = 3 then 1 else if i = 9 then 2 else 0) 6).val.1 :=
  (clocks_decoded_iff (fun i => if i = 3 then 1 else if i = 9 then 2 else 0) 0).2.2 _ 6
    (by decide) (by decide) (by decide) (by decide) (.inl (by decide))

/-- A reference with base 1 is read as one with base 128. -/
theorem not_clocks_decoded_odd :
    ¬ ∀ mem data, (parsePcr mem data).val.1.toNat =
      clockValue (clockBase mem data) (clockExt mem data) := by
  intro h
  have hread := h (fun i => if i = 4 then 0x80 else 0) 0
  rw [val_parsePcr, pcrValue_exact_iff] at hread
  exact absurd hread (by decide)

/-! ## Writing and reading -/

/-- The memory after `write_pcr`. -/
def afterWritePcr (mem : ℕ → Byte) (data : ℕ) (pcr : BitVec 64) (i : ℕ) : Byte :=
  effect (writePcr data pcr) i (mem i)

theorem afterWritePcr_eq (mem : ℕ → Byte) (data : ℕ) (pcr : BitVec 64) {j : ℕ} (hj : j < 6) :
    afterWritePcr mem data pcr (data + j) = pcrByte pcr j (mem (data + j)) :=
  effect_writePcr data pcr hj _

theorem clockValue_div_mod (base : BitVec 33) {ext : BitVec 9} (hext : ext.toNat < 300) :
    BitVec.ofNat 64 (clockValue base ext) / 300 = base.setWidth 64 ∧
      BitVec.ofNat 64 (clockValue base ext) % 300 = ext.setWidth 64 := by
  have hbase := base.isLt
  have h300 : (300 : BitVec 64).toNat = 300 := rfl
  have hvalue : (BitVec.ofNat 64 (clockValue base ext)).toNat = 300 * base.toNat + ext.toNat := by
    rw [BitVec.toNat_ofNat, clockValue]
    omega
  constructor <;> apply BitVec.eq_of_toNat_eq
  · rw [BitVec.toNat_udiv, hvalue, h300, BitVec.toNat_setWidth]
    omega
  · rw [BitVec.toNat_umod, hvalue, h300, BitVec.toNat_setWidth]
    omega

/-- The bytes of the base behind the first four, as they are written. -/
theorem getLsbD_written_base (base : BitVec 33) (k : ℕ) {i : ℕ} (hi : i < 8) (hk : k < 33) :
    (((base.setWidth 64) >>> k).setWidth 8).getLsbD i = base.getLsbD (i + k) := by
  rw [BitVec.getLsbD_setWidth, BitVec.getLsbD_ushiftRight, BitVec.getLsbD_setWidth, Nat.add_comm k]
  simp [hi, show i + k < 64 by omega]

/-- The fifth byte, as it is written. -/
theorem getLsbD_written_mixed (old : Byte) (base : BitVec 33) (ext : BitVec 9) :
    (old ||| (base.setWidth 64 &&& 0x80#64).setWidth 8 |||
        (((ext.setWidth 64) >>> 8) &&& 1#64).setWidth 8).getLsbD 7 =
          (old.getLsbD 7 || base.getLsbD 7) ∧
      (old ||| (base.setWidth 64 &&& 0x80#64).setWidth 8 |||
        (((ext.setWidth 64) >>> 8) &&& 1#64).setWidth 8).getLsbD 0 =
          (old.getLsbD 0 || ext.getLsbD 8) := by
  constructor <;> simp

/-- Above its low byte the extension has one bit. -/
theorem clockExt_eq_iff {mem : ℕ → Byte} {data : ℕ} {ext : BitVec 9}
    (hlow : mem (data + 5) = ext.setWidth 8) :
    clockExt mem data = ext ↔ (mem (data + 4)).getLsbD 0 = ext.getLsbD 8 := by
  have hbit (i : ℕ) (hi : i < 9) : (clockExt mem data).getLsbD i =
      if i < 8 then ext.getLsbD i else (mem (data + 4)).getLsbD 0 := by
    unfold clockExt
    rw [BitVec.getLsbD_append, hlow]
    by_cases h : i < 8
    · simp [h]
    · obtain rfl : i = 8 := by omega
      simp
  constructor
  · intro h
    have h8 := hbit 8 (by decide)
    rw [h] at h8
    exact h8.symm
  · intro h
    apply BitVec.eq_of_getLsbD_eq
    intro i hi
    rw [hbit i hi]
    split_ifs with h8
    · rfl
    · obtain rfl : i = 8 := by omega
      exact h

/-- **Writing and reading a clock reference.** `parse_pcr` gives back what `write_pcr` was given
exactly when the base fits and the two bits that the writer leaves standing in its destination, bits
7 and 0 of the fifth byte, are set only where it would set them. -/
theorem parsePcr_writePcr_iff (mem : ℕ → Byte) (data : ℕ) (base : BitVec 33) {ext : BitVec 9}
    (hext : ext.toNat < 300) :
    (parsePcr (afterWritePcr mem data (BitVec.ofNat 64 (clockValue base ext))) data).val.1 =
        BitVec.ofNat 64 (clockValue base ext) ↔
      BaseFits base ∧ ((mem (data + 4)).getLsbD 7 → base.getLsbD 7) ∧
        ((mem (data + 4)).getLsbD 0 → ext.getLsbD 8) := by
  obtain ⟨hdiv, hmod⟩ := clockValue_div_mod base hext
  have hvalue : clockValue base ext < 2 ^ 64 := by
    have hbase := base.isLt
    unfold clockValue
    omega
  have hbyte (j : ℕ) (hj : j < 6) := afterWritePcr_eq mem data
    (BitVec.ofNat 64 (clockValue base ext)) hj
  generalize afterWritePcr mem data (BitVec.ofNat 64 (clockValue base ext)) = mem' at *
  have h0 := hbyte 0 (by decide)
  have h1 := hbyte 1 (by decide)
  have h2 := hbyte 2 (by decide)
  have h3 := hbyte 3 (by decide)
  have h4 := hbyte 4 (by decide)
  have h5 := hbyte 5 (by decide)
  simp only [pcrByte, hdiv, hmod, Nat.add_zero] at h0 h1 h2 h3 h4 h5
  obtain ⟨h47, h40⟩ := getLsbD_written_mixed (mem (data + 4)) base ext
  rw [← h4] at h47 h40
  have hlow : mem' (data + 5) = ext.setWidth 8 := by
    rw [h5]
    apply BitVec.eq_of_getLsbD_eq
    intro i hi
    simp [hi]
  have hexact : (parsePcr mem' data).val.1 = BitVec.ofNat 64 (clockValue base ext) ↔
      (pcrValue mem' data).toNat = clockValue base ext := by
    rw [val_parsePcr, ← BitVec.toNat_inj, BitVec.toNat_ofNat, Nat.mod_eq_of_lt hvalue]
  have hclock : clockExt mem' data = ext ↔ ((mem (data + 4)).getLsbD 0 → ext.getLsbD 8) := by
    rw [clockExt_eq_iff hlow, h40]
    cases (mem (data + 4)).getLsbD 0 <;> simp
  rw [hexact, pcrValue_eq_iff hlow, hclock, pcrBase_eq_iff, h47, and_assoc]
  · simp only [Bool.or_eq_true, or_imp, imp_self, and_true]
  · intro i hi
    rw [h0, getLsbD_written_base base 25 hi (by decide)]
  · intro i hi
    rw [h1, getLsbD_written_base base 17 hi (by decide)]
  · intro i hi
    rw [h2, getLsbD_written_base base 9 hi (by decide)]
  · intro i hi
    rw [h3, getLsbD_written_base base 1 hi (by decide)]

/-- One second and seven units of the extension, over bytes that hold ones in the reserved bits. -/
theorem parsePcr_writePcr_second :
    (parsePcr (afterWritePcr (fun _ => 0x7e) 0 (BitVec.ofNat 64 (clockValue 90000#33 7#9))) 0).val.1
      = BitVec.ofNat 64 (clockValue 90000#33 7#9) :=
  (parsePcr_writePcr_iff (fun _ => 0x7e) 0 90000#33 (by decide)).mpr (by decide)

/-- Base 1 is lost, whatever is written over. -/
theorem not_parsePcr_writePcr_odd :
    ¬ ∀ mem data base (ext : BitVec 9), ext.toNat < 300 →
      (parsePcr (afterWritePcr mem data (BitVec.ofNat 64 (clockValue base ext))) data).val.1 =
        BitVec.ofNat 64 (clockValue base ext) := by
  intro h
  exact absurd (h (fun _ => 0) 0 1#33 0#9 (by decide)) (by decide)

end MpegtsReader
