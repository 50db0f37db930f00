import MpegtsReader.Packet
import MpegtsReader.Buffer
import MpegtsReader.AccessLog

/-!
# Clock references and timestamps

`parse_pcr`, `write_pcr` and `get_pes_pts`. All shifts are done in 32-bit `int` and the result is
widened to `uint64_t`, so bit 31 of an `int` is copied into the upper half. The reader takes the
low bit of the PCR base from bit 7 of `data[4]` without moving it to bit 0, and the writer puts bit
7 of the base there: `pcr_rewrite_iff` says which six bytes survive being read and written back.
-/

namespace MpegtsReader

open Buffer Logged

/-! ## Program clock reference -/

/-- `pcr_base` of `parse_pcr`. -/
def pcrBase (d0 d1 d2 d3 d4 : Byte) : BitVec 64 :=
  (promote d0 <<< 25 ||| promote d1 <<< 17 ||| promote d2 <<< 9 ||| promote d3 <<< 1 |||
    (promote d4 &&& 0x80#32)).signExtend 64

/-- `pcr_ext` of `parse_pcr`. -/
def pcrExt (d4 d5 : Byte) : BitVec 64 :=
  ((promote d4 &&& 1#32) <<< 8 ||| promote d5).signExtend 64

/-- `parse_pcr`: the value stored and the cursor returned. -/
def parsePcr (mem : ℕ → Byte) (data : ℕ) : Logged (BitVec 64 × ℕ) := do
  let d0 ← deref mem data
  let d1 ← deref mem (data + 1)
  let d2 ← deref mem (data + 2)
  let d3 ← deref mem (data + 3)
  let d4 ← deref mem (data + 4)
  let d5 ← deref mem (data + 5)
  return (300 * pcrBase d0 d1 d2 d3 d4 + pcrExt d4 d5, data + 6)

/-- `write_pcr`: the stores it performs, in order. -/
def writePcr (data : ℕ) (pcr : BitVec 64) : List (Update Byte) :=
  let pcrBase := pcr / 300
  let pcrExt := pcr % 300
  [put data ((pcrBase >>> 25).setWidth 8),
    put (data + 1) ((pcrBase >>> 17).setWidth 8),
    put (data + 2) ((pcrBase >>> 9).setWidth 8),
    put (data + 3) ((pcrBase >>> 1).setWidth 8),
    (data + 4, fun b => b ||| (pcrBase &&& 0x80#64).setWidth 8),
    (data + 4, fun b => b ||| ((pcrExt >>> 8) &&& 1#64).setWidth 8),
    put (data + 5) (pcrExt.setWidth 8)]

/-- The value `parse_pcr` stores for the six bytes at `data`. -/
def pcrValue (mem : ℕ → Byte) (data : ℕ) : BitVec 64 :=
  300 * pcrBase (mem data) (mem (data + 1)) (mem (data + 2)) (mem (data + 3)) (mem (data + 4)) +
    pcrExt (mem (data + 4)) (mem (data + 5))

/-- What `write_pcr` makes of the byte `j` of its destination. -/
def pcrByte (pcr : BitVec 64) (j : ℕ) (old : Byte) : Byte :=
  match j with
  | 0 => ((pcr / 300) >>> 25).setWidth 8
  | 1 => ((pcr / 300) >>> 17).setWidth 8
  | 2 => ((pcr / 300) >>> 9).setWidth 8
  | 3 => ((pcr / 300) >>> 1).setWidth 8
  | 4 => old ||| (pcr / 300 &&& 0x80#64).setWidth 8 ||| (((pcr % 300) >>> 8) &&& 1#64).setWidth 8
  | _ => (pcr % 300).setWidth 8

@[simp] theorem val_parsePcr (mem : ℕ → Byte) (data : ℕ) :
    (parsePcr mem data).val = (pcrValue mem data, data + 6) := rfl

theorem writePcr_fst {data : ℕ} {pcr : BitVec 64} {u : Update Byte} (hu : u ∈ writePcr data pcr) :
    data ≤ u.1 ∧ u.1 ≤ data + 5 := by
  simp only [writePcr, List.mem_cons, List.not_mem_nil, or_false] at hu
  rcases hu with rfl | rfl | rfl | rfl | rfl | rfl | rfl <;> simp

theorem effect_writePcr (data : ℕ) (pcr : BitVec 64) {j : ℕ} (hj : j < 6) (old : Byte) :
    effect (writePcr data pcr) (data + j) old = pcrByte pcr j old := by
  unfold writePcr pcrByte
  interval_cases j <;> simp

/-! ### Bits of the base and the extension -/

/-- The base is read below bit 31, but for its lowest bit, which lands in bit 7. -/
theorem getLsbD_pcrBase (d0 d1 d2 d3 d4 : Byte) {i : ℕ} (hi : i < 31) :
    (pcrBase d0 d1 d2 d3 d4).getLsbD i =
      if 25 ≤ i then d0.getLsbD (i - 25)
      else if 17 ≤ i then d1.getLsbD (i - 17)
      else if 9 ≤ i then d2.getLsbD (i - 9)
      else if i = 0 then false
      else d3.getLsbD (i - 1) || (i == 7 && d4.getLsbD 7) := by
  unfold pcrBase
  interval_cases i <;> simp [BitVec.getElem_signExtend]

/-- From bit 31 on the base is the sign of the `int`. -/
theorem getLsbD_pcrBase_sign (d0 d1 d2 d3 d4 : Byte) {i : ℕ} (h : 31 ≤ i) (hi : i < 64) :
    (pcrBase d0 d1 d2 d3 d4).getLsbD i = d0.getLsbD 6 := by
  unfold pcrBase
  interval_cases i <;> simp [BitVec.getElem_signExtend, BitVec.msb_eq_getLsbD_last]

theorem getLsbD_pcrExt (d4 d5 : Byte) {i : ℕ} (hi : i < 64) :
    (pcrExt d4 d5).getLsbD i =
      if i < 8 then d5.getLsbD i else i == 8 && d4.getLsbD 0 := by
  unfold pcrExt
  interval_cases i <;> simp [BitVec.getElem_signExtend, BitVec.msb_eq_getLsbD_last]

/-- The bytes of the base, as `write_pcr` cuts it up. -/
theorem pcrBase_byte1 (d0 d1 d2 d3 d4 : Byte) :
    (pcrBase d0 d1 d2 d3 d4 >>> 17).setWidth 8 = d1 := by
  apply BitVec.eq_of_getLsbD_eq
  intro i hi
  unfold pcrBase
  interval_cases i <;> simp [BitVec.getElem_signExtend]

theorem pcrBase_byte2 (d0 d1 d2 d3 d4 : Byte) :
    (pcrBase d0 d1 d2 d3 d4 >>> 9).setWidth 8 = d2 := by
  apply BitVec.eq_of_getLsbD_eq
  intro i hi
  unfold pcrBase
  interval_cases i <;> simp [BitVec.getElem_signExtend]

theorem pcrBase_byte0 {d0 : Byte} (d1 d2 d3 d4 : Byte) (h6 : d0.getLsbD 6 = false)
    (h7 : d0.getLsbD 7 = false) : (pcrBase d0 d1 d2 d3 d4 >>> 25).setWidth 8 = d0 := by
  apply BitVec.eq_of_getLsbD_eq
  intro i hi
  rw [BitVec.getLsbD_setWidth, BitVec.getLsbD_ushiftRight]
  by_cases h : 25 + i < 31
  · rw [getLsbD_pcrBase _ _ _ _ _ h, if_pos (by omega)]
    simp [hi]
  · rw [getLsbD_pcrBase_sign _ _ _ _ _ (by omega) (by omega), h6, Bool.and_false]
    obtain rfl | rfl : i = 6 ∨ i = 7 := by omega
    · exact h6.symm
    · exact h7.symm

theorem getLsbD_pcrBase_top (d0 d1 d2 d3 d4 : Byte) :
    ((pcrBase d0 d1 d2 d3 d4 >>> 25).setWidth 8).getLsbD 7 = d0.getLsbD 6 := by
  rw [BitVec.getLsbD_setWidth, BitVec.getLsbD_ushiftRight,
    getLsbD_pcrBase_sign _ _ _ _ _ (by omega) (by omega)]
  simp

theorem getLsbD_pcrBase_byte3 (d0 d1 d2 d3 d4 : Byte) :
    ((pcrBase d0 d1 d2 d3 d4 >>> 1).setWidth 8).getLsbD 6 = (d3.getLsbD 6 || d4.getLsbD 7) := by
  rw [BitVec.getLsbD_setWidth, BitVec.getLsbD_ushiftRight, getLsbD_pcrBase _ _ _ _ _ (by omega)]
  simp

theorem getLsbD_pcrBase_byte4 (d0 d1 d2 d3 d4 : Byte) (ext : BitVec 64) :
    (d4 ||| (pcrBase d0 d1 d2 d3 d4 &&& 0x80#64).setWidth 8 |||
        ((ext >>> 8) &&& 1#64).setWidth 8).getLsbD 7 = (d4.getLsbD 7 || d3.getLsbD 6) := by
  have h7 : (pcrBase d0 d1 d2 d3 d4).getLsbD 7 = (d3.getLsbD 6 || d4.getLsbD 7) := by
    rw [getLsbD_pcrBase _ _ _ _ _ (by omega)]
    simp
  have hmask : (0x80#64).getLsbD 7 = true := rfl
  have hone : (1#64).getLsbD 7 = false := rfl
  simp only [BitVec.getLsbD_or, BitVec.getLsbD_setWidth, BitVec.getLsbD_and, h7, hmask, hone]
  cases d3.getLsbD 6 <;> cases d4.getLsbD 7 <;> simp

theorem pcrBase_byte3 (d0 d1 d2 : Byte) {d3 d4 : Byte} (h : d3.getLsbD 6 = d4.getLsbD 7) :
    (pcrBase d0 d1 d2 d3 d4 >>> 1).setWidth 8 = d3 := by
  apply BitVec.eq_of_getLsbD_eq
  intro i hi
  by_cases h6 : i = 6
  · subst h6
    rw [getLsbD_pcrBase_byte3, ← h, Bool.or_self]
  · rw [BitVec.getLsbD_setWidth, BitVec.getLsbD_ushiftRight, getLsbD_pcrBase _ _ _ _ _ (by omega),
      if_neg (by omega), if_neg (by omega), if_neg (by omega), if_neg (by omega)]
    simp [hi, show ¬ 1 + i = 7 by omega]

theorem pcrBase_byte4 (d0 d1 d2 : Byte) {d3 d4 : Byte} (d5 : Byte)
    (h : d3.getLsbD 6 = d4.getLsbD 7) :
    d4 ||| (pcrBase d0 d1 d2 d3 d4 &&& 0x80#64).setWidth 8 |||
      ((pcrExt d4 d5 >>> 8) &&& 1#64).setWidth 8 = d4 := by
  apply BitVec.eq_of_getLsbD_eq
  intro i hi
  by_cases h7 : i = 7
  · subst h7
    rw [getLsbD_pcrBase_byte4, h, Bool.or_self]
  · have hmask : (0x80#64).getLsbD i = false := by interval_cases i <;> first | rfl | omega
    have hext : ((pcrExt d4 d5 >>> 8) &&& 1#64).getLsbD i = (i == 0 && d4.getLsbD 0) := by
      rw [BitVec.getLsbD_and, BitVec.getLsbD_ushiftRight, getLsbD_pcrExt _ _ (by omega)]
      interval_cases i <;> simp
    simp only [BitVec.getLsbD_or, BitVec.getLsbD_setWidth, BitVec.getLsbD_and, hmask]
    rw [← BitVec.getLsbD_and, hext]
    by_cases h0 : i = 0
    · subst h0; simp
    · simp [h0]

theorem pcrExt_setWidth (d4 d5 : Byte) : (pcrExt d4 d5).setWidth 8 = d5 := by
  apply BitVec.eq_of_getLsbD_eq
  intro i hi
  rw [BitVec.getLsbD_setWidth, getLsbD_pcrExt _ _ (by omega)]
  simp [hi]

theorem pcrExt_lt (d4 d5 : Byte) : (pcrExt d4 d5).toNat < 2 ^ 9 := by
  rw [BitVec.toNat_lt_iff_getLsbD_eq_false 9 (by decide)]
  intro k
  by_cases hk : 9 + k < 64
  · rw [getLsbD_pcrExt _ _ hk, if_neg (by omega), beq_eq_false_iff_ne.mpr (by omega)]
    rfl
  · exact BitVec.getLsbD_of_ge _ _ (by omega)

theorem pcrBase_lt {d0 : Byte} (d1 d2 d3 d4 : Byte) (h : d0.getLsbD 6 = false) :
    (pcrBase d0 d1 d2 d3 d4).toNat < 2 ^ 31 := by
  rw [BitVec.toNat_lt_iff_getLsbD_eq_false 31 (by decide)]
  intro k
  by_cases hk : 31 + k < 64
  · rw [getLsbD_pcrBase_sign _ _ _ _ _ (by omega) hk, h]
  · exact BitVec.getLsbD_of_ge _ _ (by omega)

/-- A set bit 31 makes the `int` negative and the base huge. -/
theorem pcrBase_ge {d0 : Byte} (d1 d2 d3 d4 : Byte) (h : d0.getLsbD 6 = true) :
    2 ^ 64 - 2 ^ 31 ≤ (pcrBase d0 d1 d2 d3 d4).toNat := by
  have hnot : (~~~ pcrBase d0 d1 d2 d3 d4).toNat < 2 ^ 31 := by
    rw [BitVec.toNat_lt_iff_getLsbD_eq_false 31 (by decide)]
    intro k
    by_cases hk : 31 + k < 64
    · rw [BitVec.getLsbD_not, getLsbD_pcrBase_sign _ _ _ _ _ (by omega) hk, h]
      simp
    · exact BitVec.getLsbD_of_ge _ _ (by omega)
  rw [BitVec.toNat_not] at hnot
  omega

/-! ### Reading and writing back -/

/-- The six bytes hold a clock reference that `write_pcr` restores after `parse_pcr`: bits 31 and 32
of the base are zero, its bit 7 equals its bit 0, and the extension is below 300. -/
structure PcrRestored (mem : ℕ → Byte) (data : ℕ) : Prop where
  bit31 : (mem data).getLsbD 6 = false
  bit32 : (mem data).getLsbD 7 = false
  lowBit : (mem (data + 3)).getLsbD 6 = (mem (data + 4)).getLsbD 7
  ext : (pcrExt (mem (data + 4)) (mem (data + 5))).toNat < 300

instance (mem : ℕ → Byte) (data : ℕ) : Decidable (PcrRestored mem data) :=
  decidable_of_iff (_ ∧ _ ∧ _ ∧ _)
    ⟨fun ⟨a, b, c, d⟩ => ⟨a, b, c, d⟩, fun ⟨a, b, c, d⟩ => ⟨a, b, c, d⟩⟩

theorem toNat_pcrValue (mem : ℕ → Byte) (data : ℕ) :
    (pcrValue mem data).toNat =
      (300 * (pcrBase (mem data) (mem (data + 1)) (mem (data + 2)) (mem (data + 3))
        (mem (data + 4))).toNat + (pcrExt (mem (data + 4)) (mem (data + 5))).toNat) % 2 ^ 64 := by
  unfold pcrValue
  rw [BitVec.toNat_add, BitVec.toNat_mul]
  simp

/-- Dividing a value with a negative base never gives the extension back, not even modulo 256. -/
theorem ext_of_negative {b e : ℕ} (hb : 2 ^ 64 - 2 ^ 31 ≤ b) (hb' : b < 2 ^ 64) (he : e < 2 ^ 9) :
    (300 * b + e) % 2 ^ 64 % 300 % 256 ≠ e % 256 := by
  obtain ⟨d, rfl⟩ : ∃ d, b = 2 ^ 64 - d := ⟨2 ^ 64 - b, by omega⟩
  by_cases hd : e < 300 * d
  · have hsum : 300 * (2 ^ 64 - d) + e =
        (300 * (61489146912365172 - d) + (16 + e)) + 2 ^ 64 * 299 := by omega
    have hlt : 300 * (61489146912365172 - d) + (16 + e) < 2 ^ 64 := by omega
    rw [hsum, Nat.add_mul_mod_self_left, Nat.mod_eq_of_lt hlt, Nat.mul_add_mod]
    omega
  · obtain rfl : d = 1 := by omega
    have hsum : 300 * (2 ^ 64 - 1) + e = (e - 300) + 2 ^ 64 * 300 := by omega
    have hlt : e - 300 < 2 ^ 64 := by omega
    rw [hsum, Nat.add_mul_mod_self_left, Nat.mod_eq_of_lt hlt]
    omega

/-- The last byte alone shows whether the base was negative or the extension too large. -/
theorem ext_of_restored {mem : ℕ → Byte} {data : ℕ}
    (h : pcrByte (pcrValue mem data) 5 (mem (data + 5)) = mem (data + 5)) :
    (mem data).getLsbD 6 = false ∧ (pcrExt (mem (data + 4)) (mem (data + 5))).toNat < 300 := by
  have he := pcrExt_lt (mem (data + 4)) (mem (data + 5))
  have hlow : (pcrExt (mem (data + 4)) (mem (data + 5))).toNat % 256 = (mem (data + 5)).toNat := by
    have := congrArg BitVec.toNat (pcrExt_setWidth (mem (data + 4)) (mem (data + 5)))
    simpa using this
  have hw : (pcrValue mem data).toNat % 300 % 256 = (mem (data + 5)).toNat := by
    have := congrArg BitVec.toNat h
    simpa [pcrByte] using this
  rw [toNat_pcrValue, ← hlow] at hw
  generalize (pcrExt (mem (data + 4)) (mem (data + 5))).toNat = e at *
  cases hs : (mem data).getLsbD 6
  · refine ⟨rfl, ?_⟩
    have hb := pcrBase_lt (mem (data + 1)) (mem (data + 2)) (mem (data + 3)) (mem (data + 4)) hs
    generalize (pcrBase _ _ _ _ _).toNat = b at *
    have hlt : 300 * b + e < 2 ^ 64 := by omega
    rw [Nat.mod_eq_of_lt hlt, Nat.mul_add_mod] at hw
    omega
  · exact absurd hw (ext_of_negative (pcrBase_ge _ _ _ _ hs) (BitVec.isLt _) he)

/-- Below bit 31 the division undoes the multiplication. -/
theorem pcrValue_div_mod {mem : ℕ → Byte} {data : ℕ} (hs : (mem data).getLsbD 6 = false)
    (he : (pcrExt (mem (data + 4)) (mem (data + 5))).toNat < 300) :
    pcrValue mem data / 300 =
        pcrBase (mem data) (mem (data + 1)) (mem (data + 2)) (mem (data + 3)) (mem (data + 4)) ∧
      pcrValue mem data % 300 = pcrExt (mem (data + 4)) (mem (data + 5)) := by
  have hb := pcrBase_lt (mem (data + 1)) (mem (data + 2)) (mem (data + 3)) (mem (data + 4)) hs
  have hv := toNat_pcrValue mem data
  rw [Nat.mod_eq_of_lt (by omega)] at hv
  have h300 : (300 : BitVec 64).toNat = 300 := rfl
  constructor <;> apply BitVec.eq_of_toNat_eq
  · rw [BitVec.toNat_udiv, hv, h300]; omega
  · rw [BitVec.toNat_umod, hv, h300]; omega

/-- Reading a clock reference and writing it back restores the six bytes exactly when
`PcrRestored` holds. -/
theorem pcr_rewrite_iff (mem : ℕ → Byte) (data : ℕ) :
    (∀ j < 6, pcrByte (pcrValue mem data) j (mem (data + j)) = mem (data + j)) ↔
      PcrRestored mem data := by
  constructor
  · intro h
    obtain ⟨hs, he⟩ := ext_of_restored (h 5 (by omega))
    obtain ⟨hdiv, hmod⟩ := pcrValue_div_mod hs he
    have h0 := congrArg (fun b : Byte => b.getLsbD 7) (h 0 (by omega))
    have h3 := congrArg (fun b : Byte => b.getLsbD 6) (h 3 (by omega))
    have h4 := congrArg (fun b : Byte => b.getLsbD 7) (h 4 (by omega))
    simp only [pcrByte, hdiv, hmod, getLsbD_pcrBase_top, getLsbD_pcrBase_byte3,
      getLsbD_pcrBase_byte4, Nat.add_zero] at h0 h3 h4
    refine ⟨hs, h0.symm.trans hs, ?_, he⟩
    revert h3 h4
    cases (mem (data + 3)).getLsbD 6 <;> cases (mem (data + 4)).getLsbD 7 <;> decide
  · rintro ⟨hs, h7, hl, he⟩
    obtain ⟨hdiv, hmod⟩ := pcrValue_div_mod hs he
    intro j hj
    interval_cases j <;> simp only [pcrByte, hdiv, hmod]
    · exact pcrBase_byte0 _ _ _ _ hs h7
    · exact pcrBase_byte1 ..
    · exact pcrBase_byte2 ..
    · exact pcrBase_byte3 _ _ _ hl
    · exact pcrBase_byte4 _ _ _ _ hl
    · exact pcrExt_setWidth _ _

end MpegtsReader
