import WebKit.JSC.ARM64LogicalImmediate
import WebKit.Lib.BitPattern
import WebKit.Lib.Bytes

/-!
# Logical immediates are the patterns of rotated runs, and decode to their values

`highestSetBit` is the logarithm (`highestSetBit_eq`), and flipping the bits under it leaves the next range
(`toNat_xor_mask`), so `findBitRange` finds the band of ones or of zeros of an element, if it is one
(`findBitRange_some`, `findBitRange_none`). What is encoded for it decodes to it (`encodes`). Each width either has the
range or goes on with a half (`tryWidth_represents`, `narrow_represents`), down to two bits
(`logical_immediates_exact`).
-/

namespace WebKit.JSC.LogicalImmediate

open WebKit.Lib WebKit.Lib.BitPattern

theorem toNat_mask {hsb : UInt32} (h : hsb.toNat < 64) : (mask hsb).toNat = 2 ^ (hsb.toNat + 1) - 1 := by
  have htop : (63 : UInt32).toNat = 63 := rfl
  have hle : hsb ≤ 63 := by
    rw [UInt32.le_iff_toNat_le]
    exact Nat.le_of_lt_succ h
  have hshift : (63 - hsb).toUInt64.toNat % 64 = 63 - hsb.toNat := by
    rw [UInt32.toNat_toUInt64, UInt32.toNat_sub_of_le _ _ hle, htop]
    exact Nat.mod_eq_of_lt (by omega)
  have hsum : 63 - hsb.toNat + (hsb.toNat + 1) = 64 := by omega
  have hsplit : 2 ^ (63 - hsb.toNat) * 2 ^ (hsb.toNat + 1) = 2 ^ 64 := by rw [← Nat.pow_add, hsum]
  have hall : (0xffffffffffffffff : UInt64).toNat = 2 ^ 64 - 1 := rfl
  have hpos := Nat.two_pow_pos (63 - hsb.toNat)
  have hpos' := Nat.two_pow_pos (hsb.toNat + 1)
  have hrest : 2 ^ 64 - 1 = 2 ^ (63 - hsb.toNat) - 1 + 2 ^ (63 - hsb.toNat) * (2 ^ (hsb.toNat + 1) - 1) := by
    have hge : 2 ^ (63 - hsb.toNat) ≤ 2 ^ (63 - hsb.toNat) * 2 ^ (hsb.toNat + 1) := Nat.le_mul_of_pos_right _ hpos'
    rw [Nat.mul_sub, Nat.mul_one]
    omega
  rw [mask, UInt64.toNat_shiftRight, hshift, hall, Nat.shiftRight_eq_div_pow, hrest, Nat.add_mul_div_left _ _ hpos,
    Nat.div_eq_of_lt (by omega), Nat.zero_add]

theorem toNat_xor_mask {value : UInt64} {hsb : UInt32} (h : hsb.toNat < 64)
    (hvalue : value.toNat < 2 ^ (hsb.toNat + 1)) :
    (value ^^^ mask hsb).toNat = 2 ^ (hsb.toNat + 1) - 1 - value.toNat := by
  rw [UInt64.toNat_xor, toNat_mask h, xor_ones hvalue]

/-! ## The highest bit -/

theorem and_high_ne_zero {N value : UInt64} {n : Nat} (hN : N.toNat = n) (hn : n < 64) :
    value &&& (0xffffffffffffffff <<< N) ≠ 0 ↔ 2 ^ n ≤ value.toNat := by
  have hall : (0xffffffffffffffff : UInt64).toNat = 2 ^ 64 - 1 := rfl
  have hpow : 2 ^ n < 2 ^ 64 := Nat.pow_lt_pow_right (by decide) hn
  have hpos := Nat.two_pow_pos n
  have hhigh : (0xffffffffffffffff <<< N : UInt64).toNat = 2 ^ 64 - 2 ^ n := by
    have hsum : 2 ^ n * (2 ^ 64 - 1) = 2 ^ 64 - 2 ^ n + 2 ^ 64 * (2 ^ n - 1) := by
      rw [Nat.mul_sub, Nat.mul_sub, Nat.mul_one, Nat.mul_comm (2 ^ n)]
      omega
    rw [UInt64.toNat_shiftLeft, hall, hN, Nat.mod_eq_of_lt hn, Nat.shiftLeft_eq, Nat.mul_comm, hsum,
      Nat.add_mul_mod_self_left, Nat.mod_eq_of_lt (by omega)]
  rw [ne_eq, ← UInt64.toNat_inj, UInt64.toNat_and, hhigh, and_high value.toNat_lt hn.le]
  constructor
  · intro hne
    by_contra hlt
    rw [Nat.div_eq_of_lt (by omega)] at hne
    simp at hne
  · intro hle hzero
    have hdiv := Nat.div_pos hle hpos
    have hmul := Nat.mul_pos hdiv hpos
    rw [hzero] at hmul
    exact absurd hmul (by decide)

/-- The highest bit of `value` is the highest bit of the first component, which is below `2 ^ n`, moved by the second.
-/
def Halved (value : UInt64) (n : Nat) (s : UInt64 × UInt32) : Prop :=
  0 < s.1.toNat ∧ s.1.toNat < 2 ^ n ∧ s.2.toNat + s.1.toNat.log2 = value.toNat.log2

theorem Halved.step {value N : UInt64} {n : Nat} {s : UInt64 × UInt32} (h : Halved value (2 * n) s) (hN : N.toNat = n)
    (hn : n < 64) : Halved value n (partialHSB N s.1 s.2) := by
  obtain ⟨hpos, hlt, hlog⟩ := h
  rw [partialHSB]
  by_cases hhigh : 2 ^ n ≤ s.1.toNat
  · have hlog' := log2_div_two_pow hhigh
    have hvalue : value.toNat.log2 < 64 := by
      by_cases hzero : value.toNat = 0
      · simp [hzero]
      · exact (Nat.log2_lt hzero).2 value.toNat_lt
    have hshift : (s.1 >>> N).toNat = s.1.toNat / 2 ^ n := by
      rw [UInt64.toNat_shiftRight, hN, Nat.mod_eq_of_lt hn, Nat.shiftRight_eq_div_pow]
    have hsum : (s.2 + N.toUInt32).toNat = s.2.toNat + n := by
      rw [UInt32.toNat_add, UInt64.toNat_toUInt32, hN, Nat.mod_eq_of_lt (show n < 2 ^ 32 by omega),
        Nat.mod_eq_of_lt (by omega)]
    rw [if_pos ((and_high_ne_zero hN hn).2 hhigh), Halved, hshift, hsum]
    refine ⟨Nat.div_pos hhigh (Nat.two_pow_pos n), ?_, by omega⟩
    rw [Nat.two_mul, Nat.pow_add] at hlt
    exact Nat.div_lt_of_lt_mul hlt
  · rw [if_neg fun h => hhigh ((and_high_ne_zero hN hn).1 h)]
    exact ⟨hpos, Nat.lt_of_not_le hhigh, hlog⟩

/-- **The highest set bit.** -/
theorem highestSetBit_eq {value : UInt64} (hpos : 0 < value.toNat) :
    (highestSetBit value).toNat = value.toNat.log2 := by
  have h : Halved value (2 * 32) (value, 0) := ⟨hpos, value.toNat_lt, Nat.zero_add _⟩
  have h₁ : Halved value (2 * 16) (partialHSB 32 value 0) := h.step rfl (by decide)
  have h₂ := h₁.step (N := 16) (n := 2 * 8) rfl (by decide)
  have h₃ := h₂.step (N := 8) (n := 2 * 4) rfl (by decide)
  have h₄ := h₃.step (N := 4) (n := 2 * 2) rfl (by decide)
  have h₅ := h₄.step (N := 2) (n := 2 * 1) rfl (by decide)
  obtain ⟨hpos', hlt, hlog⟩ := h₅.step (N := 1) (n := 1) rfl (by decide)
  have hone : (partialHSB 1 (partialHSB 2 (partialHSB 4 (partialHSB 8 (partialHSB 16 (partialHSB 32 value 0).1
      (partialHSB 32 value 0).2).1 _).1 _).1 _).1 _).1.toNat = 1 := Nat.le_antisymm (Nat.le_of_lt_succ hlt) hpos'
  rw [hone] at hlog
  exact hlog

/-! ## Ranges -/

/-- The range is a band of ones in the value, or of zeros if it is inverted. -/
structure IsRangeOf (w v : Nat) (range : BitRange) : Prop where
  le : range.lsb.toNat ≤ range.hsb.toNat
  lt : range.hsb.toNat + 1 < w
  eq : v = if range.inverted then 2 ^ w - 1 - (2 ^ (range.hsb.toNat + 1) - 2 ^ range.lsb.toNat)
    else 2 ^ (range.hsb.toNat + 1) - 2 ^ range.lsb.toNat

theorem log2_lt {value : UInt64} (hpos : 0 < value.toNat) : value.toNat.log2 < 64 :=
  (Nat.log2_lt hpos.ne').2 value.toNat_lt

theorem toNat_flip {value : UInt64} (hpos : 0 < value.toNat) :
    (value ^^^ mask (highestSetBit value)).toNat = 2 ^ (value.toNat.log2 + 1) - 1 - value.toNat := by
  have hbit := highestSetBit_eq hpos
  rw [toNat_xor_mask (by rw [hbit]; exact log2_lt hpos) (by rw [hbit]; exact Nat.lt_log2_self), hbit]

theorem flip_eq_zero_iff {value : UInt64} (hpos : 0 < value.toNat) :
    value ^^^ mask (highestSetBit value) = 0 ↔ value.toNat + 1 = 2 ^ (value.toNat.log2 + 1) := by
  have hzero : (0 : UInt64).toNat = 0 := rfl
  have hlt := Nat.lt_log2_self (n := value.toNat)
  rw [← UInt64.toNat_inj, toNat_flip hpos, hzero]
  omega

theorem findClearTopRange_some {inverted : Bool} {value : UInt64} {range : BitRange} (hpos : 0 < value.toNat)
    (h : findClearTopRange inverted value = some range) :
    range.inverted = inverted ∧ range.hsb.toNat = value.toNat.log2 ∧ range.lsb.toNat ≤ range.hsb.toNat ∧
      value.toNat = 2 ^ (range.hsb.toNat + 1) - 2 ^ range.lsb.toNat := by
  have hbit := highestSetBit_eq hpos
  have hlow := Nat.log2_self_le hpos.ne'
  have hpow : 2 ^ (value.toNat.log2 + 1) = 2 * 2 ^ value.toNat.log2 := by rw [Nat.pow_succ, Nat.mul_comm]
  by_cases hfirst : value ^^^ mask (highestSetBit value) = 0
  · have hones := (flip_eq_zero_iff hpos).1 hfirst
    simp only [findClearTopRange, hfirst, if_true, Option.some.injEq] at h
    subst h
    refine ⟨rfl, hbit, Nat.zero_le _, ?_⟩
    show value.toNat = 2 ^ ((highestSetBit value).toNat + 1) - 2 ^ 0
    rw [hbit, Nat.pow_zero]
    omega
  · have hpos' : 0 < (value ^^^ mask (highestSetBit value)).toNat := by
      rw [Nat.pos_iff_ne_zero, ne_eq, ← UInt64.toNat_zero, UInt64.toNat_inj]
      exact hfirst
    have hbit' := highestSetBit_eq hpos'
    simp only [findClearTopRange, hfirst, if_false] at h
    split at h
    · rename_i hsecond
      have hones := (flip_eq_zero_iff hpos').1 hsecond
      rw [toNat_flip hpos] at hones hpos' hbit'
      simp only [Option.some.injEq] at h
      subst h
      have hlt : (2 ^ (value.toNat.log2 + 1) - 1 - value.toNat).log2 < value.toNat.log2 := by
        rw [Nat.log2_lt hpos'.ne']
        omega
      have hlsb : (highestSetBit (value ^^^ mask (highestSetBit value)) + 1).toNat =
          (2 ^ (value.toNat.log2 + 1) - 1 - value.toNat).log2 + 1 := by
        have := log2_lt hpos
        rw [UInt32.toNat_add, hbit']
        exact Nat.mod_eq_of_lt (by rw [UInt32.toNat_one]; omega)
      refine ⟨rfl, hbit, ?_, ?_⟩
      · show (highestSetBit (value ^^^ mask (highestSetBit value)) + 1).toNat ≤ (highestSetBit value).toNat
        rw [hlsb, hbit]
        exact hlt
      · show value.toNat = 2 ^ ((highestSetBit value).toNat + 1) -
          2 ^ (highestSetBit (value ^^^ mask (highestSetBit value)) + 1).toNat
        rw [hlsb, hbit]
        omega
    · exact absurd h (by simp)

theorem findClearTopRange_none {inverted : Bool} {value : UInt64} (hpos : 0 < value.toNat)
    (h : findClearTopRange inverted value = none) {w : Nat} : ¬ IsBand w value.toNat := by
  rintro ⟨hsb, lsb, hle, -, hvalue⟩
  have hpow : 2 ^ (hsb + 1) = 2 * 2 ^ hsb := by rw [Nat.pow_succ, Nat.mul_comm]
  have hpow' : 2 ^ lsb ≤ 2 ^ hsb := Nat.pow_le_pow_right (by decide) hle
  have hpos' := Nat.two_pow_pos lsb
  have hlog : value.toNat.log2 = hsb := by
    rw [Nat.log2_eq_iff hpos.ne']
    omega
  by_cases hfirst : value ^^^ mask (highestSetBit value) = 0
  · simp [findClearTopRange, hfirst] at h
  · have hflip := toNat_flip hpos
    have hpos'' : 0 < (value ^^^ mask (highestSetBit value)).toNat := by
      rw [Nat.pos_iff_ne_zero, ne_eq, ← UInt64.toNat_zero, UInt64.toNat_inj]
      exact hfirst
    rw [hlog] at hflip
    have hlsb : 1 ≤ lsb := by
      by_contra hzero
      obtain rfl : lsb = 0 := by omega
      omega
    have hsucc : 2 ^ lsb = 2 * 2 ^ (lsb - 1) := by rw [← Nat.pow_succ', Nat.succ_eq_add_one, Nat.sub_add_cancel hlsb]
    have hlog' : (value ^^^ mask (highestSetBit value)).toNat.log2 = lsb - 1 := by
      rw [Nat.log2_eq_iff hpos''.ne', Nat.sub_add_cancel hlsb]
      omega
    have hsecond := (flip_eq_zero_iff hpos'').2 (by rw [hlog', Nat.sub_add_cancel hlsb]; omega)
    simp [findClearTopRange, hfirst, hsecond] at h

section

variable {value : UInt64} {width : UInt32} {w : Nat} (hw : width.toNat = w) (hpos : 0 < w) (hle : w ≤ 64)

include hw hpos

theorem toNat_width_sub_one : (width - 1).toNat = w - 1 := by
  have hone : (1 : UInt32) ≤ width := by
    rw [UInt32.le_iff_toNat_le, hw]
    exact hpos
  rw [UInt32.toNat_sub_of_le _ _ hone, hw]
  rfl

include hle

theorem and_msb_ne_zero (hvalue : value.toNat < 2 ^ w) :
    value &&& ((1 : UInt64) <<< (width - 1).toUInt64) ≠ 0 ↔ 2 ^ (w - 1) ≤ value.toNat := by
  have htop := toNat_width_sub_one hw hpos
  have hpow : 2 ^ w = 2 ^ (w - 1) * 2 := by rw [← Nat.pow_succ, Nat.succ_eq_add_one, Nat.sub_add_cancel hpos]
  have hlt : 2 ^ (w - 1) < 2 ^ 64 := Nat.pow_lt_pow_right (by decide) (by omega)
  have hmsb : ((1 : UInt64) <<< (width - 1).toUInt64).toNat = 2 ^ (w - 1) := by
    rw [UInt64.toNat_shiftLeft, UInt32.toNat_toUInt64, htop, UInt64.toNat_one,
      Nat.mod_eq_of_lt (show w - 1 < 64 by omega), Nat.shiftLeft_eq, Nat.one_mul, Nat.mod_eq_of_lt hlt]
  have hdiv : value.toNat / 2 ^ (w - 1) < 2 := Nat.div_lt_of_lt_mul (hpow ▸ hvalue)
  have hpos' := Nat.two_pow_pos (w - 1)
  rw [ne_eq, ← UInt64.toNat_inj, UInt64.toNat_and, hmsb, Nat.and_two_pow, Nat.testBit_eq_decide_div_mod_eq,
    UInt64.toNat_zero]
  constructor
  · intro hne
    by_contra hnot
    rw [Nat.div_eq_of_lt (by omega)] at hne
    simp at hne
  · intro hge
    have hone : value.toNat / 2 ^ (w - 1) = 1 := by
      have := Nat.div_pos hge hpos'
      omega
    simp [hone]

theorem toNat_xor_width (hvalue : value.toNat < 2 ^ w) :
    (value ^^^ mask (width - 1)).toNat = 2 ^ w - 1 - value.toNat := by
  have htop := toNat_width_sub_one hw hpos
  have hsucc : w - 1 + 1 = w := by omega
  rw [toNat_xor_mask (by omega) (by rwa [htop, hsucc]), htop, hsucc]

theorem findBitRange_some {range : BitRange} (hvalue : Mixed w value.toNat)
    (h : findBitRange width value = some range) : IsRangeOf w value.toNat range := by
  obtain ⟨hzero, hfull⟩ := hvalue
  have hpow : 2 ^ w = 2 ^ (w - 1) * 2 := by rw [← Nat.pow_succ, Nat.succ_eq_add_one, Nat.sub_add_cancel hpos]
  have hxor := toNat_xor_width hw hpos hle (show value.toNat < 2 ^ w by omega)
  have hmsb := and_msb_ne_zero hw hpos hle (show value.toNat < 2 ^ w by omega)
  rw [findBitRange] at h
  split at h
  · rename_i htop
    have hhalf := hmsb.1 htop
    obtain ⟨hinverted, hhsb, hlsb, hvalue⟩ := findClearTopRange_some (by omega) h
    have hlog : (value ^^^ mask (width - 1)).toNat.log2 < w - 1 := (Nat.log2_lt (by omega)).2 (by omega)
    refine ⟨hlsb, by omega, ?_⟩
    rw [if_pos hinverted, ← hvalue]
    omega
  · rename_i htop
    have hhalf : value.toNat < 2 ^ (w - 1) := Nat.lt_of_not_le fun hge => htop (hmsb.2 hge)
    obtain ⟨hinverted, hhsb, hlsb, hvalue⟩ := findClearTopRange_some hzero h
    have hlog : value.toNat.log2 < w - 1 := (Nat.log2_lt hzero.ne').2 hhalf
    refine ⟨hlsb, by omega, ?_⟩
    rw [hinverted, ← hvalue]
    simp

theorem findBitRange_none (hvalue : Mixed w value.toNat) (h : findBitRange width value = none) :
    ¬ IsRotatedRun w value.toNat := by
  obtain ⟨hzero, hfull⟩ := hvalue
  have hpow : 2 ^ w = 2 ^ (w - 1) * 2 := by rw [← Nat.pow_succ, Nat.succ_eq_add_one, Nat.sub_add_cancel hpos]
  have hxor := toNat_xor_width hw hpos hle (show value.toNat < 2 ^ w by omega)
  have hmsb := and_msb_ne_zero hw hpos hle (show value.toNat < 2 ^ w by omega)
  rw [isRotatedRun_iff]
  rw [findBitRange] at h
  split at h
  · rename_i htop
    have hhalf := hmsb.1 htop
    have hnone := findClearTopRange_none (by omega) h (w := w)
    rw [hxor] at hnone
    rintro (hband | ⟨u, hband, hu⟩)
    · exact absurd hband.lt (by omega)
    · have hlt := hband.lt
      have heq : 2 ^ w - 1 - value.toNat = u := by omega
      exact hnone (heq ▸ hband)
  · rename_i htop
    rintro (hband | ⟨u, hband, hu⟩)
    · exact findClearTopRange_none hzero h hband
    · have hlt := hband.lt
      exact htop (hmsb.2 (by omega))

end

/-! ## Encoding -/

/-- The immediate stands for the value, as `2 ^ n` bits and as any number of copies of them, if the value is a pattern.
-/
structure Represents (n v : Nat) (immediate : LogicalImmediate) : Prop where
  isValid_iff : immediate.isValid = true ↔ IsPattern n v
  decodes : immediate.isValid = true → ∃ fields : Nat, immediate.m_value = fields ∧ fields < 2 ^ 13 ∧
    ∀ count, 0 < count → decodeBitMasks (2 ^ n * count) fields = some (replicate (2 ^ n) count v)

theorem not_isValid_invalid : InvalidLogicalImmediate.isValid = false := by decide

theorem represents_invalid {n v : Nat} (h : ¬ IsPattern n v) : Represents n v InvalidLogicalImmediate where
  isValid_iff := by simp [not_isValid_invalid, h]
  decodes := by simp [not_isValid_invalid]

/-- The number of ones less one, and the rotation, for a range. -/
def fieldsOf (w : Nat) (range : BitRange) : Nat × Nat :=
  if range.inverted then (w - (range.hsb.toNat - range.lsb.toNat + 1) - 1, w - 1 - range.hsb.toNat)
  else (range.hsb.toNat - range.lsb.toNat, (w - range.lsb.toNat) % w)

theorem toNat_fields {immN immr imms : UInt32} (hN : immN.toNat < 2) (hr : immr.toNat < 64) (hs : imms.toNat < 64) :
    ((immN <<< 12) ||| (immr <<< 6) ||| imms).toNat = 2 ^ 12 * immN.toNat + 2 ^ 6 * immr.toNat + imms.toNat := by
  have htwelve : (12 : UInt32).toNat % 32 = 12 := rfl
  have hsix : (6 : UInt32).toNat % 32 = 6 := rfl
  have hhigh := Nat.two_pow_add_eq_or_of_lt (i := 12) (show 2 ^ 6 * immr.toNat < 2 ^ 12 by omega) immN.toNat
  have hlow := Nat.two_pow_add_eq_or_of_lt (i := 6) (show imms.toNat < 2 ^ 6 by omega) (2 ^ 6 * immN.toNat + immr.toNat)
  have hgroup : 2 ^ 12 * immN.toNat + 2 ^ 6 * immr.toNat = 2 ^ 6 * (2 ^ 6 * immN.toNat + immr.toNat) := by omega
  rw [UInt32.toNat_or, UInt32.toNat_or, UInt32.toNat_shiftLeft, UInt32.toNat_shiftLeft, htwelve, hsix, Nat.shiftLeft_eq,
    Nat.shiftLeft_eq, Nat.mul_comm, Nat.mod_eq_of_lt (by omega), Nat.mul_comm immr.toNat, Nat.mod_eq_of_lt (by omega),
    ← hhigh, hgroup, ← hlow]

theorem toNat_imms {k : Nat} (hk : 1 ≤ k) (hk' : k ≤ 6) {width imms : UInt32} (hw : width.toNat = 2 ^ k)
    (himms : imms.toNat < 2 ^ k) :
    ((if width = 64 then 0 else 63 &&& ~~~(width + width - 1)) ||| imms).toNat =
      (if k = 6 then 0 else 2 ^ 6 - 2 * 2 ^ k) + imms.toNat := by
  have hleading : (if width = 64 then 0 else 63 &&& ~~~(width + width - 1)).toNat =
      2 ^ k * (if k = 6 then 0 else 2 ^ (6 - k) - 2) := by
    have hwidth : width = UInt32.ofNat (2 ^ k) := by rw [← hw, UInt32.ofNat_toNat]
    rw [hwidth]
    interval_cases k <;> rfl
  have hsum : (if k = 6 then 0 else 2 ^ 6 - 2 * 2 ^ k) = 2 ^ k * (if k = 6 then 0 else 2 ^ (6 - k) - 2) := by
    interval_cases k <;> rfl
  rw [UInt32.toNat_or, hleading, hsum, Nat.two_pow_add_eq_or_of_lt himms]

theorem toNat_sub {a b : UInt32} (h : b.toNat ≤ a.toNat) : (a - b).toNat = a.toNat - b.toNat :=
  UInt32.toNat_sub_of_le a b (UInt32.le_iff_toNat_le.2 h)

theorem encode_eq {k : Nat} (hk : 1 ≤ k) (hk' : k ≤ 6) {width : UInt32} (hw : width.toNat = 2 ^ k) {v : Nat}
    {range : BitRange} (hrange : IsRangeOf (2 ^ k) v range) :
    (encodeLogicalImmediate width range).m_value = field k (fieldsOf (2 ^ k) range).1 (fieldsOf (2 ^ k) range).2 := by
  obtain ⟨hle, hlt, -⟩ := hrange
  have hpow : 2 ^ k ≤ 2 ^ 6 := Nat.pow_le_pow_right (by decide) hk'
  have hone : (1 : UInt32).toNat = 1 := rfl
  have hN : (if width = 64 then (1 : UInt32) else 0).toNat = if k = 6 then 1 else 0 := by
    have hwidth : width = UInt32.ofNat (2 ^ k) := by rw [← hw, UInt32.ofNat_toNat]
    rw [hwidth]
    interval_cases k <;> rfl
  have htop := toNat_width_sub_one hw (Nat.two_pow_pos k)
  have hsub := toNat_sub hle
  have hfield : ∀ {immr imms : UInt32} {S R : Nat}, imms.toNat = S → immr.toNat = R → S < 2 ^ k → R < 64 →
      (((if width = 64 then (1 : UInt32) else 0) <<< 12) ||| (immr <<< 6) |||
        ((if width = 64 then 0 else 63 &&& ~~~(width + width - 1)) ||| imms)).toNat = field k S R := by
    intro immr imms S R hS hR hlt hlt'
    have himms := toNat_imms hk hk' hw (hS ▸ hlt)
    rw [toNat_fields (by rw [hN]; split <;> decide) (by omega) (by rw [himms]; split <;> omega), himms, hN, hS, hR,
      field]
    split <;> omega
  cases hinverted : range.inverted with
  | true =>
    have himms : ((width - ((range.hsb - range.lsb) + 1)) - 1).toNat =
        2 ^ k - (range.hsb.toNat - range.lsb.toNat + 1) - 1 := by
      have hlength : (range.hsb - range.lsb + 1).toNat = range.hsb.toNat - range.lsb.toNat + 1 := by
        rw [UInt32.toNat_add, hsub, hone, Nat.mod_eq_of_lt (by omega)]
      rw [toNat_sub (by rw [toNat_sub (by omega)]; omega), toNat_sub (by omega), hw, hlength, hone]
    have himmr : ((width - 1) - range.hsb).toNat = 2 ^ k - 1 - range.hsb.toNat := by
      rw [toNat_sub (by rw [htop]; omega), htop]
    simp only [encodeLogicalImmediate, fieldsOf, hinverted, if_true]
    rw [hfield himms himmr (by omega) (by omega)]
  | false =>
    have himmr : ((width - range.lsb) &&& (width - 1)).toNat = (2 ^ k - range.lsb.toNat) % 2 ^ k := by
      rw [UInt32.toNat_and, htop, toNat_sub (by omega), hw, Nat.and_two_pow_sub_one_eq_mod]
    have hmod := Nat.mod_lt (2 ^ k - range.lsb.toNat) (Nat.two_pow_pos k)
    simp only [encodeLogicalImmediate, fieldsOf, hinverted, Bool.false_eq_true, if_false]
    rw [hfield hsub himmr (by omega) (by omega)]

/-- **The fields of a range decode to its value.** -/
theorem rotateRight_fieldsOf {w v : Nat} {range : BitRange} (hrange : IsRangeOf w v range) :
    rotateRight w (2 ^ ((fieldsOf w range).1 + 1) - 1) (fieldsOf w range).2 = v ∧ (fieldsOf w range).1 + 1 < w ∧
      (fieldsOf w range).2 < w := by
  obtain ⟨hle, hlt, hv⟩ := hrange
  cases hinverted : range.inverted with
  | true =>
    have hsucc : w - (range.hsb.toNat - range.lsb.toNat + 1) - 1 + 1 = w - (range.hsb.toNat - range.lsb.toNat + 1) := by
      omega
    simp only [hinverted, if_true] at hv
    simp only [fieldsOf, hinverted, if_true, hsucc]
    exact ⟨by rw [rotateRight_inverted hle hlt, hv], by omega, by omega⟩
  | false =>
    simp only [hinverted] at hv
    simp only [fieldsOf, hinverted]
    rw [if_neg (by decide)] at hv ⊢
    exact ⟨by rw [rotateRight_band hle hlt, hv], by omega, Nat.mod_lt _ (by omega)⟩

theorem encode_represents {k : Nat} (hk : 1 ≤ k) (hk' : k ≤ 6) {width : UInt32} (hw : width.toNat = 2 ^ k) {v : Nat}
    {range : BitRange} (hrange : IsRangeOf (2 ^ k) v range) :
    Represents k v (encodeLogicalImmediate width range) := by
  obtain ⟨hrotate, hS, hR⟩ := rotateRight_fieldsOf hrange
  have hencode := encode_eq hk hk' hw hrange
  have hpow : 2 ^ k ≤ 2 ^ 6 := Nat.pow_le_pow_right (by decide) hk'
  refine ⟨⟨fun _ => ?_, fun _ => ?_⟩, fun _ => ⟨_, hencode, ?_, fun count hcount => ?_⟩⟩
  · refine ⟨k, hk, Nat.le_refl k, v, ⟨_, _, Nat.succ_pos _, hS, hR, hrotate.symm⟩, ?_⟩
    rw [Nat.sub_self, Nat.pow_zero, replicate_one]
  · rw [isValid, hencode]
    have hne : ((field k (fieldsOf (2 ^ k) range).1 (fieldsOf (2 ^ k) range).2 : Nat) : Int) ≠
        InvalidLogicalImmediate.m_value := by
      show _ ≠ (-1 : Int)
      omega
    exact decide_eq_true hne
  · rw [field]
    split <;> omega
  · rw [decodeBitMasks_field hk hk' hS hR hcount, hrotate]

/-! ## The widths -/

theorem tryWidth_represents {k : Nat} (hk : 1 ≤ k) (hk' : k ≤ 6) {width : UInt32} (hw : width.toNat = 2 ^ k)
    {value : UInt64} (hvalue : Mixed (2 ^ k) value.toNat) {otherwise : LogicalImmediate}
    (hother : ¬ IsRotatedRun (2 ^ k) value.toNat → Represents k value.toNat otherwise) :
    Represents k value.toNat (tryWidth width value otherwise) := by
  have hle : 2 ^ k ≤ 2 ^ 6 := Nat.pow_le_pow_right (by decide) hk'
  rw [tryWidth]
  cases hfind : findBitRange width value with
  | some range => exact encode_represents hk hk' hw (findBitRange_some hw (Nat.two_pow_pos k) hle hvalue hfind)
  | none => exact hother (findBitRange_none hw (Nat.two_pow_pos k) hle hvalue hfind)

/-- What stands for a half stands for the whole, if the halves are equal. -/
theorem Represents.double {n u : Nat} {immediate : LogicalImmediate} (hn : 1 ≤ n) (h : Represents n u immediate)
    (hu : u < 2 ^ 2 ^ n) (hnot : ¬ IsRotatedRun (2 ^ (n + 1)) (replicate (2 ^ n) 2 u)) :
    Represents (n + 1) (replicate (2 ^ n) 2 u) immediate := by
  constructor
  · rw [h.isValid_iff, isPattern_succ hn]
    constructor
    · intro hpattern
      exact Or.inr ⟨u, hpattern, rfl⟩
    · rintro (hrun | ⟨u', hpattern, heq⟩)
      · exact absurd hrun hnot
      · have hmod : ∀ {x}, x < 2 ^ 2 ^ n → replicate (2 ^ n) 2 x % 2 ^ 2 ^ n = x := by
          intro x hx
          rw [replicate_two, Nat.mul_comm, Nat.mul_add_mod, Nat.mod_eq_of_lt hx]
        have hsame := congrArg (· % 2 ^ 2 ^ n) heq
        simp only [hmod hu, hmod hpattern.lt] at hsame
        rwa [hsame]
  · intro hvalid
    obtain ⟨fields, hfields, hlt, hdecode⟩ := h.decodes hvalid
    refine ⟨fields, hfields, hlt, fun count hcount => ?_⟩
    have hpow : 2 ^ (n + 1) = 2 ^ n * 2 := Nat.pow_succ 2 n
    rw [hpow, replicate_replicate, Nat.mul_assoc, Nat.mul_comm 2 count]
    exact hdecode (count * 2) (by omega)

theorem not_isPattern_of_halves {n v : Nat} (hn : 1 ≤ n) (hnot : ¬ IsRotatedRun (2 ^ (n + 1)) v)
    (hhalves : v % 2 ^ 2 ^ n ≠ v / 2 ^ 2 ^ n) : ¬ IsPattern (n + 1) v := by
  rw [isPattern_succ hn]
  rintro (hrun | ⟨u, hpattern, rfl⟩)
  · exact hnot hrun
  · have hlt := hpattern.lt
    have hpos := Nat.two_pow_pos (2 ^ n)
    rw [replicate_two, Nat.mul_comm, Nat.mul_add_mod, Nat.mod_eq_of_lt hlt, Nat.mul_add_div hpos,
      Nat.div_eq_of_lt hlt] at hhalves
    exact hhalves rfl

theorem halves_eq {n v : Nat} (hhalves : v % 2 ^ 2 ^ n = v / 2 ^ 2 ^ n) :
    v = replicate (2 ^ n) 2 (v % 2 ^ 2 ^ n) := by
  have hdiv := Nat.div_add_mod v (2 ^ 2 ^ n)
  rw [← hhalves, Nat.mul_comm] at hdiv
  rw [replicate_two, hdiv]

theorem represents_of_halves {n v : Nat} {immediate : LogicalImmediate} (hn : 1 ≤ n) (hmixed : Mixed (2 ^ (n + 1)) v)
    (hnot : ¬ IsRotatedRun (2 ^ (n + 1)) v) (hhalves : v % 2 ^ 2 ^ n = v / 2 ^ 2 ^ n)
    (hnext : Mixed (2 ^ n) (v % 2 ^ 2 ^ n) → Represents n (v % 2 ^ 2 ^ n) immediate) :
    Represents (n + 1) v immediate := by
  have heq := halves_eq hhalves
  have hlt := Nat.mod_lt v (Nat.two_pow_pos (2 ^ n))
  have hpow : 2 ^ (n + 1) = 2 * 2 ^ n := by rw [Nat.pow_succ, Nat.mul_comm]
  rw [heq] at hnot ⊢
  rw [heq, hpow, mixed_replicate_two_iff hlt] at hmixed
  exact (hnext hmixed).double hn hlt hnot

theorem narrow_represents {n : Nat} (hn : 1 ≤ n) (hn' : n ≤ 4) {width low value : UInt32} (hw : width.toNat = 2 ^ n)
    (hlow : low.toNat = 2 ^ 2 ^ n - 1) (hmixed : Mixed (2 ^ (n + 1)) value.toNat)
    (hnot : ¬ IsRotatedRun (2 ^ (n + 1)) value.toNat) {next : UInt32 → LogicalImmediate}
    (hnext : ∀ u : UInt32, Mixed (2 ^ n) u.toNat → Represents n u.toNat (next u)) :
    Represents (n + 1) value.toNat (narrow width low value next) := by
  have hpow : 2 ^ n ≤ 2 ^ 4 := Nat.pow_le_pow_right (by decide) hn'
  have hmod : (value &&& low).toNat = value.toNat % 2 ^ 2 ^ n := by
    rw [UInt32.toNat_and, hlow, Nat.and_two_pow_sub_one_eq_mod]
  have hdiv : (value >>> width).toNat = value.toNat / 2 ^ 2 ^ n := by
    rw [UInt32.toNat_shiftRight, hw, Nat.mod_eq_of_lt (by omega), Nat.shiftRight_eq_div_pow]
  rw [narrow]
  split
  · rename_i hne
    rw [ne_eq, ← UInt32.toNat_inj, hmod, hdiv] at hne
    exact represents_invalid (not_isPattern_of_halves hn hnot hne)
  · rename_i heq
    rw [ne_eq, not_not, ← UInt32.toNat_inj, hmod, hdiv] at heq
    have hlower := hnext (value &&& low)
    rw [hmod] at hlower
    exact represents_of_halves hn hmixed hnot heq hlower

theorem tryWidth_represents32 {k : Nat} (hk : 1 ≤ k) (hk' : k ≤ 5) {width : UInt32} (hw : width.toNat = 2 ^ k)
    {value : UInt32} (hvalue : Mixed (2 ^ k) value.toNat) {otherwise : LogicalImmediate}
    (hother : ¬ IsRotatedRun (2 ^ k) value.toNat → Represents k value.toNat otherwise) :
    Represents k value.toNat (tryWidth width value.toUInt64 otherwise) := by
  have heq : value.toUInt64.toNat = value.toNat := UInt32.toNat_toUInt64 value
  rw [← heq] at hvalue hother ⊢
  exact tryWidth_represents hk (by omega) hw hvalue hother

theorem create32_represents (value : UInt32) : Represents 5 value.toNat (create32 value) := by
  rw [create32]
  split
  · rename_i huniform
    refine represents_invalid fun hpattern => ?_
    obtain ⟨hzero, hfull⟩ := hpattern.mixed (by decide)
    rcases huniform with rfl | huniform
    · exact absurd hzero (by decide)
    · have hnot := congrArg UInt32.toNat huniform
      rw [UInt32.toNat_not, UInt32.toNat_zero, UInt32.size] at hnot
      omega
  · rename_i hmixed
    rw [not_or, ← UInt32.toNat_inj, ← UInt32.toNat_inj, UInt32.toNat_not, UInt32.toNat_zero, UInt32.size] at hmixed
    have hlt := value.toNat_lt
    have hvalue : Mixed (2 ^ 5) value.toNat := ⟨by omega, by omega⟩
    refine tryWidth_represents32 (k := 5) (by decide) (by decide) rfl hvalue fun hnot => ?_
    refine narrow_represents (n := 4) (by decide) (by decide) rfl rfl hvalue hnot fun u hu => ?_
    refine tryWidth_represents32 (k := 4) (by decide) (by decide) rfl hu fun hnot => ?_
    refine narrow_represents (n := 3) (by decide) (by decide) rfl rfl hu hnot fun u hu => ?_
    refine tryWidth_represents32 (k := 3) (by decide) (by decide) rfl hu fun hnot => ?_
    refine narrow_represents (n := 2) (by decide) (by decide) rfl rfl hu hnot fun u hu => ?_
    refine tryWidth_represents32 (k := 2) (by decide) (by decide) rfl hu fun hnot => ?_
    refine narrow_represents (n := 1) (by decide) (by decide) rfl rfl hu hnot fun u hu => ?_
    refine tryWidth_represents32 (k := 1) (by decide) (by decide) rfl hu fun hnot => ?_
    exact represents_invalid fun hpattern => hnot (isPattern_one.1 hpattern)

theorem create64_represents (value : UInt64) : Represents 6 value.toNat (create64 value) := by
  rw [create64]
  split
  · rename_i huniform
    refine represents_invalid fun hpattern => ?_
    obtain ⟨hzero, hfull⟩ := hpattern.mixed (by decide)
    rcases huniform with rfl | huniform
    · exact absurd hzero (by decide)
    · have hnot := congrArg UInt64.toNat huniform
      rw [UInt64.toNat_not, UInt64.toNat_zero, UInt64.size] at hnot
      omega
  · rename_i hmixed
    rw [not_or, ← UInt64.toNat_inj, ← UInt64.toNat_inj, UInt64.toNat_not, UInt64.toNat_zero, UInt64.size] at hmixed
    have hlt := value.toNat_lt
    have hvalue : Mixed (2 ^ 6) value.toNat := ⟨by omega, by omega⟩
    have hmod : value.toUInt32.toNat = value.toNat % 2 ^ 2 ^ 5 := UInt64.toNat_toUInt32 value
    have hdiv : (value >>> 32).toUInt32.toNat = value.toNat / 2 ^ 2 ^ 5 := by
      have hthirtytwo : (32 : UInt64).toNat % 64 = 32 := rfl
      rw [UInt64.toNat_toUInt32, UInt64.toNat_shiftRight, hthirtytwo, Nat.shiftRight_eq_div_pow]
      exact Nat.mod_eq_of_lt (by omega)
    refine tryWidth_represents (k := 6) (by decide) (by decide) rfl hvalue fun hnot => ?_
    split
    · rename_i heq
      rw [← UInt32.toNat_inj, hmod, hdiv] at heq
      refine represents_of_halves (n := 5) (by decide) hvalue hnot heq fun _ => ?_
      rw [← hmod]
      exact create32_represents _
    · rename_i hne
      rw [← UInt32.toNat_inj, hmod, hdiv] at hne
      exact represents_invalid (not_isPattern_of_halves (n := 5) (by decide) hnot hne)

/-- **A value has a logical immediate if and only if it is a pattern, and the fields decode to the value.** -/
theorem logical_immediates_exact :
    (∀ value : UInt64, ((create64 value).isValid = true ↔ IsPattern 6 value.toNat) ∧
      ((create64 value).isValid = true → ∃ fields : Nat, (create64 value).m_value = fields ∧ fields < 2 ^ 13 ∧
        decodeBitMasks 64 fields = some value.toNat)) ∧
    ∀ value : UInt32, ((create32 value).isValid = true ↔ IsPattern 5 value.toNat) ∧
      ((create32 value).isValid = true → ∃ fields : Nat, (create32 value).m_value = fields ∧ fields < 2 ^ 13 ∧
        decodeBitMasks 32 fields = some value.toNat) := by
  have hwhole : ∀ {n v : Nat} {immediate : LogicalImmediate}, Represents n v immediate →
      (immediate.isValid = true ↔ IsPattern n v) ∧ (immediate.isValid = true → ∃ fields : Nat,
        immediate.m_value = fields ∧ fields < 2 ^ 13 ∧ decodeBitMasks (2 ^ n) fields = some v) := by
    intro n v immediate h
    refine ⟨h.isValid_iff, fun hvalid => ?_⟩
    obtain ⟨fields, hfields, hlt, hdecode⟩ := h.decodes hvalid
    refine ⟨fields, hfields, hlt, ?_⟩
    have hone := hdecode 1 Nat.one_pos
    rwa [Nat.mul_one, replicate_one] at hone
  exact ⟨fun value => hwhole (create64_represents value), fun value => hwhole (create32_represents value)⟩

end WebKit.JSC.LogicalImmediate
