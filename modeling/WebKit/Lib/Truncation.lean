import Mathlib.Data.Rat.Floor

/-!
# Truncated quotients

`v.tdiv s` is the whole part of the rational number `v / s`, and `v.tmod s / s` is the rest, which lies strictly between
`-1` and `1` and has the sign of `v`. A quotient is thus between its whole part and the next integer away from zero
(`sub_one_lt_div`, `div_lt_add_one`, `tdiv_le_div`, `div_le_tdiv`), and whole parts compare as the quotients do
(`div_lt_div_of_tdiv_lt`). `towardZero` is the whole part of any rational number (`towardZero_div`, `towardZero_mono`).
-/

namespace Truncation

variable {v s v' s' : Int}

theorem cast_pos (hs : 0 < s) : (0 : ℚ) < s := by exact_mod_cast hs

theorem div_eq (hs : 0 < s) : (v / s : ℚ) = v.tdiv s + v.tmod s / s := by
  have h : (s * v.tdiv s + v.tmod s : ℚ) = v := by exact_mod_cast Int.mul_tdiv_add_tmod v s
  have hs' := (cast_pos hs).ne'
  rw [← h]
  field_simp

theorem tmod_div_lt_one (hs : 0 < s) : (v.tmod s / s : ℚ) < 1 := by
  rw [div_lt_one (cast_pos hs)]
  exact_mod_cast Int.tmod_lt_of_pos v hs

theorem neg_one_lt_tmod_div (hs : 0 < s) : (-1 : ℚ) < v.tmod s / s := by
  rw [lt_div_iff₀ (cast_pos hs), neg_one_mul]
  exact_mod_cast Int.lt_tmod_of_pos v hs

theorem div_lt_add_one (hs : 0 < s) : (v / s : ℚ) < v.tdiv s + 1 := by
  rw [div_eq hs]
  linarith [tmod_div_lt_one (v := v) hs]

theorem sub_one_lt_div (hs : 0 < s) : (v.tdiv s - 1 : ℚ) < v / s := by
  rw [div_eq hs]
  linarith [neg_one_lt_tmod_div (v := v) hs]

theorem abs_sub_tdiv_lt (hs : 0 < s) : |(v.tdiv s - v / s : ℚ)| < 1 :=
  abs_lt.2 ⟨by linarith [div_lt_add_one (v := v) hs], by linarith [sub_one_lt_div (v := v) hs]⟩

/-- The quotient is not below a whole part that is not negative, unless the latter is `0`. -/
theorem tdiv_le_div (hs : 0 < s) (hv : 0 ≤ v) : (v.tdiv s : ℚ) ≤ v / s := by
  rw [div_eq hs]
  have : (0 : ℚ) ≤ v.tmod s / s := div_nonneg (by exact_mod_cast Int.tmod_nonneg s hv) (cast_pos hs).le
  linarith

theorem div_le_tdiv (hs : 0 < s) (hv : v ≤ 0) : (v / s : ℚ) ≤ v.tdiv s := by
  have h := tdiv_le_div (v := -v) hs (by omega)
  rw [Int.neg_tdiv, Int.cast_neg, Int.cast_neg, neg_div, neg_le_neg_iff] at h
  exact h

theorem nonneg_of_tdiv_pos (hs : 0 < s) (hw : 0 < v.tdiv s) : 0 ≤ v := by
  by_contra hv
  have := Int.tdiv_nonneg (a := -v) (b := s) (by omega) hs.le
  rw [Int.neg_tdiv] at this
  omega

theorem nonpos_of_tdiv_neg (hs : 0 < s) (hw : v.tdiv s < 0) : v ≤ 0 := by
  by_contra hv
  have := Int.tdiv_nonneg (a := v) (b := s) (by omega) hs.le
  omega

/-- **A smaller whole part is that of a smaller quotient.** -/
theorem div_lt_div_of_tdiv_lt (hs : 0 < s) (hs' : 0 < s') (h : v.tdiv s < v'.tdiv s') : (v / s : ℚ) < v' / s' := by
  have h₁ : (v.tdiv s : ℚ) + 1 ≤ v'.tdiv s' := by exact_mod_cast h
  rcases lt_or_ge 0 (v'.tdiv s') with hpos | hneg
  · have := tdiv_le_div hs' (nonneg_of_tdiv_pos hs' hpos)
    linarith [div_lt_add_one (v := v) hs]
  · have := div_le_tdiv hs (nonpos_of_tdiv_neg hs (h.trans_le hneg))
    linarith [sub_one_lt_div (v := v') hs']

/-- Quotients with one whole part compare as their rests do. -/
theorem div_lt_div_iff (hs : 0 < s) (hs' : 0 < s') (h : v.tdiv s = v'.tdiv s') :
    (v / s : ℚ) < v' / s' ↔ v.tmod s * s' < v'.tmod s' * s := by
  rw [div_eq hs, div_eq hs', h, add_lt_add_iff_left, div_lt_div_iff₀ (cast_pos hs) (cast_pos hs')]
  exact_mod_cast Iff.rfl

/-! ## Changing the denominator -/

section Rescale

variable {t : Int}

/-- Every statement about a truncated quotient can be proved for numerators that are not negative. -/
theorem numerator_induction {P : Int → Prop} (hneg : ∀ v, P (-v) → P v) (hpos : ∀ v, 0 ≤ v → P v) (v : Int) : P v := by
  rcases Int.le_total 0 v with hv | hv
  · exact hpos v hv
  · exact hneg v (hpos (-v) (by omega))

/-- The whole part and the rest can be rescaled apart. -/
theorem tdiv_mul (hs : 0 < s) (ht : 0 ≤ t) (v : Int) : (v * t).tdiv s = v.tdiv s * t + (v.tmod s * t).tdiv s := by
  induction v using numerator_induction with
  | hneg v ih =>
    rw [Int.neg_mul, Int.neg_tdiv, Int.neg_tdiv, Int.neg_tmod, Int.neg_mul, Int.neg_mul, Int.neg_tdiv] at ih
    omega
  | hpos v hv =>
    have hr := Int.tmod_nonneg s hv
    rw [Int.tdiv_eq_ediv_of_nonneg (Int.mul_nonneg hv ht), Int.tdiv_eq_ediv_of_nonneg (Int.mul_nonneg hr ht)]
    have h : v * t = v.tmod s * t + s * (v.tdiv s * t) := by
      have := Int.tmod_add_mul_tdiv v s
      rw [← Int.mul_assoc, ← Int.add_mul, this]
    rw [h, Int.add_mul_ediv_left _ _ hs.ne', Int.add_comm]

/-- A rescaled quotient has the same whole part. -/
theorem tdiv_tdiv (hs : 0 < s) (ht : 0 < t) (v : Int) : ((v * t).tdiv s).tdiv t = v.tdiv s := by
  induction v using numerator_induction with
  | hneg v ih =>
    rw [Int.neg_mul, Int.neg_tdiv, Int.neg_tdiv, Int.neg_tdiv] at ih
    omega
  | hpos v hv =>
    have hvt := Int.mul_nonneg hv ht.le
    rw [Int.tdiv_eq_ediv_of_nonneg hvt, Int.tdiv_eq_ediv_of_nonneg (Int.ediv_nonneg hvt hs.le),
      Int.tdiv_eq_ediv_of_nonneg hv, Int.ediv_ediv_of_nonneg hs.le, Int.mul_ediv_mul_of_pos_left _ _ ht]

/-- A quotient over a smaller denominator has a smaller numerator. -/
theorem tdiv_mul_between (hs : 0 < s) (ht : 0 ≤ t) (hle : t ≤ s) (v : Int) :
    0 ≤ (v * t).tdiv s ∧ (v * t).tdiv s ≤ v ∨ v ≤ (v * t).tdiv s ∧ (v * t).tdiv s ≤ 0 := by
  induction v using numerator_induction with
  | hneg v ih =>
    rw [Int.neg_mul, Int.neg_tdiv] at ih
    omega
  | hpos v hv =>
    have hvt := Int.mul_nonneg hv ht
    refine .inl ⟨Int.tdiv_nonneg hvt hs.le, ?_⟩
    rw [Int.tdiv_eq_ediv_of_nonneg hvt]
    exact Int.ediv_le_of_le_mul hs (Int.mul_le_mul_of_nonneg_left hle hv)

/-- A rescaled quotient has the same whole part, whatever the sign of the divisor. -/
theorem tdiv_tdiv_of_ne (hs : s ≠ 0) (ht : 0 < t) (v : Int) : ((v * t).tdiv s).tdiv t = v.tdiv s := by
  rcases Int.lt_or_gt_of_ne hs with hneg | hpos
  · have h := tdiv_tdiv (show 0 < -s by omega) ht v
    rw [Int.tdiv_neg, Int.tdiv_neg, Int.neg_tdiv] at h
    omega
  · exact tdiv_tdiv hpos ht v

end Rescale

/-! ## Rounding toward zero -/

section TowardZero

/-- The whole part of a number. -/
def towardZero (q : ℚ) : Int := if 0 ≤ q then ⌊q⌋ else ⌈q⌉

theorem towardZero_neg (q : ℚ) : towardZero (-q) = -towardZero q := by
  unfold towardZero
  rcases lt_trichotomy q 0 with hneg | rfl | hpos
  · rw [if_pos (by linarith), if_neg (by linarith), Int.floor_neg]
  · simp
  · rw [if_neg (by linarith), if_pos hpos.le, Int.ceil_neg]

theorem towardZero_mono {q q' : ℚ} (h : q ≤ q') : towardZero q ≤ towardZero q' := by
  unfold towardZero
  split_ifs with hq hq'
  · exact Int.floor_mono h
  · linarith
  · exact (Int.ceil_le.2 (by push_cast; linarith)).trans (Int.floor_nonneg.2 ‹_›)
  · exact Int.ceil_mono h

theorem towardZero_div_of_pos (hs : 0 < s) (v : Int) : towardZero (v / s : ℚ) = v.tdiv s := by
  induction v using numerator_induction with
  | hneg v ih =>
    rw [Int.cast_neg, neg_div, towardZero_neg, Int.neg_tdiv] at ih
    omega
  | hpos v hv =>
    obtain ⟨n, rfl⟩ := Int.eq_ofNat_of_zero_le hs.le
    have hq : (0 : ℚ) ≤ v / (n : Int) := div_nonneg (by exact_mod_cast hv) (by positivity)
    rw [towardZero, if_pos hq, Int.tdiv_eq_ediv_of_nonneg hv]
    exact Rat.floor_intCast_div_natCast v n

/-- **Rounding a quotient toward zero** is the division of the machine. -/
theorem towardZero_div (hs : s ≠ 0) (v : Int) : towardZero (v / s : ℚ) = v.tdiv s := by
  rcases Int.lt_or_gt_of_ne hs with hneg | hpos
  · have h := towardZero_div_of_pos (show 0 < -s by omega) v
    rw [Int.cast_neg, div_neg, towardZero_neg, Int.tdiv_neg] at h
    omega
  · exact towardZero_div_of_pos hpos v

theorem towardZero_intCast (v : Int) : towardZero v = v := by
  have h := towardZero_div (show (1 : Int) ≠ 0 by decide) v
  rwa [Int.cast_one, div_one, Int.tdiv_one] at h

end TowardZero

end Truncation
