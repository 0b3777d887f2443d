import WebKit.WTF.MediaTimeOrder

/-!
# Sums and differences of `MediaTime`

`Rescaled x T c`: `c` is the operand `x` after it was set to the common time scale `T`. Its whole part is that of `x`, and
its value is less than two units of its own time scale away from `x` (`rescale_rescaled`), however often it was rescaled.
The loop of `operator+` and `operator-` ends (`combineLoop_cases`). A sum of two operands of one time scale is thus
within four units of the exact sum; operands of different time scales are added all the same, and the results are then
wrong (`media_time_faithful`, `media_time_unfaithful`).
-/

namespace WebKit.WTF.MediaTime

open Truncation

/-! ## Fitting the time scale -/

theorem fits_mul_of_le {w s t : Int} (h : Fits 64 (w * s)) (ht : 0 ≤ t) (hle : t ≤ s) : Fits 64 (w * t) := by
  unfold Fits at *
  rw [intMin_64, intMax_64] at *
  rcases Int.le_total 0 w with hw | hw
  · have := Int.mul_le_mul_of_nonneg_left hle hw
    have := Int.mul_nonneg hw ht
    omega
  · have := Int.mul_le_mul_of_nonpos_left hw hle
    have := Int.mul_nonpos_of_nonpos_of_nonneg hw ht
    omega

section Fit

variable {wholePart T : Int} {fuel : Nat}

theorem fitTimeScale_of_fits (hT : 0 < T) (h : Fits 64 (wholePart * T)) :
    fitTimeScale (fuel + 1) wholePart T = (T, wholePart * T) := by
  have hne : safeMultiply 64 wholePart T ≠ none := fun hn => (safeMultiply_eq_none hT).1 hn h
  obtain ⟨n, hn⟩ := Option.ne_none_iff_exists'.1 hne
  unfold fitTimeScale
  rw [hn, safeMultiply_eq_some hn]

theorem fitTimeScale_of_not_fits (hT : 0 < T) (h : ¬Fits 64 (wholePart * T)) :
    fitTimeScale (fuel + 1) wholePart T = fitTimeScale fuel wholePart (T.tdiv 2) := by
  rw [fitTimeScale, (safeMultiply_eq_none hT).2 h]

theorem half_pos (hw : Fits 64 wholePart) (hT : 0 < T) (h : ¬Fits 64 (wholePart * T)) : 0 < T.tdiv 2 := by
  have hne : T ≠ 1 := fun he => h (by rw [he, Int.mul_one]; exact hw)
  rw [Int.tdiv_eq_ediv_of_nonneg hT.le]
  omega

/-- **`fitTimeScale`** ends at a time scale at which the whole part fits. -/
theorem fitTimeScale_spec (hw : Fits 64 wholePart) (hT : 0 < T) (hfuel : T < 2 ^ fuel) :
    0 < (fitTimeScale fuel wholePart T).1 ∧ (fitTimeScale fuel wholePart T).1 ≤ T ∧
      (fitTimeScale fuel wholePart T).2 = wholePart * (fitTimeScale fuel wholePart T).1 ∧
      Fits 64 (wholePart * (fitTimeScale fuel wholePart T).1) := by
  induction fuel generalizing T with
  | zero =>
    rw [pow_zero] at hfuel
    omega
  | succ fuel ih =>
    by_cases h : Fits 64 (wholePart * T)
    · rw [fitTimeScale_of_fits hT h]
      exact ⟨hT, le_refl _, rfl, h⟩
    · rw [fitTimeScale_of_not_fits hT h]
      have hhalf := half_pos hw hT h
      rw [Int.tdiv_eq_ediv_of_nonneg hT.le] at hhalf ⊢
      rw [pow_succ] at hfuel
      obtain ⟨h₁, h₂, h₃, h₄⟩ := ih hhalf (by omega)
      exact ⟨h₁, by omega, h₃, h₄⟩

/-- More rounds than are needed change nothing. -/
theorem fitTimeScale_succ (hw : Fits 64 wholePart) (hT : 0 < T) (hfuel : T < 2 ^ fuel) :
    fitTimeScale (fuel + 1) wholePart T = fitTimeScale fuel wholePart T := by
  induction fuel generalizing T with
  | zero =>
    rw [pow_zero] at hfuel
    omega
  | succ fuel ih =>
    by_cases h : Fits 64 (wholePart * T)
    · rw [fitTimeScale_of_fits hT h, fitTimeScale_of_fits hT h]
    · have hhalf := half_pos hw hT h
      rw [fitTimeScale_of_not_fits hT h, fitTimeScale_of_not_fits hT h]
      refine ih hhalf ?_
      rw [Int.tdiv_eq_ediv_of_nonneg hT.le]
      rw [pow_succ] at hfuel
      omega

end Fit

/-- The time scale that `setTimeScale` reaches from `T`: the first of `T`, `T / 2`, … at which the whole part fits. -/
def fittedScale (wholePart T : Int) : Int := (fitTimeScale 31 wholePart T).1

section Scale

variable {wholePart T : Int}

theorem fittedScale_of_fits (hT : 0 < T) (h : Fits 64 (wholePart * T)) : fittedScale wholePart T = T := by
  unfold fittedScale
  rw [fitTimeScale_of_fits hT h]

theorem fittedScale_half (hw : Fits 64 wholePart) (hT : 0 < T) (hmax : T ≤ MaximumTimeScale)
    (h : ¬Fits 64 (wholePart * T)) : fittedScale wholePart (T.tdiv 2) = fittedScale wholePart T := by
  have hhalf := half_pos hw hT h
  unfold MaximumTimeScale at hmax
  rw [intMax_32] at hmax
  unfold fittedScale
  rw [fitTimeScale_of_not_fits hT h, fitTimeScale_succ hw hhalf]
  rw [Int.tdiv_eq_ediv_of_nonneg hT.le]
  omega

end Scale

/-! ## Rescaled operands -/

/-- `m_timeValue / m_timeScale`, truncated. -/
def wholePart (x : MediaTime) : Int := x.timeValue.tdiv x.timeScale

theorem setTimeScale_eq {x : MediaTime} {T : Int} (hs : 0 < x.timeScale) (hw : Fits 64 x.wholePart) (hT : 0 < T)
    (hmax : T ≤ MaximumTimeScale) (hne : T ≠ x.timeScale)
    (hfit : Fits 64 ((x.timeValue * fittedScale x.wholePart T).tdiv x.timeScale)) :
    x.setTimeScale T = { x with
      timeValue := (x.timeValue * fittedScale x.wholePart T).tdiv x.timeScale
      timeScale := fittedScale x.wholePart T } := by
  have hmax' := hmax
  unfold MaximumTimeScale at hmax'
  rw [intMax_32] at hmax'
  obtain ⟨hpos, -, hnew, -⟩ := fitTimeScale_spec hw hT (show T < 2 ^ 31 by omega)
  have hsum := tdiv_mul hs hpos.le x.timeValue
  unfold fittedScale wholePart at *
  unfold setTimeScale
  rw [if_neg hne, min_eq_right hmax]
  simp only [hnew]
  rw [← hsum]
  congr 1
  unfold Fits at hfit
  rw [intMin_64, intMax_64] at hfit
  exact Int.bmod_eq_of_le (by omega) (by omega)

/-- `c` is the operand `x` at the common time scale `T`. -/
structure Rescaled (x : MediaTime) (T : Int) (c : MediaTime) : Prop where
  flags : c.timeFlags = x.timeFlags
  scale : c.timeScale = fittedScale x.wholePart T
  whole : c.wholePart = x.wholePart
  fits : Fits 64 c.timeValue
  error : |c.timeValue - x.quotient * c.timeScale| < 2

/-- A finite time that the types can hold, with a positive time scale. -/
structure IsFinite (x : MediaTime) : Prop where
  valid : x.isValid
  not_positiveInfinite : x.isPositiveInfinite = false
  not_negativeInfinite : x.isNegativeInfinite = false
  not_indefinite : x.isIndefinite = false
  value : Fits 64 x.timeValue
  scale_pos : 0 < x.timeScale
  scale_le : x.timeScale ≤ MaximumTimeScale

section Rescale

variable {x c : MediaTime} {T : Int}

theorem fits_of_between {v r : Int} (hv : Fits 64 v) (h : 0 ≤ r ∧ r ≤ v ∨ v ≤ r ∧ r ≤ 0) : Fits 64 r := by
  unfold Fits at *
  rw [intMin_64, intMax_64] at *
  omega

theorem IsFinite.fits_wholePart (hx : x.IsFinite) : Fits 64 x.wholePart := by
  have hs := hx.scale_pos
  have h := tdiv_mul_between hs (t := 1) (by omega) (by omega) x.timeValue
  rw [Int.mul_one] at h
  exact fits_of_between hx.value h

theorem IsFinite.fits_mul (hx : x.IsFinite) : Fits 64 (x.wholePart * x.timeScale) := by
  have hs := hx.scale_pos
  have hsum := Int.tmod_add_tdiv_mul x.timeValue x.timeScale
  refine fits_of_between hx.value ?_
  unfold wholePart
  rcases Int.le_total 0 x.timeValue with hv | hv
  · have h₁ := Int.tmod_nonneg x.timeScale hv
    have h₂ := Int.mul_nonneg (Int.tdiv_nonneg hv hs.le) hs.le
    omega
  · have h₁ := Int.tmod_nonneg (a := -x.timeValue) x.timeScale (by omega)
    have h₂ := Int.mul_nonneg (Int.tdiv_nonneg (a := -x.timeValue) (by omega) hs.le) hs.le
    rw [Int.neg_tmod] at h₁
    rw [Int.neg_tdiv, Int.neg_mul] at h₂
    omega

theorem IsFinite.fittedScale_pos (hx : x.IsFinite) (hT : 0 < T) (hmax : T ≤ MaximumTimeScale) :
    0 < fittedScale x.wholePart T := by
  unfold MaximumTimeScale at hmax
  rw [intMax_32] at hmax
  exact (fitTimeScale_spec hx.fits_wholePart hT (show T < 2 ^ 31 by omega)).1

/-- One truncation is less than one unit away. -/
theorem abs_rescaled_lt (v : Int) {s t : Int} (hs : 0 < s) : |((v * t).tdiv s - v / s * t : ℚ)| < 1 := by
  have h := abs_sub_tdiv_lt (v := v * t) hs
  rwa [Int.cast_mul, mul_div_right_comm] at h

/-- **The operand at the first common time scale.** -/
theorem setTimeScale_rescaled (hx : x.IsFinite) (hT : 0 < T) (hmax : T ≤ MaximumTimeScale)
    (hfit : Fits 64 ((x.timeValue * fittedScale x.wholePart T).tdiv x.timeScale)) :
    Rescaled x T (x.setTimeScale T) := by
  have hs := hx.scale_pos
  have hpos := hx.fittedScale_pos hT hmax
  by_cases hne : T = x.timeScale
  · have hsame : x.setTimeScale T = x := if_pos hne
    rw [hsame, hne]
    refine ⟨rfl, (fittedScale_of_fits hs hx.fits_mul).symm, rfl, hx.value, ?_⟩
    unfold quotient
    rw [div_mul_cancel₀ _ (cast_pos hs).ne', sub_self, abs_zero]
    exact two_pos
  · rw [setTimeScale_eq hs hx.fits_wholePart hT hmax hne hfit]
    exact ⟨rfl, rfl, tdiv_tdiv hs hpos _, hfit, (abs_rescaled_lt x.timeValue hs).trans one_lt_two⟩

/-- **The operand at half the common time scale.** -/
theorem Rescaled.half (hx : x.IsFinite) (hT : 1 < T) (hmax : T ≤ MaximumTimeScale) (h : Rescaled x T c) :
    Rescaled x (T.tdiv 2) (c.setTimeScale (T.tdiv 2)) := by
  obtain ⟨hflags, hscale, hwhole, hfits, herror⟩ := h
  have hw := hx.fits_wholePart
  have hw' : Fits 64 c.wholePart := hwhole ▸ hw
  have hcpos : 0 < c.timeScale := hscale ▸ hx.fittedScale_pos (by omega) hmax
  have hhalf : T.tdiv 2 = T / 2 := Int.tdiv_eq_ediv_of_nonneg (by omega)
  have hhpos : 0 < T.tdiv 2 := by omega
  have hhmax : T.tdiv 2 ≤ MaximumTimeScale := by omega
  by_cases hfit : Fits 64 (x.wholePart * T)
  · -- the value is truncated once more
    have hcT : c.timeScale = T := hscale.trans (fittedScale_of_fits (by omega) hfit)
    have hfitted : fittedScale x.wholePart (T.tdiv 2) = T.tdiv 2 :=
      fittedScale_of_fits hhpos (fits_mul_of_le hfit (by omega) (by omega))
    have hbetween := tdiv_mul_between (t := T.tdiv 2) hcpos (by omega) (by omega) c.timeValue
    have heq := setTimeScale_eq (x := c) (T := T.tdiv 2) hcpos hw' hhpos hhmax (by omega)
      (by rw [hwhole, hfitted]; exact fits_of_between hfits hbetween)
    rw [hwhole, hfitted] at heq
    rw [heq]
    refine ⟨hflags, hfitted.symm, ?_, fits_of_between hfits hbetween, ?_⟩
    · exact (tdiv_tdiv hcpos hhpos _).trans hwhole
    · have hstep := abs_rescaled_lt c.timeValue (t := T.tdiv 2) hcpos
      have hratio : ((T.tdiv 2 : Int) : ℚ) / c.timeScale ≤ 1 / 2 := by
        rw [div_le_div_iff₀ (cast_pos hcpos) two_pos, one_mul]
        have : T.tdiv 2 * 2 ≤ c.timeScale := by omega
        exact_mod_cast this
      have hnonneg : (0 : ℚ) ≤ ((T.tdiv 2 : Int) : ℚ) / c.timeScale := div_nonneg (cast_pos hhpos).le (cast_pos hcpos).le
      have hold : |(c.timeValue / c.timeScale * (T.tdiv 2 : Int) - x.quotient * (T.tdiv 2 : Int) : ℚ)| ≤ 1 := by
        have he : (c.timeValue / c.timeScale * (T.tdiv 2 : Int) - x.quotient * (T.tdiv 2 : Int) : ℚ) =
            ((T.tdiv 2 : Int) : ℚ) / c.timeScale * (c.timeValue - x.quotient * c.timeScale) := by
          have := (cast_pos hcpos).ne'
          field_simp
        rw [he, abs_mul, abs_of_nonneg hnonneg]
        calc ((T.tdiv 2 : Int) : ℚ) / c.timeScale * |c.timeValue - x.quotient * c.timeScale|
            ≤ 1 / 2 * 2 := mul_le_mul hratio herror.le (abs_nonneg _) (by norm_num)
          _ = 1 := by norm_num
      have htri := abs_sub_le (((c.timeValue * T.tdiv 2).tdiv c.timeScale : Int) : ℚ)
        (c.timeValue / c.timeScale * (T.tdiv 2 : Int)) (x.quotient * (T.tdiv 2 : Int))
      simp only
      linarith
  · -- the operand was set to a lower time scale before, and keeps it
    have hfitted : fittedScale x.wholePart (T.tdiv 2) = c.timeScale :=
      (fittedScale_half hw (by omega) hmax hfit).trans hscale.symm
    have hsame : c.setTimeScale (T.tdiv 2) = c := by
      by_cases hne : T.tdiv 2 = c.timeScale
      · exact if_pos hne
      · have hcancel : (c.timeValue * c.timeScale).tdiv c.timeScale = c.timeValue := Int.mul_tdiv_cancel _ hcpos.ne'
        have heq := setTimeScale_eq (x := c) (T := T.tdiv 2) hcpos hw' hhpos hhmax hne
          (by rw [hwhole, hfitted, hcancel]; exact hfits)
        rw [hwhole, hfitted, hcancel] at heq
        exact heq
    rw [hsame]
    exact ⟨hflags, hfitted.symm, hwhole, hfits, herror⟩

end Rescale

/-- The common time scale after `i` rounds. -/
def halved (T : Int) : Nat → Int
  | 0 => T
  | i + 1 => (halved T i).tdiv 2

/-- The operand after `i` rounds. -/
def rescale (x : MediaTime) (T : Int) : Nat → MediaTime
  | 0 => x.setTimeScale T
  | i + 1 => (rescale x T i).setTimeScale (halved T (i + 1))

section Rounds

variable {x : MediaTime} {T : Int}

theorem halved_le (hT : 0 < T) : ∀ i, 0 ≤ halved T i ∧ halved T i * 2 ^ i ≤ T
  | 0 => ⟨hT.le, by simp [halved]⟩
  | i + 1 => by
    obtain ⟨h₁, h₂⟩ := halved_le hT i
    have he : halved T (i + 1) = halved T i / 2 := Int.tdiv_eq_ediv_of_nonneg h₁
    refine ⟨by omega, ?_⟩
    have hle : halved T (i + 1) * 2 ≤ halved T i := by omega
    calc halved T (i + 1) * 2 ^ (i + 1) = halved T (i + 1) * 2 * 2 ^ i := by
          rw [pow_succ, Int.mul_comm (2 ^ i), Int.mul_assoc]
      _ ≤ halved T i * 2 ^ i := Int.mul_le_mul_of_nonneg_right hle (by positivity)
      _ ≤ T := h₂

theorem halved_le_self (hT : 0 < T) (i : Nat) : halved T i ≤ T := by
  obtain ⟨h₁, h₂⟩ := halved_le hT i
  exact (le_mul_of_one_le_right h₁ (one_le_pow₀ (by norm_num))).trans h₂

/-- **The operand in every round.** -/
theorem rescale_rescaled (hx : x.IsFinite) (hT : 0 < T) (hmax : T ≤ MaximumTimeScale)
    (hfit : Fits 64 ((x.timeValue * fittedScale x.wholePart T).tdiv x.timeScale)) :
    ∀ i, 0 < halved T i → Rescaled x (halved T i) (rescale x T i)
  | 0, _ => setTimeScale_rescaled hx hT hmax hfit
  | i + 1, hpos => by
    have he : halved T (i + 1) = halved T i / 2 := Int.tdiv_eq_ediv_of_nonneg (halved_le hT i).1
    have hle := halved_le_self hT i
    exact (rescale_rescaled hx hT hmax hfit i (by omega)).half hx (by omega) (by omega)

/-- **The loop ends**, with the sum or the difference of some round, or with an infinity at the time scale `1`. -/
theorem combineLoop_cases (op : Int → Int → Option Int) (a b : MediaTime) (hT : 0 < T) (hmax : T ≤ MaximumTimeScale) :
    ∀ fuel i, fuel + i = 31 → 0 < halved T i →
      ∃ r, combineLoop op fuel (halved T i) (rescale a T i) (rescale b T i) = some r ∧ ∃ j, 0 < halved T j ∧
        ((∃ v, op (rescale a T j).timeValue (rescale b T j).timeValue = some v ∧
          r = { rescale a T j with timeValue := v }) ∨
        halved T j = 1 ∧ op (rescale a T j).timeValue (rescale b T j).timeValue = none ∧
          r = if (rescale a T j).timeValue > 0 then positiveInfiniteTime else negativeInfiniteTime)
  | 0, i, hi, hpos => by
    obtain rfl : i = 31 := by omega
    have := (halved_le hT 31).2
    unfold MaximumTimeScale at hmax
    rw [intMax_32] at hmax
    omega
  | fuel + 1, i, hi, hpos => by
    unfold combineLoop
    split
    · rename_i v hv
      exact ⟨_, rfl, i, hpos, .inl ⟨v, hv, rfl⟩⟩
    · rename_i hnone
      split
      · rename_i hone
        exact ⟨_, rfl, i, hpos, .inr ⟨hone, hnone, rfl⟩⟩
      · have hhalf : halved T (i + 1) = halved T i / 2 := Int.tdiv_eq_ediv_of_nonneg hpos.le
        exact combineLoop_cases op a b hT hmax fuel (i + 1) (by omega) (by omega)

end Rounds

theorem greatestCommonDivisorLoop_spec : ∀ {fuel : Nat} {a b : Int}, 0 < a → 0 ≤ b → b.natAbs ≤ fuel →
    0 < greatestCommonDivisorLoop fuel a b ∧ greatestCommonDivisorLoop fuel a b ∣ a ∧
      greatestCommonDivisorLoop fuel a b ∣ b
  | 0, a, b, ha, hb, hfuel => by
    obtain rfl : b = 0 := by omega
    exact ⟨ha, dvd_refl _, dvd_zero _⟩
  | fuel + 1, a, b, ha, hb, hfuel => by
    unfold greatestCommonDivisorLoop
    split
    · rename_i hz
      exact ⟨ha, dvd_refl _, hz ▸ dvd_zero _⟩
    · rename_i hne
      have hlt := Int.tmod_lt_of_pos a (show 0 < b by omega)
      have hnonneg := Int.tmod_nonneg b ha.le
      obtain ⟨h₁, h₂, h₃⟩ := greatestCommonDivisorLoop_spec (show 0 < b by omega) hnonneg (show _ ≤ fuel by omega)
      refine ⟨h₁, ?_, h₂⟩
      have h := dvd_add h₃ (dvd_mul_of_dvd_left h₂ (a.tdiv b))
      rwa [Int.tmod_add_mul_tdiv] at h

theorem commonTimeScale_spec {a b : MediaTime} (ha : 0 < a.timeScale) (hb : 0 < b.timeScale) :
    0 < commonTimeScale a b ∧ commonTimeScale a b ≤ MaximumTimeScale := by
  have hmax : MaximumTimeScale = 2147483647 := rfl
  unfold commonTimeScale
  split
  · rename_i c hc
    obtain ⟨hg, -, k, hk⟩ := greatestCommonDivisorLoop_spec ha hb.le (le_refl b.timeScale.natAbs)
    have hpos : 0 < c := by
      rw [safeMultiply_eq_some hc]
      have hkpos : 0 < k := by
        by_contra hn
        have := Int.mul_nonpos_of_nonneg_of_nonpos hg.le (show k ≤ 0 by omega)
        omega
      have hq : b.timeScale.tdiv (greatestCommonDivisor a.timeScale b.timeScale) = k :=
        Int.tdiv_eq_of_eq_mul_right hg.ne' hk
      rw [hq]
      exact Int.mul_pos ha hkpos
    split <;> omega
  · omega

/-! ## Faithful results -/

/-- What is promised of a result: it is close to the exact one, or infinite because the exact one is out of range. -/
structure Faithful (r : MediaTime) (exact : ℚ) : Prop where
  finite : r.isPositiveInfinite = false → r.isNegativeInfinite = false → |r.quotient - exact| ≤ 4 / r.timeScale
  positive : r.isPositiveInfinite → 2 ^ 63 - 1 < exact
  negative : r.isNegativeInfinite → exact < -2 ^ 63

/-- The operand does not overflow when it is set to the common time scale. -/
def NoOverflow (x : MediaTime) (T : Int) : Prop :=
  Fits 64 ((x.timeValue * fittedScale x.wholePart T).tdiv x.timeScale)

/-- Operands that are left with different time scales are not combined. -/
def ScalesAgree (op : Int → Int → Option Int) (a b : MediaTime) (T : Int) : Prop :=
  ∀ i, 0 < halved T i → (rescale a T i).timeScale ≠ (rescale b T i).timeScale →
    op (rescale a T i).timeValue (rescale b T i).timeValue = none

/-- The condition under which `a + b` is faithful. -/
structure AddOk (a b : MediaTime) : Prop where
  left : a.NoOverflow (commonTimeScale a b)
  right : b.NoOverflow (commonTimeScale a b)
  agree : ScalesAgree (safeAdd 64) a b (commonTimeScale a b)

/-- The condition under which `a - b` is faithful: also, the difference of the whole parts is neither that of `0` and the
least value, nor itself the least value with an exact difference that is not below it. -/
structure SubOk (a b : MediaTime) : Prop where
  left : a.NoOverflow (commonTimeScale a b)
  right : b.NoOverflow (commonTimeScale a b)
  agree : ScalesAgree (safeSub 64) a b (commonTimeScale a b)
  not_least : ¬(a.wholePart = 0 ∧ b.wholePart = intMin 64)
  least : a.wholePart < 0 → 0 ≤ b.wholePart → a.wholePart - b.wholePart = intMin 64 →
    a.quotient - b.quotient < -2 ^ 63

section Faithful

variable {a b : MediaTime}

theorem add_eq_combine (ha : a.IsFinite) (hb : b.IsFinite) : a.add b = combine (safeAdd 64) a b := by
  simp [add, isInvalid, ha.valid, hb.valid, ha.not_positiveInfinite, ha.not_negativeInfinite, ha.not_indefinite,
    hb.not_positiveInfinite, hb.not_negativeInfinite, hb.not_indefinite]

theorem sub_eq_combine (ha : a.IsFinite) (hb : b.IsFinite) : a.sub b = combine (safeSub 64) a b := by
  simp [sub, isInvalid, ha.valid, hb.valid, ha.not_positiveInfinite, ha.not_negativeInfinite, ha.not_indefinite,
    hb.not_positiveInfinite, hb.not_negativeInfinite, hb.not_indefinite]

theorem Rescaled.value_eq {x c : MediaTime} {T : Int} (h : Rescaled x T c) (hx : x.IsFinite) (hT : T = 1) :
    c.timeValue = x.wholePart := by
  have hs : c.timeScale = 1 := by
    rw [h.scale, hT]
    exact fittedScale_of_fits one_pos (by rw [Int.mul_one]; exact hx.fits_wholePart)
  have hw := h.whole
  unfold wholePart at hw ⊢
  rwa [hs, Int.tdiv_one] at hw

/-- **Operands of one time scale**, each less than two units away. -/
theorem Rescaled.abs_combined_le {T : Int} {c d : MediaTime} (hc : Rescaled a T c) (hd : Rescaled b T d)
    (hs : c.timeScale = d.timeScale) (hpos : 0 < c.timeScale) :
    |((c.timeValue + d.timeValue : Int) / c.timeScale - (a.quotient + b.quotient) : ℚ)| ≤ 4 / c.timeScale ∧
      |((c.timeValue - d.timeValue : Int) / c.timeScale - (a.quotient - b.quotient) : ℚ)| ≤ 4 / c.timeScale := by
  have ht := cast_pos hpos
  have hne := ht.ne'
  have hadd : ((c.timeValue + d.timeValue : Int) / c.timeScale - (a.quotient + b.quotient) : ℚ) =
      ((c.timeValue - a.quotient * c.timeScale) + (d.timeValue - b.quotient * c.timeScale)) / c.timeScale := by
    field_simp
    push_cast
    ring
  have hsub : ((c.timeValue - d.timeValue : Int) / c.timeScale - (a.quotient - b.quotient) : ℚ) =
      ((c.timeValue - a.quotient * c.timeScale) - (d.timeValue - b.quotient * c.timeScale)) / c.timeScale := by
    field_simp
    push_cast
    ring
  have herror := hd.error
  rw [← hs] at herror
  rw [hadd, hsub, abs_div, abs_div, abs_of_pos ht, div_le_div_iff_of_pos_right ht, div_le_div_iff_of_pos_right ht]
  obtain ⟨h₁, h₂⟩ := abs_lt.1 hc.error
  obtain ⟨h₃, h₄⟩ := abs_lt.1 herror
  exact ⟨abs_le.2 ⟨by linarith, by linarith⟩, abs_le.2 ⟨by linarith, by linarith⟩⟩

theorem Rescaled.scale_pos {T : Int} {c : MediaTime} {j : Nat} (hc : Rescaled a (halved T j) c) (ha : a.IsFinite)
    (hT : 0 < T) (hmax : T ≤ MaximumTimeScale) (hj : 0 < halved T j) : 0 < c.timeScale := by
  rw [hc.scale]
  exact ha.fittedScale_pos hj ((halved_le_self hT j).trans hmax)

theorem faithful_of_finite {r : MediaTime} {exact : ℚ} (ha : a.IsFinite) (hflags : r.timeFlags = a.timeFlags)
    (h : |r.quotient - exact| ≤ 4 / r.timeScale) : Faithful r exact := by
  have hp : r.isPositiveInfinite = a.isPositiveInfinite := by
    unfold isPositiveInfinite
    rw [hflags]
  have hn : r.isNegativeInfinite = a.isNegativeInfinite := by
    unfold isNegativeInfinite
    rw [hflags]
  refine ⟨fun _ _ => h, fun hi => ?_, fun hi => ?_⟩
  · rw [hp, ha.not_positiveInfinite] at hi
    cases hi
  · rw [hn, ha.not_negativeInfinite] at hi
    cases hi

theorem faithful_of_infinite {v : Int} {exact : ℚ} (hp : 0 < v → 2 ^ 63 - 1 < exact) (hn : ¬0 < v → exact < -2 ^ 63) :
    Faithful (if v > 0 then positiveInfiniteTime else negativeInfiniteTime) exact := by
  split
  · rename_i h
    exact ⟨fun hf => absurd hf (by decide), fun _ => hp h, fun hf => absurd hf (by decide)⟩
  · rename_i h
    exact ⟨fun _ hf => absurd hf (by decide), fun hf => absurd hf (by decide), fun _ => hn h⟩

theorem IsFinite.le_quotient (ha : a.IsFinite) (hw : 0 < a.wholePart) : (a.wholePart : ℚ) ≤ a.quotient :=
  tdiv_le_div ha.scale_pos (nonneg_of_tdiv_pos ha.scale_pos hw)

theorem IsFinite.quotient_le (ha : a.IsFinite) (hw : a.wholePart < 0) : a.quotient ≤ a.wholePart :=
  div_le_tdiv ha.scale_pos (nonpos_of_tdiv_neg ha.scale_pos hw)

/-- **Sums are faithful** if the operands end up with one time scale. -/
theorem add_faithful (ha : a.IsFinite) (hb : b.IsFinite) :
    ∃ r, a.add b = some r ∧ (AddOk a b → Faithful r (a.quotient + b.quotient)) := by
  obtain ⟨hT, hmax⟩ := commonTimeScale_spec ha.scale_pos hb.scale_pos
  obtain ⟨r, hr, j, hj, hcases⟩ := combineLoop_cases (safeAdd 64) a b hT hmax 31 0 rfl hT
  refine ⟨r, (add_eq_combine ha hb).trans hr, fun hok => ?_⟩
  have hra := rescale_rescaled ha hT hmax hok.left j hj
  have hrb := rescale_rescaled hb hT hmax hok.right j hj
  rcases hcases with ⟨v, hv, rfl⟩ | ⟨hone, hnone, rfl⟩
  · refine faithful_of_finite ha hra.flags ?_
    have hscale : (rescale a (commonTimeScale a b) j).timeScale = (rescale b (commonTimeScale a b) j).timeScale := by
      by_contra hne
      rw [hok.agree j hj hne] at hv
      cases hv
    have hpos := hra.scale_pos ha hT hmax hj
    rw [safeAdd_eq_some hv]
    exact (hra.abs_combined_le hrb hscale hpos).1
  · have hva := hra.value_eq ha hone
    have hvb := hrb.value_eq hb hone
    have hfa := ha.fits_wholePart
    have hfb := hb.fits_wholePart
    rw [hva, hvb, safeAdd_eq_none hfa hfb] at hnone
    rw [hva]
    unfold Fits at *
    rw [intMin_64, intMax_64] at *
    refine faithful_of_infinite (fun hpos => ?_) fun hneg => ?_
    · have h₁ := ha.le_quotient hpos
      have h₂ := hb.le_quotient (by omega)
      have h₃ : (9223372036854775808 : ℚ) ≤ a.wholePart + b.wholePart := by
        have : (9223372036854775808 : Int) ≤ a.wholePart + b.wholePart := by omega
        exact_mod_cast this
      linarith
    · have h₁ := ha.quotient_le (by omega)
      have h₂ := hb.quotient_le (by omega)
      have h₃ : (a.wholePart + b.wholePart : ℚ) ≤ -9223372036854775809 := by
        have : a.wholePart + b.wholePart ≤ -9223372036854775809 := by omega
        exact_mod_cast this
      linarith

/-- **Differences are faithful** if the operands end up with one time scale, and no difference is the least value. -/
theorem sub_faithful (ha : a.IsFinite) (hb : b.IsFinite) :
    ∃ r, a.sub b = some r ∧ (SubOk a b → Faithful r (a.quotient - b.quotient)) := by
  obtain ⟨hT, hmax⟩ := commonTimeScale_spec ha.scale_pos hb.scale_pos
  obtain ⟨r, hr, j, hj, hcases⟩ := combineLoop_cases (safeSub 64) a b hT hmax 31 0 rfl hT
  refine ⟨r, (sub_eq_combine ha hb).trans hr, fun hok => ?_⟩
  have hra := rescale_rescaled ha hT hmax hok.left j hj
  have hrb := rescale_rescaled hb hT hmax hok.right j hj
  rcases hcases with ⟨v, hv, rfl⟩ | ⟨hone, hnone, rfl⟩
  · refine faithful_of_finite ha hra.flags ?_
    have hscale : (rescale a (commonTimeScale a b) j).timeScale = (rescale b (commonTimeScale a b) j).timeScale := by
      by_contra hne
      rw [hok.agree j hj hne] at hv
      cases hv
    have hpos := hra.scale_pos ha hT hmax hj
    rw [safeSub_eq_some hv]
    exact (hra.abs_combined_le hrb hscale hpos).2
  · have hva := hra.value_eq ha hone
    have hvb := hrb.value_eq hb hone
    have hfa := ha.fits_wholePart
    have hfb := hb.fits_wholePart
    have hnl := hok.not_least
    have hl := hok.least
    rw [hva, hvb, safeSub_eq_none hfa hfb] at hnone
    rw [hva]
    unfold Fits at *
    rw [intMin_64, intMax_64] at *
    refine faithful_of_infinite (fun hpos => ?_) fun hneg => ?_
    · have h₁ := ha.le_quotient hpos
      have h₂ := hb.quotient_le (by omega)
      have h₃ : (9223372036854775808 : ℚ) ≤ a.wholePart - b.wholePart := by
        have : (9223372036854775808 : Int) ≤ a.wholePart - b.wholePart := by omega
        exact_mod_cast this
      linarith
    · have hane : a.wholePart < 0 := by omega
      have hbne : 0 ≤ b.wholePart := by omega
      by_cases he : a.wholePart - b.wholePart = -9223372036854775808
      · exact hl hane hbne he
      · have h₁ := ha.quotient_le hane
        have h₂ := hb.le_quotient (by omega)
        have h₃ : (a.wholePart - b.wholePart : ℚ) ≤ -9223372036854775809 := by
          have : a.wholePart - b.wholePart ≤ -9223372036854775809 := by omega
          exact_mod_cast this
        linarith

/-- **Sums and differences always have a result, which is faithful** if the operands are only combined when they were left
with one time scale, and no difference of whole parts is the least value. -/
theorem media_time_faithful (ha : a.IsFinite) (hb : b.IsFinite) :
    (∃ r, a.add b = some r ∧ (AddOk a b → Faithful r (a.quotient + b.quotient))) ∧
      ∃ r, a.sub b = some r ∧ (SubOk a b → Faithful r (a.quotient - b.quotient)) :=
  ⟨add_faithful ha hb, sub_faithful ha hb⟩

theorem scalesAgree_of_fits (ha : a.IsFinite) (hb : b.IsFinite) {T : Int} (hT : 0 < T) (hmax : T ≤ MaximumTimeScale)
    (hna : a.NoOverflow T) (hnb : b.NoOverflow T) (hfa : Fits 64 (a.wholePart * T)) (hfb : Fits 64 (b.wholePart * T))
    (op : Int → Int → Option Int) : ScalesAgree op a b T := by
  intro i hi hne
  refine absurd ?_ hne
  have hle := halved_le_self hT i
  rw [(rescale_rescaled ha hT hmax hna i hi).scale, (rescale_rescaled hb hT hmax hnb i hi).scale,
    fittedScale_of_fits hi (fits_mul_of_le hfa hi.le hle), fittedScale_of_fits hi (fits_mul_of_le hfb hi.le hle)]

end Faithful

/-- A half and a third. -/
theorem media_time_faithful_sixths :
    let a : MediaTime := ⟨1, 2, Valid⟩
    let b : MediaTime := ⟨1, 3, Valid⟩
    AddOk a b ∧ SubOk a b ∧ (∃ r, a.add b = some r ∧ Faithful r (a.quotient + b.quotient)) ∧
      ∃ r, a.sub b = some r ∧ Faithful r (a.quotient - b.quotient) := by
  intro a b
  have ha : a.IsFinite := ⟨by decide, by decide, by decide, by decide, by decide, by decide, by decide⟩
  have hb : b.IsFinite := ⟨by decide, by decide, by decide, by decide, by decide, by decide, by decide⟩
  have hT : commonTimeScale a b = 6 := by decide +kernel
  have hna : a.NoOverflow 6 := by
    unfold NoOverflow
    decide +kernel
  have hnb : b.NoOverflow 6 := by
    unfold NoOverflow
    decide +kernel
  have hagree := scalesAgree_of_fits ha hb (T := 6) (by decide) (by decide) hna hnb (by decide) (by decide)
  have hadd : AddOk a b := ⟨hT ▸ hna, hT ▸ hnb, hT ▸ hagree _⟩
  have hsub : SubOk a b := ⟨hT ▸ hna, hT ▸ hnb, hT ▸ hagree _, by decide, fun h => absurd h (by decide)⟩
  obtain ⟨⟨r, hr, hf⟩, r', hr', hf'⟩ := media_time_faithful ha hb
  exact ⟨hadd, hsub, ⟨r, hr, hf hadd⟩, r', hr', hf' hsub⟩

/-- `2^60` and `2^40 / 2^20` are left with the time scales `4` and `2^20`, and are added all the same. Zero minus the least
value is negative infinity. -/
theorem media_time_unfaithful :
    let a : MediaTime := ⟨2 ^ 60, 1, Valid⟩
    let b : MediaTime := ⟨2 ^ 40, 2 ^ 20, Valid⟩
    let zero : MediaTime := ⟨0, 1, Valid⟩
    let least : MediaTime := ⟨-2 ^ 63, 1, Valid⟩
    (a.IsFinite ∧ b.IsFinite ∧ ∃ r, a.add b = some r ∧ ¬Faithful r (a.quotient + b.quotient)) ∧
      zero.IsFinite ∧ least.IsFinite ∧ ∃ r, zero.sub least = some r ∧ ¬Faithful r (zero.quotient - least.quotient) := by
  intro a b zero least
  have hadd : a.add b = some ⟨2 ^ 60 * 4 + 2 ^ 40, 4, Valid⟩ := by decide +kernel
  have hsub : zero.sub least = some negativeInfiniteTime := by decide +kernel
  refine ⟨⟨?_, ?_, _, hadd, fun hf => ?_⟩, ?_, ?_, _, hsub, fun hf => ?_⟩
  · exact ⟨by decide, by decide, by decide, by decide, by decide, by decide, by decide⟩
  · exact ⟨by decide, by decide, by decide, by decide, by decide, by decide, by decide⟩
  · have h := hf.finite rfl rfl
    unfold quotient a b at h
    norm_num at h
  · exact ⟨by decide, by decide, by decide, by decide, by decide, by decide, by decide⟩
  · exact ⟨by decide, by decide, by decide, by decide, by decide, by decide, by decide⟩
  · have h := hf.negative rfl
    unfold quotient zero least at h
    norm_num at h

end WebKit.WTF.MediaTime
