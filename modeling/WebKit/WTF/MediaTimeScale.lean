import WebKit.WTF.MediaTimeCompare

/-!
# `MediaTime::setTimeScale`

`setTimeScaleMachine` is `setTimeScale` with each of its 64-bit operations, and has no result where one overflows. Only
the product of the whole part is checked by the code, and the remainder is added to it unchecked. `setTimeScale` is a
safe rescaling if and only if the value fits wherever its whole part does (`safelyRescaled_iff`).
-/

namespace WebKit.WTF.MediaTime

open WebKit.Lib Truncation

/-! ## The operations -/

/-- The loop of `setTimeScale`: `none` if it does not end within `fuel` rounds. -/
def fitTimeScaleMachine : Nat → Int → Int → Option (Int × Int)
  | 0, _, _ => none
  | fuel + 1, wholePart, timeScale =>
    match safeMultiply 64 wholePart timeScale with
    | some newWholePart => some (timeScale, newWholePart)
    | none => fitTimeScaleMachine fuel wholePart (timeScale.tdiv 2)

/-- `setTimeScale` with its 64-bit operations; `none` if one of them overflows. -/
def setTimeScaleMachine (t : MediaTime) (timeScale : Int) : Option MediaTime :=
  if timeScale = t.timeScale then some t
  else do
    let wholePart ← div64 t.timeValue t.timeScale
    let (timeScale, newWholePart) ← fitTimeScaleMachine 31 wholePart (Min.min MaximumTimeScale timeScale)
    let remainder ← mod64 t.timeValue t.timeScale
    let product ← arith64 (remainder * timeScale)
    let quotient ← div64 product t.timeScale
    let timeValue ← arith64 (newWholePart + quotient)
    some { t with timeValue := timeValue, timeScale := timeScale }

/-- `setTimeScale` ends without overflow, at a positive time scale that is not above the requested one, and the time is
less than one tick away from what it was. -/
def SafelyRescaled (t : MediaTime) (timeScale : Int) : Prop :=
  ∃ r, t.setTimeScaleMachine timeScale = some r ∧ t.setTimeScale timeScale = r ∧ 0 < r.timeScale ∧
    r.timeScale ≤ timeScale ∧ |r.quotient - t.quotient| < 1 / r.timeScale

/-- At each of the halves of the time scale at which the whole part of the value fits, the value does. -/
def ValueFits (t : MediaTime) (timeScale : Int) : Prop :=
  ∀ k : Nat, Fits 64 (t.wholePart * (timeScale / 2 ^ k)) →
    Fits 64 ((t.timeValue * (timeScale / 2 ^ k)).tdiv t.timeScale)

/-! ## The loop -/

section Loop

variable {w T : Int} {fuel : Nat}

theorem fitTimeScaleMachine_eq (hw : Fits 64 w) (hT : 0 < T) (hfuel : T < 2 ^ fuel) :
    fitTimeScaleMachine fuel w T = some (fitTimeScale fuel w T) := by
  induction fuel generalizing T with
  | zero =>
    rw [pow_zero] at hfuel
    omega
  | succ fuel ih =>
    unfold fitTimeScaleMachine fitTimeScale
    cases hm : safeMultiply 64 w T with
    | some n => rfl
    | none =>
      have hhalf := half_pos hw hT ((safeMultiply_eq_none hT).1 hm)
      rw [pow_succ] at hfuel
      refine ih hhalf ?_
      rw [Int.tdiv_eq_ediv_of_nonneg hT.le]
      omega

theorem fitTimeScale_first (fuel : Nat) {T : Int} (hw : Fits 64 w) (hT : 0 < T) (hfuel : T < 2 ^ fuel) :
    ∃ k : Nat, (fitTimeScale fuel w T).1 = T / 2 ^ k ∧ ∀ j < k, ¬Fits 64 (w * (T / 2 ^ j)) := by
  induction fuel generalizing T with
  | zero =>
    rw [pow_zero] at hfuel
    omega
  | succ fuel ih =>
    by_cases h : Fits 64 (w * T)
    · exact ⟨0, by rw [fitTimeScale_of_fits hT h, pow_zero, Int.ediv_one], fun j hj => absurd hj (Nat.not_lt_zero j)⟩
    · have hhalf := half_pos hw hT h
      have hdiv : ∀ j : Nat, T / 2 / 2 ^ j = T / 2 ^ (j + 1) := fun j => by
        rw [Int.ediv_ediv_of_nonneg (by decide), pow_succ, Int.mul_comm]
      rw [fitTimeScale_of_not_fits hT h]
      rw [Int.tdiv_eq_ediv_of_nonneg hT.le] at hhalf ⊢
      rw [pow_succ] at hfuel
      obtain ⟨k, hk, hfirst⟩ := ih hhalf (by omega)
      refine ⟨k + 1, hk.trans (hdiv k), fun j hj => ?_⟩
      cases j with
      | zero => rwa [pow_zero, Int.ediv_one]
      | succ j =>
        rw [← hdiv j]
        exact hfirst j (by omega)

/-- Further halves are smaller. -/
theorem ediv_two_pow_le (hT : 0 ≤ T) {j k : Nat} (h : k ≤ j) : 0 ≤ T / 2 ^ j ∧ T / 2 ^ j ≤ T / 2 ^ k := by
  obtain ⟨d, rfl⟩ := Nat.exists_eq_add_of_le h
  have hd : T / 2 ^ (k + d) = T / 2 ^ k / 2 ^ d := by
    rw [Int.ediv_ediv_of_nonneg (by positivity), pow_add]
  have hk : 0 ≤ T / 2 ^ k := Int.ediv_nonneg hT (by positivity)
  rw [hd]
  exact ⟨Int.ediv_nonneg hk (by positivity), Int.ediv_le_self _ hk⟩

end Loop

/-! ## When the value fits -/

section Rescale

variable {t : MediaTime} {T : Int}

theorem fits_tdiv_of_le {v s F G : Int} (hs : 0 < s) (hG : 0 ≤ G) (hle : G ≤ F) (h : Fits 64 ((v * F).tdiv s)) :
    Fits 64 ((v * G).tdiv s) := by
  refine fits_of_between h ?_
  rcases Int.le_total 0 v with hv | hv
  · have hmul := Int.mul_le_mul_of_nonneg_left hle hv
    exact .inl ⟨Int.tdiv_nonneg (Int.mul_nonneg hv hG) hs.le, Int.tdiv_le_tdiv hs hmul⟩
  · have hmul := Int.mul_le_mul_of_nonpos_left hv hle
    have hneg := Int.tdiv_nonneg (a := -(v * G)) (by have := Int.mul_nonpos_of_nonpos_of_nonneg hv hG; omega) hs.le
    rw [Int.neg_tdiv] at hneg
    exact .inr ⟨Int.tdiv_le_tdiv hs hmul, by omega⟩

theorem valueFits_iff (ht : t.IsFinite) (hT : 0 < T) (hmax : T ≤ MaximumTimeScale) :
    t.ValueFits T ↔ Fits 64 ((t.timeValue * fittedScale t.wholePart T).tdiv t.timeScale) := by
  unfold MaximumTimeScale at hmax
  rw [intMax_32] at hmax
  obtain ⟨k, hk, hfirst⟩ := fitTimeScale_first 31 ht.fits_wholePart hT (by omega)
  obtain ⟨-, -, -, hfits⟩ := fitTimeScale_spec ht.fits_wholePart hT (show T < 2 ^ 31 by omega)
  unfold fittedScale
  rw [hk] at hfits ⊢
  constructor
  · intro h
    exact h k hfits
  · intro h j hj
    have hkj : k ≤ j := not_lt.1 fun hlt => hfirst j hlt hj
    obtain ⟨h₁, h₂⟩ := ediv_two_pow_le hT.le hkj
    exact fits_tdiv_of_le ht.scale_pos h₁ h₂ h

/-- **`setTimeScale` with its 64-bit operations**: only the sum can overflow. -/
theorem setTimeScaleMachine_eq (ht : t.IsFinite) (hT : 0 < T) (hmax : T ≤ MaximumTimeScale) (hne : T ≠ t.timeScale) :
    t.setTimeScaleMachine T = (arith64 ((t.timeValue * fittedScale t.wholePart T).tdiv t.timeScale)).map fun v =>
      { t with timeValue := v, timeScale := fittedScale t.wholePart T } := by
  have hmax' := hmax
  unfold MaximumTimeScale at hmax'
  rw [intMax_32] at hmax'
  have hs := ht.scale_pos
  obtain ⟨hpos, hle, hnew, -⟩ := fitTimeScale_spec ht.fits_wholePart hT (show T < 2 ^ 31 by omega)
  have hproduct := fits_tmod_mul (x := t.timeValue) hs ht.scale_le hpos.le (hle.trans hmax)
  have hsum := tdiv_mul hs hpos.le t.timeValue
  have hwhole : div64 t.timeValue t.timeScale = some t.wholePart := div64_eq ht.value hs
  unfold setTimeScaleMachine fittedScale
  rw [if_neg hne, hwhole, mod64_eq ht.value hs, min_eq_right hmax]
  simp only [Option.bind_eq_bind, Option.bind_some, fitTimeScaleMachine_eq ht.fits_wholePart hT (show T < 2 ^ 31 by omega),
    arith64_of_fits hproduct, div64_eq hproduct hs, hnew]
  unfold wholePart at hsum ⊢
  rw [hsum]
  cases arith64 _ <;> rfl

theorem abs_rescaled_quotient_lt {v s F : Int} (hs : 0 < s) (hF : 0 < F) :
    |(((v * F).tdiv s : Int) / F - v / s : ℚ)| < 1 / F := by
  have hF' := cast_pos hF
  have h := abs_rescaled_lt v (t := F) hs
  have he : (((v * F).tdiv s : Int) / F - v / s : ℚ) = (((v * F).tdiv s : Int) - v / s * F) / F := by
    have := hF'.ne'
    field_simp
  rw [he, abs_div, abs_of_pos hF', div_lt_div_iff_of_pos_right hF']
  exact h

theorem safelyRescaled_self (ht : t.IsFinite) : t.SafelyRescaled t.timeScale := by
  refine ⟨t, if_pos rfl, if_pos rfl, ht.scale_pos, le_refl _, ?_⟩
  rw [sub_self, abs_zero]
  exact div_pos one_pos (cast_pos ht.scale_pos)

/-- **`setTimeScale` is a safe rescaling if and only if the value fits wherever its whole part does.** -/
theorem safelyRescaled_iff (ht : t.IsFinite) (hT : 0 < T) (hmax : T ≤ MaximumTimeScale) :
    t.SafelyRescaled T ↔ t.ValueFits T := by
  rw [valueFits_iff ht hT hmax]
  have hs := ht.scale_pos
  by_cases hne : T = t.timeScale
  · subst hne
    rw [fittedScale_of_fits hs ht.fits_mul, Int.mul_tdiv_cancel _ hs.ne']
    exact ⟨fun _ => ht.value, fun _ => safelyRescaled_self ht⟩
  have hmachine := setTimeScaleMachine_eq ht hT hmax hne
  have hle : fittedScale t.wholePart T ≤ T := by
    unfold MaximumTimeScale at hmax
    rw [intMax_32] at hmax
    exact (fitTimeScale_spec ht.fits_wholePart hT (show T < 2 ^ 31 by omega)).2.1
  constructor
  · rintro ⟨r, hr, -⟩
    by_contra hfit
    rw [hmachine, arith64_of_not_fits hfit] at hr
    cases hr
  · intro hfit
    have hpos := ht.fittedScale_pos hT hmax
    rw [arith64_of_fits hfit] at hmachine
    exact ⟨_, hmachine, setTimeScale_eq hs ht.fits_wholePart hT hmax hne hfit, hpos, hle, abs_rescaled_quotient_lt hs hpos⟩

/-- One third in units of a tenth. -/
theorem safelyRescaled_iff_tenths :
    (⟨1, 3, Valid⟩ : MediaTime).SafelyRescaled 10 ↔ (⟨1, 3, Valid⟩ : MediaTime).ValueFits 10 :=
  safelyRescaled_iff ⟨by decide, by decide, by decide, by decide, by decide, by decide, by decide⟩ (by decide) (by decide)

/-- The whole part `9223372036` of a time in tenths fits in nanoseconds, but the time does not, and becomes negative. -/
theorem not_safelyRescaled_nanoseconds :
    let t : MediaTime := ⟨92233720369, 10, Valid⟩
    t.IsFinite ∧ ¬t.SafelyRescaled 1000000000 ∧ (t.setTimeScale 1000000000).timeValue < 0 := by
  intro t
  have hnone : t.setTimeScaleMachine 1000000000 = none := by decide +kernel
  refine ⟨⟨by decide, by decide, by decide, by decide, by decide, by decide, by decide⟩, ?_, by decide +kernel⟩
  rintro ⟨r, hr, -⟩
  rw [hnone] at hr
  cases hr

end Rescale

end WebKit.WTF.MediaTime
