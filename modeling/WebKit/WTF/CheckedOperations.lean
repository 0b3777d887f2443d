import WebKit.WTF.Checked

/-!
# What `ArithmeticOperations` does

For each operation the operands that it refuses; otherwise it gives the result, converted to the result type (`outcome`).
The lemmas are for the types that occur: the result type is one of the operand types and is no narrower than that of
`lhs`, but `rhs` may be wider.
-/

namespace WebKit.WTF

open WebKit.Lib IntType

/-- Refusal, or the converted result. -/
def outcome (R : IntType) (refused : Prop) [Decidable refused] (exact : Int) : Option (Option CInt) :=
  some (if refused then none else some ⟨R, R.cast exact⟩)

namespace ArithmeticOperations

variable {L V R : IntType} {x y : Int}

theorem assign_eq (op : Operation) (hx : L.Has x) (hy : V.Has y) (h : L.signed = V.signed)
    (hresult : (common L V).Has (op.exact x y)) :
    assign ⟨L, x⟩ ⟨V, y⟩ R op = some (some ⟨R, R.cast (op.exact x y)⟩) := by
  have hcompute : op.compute ⟨L, x⟩ ⟨V, y⟩ = some ⟨common L V, op.exact x y⟩ := by
    cases op <;> exact CInt.binary_eq hx hy h hresult
  rw [assign, hcompute]
  rfl

theorem has_common_of_fits (hLV : L.signed = V.signed) (hR : R = L ∨ R = V) {z : Int} (h : R.Has z) :
    (common L V).Has z := by
  rcases hR with rfl | rfl
  · exact h.common_left hLV
  · exact h.common_right hLV

/-! ## Signed operands -/

/-- The test of a product against the greatest number. -/
theorem tdiv_max {m : Int} (hm : 0 ≤ m) (hx : 0 < x) (y : Int) :
    (0 ≤ m.tdiv x ∧ m.tdiv x ≤ m) ∧ (m.tdiv x < y ↔ m < x * y) := by
  rw [Int.tdiv_eq_ediv_of_nonneg hm, Int.ediv_lt_iff_lt_mul hx, Int.mul_comm]
  exact ⟨⟨Int.ediv_nonneg hm (Int.le_of_lt hx), Int.ediv_le_self x hm⟩, Iff.rfl⟩

/-- The test of a product against the least number. -/
theorem tdiv_min {m : Int} (hm : 0 ≤ m) (hy : 0 < y) (x : Int) :
    (-m ≤ (-m).tdiv y ∧ (-m).tdiv y ≤ 0) ∧ (x < (-m).tdiv y ↔ x * y < -m) := by
  obtain ⟨⟨hlow, hhigh⟩, hlt⟩ := tdiv_max hm hy (-x)
  rw [Int.mul_neg, Int.mul_comm] at hlt
  rw [Int.neg_tdiv]
  omega

/-- Some operand of a product of negative numbers is negated although it is the least number of its type. -/
def NegatesLeast (L V R : IntType) (x y : Int) : Prop :=
  x < 0 ∧ y < 0 ∧ x ≠ R.min ∧ R.cast y ≠ R.min ∧ ((x = L.min ∧ 32 ≤ L.width) ∨ (y = V.min ∧ 32 ≤ V.width))

instance (L V R : IntType) (x y : Int) : Decidable (NegatesLeast L V R x y) := inferInstanceAs (Decidable (_ ∧ _))

section Signed

variable (hx : L.Has x) (hy : V.Has y) (hL : L.signed = true) (hV : V.signed = true) (hR : R = L ∨ R = V)
  (hwidth : L.width ≤ R.width)
include hx hy hL hV hR hwidth

/-- The numbers that the proofs about signed operands are about. -/
theorem ranges_of_signed : R.signed = true ∧ L.signed = V.signed ∧ R.min = -R.max - 1 ∧ L.min = -L.max - 1 ∧
    V.min = -V.max - 1 ∧ L.max ≤ R.max ∧ (L.min ≤ x ∧ x ≤ L.max) ∧ (V.min ≤ y ∧ y ≤ V.max) := by
  have hsigned : R.signed = true := by
    rcases hR with rfl | rfl
    · exact hL
    · exact hV
  exact ⟨hsigned, hL.trans hV.symm, min_of_signed hsigned, min_of_signed hL, min_of_signed hV,
    max_mono (hL.trans hsigned.symm) hwidth, hx, hy⟩

theorem addSigned_eq :
    addSigned ⟨L, x⟩ ⟨V, y⟩ R = outcome R ((0 ≤ x ↔ 0 ≤ y) ∧ ¬ R.Has (x + y)) (x + y) := by
  obtain ⟨hsigned, hLV, hminR, hminL, hminV, hmax, hx', hy'⟩ := ranges_of_signed hx hy hL hV hR hwidth
  have hassign : (common L V).Has (x + y) → assign ⟨L, x⟩ ⟨V, y⟩ R .add = some (some ⟨R, R.cast (x + y)⟩) :=
    assign_eq .add hx hy hLV
  have hfits : R.Has (x + y) ↔ R.min ≤ x + y ∧ x + y ≤ R.max := Iff.rfl
  rw [outcome]
  by_cases hmatch : 0 ≤ x ↔ 0 ≤ y
  · have hsame := signsMatch_iff.2 hmatch
    have hrefused : addSigned ⟨L, x⟩ ⟨V, y⟩ R =
        if ¬ R.Has (x + y) then some none else assign ⟨L, x⟩ ⟨V, y⟩ R .add := by
      by_cases hpos : 0 ≤ x
      · have hhas : (common R V).Has (R.max - y) :=
          has_common (hsigned.trans hV.symm) (.inr (by omega)) (.inl (by omega))
        have hroom : CInt.sub (maxOf R) ⟨V, y⟩ = some ⟨common R V, R.max - y⟩ :=
          CInt.binary_eq R.has_max hy (hsigned.trans hV.symm) hhas
        have hlt : CInt.lt ⟨common R V, R.max - y⟩ ⟨L, x⟩ = decide (¬ R.Has (x + y)) := by
          rw [CInt.lt_eq hhas hx ((common_signed hsigned hV).trans hL.symm), decide_eq_decide, hfits]
          omega
        simp [addSigned, hsame, hpos, hroom, hlt]
      · have hhas : R.Has (x - R.min) := ⟨by omega, by omega⟩
        have htemp : CInt.sub ⟨L, x⟩ (minOf R) = some ⟨common L R, x - R.min⟩ :=
          CInt.binary_eq hx R.has_min (hL.trans hsigned.symm) (hhas.common_right (hL.trans hsigned.symm))
        have hneg : CInt.neg ⟨R, x - R.min⟩ = some ⟨R.promote, R.min - x⟩ := by
          rw [CInt.neg_of_signed hhas hsigned, if_neg (by omega), Int.neg_sub]
        obtain ⟨hpromote, hle, -, -⟩ := promote_of_signed hsigned
        have hhas' : R.promote.Has (R.min - x) := ⟨by rw [min_of_signed hpromote]; omega, by omega⟩
        have hlt : CInt.lt ⟨V, y⟩ ⟨R.promote, R.min - x⟩ = decide (¬ R.Has (x + y)) := by
          rw [CInt.lt_eq hy hhas' (hV.trans hpromote.symm), decide_eq_decide, hfits]
          omega
        simp [addSigned, hsame, hpos, htemp, CInt.convert, cast_of_has hhas, hneg, hlt]
    rw [hrefused]
    by_cases h : R.Has (x + y)
    · rw [if_neg (not_not.2 h), if_neg (fun h' => h'.2 h), hassign (has_common_of_fits hLV hR h)]
    · rw [if_pos h, if_pos ⟨hmatch, h⟩]
  · rw [if_neg (fun h => hmatch h.1)]
    have hhas : (common L V).Has (x + y) := has_common hLV (by omega) (by omega)
    have hnot : signsMatch x y = false := Bool.eq_false_iff.2 fun h => hmatch (signsMatch_iff.1 h)
    simp [addSigned, hnot, hassign hhas]

theorem subSigned_eq : subSigned ⟨L, x⟩ ⟨V, y⟩ R =
    outcome R (¬ (0 ≤ x ↔ 0 ≤ y) ∧ (¬ R.Has (x - y) ∨ (x < 0 ∧ x - y = R.min))) (x - y) := by
  obtain ⟨hsigned, hLV, hminR, hminL, hminV, hmax, hx', hy'⟩ := ranges_of_signed hx hy hL hV hR hwidth
  have hassign : (common L V).Has (x - y) → assign ⟨L, x⟩ ⟨V, y⟩ R .sub = some (some ⟨R, R.cast (x - y)⟩) :=
    assign_eq .sub hx hy hLV
  have hfits : R.Has (x - y) ↔ R.min ≤ x - y ∧ x - y ≤ R.max := Iff.rfl
  rw [outcome]
  by_cases hmatch : 0 ≤ x ↔ 0 ≤ y
  · rw [if_neg (fun h => h.1 hmatch)]
    have hhas : (common L V).Has (x - y) := by
      obtain ⟨hcl, hcl', hcr, hcr'⟩ := common_covers hLV
      exact ⟨by omega, by omega⟩
    simp [subSigned, signsMatch_iff.2 hmatch, hassign hhas]
  · have hnot : signsMatch x y = false := Bool.eq_false_iff.2 fun h => hmatch (signsMatch_iff.1 h)
    have hrefused : subSigned ⟨L, x⟩ ⟨V, y⟩ R =
        if ¬ R.Has (x - y) ∨ (x < 0 ∧ x - y = R.min) then some none else assign ⟨L, x⟩ ⟨V, y⟩ R .sub := by
      by_cases hpos : 0 ≤ x
      · have hhas : (common R V).Has (R.max + y) :=
          has_common (hsigned.trans hV.symm) (.inr (by omega)) (.inl (by omega))
        have hmost : CInt.add (maxOf R) ⟨V, y⟩ = some ⟨common R V, R.max + y⟩ :=
          CInt.binary_eq R.has_max hy (hsigned.trans hV.symm) hhas
        have hlt : CInt.lt ⟨common R V, R.max + y⟩ ⟨L, x⟩ = decide (¬ R.Has (x - y) ∨ (x < 0 ∧ x - y = R.min)) := by
          rw [CInt.lt_eq hhas hx ((common_signed hsigned hV).trans hL.symm), decide_eq_decide, hfits]
          omega
        simp [subSigned, hnot, hpos, hmost, hlt]
      · have hhas : (common R L).Has (R.max + x) :=
          has_common (hsigned.trans hL.symm) (.inr (by omega)) (.inl (by omega))
        have hmost : CInt.add (maxOf R) ⟨L, x⟩ = some ⟨common R L, R.max + x⟩ :=
          CInt.binary_eq R.has_max hx (hsigned.trans hL.symm) hhas
        have hlt : CInt.lt ⟨common R L, R.max + x⟩ ⟨V, y⟩ = decide (¬ R.Has (x - y) ∨ (x < 0 ∧ x - y = R.min)) := by
          rw [CInt.lt_eq hhas hy ((common_signed hsigned hL).trans hV.symm), decide_eq_decide, hfits]
          omega
        simp [subSigned, hnot, hpos, hmost, hlt]
    rw [hrefused]
    by_cases h : ¬ R.Has (x - y) ∨ (x < 0 ∧ x - y = R.min)
    · rw [if_pos h, if_pos ⟨hmatch, h⟩]
    · rw [if_neg h, if_neg (fun h' => h h'.2), hassign (has_common_of_fits hLV hR (not_not.1 fun h' => h (.inl h')))]

/-- A product with an operand that is the least number of the result type, or is it after a conversion. -/
theorem not_has_mul_of_least (hx0 : x < 0) (hy0 : y < 0) (h : x = R.min ∨ R.cast y = R.min) : ¬ R.Has (x * y) := by
  obtain ⟨hsigned, hLV, hminR, hminL, hminV, hmax, hx', hy'⟩ := ranges_of_signed hx hy hL hV hR hwidth
  have hproduct : -x ≤ x * y ∧ -y ≤ x * y := by
    have hleft := Int.mul_le_mul_of_nonneg_left (show 1 ≤ -y by omega) (show 0 ≤ -x by omega)
    have hright := Int.mul_le_mul_of_nonneg_right (show 1 ≤ -x by omega) (show 0 ≤ -y by omega)
    rw [Int.neg_mul_neg] at hleft hright
    omega
  rintro ⟨-, hle⟩
  rcases h with h | h
  · omega
  · by_cases hfits : R.Has y
    · rw [cast_of_has hfits] at h
      omega
    · refine hfits ⟨?_, ?_⟩ <;> omega

theorem multiplySigned_eq : multiplySigned ⟨L, x⟩ ⟨V, y⟩ R =
    if NegatesLeast L V R x y then none else outcome R (¬ R.Has (x * y)) (x * y) := by
  obtain ⟨hsigned, hLV, hminR, hminL, hminV, hmax, hx', hy'⟩ := ranges_of_signed hx hy hL hV hR hwidth
  have hRL := hsigned.trans hL.symm
  have hRV := hsigned.trans hV.symm
  have hpos : 0 ≤ R.max := by have := R.le_max; omega
  have hassign : (common L V).Has (x * y) → assign ⟨L, x⟩ ⟨V, y⟩ R .multiply = some (some ⟨R, R.cast (x * y)⟩) :=
    assign_eq .multiply hx hy hLV
  have hfits : R.Has (x * y) ↔ R.min ≤ x * y ∧ x * y ≤ R.max := Iff.rfl
  have houtcome : outcome R (¬ R.Has (x * y)) (x * y) =
      if ¬ R.Has (x * y) then some none else assign ⟨L, x⟩ ⟨V, y⟩ R .multiply := by
    rw [outcome]
    by_cases h : R.Has (x * y)
    · rw [if_neg (not_not.2 h), if_neg (not_not.2 h), hassign (has_common_of_fits hLV hR h)]
    · rw [if_pos h, if_pos h]
  have hzero : x = 0 ∨ y = 0 → R.Has (x * y) := by
    rintro (rfl | rfl)
    · rw [Int.zero_mul]
      exact R.has_zero
    · rw [Int.mul_zero]
      exact R.has_zero
  rw [houtcome]
  rcases Int.lt_or_le x 0 with hx0 | hx0 <;> rcases Int.lt_or_le y 0 with hy0 | hy0
  · have hmatch : signsMatch x y = true := signsMatch_iff.2 (by omega)
    have hcastx : R.cast x = x := cast_of_has (hx.mono (hL.trans hsigned.symm) hwidth)
    have hnonneg : ¬ 0 ≤ x := by omega
    by_cases hleast : x = R.min ∨ R.cast y = R.min
    · rw [if_neg (fun h => hleast.elim h.2.2.1 h.2.2.2.1), if_pos (not_has_mul_of_least hx hy hL hV hR hwidth hx0 hy0 hleast)]
      simp [multiplySigned, hmatch, hnonneg, CInt.convert, hcastx, hleast]
    by_cases hnegx : x = L.min ∧ 32 ≤ L.width
    · rw [if_pos ⟨hx0, hy0, fun h => hleast (.inl h), fun h => hleast (.inr h), .inl hnegx⟩]
      have hneg : CInt.neg ⟨L, x⟩ = none := by rw [CInt.neg_of_signed hx hL, if_pos hnegx]
      simp [multiplySigned, hmatch, hnonneg, CInt.convert, hcastx, hleast, hneg]
    have hneg : CInt.neg ⟨L, x⟩ = some ⟨L.promote, -x⟩ := by rw [CInt.neg_of_signed hx hL, if_neg hnegx]
    have hpromoteL := (promote_of_signed hL).1
    have hhasx := CInt.has_promote_neg hx hL hnegx
    obtain ⟨⟨hlow, hhigh⟩, hlt⟩ := tdiv_max hpos (show 0 < -x by omega) (-y)
    have hhas : (common R L.promote).Has (R.max.tdiv (-x)) :=
      has_common (hsigned.trans hpromoteL.symm) (.inl (by omega)) (.inl hhigh)
    have hmost : CInt.div (maxOf R) ⟨L.promote, -x⟩ = some ⟨common R L.promote, R.max.tdiv (-x)⟩ :=
      CInt.div_eq R.has_max hhasx (hsigned.trans hpromoteL.symm) (by omega) hhas
    by_cases hnegy : y = V.min ∧ 32 ≤ V.width
    · rw [if_pos ⟨hx0, hy0, fun h => hleast (.inl h), fun h => hleast (.inr h), .inr hnegy⟩]
      have hneg' : CInt.neg ⟨V, y⟩ = none := by rw [CInt.neg_of_signed hy hV, if_pos hnegy]
      simp [multiplySigned, hmatch, hnonneg, CInt.convert, hcastx, hleast, hneg, hneg']
    · rw [if_neg (fun h => h.2.2.2.2.elim hnegx hnegy)]
      have hneg' : CInt.neg ⟨V, y⟩ = some ⟨V.promote, -y⟩ := by rw [CInt.neg_of_signed hy hV, if_neg hnegy]
      have htest : CInt.lt ⟨common R L.promote, R.max.tdiv (-x)⟩ ⟨V.promote, -y⟩ = decide (¬ R.Has (x * y)) := by
        have := Int.mul_nonneg (show 0 ≤ -x by omega) (show 0 ≤ -y by omega)
        rw [CInt.lt_eq hhas (CInt.has_promote_neg hy hV hnegy)
          ((common_signed hsigned hpromoteL).trans (promote_of_signed hV).1.symm), decide_eq_decide, hlt, hfits]
        rw [Int.neg_mul_neg] at this ⊢
        omega
      simp [multiplySigned, hmatch, hnonneg, CInt.convert, hcastx, hleast, hneg, hmost, hneg', htest, -Int.tdiv_neg]
  · rw [if_neg (fun h => by have := h.2.1; omega)]
    have hnot : signsMatch x y = false := Bool.eq_false_iff.2 fun h => by have := signsMatch_iff.1 h; omega
    by_cases hne : y = 0
    · subst hne
      rw [if_neg (not_not.2 (hzero (.inr rfl)))]
      simp [multiplySigned, hnot, hx0]
    · obtain ⟨⟨hlow, hhigh⟩, hlt⟩ := tdiv_min (show 0 ≤ R.max + 1 by omega) (show 0 < y by omega) x
      have hmin : -(R.max + 1) = R.min := by omega
      rw [hmin] at hlow hhigh hlt
      have hhas : (common R V).Has (R.min.tdiv y) := has_common hRV (.inl hlow) (.inl (by omega))
      have hleast : CInt.div (minOf R) ⟨V, y⟩ = some ⟨common R V, R.min.tdiv y⟩ := CInt.div_eq R.has_min hy hRV hne hhas
      have htest : CInt.lt ⟨L, x⟩ ⟨common R V, R.min.tdiv y⟩ = decide (¬ R.Has (x * y)) := by
        have := Int.mul_nonpos_of_nonpos_of_nonneg (Int.le_of_lt hx0) hy0
        rw [CInt.lt_eq hx hhas (hL.trans (common_signed hsigned hV).symm), decide_eq_decide, hlt, hfits]
        omega
      simp [multiplySigned, hnot, hx0, hne, hleast, htest]
  · rw [if_neg (fun h => by have := h.1; omega)]
    have hnot : signsMatch x y = false := Bool.eq_false_iff.2 fun h => by have := signsMatch_iff.1 h; omega
    have hnotneg : ¬ x < 0 := by omega
    by_cases hne : x = 0
    · rw [if_neg (not_not.2 (hzero (.inl hne)))]
      simp [multiplySigned, hne]
    · obtain ⟨⟨hlow, hhigh⟩, hlt⟩ := tdiv_min (show 0 ≤ R.max + 1 by omega) (show 0 < x by omega) y
      have hmin : -(R.max + 1) = R.min := by omega
      rw [hmin] at hlow hhigh hlt
      have hhas : (common R L).Has (R.min.tdiv x) := has_common hRL (.inl hlow) (.inl (by omega))
      have hleast : CInt.div (minOf R) ⟨L, x⟩ = some ⟨common R L, R.min.tdiv x⟩ := CInt.div_eq R.has_min hx hRL hne hhas
      have htest : CInt.lt ⟨V, y⟩ ⟨common R L, R.min.tdiv x⟩ = decide (¬ R.Has (x * y)) := by
        have := Int.mul_nonpos_of_nonneg_of_nonpos hx0 (Int.le_of_lt hy0)
        rw [CInt.lt_eq hy hhas (hV.trans (common_signed hsigned hL).symm), decide_eq_decide, hlt, hfits, Int.mul_comm y]
        omega
      simp [multiplySigned, hnot, hnotneg, hne, hleast, htest]
  · rw [if_neg (fun h => by have := h.1; omega)]
    have hmatch : signsMatch x y = true := signsMatch_iff.2 (by omega)
    by_cases hne : x = 0
    · rw [if_neg (not_not.2 (hzero (.inl hne)))]
      simp [multiplySigned, hne]
    · obtain ⟨⟨hlow, hhigh⟩, hlt⟩ := tdiv_max hpos (show 0 < x by omega) y
      have hhas : (common R L).Has (R.max.tdiv x) := has_common hRL (.inl (by omega)) (.inl hhigh)
      have hmost : CInt.div (maxOf R) ⟨L, x⟩ = some ⟨common R L, R.max.tdiv x⟩ := CInt.div_eq R.has_max hx hRL hne hhas
      have htest : CInt.lt ⟨common R L, R.max.tdiv x⟩ ⟨V, y⟩ = decide (¬ R.Has (x * y)) := by
        have := Int.mul_nonneg hx0 hy0
        rw [CInt.lt_eq hhas hy ((common_signed hsigned hL).trans hV.symm), decide_eq_decide, hlt, hfits]
        omega
      simp [multiplySigned, hmatch, hx0, hne, hmost, htest]

end Signed

/-! ## Unsigned operands -/

section Unsigned

variable (hx : L.Has x) (hy : V.Has y) (hL : L.signed = false) (hV : V.signed = false) (hR : R = L ∨ R = V)
  (hwidth : L.width ≤ R.width)
include hx hy hL hV hR hwidth

/-- The numbers that the proofs about unsigned operands are about. -/
theorem ranges_of_unsigned : R.signed = false ∧ L.signed = V.signed ∧ R.min = 0 ∧ L.max ≤ R.max ∧
    (0 ≤ x ∧ x ≤ L.max) ∧ (0 ≤ y ∧ y ≤ V.max) := by
  have hsigned : R.signed = false := by
    rcases hR with rfl | rfl
    · exact hL
    · exact hV
  rw [← min_of_unsigned hL] 
  refine ⟨hsigned, hL.trans hV.symm, (min_of_unsigned hsigned).trans (min_of_unsigned hL).symm,
    max_mono (hL.trans hsigned.symm) hwidth, hx, ?_⟩
  rw [min_of_unsigned hL, ← min_of_unsigned hV]
  exact hy

theorem addUnsigned_eq : addUnsigned ⟨L, x⟩ ⟨V, y⟩ R = outcome R (R.cast (x + y) < x) (x + y) := by
  obtain ⟨hsigned, hLV, -, -, hx', hy'⟩ := ranges_of_unsigned hx hy hL hV hR hwidth
  have hint : L.width < 32 → V.width < 32 → int.Has (x + y) := by
    intro hnarrow hnarrow'
    have := max_le_of_narrow hL hnarrow
    have := max_le_of_narrow hV hnarrow'
    exact ⟨by rw [show int.min = -2147483648 from rfl]; omega, by rw [show int.max = 2147483647 from rfl]; omega⟩
  obtain ⟨sum, hsum, hcast⟩ := CInt.exists_binary_unsigned hx hy hLV hL hR hint
  have hsum' : CInt.add ⟨L, x⟩ ⟨V, y⟩ = some sum := hsum
  have hlt : CInt.lt ⟨R, R.cast (x + y)⟩ ⟨L, x⟩ = decide (R.cast (x + y) < x) :=
    CInt.lt_eq (R.has_cast _) hx (hsigned.trans hL.symm)
  simp only [addUnsigned, hsum', CInt.convert, hcast, Option.bind_eq_bind, Option.bind_some, hlt, outcome]
  by_cases h : R.cast (x + y) < x <;> simp [h]

theorem subUnsigned_eq : subUnsigned ⟨L, x⟩ ⟨V, y⟩ R = outcome R (x < R.cast (x - y)) (x - y) := by
  obtain ⟨hsigned, hLV, -, -, hx', hy'⟩ := ranges_of_unsigned hx hy hL hV hR hwidth
  have hint : L.width < 32 → V.width < 32 → int.Has (x - y) := by
    intro hnarrow hnarrow'
    have := max_le_of_narrow hL hnarrow
    have := max_le_of_narrow hV hnarrow'
    exact ⟨by rw [show int.min = -2147483648 from rfl]; omega, by rw [show int.max = 2147483647 from rfl]; omega⟩
  obtain ⟨difference, hdifference, hcast⟩ := CInt.exists_binary_unsigned hx hy hLV hL hR hint
  have hdifference' : CInt.sub ⟨L, x⟩ ⟨V, y⟩ = some difference := hdifference
  have hlt : CInt.lt ⟨L, x⟩ ⟨R, R.cast (x - y)⟩ = decide (x < R.cast (x - y)) :=
    CInt.lt_eq hx (R.has_cast _) (hL.trans hsigned.symm)
  simp only [subUnsigned, hdifference', CInt.convert, hcast, Option.bind_eq_bind, Option.bind_some, hlt, outcome]
  by_cases h : x < R.cast (x - y) <;> simp [h]

theorem multiplyUnsigned_eq : multiplyUnsigned ⟨L, x⟩ ⟨V, y⟩ R = outcome R (¬ R.Has (x * y)) (x * y) := by
  obtain ⟨hsigned, hLV, hminR, hmax, ⟨hx0, hx'⟩, hy0, hy'⟩ := ranges_of_unsigned hx hy hL hV hR hwidth
  have hpos : 0 ≤ R.max := by have := R.le_max; omega
  by_cases hzero : x = 0 ∨ y = 0
  · have hproduct : x * y = 0 := Int.mul_eq_zero.2 hzero
    simp [multiplyUnsigned, hzero, hproduct, outcome, R.has_zero, cast_of_has R.has_zero]
  · obtain ⟨⟨hlow, hhigh⟩, hlt⟩ := tdiv_max hpos (show 0 < x by omega) y
    have hhas : (common R L).Has (R.max.tdiv x) :=
      has_common (hsigned.trans hL.symm) (.inl (by omega)) (.inl hhigh)
    have hmost : CInt.div (maxOf R) ⟨L, x⟩ = some ⟨common R L, R.max.tdiv x⟩ :=
      CInt.div_eq R.has_max hx (hsigned.trans hL.symm) (by omega) hhas
    have htest : CInt.lt ⟨common R L, R.max.tdiv x⟩ ⟨V, y⟩ = decide (¬ R.Has (x * y)) := by
      have := Int.mul_nonneg hx0 hy0
      rw [CInt.lt_eq_of_nonneg hhas hy hlow hy0, decide_eq_decide, hlt, Has, hminR]
      omega
    have hassign : (common L V).Has (x * y) → assign ⟨L, x⟩ ⟨V, y⟩ R .multiply = some (some ⟨R, R.cast (x * y)⟩) :=
      assign_eq .multiply hx hy hLV
    by_cases h : R.Has (x * y)
    · simp [multiplyUnsigned, hzero, hmost, htest, outcome, h, hassign (has_common_of_fits hLV hR h)]
    · simp [multiplyUnsigned, hzero, hmost, htest, outcome, h]

end Unsigned

/-! ## An `int` and an `unsigned` -/

theorem common_int64 {T : IntType} (hT : T = int ∨ T = unsigned) :
    common int64 T = int64 ∧ common T int64 = int64 ∧ int64.min ≤ T.min ∧ T.max ≤ int64.max := by
  rcases hT with rfl | rfl <;> decide

theorem int64_has_exact (op : Operation) (hmixed : (L = int ∧ V = unsigned) ∨ (L = unsigned ∧ V = int)) (hx : L.Has x)
    (hy : V.Has y) : int64.Has (op.exact x y) := by
  have hint : ∀ {z : Int}, int.Has z → -2147483648 ≤ z ∧ z ≤ 2147483647 := fun h => h
  have hunsigned : ∀ {z : Int}, unsigned.Has z → 0 ≤ z ∧ z ≤ 4294967295 := fun h => h
  have hproduct : ∀ {z u : Int}, int.Has z → unsigned.Has u → int64.Has (z * u) := by
    intro z u hz hu
    obtain ⟨hz, hz'⟩ := hint hz
    obtain ⟨hu, hu'⟩ := hunsigned hu
    have hlow := Int.mul_le_mul_of_nonneg_right hz hu
    have hhigh := Int.mul_le_mul_of_nonneg_right hz' hu
    constructor
    · show -9223372036854775808 ≤ z * u
      omega
    · show z * u ≤ 9223372036854775807
      omega
  rcases hmixed with ⟨rfl, rfl⟩ | ⟨rfl, rfl⟩
  · have hx' := hint hx
    have hy' := hunsigned hy
    cases op with
    | add => exact ⟨show -9223372036854775808 ≤ x + y by omega, show x + y ≤ 9223372036854775807 by omega⟩
    | sub => exact ⟨show -9223372036854775808 ≤ x - y by omega, show x - y ≤ 9223372036854775807 by omega⟩
    | multiply => exact hproduct hx hy
  · have hx' := hunsigned hx
    have hy' := hint hy
    cases op with
    | add => exact ⟨show -9223372036854775808 ≤ x + y by omega, show x + y ≤ 9223372036854775807 by omega⟩
    | sub => exact ⟨show -9223372036854775808 ≤ x - y by omega, show x - y ≤ 9223372036854775807 by omega⟩
    | multiply =>
      rw [Operation.exact, Int.mul_comm]
      exact hproduct hy hx

theorem mixed_eq (op : Operation) (hmixed : (L = int ∧ V = unsigned) ∨ (L = unsigned ∧ V = int)) (hx : L.Has x)
    (hy : V.Has y) (hR : R = int ∨ R = unsigned) :
    mixed ⟨L, x⟩ ⟨V, y⟩ R op = outcome R (¬ R.Has (op.exact x y)) (op.exact x y) := by
  have hL : L = int ∨ L = unsigned := hmixed.imp And.left And.left
  have hV : V = int ∨ V = unsigned := (hmixed.imp And.right And.right).symm
  have hx' : int64.Has x := by
    obtain ⟨-, -, hmin, hmax⟩ := common_int64 hL
    exact ⟨Int.le_trans hmin hx.1, Int.le_trans hx.2 hmax⟩
  have hy' : int64.Has y := by
    obtain ⟨-, -, hmin, hmax⟩ := common_int64 hV
    exact ⟨Int.le_trans hmin hy.1, Int.le_trans hy.2 hmax⟩
  have hfits := int64_has_exact op hmixed hx hy
  have hcompute : op.compute ⟨int64, x⟩ ⟨int64, y⟩ = some ⟨int64, op.exact x y⟩ := by
    cases op <;> exact CInt.binary_eq hx' hy' rfl hfits
  obtain ⟨hcommon, hcommon', hmin, hmax⟩ := common_int64 hR
  have hhas : ∀ {z : Int}, R.Has z → int64.Has z := fun h => ⟨Int.le_trans hmin h.1, Int.le_trans h.2 hmax⟩
  have hlow : CInt.lt ⟨int64, op.exact x y⟩ (minOf R) = decide (op.exact x y < R.min) := by
    rw [CInt.lt, minOf, hcommon, cast_of_has hfits, cast_of_has (hhas R.has_min)]
  have hhigh : CInt.lt (maxOf R) ⟨int64, op.exact x y⟩ = decide (R.max < op.exact x y) := by
    rw [CInt.lt, maxOf, hcommon', cast_of_has hfits, cast_of_has (hhas R.has_max)]
  simp only [mixed, CInt.convert, cast_of_has hx', cast_of_has hy', hcompute, Option.bind_eq_bind, Option.bind_some, hlow,
    hhigh, outcome, decide_eq_true_eq, Option.pure_def]
  have hiff : R.Has (op.exact x y) ↔ R.min ≤ op.exact x y ∧ op.exact x y ≤ R.max := Iff.rfl
  by_cases h : R.Has (op.exact x y)
  · have hbounds := hiff.1 h
    rw [if_neg (by omega), if_neg (by omega), if_neg (not_not.2 h)]
  · rw [if_pos h]
    rw [hiff] at h
    by_cases hmin : op.exact x y < R.min
    · rw [if_pos hmin]
    · rw [if_neg hmin, if_pos (by omega)]

end ArithmeticOperations

end WebKit.WTF
