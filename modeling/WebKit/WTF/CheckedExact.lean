import WebKit.WTF.CheckedOperations

/-!
# `Checked` is exact or flagged

An operation meets its promise (`Meets`) when it ends with the exact result and no flag, or with the flag, and with the flag
only when the exact result does not fit or an operand had it already. The lemmas say for which operands this is so:
- conversions, unless a negative number goes to a wider unsigned type (`meets_ofValue`);
- arithmetic, for the operands that are `Sound`, and as long as no least number is negated (`meets_operator`,
  `meets_operatorAssign`).

The flag is never lost (`Chain.hasOverflowed`).
-/

namespace WebKit.WTF

open WebKit.Lib IntType ArithmeticOperations

/-! ## The operands for which the overflow tests are right -/

/-- The refusals of `op` are those of the exact results that do not fit. -/
def Sound (op : Operation) (L V R : IntType) (x y : Int) : Prop :=
  match op, L.signed, V.signed with
  | .add, true, true => (0 ≤ x ↔ 0 ≤ y) ∨ R.Has (x + y)
  | .sub, true, true => if 0 ≤ x ↔ 0 ≤ y then R.Has (x - y) else ¬ (x < 0 ∧ x - y = R.min)
  | .add, false, false => y ≤ R.max ∨ R.max < x + R.cast y
  | .sub, false, false => y ≤ R.max ∨ x < R.cast y
  | _, _, _ => True

/-- A signed multiplication that negates a least number. -/
def Undefined (op : Operation) (L V R : IntType) (x y : Int) : Prop :=
  op = .multiply ∧ L.signed = true ∧ V.signed = true ∧ NegatesLeast L V R x y

variable {L V R : IntType} {x y : Int}

/-- What is known of an operation: the operands that it refuses, and when these refusals are right. -/
def Refuses (op : Operation) (L V R : IntType) (x y : Int) : Prop :=
  ∃ refused : Prop, ∃ _ : Decidable refused, safe op ⟨L, x⟩ ⟨V, y⟩ R = outcome R refused (op.exact x y) ∧
    ((refused ↔ ¬ R.Has (op.exact x y)) ↔ Sound op L V R x y)

section Cases

variable (hx : L.Has x) (hy : V.Has y) (hR : R = L ∨ R = V) (hwidth : L.width ≤ R.width)
include hx hy hR hwidth

theorem refuses_signed (op : Operation) (hL : L.signed = true) (hV : V.signed = true)
    (hdefined : ¬ Undefined op L V R x y) : Refuses op L V R x y := by
  cases op with
  | add =>
    refine ⟨(0 ≤ x ↔ 0 ≤ y) ∧ ¬ R.Has (x + y), inferInstance, ?_, ?_⟩
    · rw [safe.eq_def, hL, hV]
      exact addSigned_eq hx hy hL hV hR hwidth
    · simp only [Sound, hL, hV, Operation.exact]
      by_cases hfit : R.Has (x + y) <;> simp [hfit]
  | sub =>
    have hmin : x < 0 ∧ x - y = R.min → R.Has (x - y) := fun h => h.2 ▸ R.has_min
    refine ⟨¬ (0 ≤ x ↔ 0 ≤ y) ∧ (¬ R.Has (x - y) ∨ (x < 0 ∧ x - y = R.min)), inferInstance, ?_, ?_⟩
    · rw [safe.eq_def, hL, hV]
      exact subSigned_eq hx hy hL hV hR hwidth
    · simp only [Sound, hL, hV, Operation.exact]
      by_cases hmatch : 0 ≤ x ↔ 0 ≤ y
      · simp [hmatch]
      · by_cases hfit : R.Has (x - y)
        · simp [hmatch, hfit]
        · have hnot : ¬ (x < 0 ∧ x - y = R.min) := fun h => hfit (hmin h)
          simp [hmatch, hfit, hnot]
  | multiply =>
    have hnot : ¬ NegatesLeast L V R x y := fun h => hdefined ⟨rfl, hL, hV, h⟩
    refine ⟨¬ R.Has (x * y), inferInstance, ?_, ?_⟩
    · rw [safe.eq_def, hL, hV]
      exact (multiplySigned_eq hx hy hL hV hR hwidth).trans (if_neg hnot)
    · simp only [Sound, Operation.exact]

theorem refuses_unsigned (op : Operation) (hL : L.signed = false) (hV : V.signed = false) : Refuses op L V R x y := by
  obtain ⟨hsigned, -, hminR, hmax, hx', hy'⟩ := ranges_of_unsigned hx hy hL hV hR hwidth
  obtain ⟨hlow, hhigh⟩ := cast_bounds hsigned y
  have hsmall : y ≤ R.max → R.cast y = y := fun h => cast_of_has ⟨by omega, h⟩
  have hfits : ∀ z, R.Has z ↔ R.min ≤ z ∧ z ≤ R.max := fun z => Iff.rfl
  cases op with
  | add =>
    refine ⟨R.cast (x + y) < x, inferInstance, ?_, ?_⟩
    · rw [safe.eq_def, hL, hV]
      exact addUnsigned_eq hx hy hL hV hR hwidth
    · simp only [Sound, hL, hV, Operation.exact]
      rw [cast_add hsigned (by omega), hfits, hminR]
      split_ifs <;> omega
  | sub =>
    refine ⟨x < R.cast (x - y), inferInstance, ?_, ?_⟩
    · rw [safe.eq_def, hL, hV]
      exact subUnsigned_eq hx hy hL hV hR hwidth
    · simp only [Sound, hL, hV, Operation.exact]
      rw [cast_sub hsigned (by omega), hfits, hminR]
      split_ifs <;> omega
  | multiply =>
    refine ⟨¬ R.Has (x * y), inferInstance, ?_, ?_⟩
    · rw [safe.eq_def, hL, hV]
      exact multiplyUnsigned_eq hx hy hL hV hR hwidth
    · simp only [Sound, Operation.exact]

omit hwidth in
theorem refuses_mixed (op : Operation) (hmixed : (L = int ∧ V = unsigned) ∨ (L = unsigned ∧ V = int)) :
    Refuses op L V R x y := by
  have hR' : R = int ∨ R = unsigned := by
    rcases hmixed with ⟨rfl, rfl⟩ | ⟨rfl, rfl⟩
    · exact hR
    · exact hR.symm
  have hswapped : (V = int ∧ L = unsigned) ∨ (V = unsigned ∧ L = int) := hmixed.symm.imp And.symm And.symm
  refine ⟨¬ R.Has (op.exact x y), inferInstance, ?_, ?_⟩
  · have hdirect := mixed_eq op hmixed hx hy hR'
    have hswap := mixed_eq op hswapped hy hx hR'
    rcases hmixed with ⟨rfl, rfl⟩ | ⟨rfl, rfl⟩
    · exact hdirect
    · cases op with
      | add =>
        simp only [Operation.exact, Int.add_comm y x] at hswap
        exact hswap
      | sub => exact hdirect
      | multiply =>
        simp only [Operation.exact, Int.mul_comm y x] at hswap
        exact hswap
  · rcases hmixed with ⟨rfl, rfl⟩ | ⟨rfl, rfl⟩ <;> cases op <;> simp [Sound, int, unsigned]

/-- **The refusals of the operations**, for all operand types that compile. -/
theorem refuses (op : Operation) (hcompiles : Compiles L V) (hdefined : ¬ Undefined op L V R x y) :
    Refuses op L V R x y := by
  rcases hcompiles with h | hmixed
  · cases hL : L.signed with
    | true => exact refuses_signed hx hy hR hwidth op hL (h ▸ hL) hdefined
    | false => exact refuses_unsigned hx hy hR hwidth op hL (h ▸ hL)
  · exact refuses_mixed hx hy hR op hmixed

theorem safe_undefined {op : Operation} (h : Undefined op L V R x y) : safe op ⟨L, x⟩ ⟨V, y⟩ R = none := by
  obtain ⟨rfl, hL, hV, hleast⟩ := h
  rw [safe.eq_def, hL, hV]
  exact (multiplySigned_eq hx hy hL hV hR hwidth).trans (if_pos hleast)

end Cases

/-- The result is exact and has no flag, or it has the flag, and the flag means that the exact result does not fit or that an
operand had it. -/
def Meets (R : IntType) (exact : Int) (overflowed : Bool) (result : Option (Checked R)) : Prop :=
  ∃ c, result = some c ∧ (c.hasOverflowed = false → c.m_value = exact) ∧
    (c.hasOverflowed = true → ¬ R.Has exact ∨ overflowed = true)

theorem meets_iff {exact : Int} {overflowed : Bool} (refused : Prop) {result : Checked R}
    (hflag : result.hasOverflowed = true ↔ refused ∨ overflowed = true)
    (hvalue : ¬ refused → overflowed = false → result.m_value = R.cast exact) :
    Meets R exact overflowed (some result) ↔ overflowed = true ∨ (refused ↔ ¬ R.Has exact) := by
  constructor
  · rintro ⟨c, hc, hexact, hflagged⟩
    obtain rfl := Option.some.inj hc
    cases overflowed with
    | true => exact .inl rfl
    | false =>
      refine .inr ⟨fun h => ?_, fun h => ?_⟩
      · simpa using hflagged (hflag.2 (.inl h))
      · by_contra hrefused
        have hnot : result.hasOverflowed = false := by
          rw [← Bool.not_eq_true, hflag]
          simpa using hrefused
        have hcast := hexact hnot
        rw [hvalue hrefused rfl] at hcast
        exact h (cast_eq_self_iff.1 hcast)
  · intro h
    refine ⟨result, rfl, fun hnot => ?_, fun hflagged => ?_⟩
    · rw [← Bool.not_eq_true, hflag, not_or, Bool.not_eq_true] at hnot
      rw [hvalue hnot.1 hnot.2]
      rcases h with h | h
      · exact absurd h (by simp [hnot.2])
      · exact cast_of_has (not_not.1 fun hfits => hnot.1 (h.2 hfits))
    · rcases hflag.1 hflagged with hrefused | hover
      · exact h.symm.imp (fun h => h.1 hrefused) id
      · exact .inr hover

/-! ## Conversions -/

/-- A negative number that goes to a wider unsigned type without a check. -/
def Elided (T U : IntType) (x : Int) : Prop := T.signed = false ∧ U.signed = true ∧ U.width < T.width ∧ x < 0

variable {T U : IntType}

theorem isInBounds_iff (hx : U.Has x) : isInBounds T ⟨U, x⟩ = true ↔ T.Has x ∨ Elided T U x := by
  have hmin := hx.1
  have hmax := hx.2
  have hle := T.le_max
  have hfits : T.Has x ↔ T.min ≤ x ∧ x ≤ T.max := Iff.rfl
  rw [isInBounds]
  by_cases helide : T = U ∨ T.width > U.width
  · rw [if_pos helide]
    refine ⟨fun _ => ?_, fun _ => rfl⟩
    rcases helide with rfl | hwider
    · exact .inl hx
    · have hmono := max_le_max (.inl hwider)
      rw [hfits]
      cases hT : T.signed <;> cases hU : U.signed
      · rw [min_of_unsigned hU] at hmin
        rw [min_of_unsigned hT]
        omega
      · rw [min_of_unsigned hT, Elided]
        by_cases hneg : x < 0
        · exact .inr ⟨hT, hU, hwider, hneg⟩
        · omega
      · rw [min_of_unsigned hU] at hmin
        rw [min_of_signed hT]
        omega
      · rw [min_of_signed hU] at hmin
        rw [min_of_signed hT]
        omega
  · have hnot : ¬ Elided T U x := fun h => helide (.inr h.2.2.1)
    have hwidth : T.width ≤ U.width := by omega
    rw [if_neg helide, or_iff_left hnot, BoundsChecker.inBounds.eq_def, hfits]
    cases hT : T.signed <;> cases hU : U.signed
    · rw [min_of_unsigned hU] at hmin
      rw [min_of_unsigned hT]
      show CInt.le ⟨U, x⟩ ⟨T, T.max⟩ = true ↔ _
      rw [CInt.le_eq hx T.has_max (hU.trans hT.symm), decide_eq_true_iff]
      omega
    · rw [min_of_unsigned hT]
      show (if CInt.lt ⟨U, x⟩ ⟨int, 0⟩ then false else if T.width ≥ U.width then
        CInt.le ⟨T, T.cast x⟩ ⟨T, T.max⟩ else CInt.le ⟨U, x⟩ ⟨U, U.cast T.max⟩) = true ↔ _
      rw [CInt.lt_eq hx int.has_zero hU]
      by_cases hneg : x < 0
      · simp [hneg]
      · rw [decide_eq_false hneg, if_neg Bool.false_ne_true]
        by_cases hwide : T.width ≥ U.width
        · have hmono := max_le_max (.inr ⟨hU, hwide⟩)
          rw [if_pos hwide, CInt.le_eq (T.has_cast x) T.has_max rfl, decide_eq_true_iff]
          have := (T.has_cast x).2
          omega
        · have hmono := max_le_max (.inl (Nat.lt_of_not_le hwide))
          have hhas : U.Has T.max := ⟨by rw [min_of_signed hU]; omega, hmono⟩
          rw [if_neg hwide, cast_of_has hhas, CInt.le_eq hx hhas rfl, decide_eq_true_iff]
          omega
    · rw [min_of_unsigned hU] at hmin
      have hmono := max_le_max (.inr ⟨hT, hwidth⟩)
      have hhas : U.Has T.max := ⟨by rw [min_of_unsigned hU]; omega, hmono⟩
      rw [min_of_signed hT]
      show (if T.width ≤ U.width then CInt.le ⟨U, x⟩ ⟨U, U.cast T.max⟩ else true) = true ↔ _
      rw [if_pos hwidth, cast_of_has hhas, CInt.le_eq hx hhas rfl, decide_eq_true_iff]
      omega
    · show (CInt.le ⟨T, T.min⟩ ⟨U, x⟩ && CInt.le ⟨U, x⟩ ⟨T, T.max⟩) = true ↔ _
      rw [CInt.le_eq T.has_min hx (hT.trans hU.symm), CInt.le_eq hx T.has_max (hU.trans hT.symm), Bool.and_eq_true,
        decide_eq_true_iff, decide_eq_true_iff]

/-- **Conversions** meet the promise, unless a negative number goes to a wider unsigned type. -/
theorem meets_ofChecked (T : IntType) (rhs : Checked U) :
    Meets T rhs.m_value rhs.hasOverflowed (some (Checked.ofChecked T rhs)) ↔
      rhs.hasOverflowed = true ∨ ¬ Elided T U rhs.m_value := by
  have hbounds := isInBounds_iff (T := T) rhs.has
  have hnot : Elided T U rhs.m_value → ¬ T.Has rhs.m_value := by
    rintro ⟨hT, -, -, hneg⟩ ⟨hmin, -⟩
    rw [min_of_unsigned hT] at hmin
    omega
  rw [meets_iff (isInBounds T ⟨U, rhs.m_value⟩ = false)]
  · rw [← Bool.not_eq_true, hbounds]
    by_cases helided : Elided T U rhs.m_value
    · simp [helided, hnot helided]
    · simp [helided]
  · simp [Checked.ofChecked, or_comm]
  · exact fun _ _ => rfl

theorem meets_ofValue (T : IntType) (hx : U.Has x) :
    Meets T x false (some (Checked.ofValue T ⟨U, x⟩)) ↔ ¬ Elided T U x := by
  have h := meets_ofChecked T ⟨x, false, hx⟩
  simpa [Checked.ofChecked, Checked.ofValue] using h

/-! ## Arithmetic -/

theorem resultType_eq (U V : IntType) : (ResultType U V = U ∨ ResultType U V = V) ∧ U.width ≤ (ResultType U V).width := by
  unfold ResultType
  split_ifs
  all_goals constructor
  all_goals first | exact .inl rfl | exact .inr rfl | omega

/-- **The operators** meet the promise for sound operands, unless a least number is negated. -/
theorem meets_operator (op : Operation) (lhs : Checked U) (rhs : Checked V) (hcompiles : Compiles U V) :
    Meets (ResultType U V) (op.exact lhs.m_value rhs.m_value) (lhs.hasOverflowed || rhs.hasOverflowed)
        (Checked.operator op lhs rhs) ↔
      ¬ Undefined op U V (ResultType U V) lhs.m_value rhs.m_value ∧
        ((lhs.hasOverflowed || rhs.hasOverflowed) = true ∨ Sound op U V (ResultType U V) lhs.m_value rhs.m_value) := by
  obtain ⟨hR, hwidth⟩ := resultType_eq U V
  by_cases hundefined : Undefined op U V (ResultType U V) lhs.m_value rhs.m_value
  · have hnone : Checked.operator op lhs rhs = none := by
      rw [Checked.operator, safe_undefined lhs.has rhs.has hR hwidth hundefined]
      rfl
    rw [hnone]
    constructor
    · rintro ⟨c, hc, -⟩
      cases hc
    · exact fun h => absurd hundefined h.1
  · obtain ⟨refused, hdecidable, hsafe, hsound⟩ := refuses lhs.has rhs.has hR hwidth op hcompiles hundefined
    rw [← hsound, and_iff_right hundefined, Checked.operator, hsafe, outcome]
    by_cases hrefused : refused
    · rw [if_pos hrefused]
      refine meets_iff refused ?_ ?_
      · simp [Checked.resultOverflowed, hrefused]
      · exact fun h => absurd hrefused h
    · rw [if_neg hrefused]
      cases hover : lhs.hasOverflowed || rhs.hasOverflowed with
      | true =>
        refine meets_iff refused ?_ ?_
        · simp [Checked.resultOverflowed]
        · exact fun _ h => Bool.noConfusion h
      | false =>
        refine meets_iff refused ?_ ?_
        · simp [Checked.ofValue, isInBounds, hrefused]
        · exact fun _ _ => cast_of_has (has_cast _ _)

/-- **The compound assignments** meet it for sound operands, unless a least number is negated. -/
theorem meets_operatorAssign (op : Operation) (lhs : Checked T) (hy : V.Has y) (hcompiles : Compiles T V) :
    Meets T (op.exact lhs.m_value y) lhs.hasOverflowed (Checked.operatorAssign op lhs ⟨V, y⟩) ↔
      ¬ Undefined op T V T lhs.m_value y ∧ (lhs.hasOverflowed = true ∨ Sound op T V T lhs.m_value y) := by
  by_cases hundefined : Undefined op T V T lhs.m_value y
  · have hnone : Checked.operatorAssign op lhs ⟨V, y⟩ = none := by
      rw [Checked.operatorAssign, safe_undefined lhs.has hy (.inl rfl) (Nat.le_refl _) hundefined]
      rfl
    rw [hnone]
    constructor
    · rintro ⟨c, hc, -⟩
      cases hc
    · exact fun h => absurd hundefined h.1
  · obtain ⟨refused, hdecidable, hsafe, hsound⟩ := refuses lhs.has hy (.inl rfl) (Nat.le_refl _) op hcompiles hundefined
    rw [← hsound, and_iff_right hundefined, Checked.operatorAssign, hsafe, outcome]
    by_cases hrefused : refused
    · rw [if_pos hrefused]
      refine meets_iff refused ?_ ?_
      · simp [hrefused]
      · exact fun h => absurd hrefused h
    · rw [if_neg hrefused]
      refine meets_iff refused ?_ ?_
      · simp [hrefused]
      · exact fun _ _ => cast_of_has (has_cast _ _)

theorem meets_operatorAssignChecked (op : Operation) (lhs : Checked T) (rhs : Checked V) (hcompiles : Compiles T V) :
    Meets T (op.exact lhs.m_value rhs.m_value) (lhs.hasOverflowed || rhs.hasOverflowed)
        (Checked.operatorAssignChecked op lhs rhs) ↔
      ¬ Undefined op T V T lhs.m_value rhs.m_value ∧
        ((lhs.hasOverflowed || rhs.hasOverflowed) = true ∨ Sound op T V T lhs.m_value rhs.m_value) :=
  meets_operatorAssign op { lhs with hasOverflowed := lhs.hasOverflowed || rhs.hasOverflowed } rhs.has hcompiles

/-! ## Chains of operations -/

/-- A `Checked` that is made from `start` by operations and conversions. -/
inductive Chain (start : Checked T) : {U : IntType} → Checked U → Prop
  | start : Chain start start
  | convert {U : IntType} {c : Checked U} (h : Chain start c) (V : IntType) : Chain start (Checked.ofChecked V c)
  | left {U V : IntType} {c : Checked U} (h : Chain start c) (op : Operation) (rhs : Checked V)
      {result : Checked (ResultType U V)} (hresult : Checked.operator op c rhs = some result) : Chain start result
  | right {U V : IntType} {c : Checked U} (h : Chain start c) (op : Operation) (lhs : Checked V)
      {result : Checked (ResultType V U)} (hresult : Checked.operator op lhs c = some result) : Chain start result
  | assign {U : IntType} {c result : Checked U} (h : Chain start c) (op : Operation) (rhs : CInt)
      (hresult : Checked.operatorAssign op c rhs = some result) : Chain start result
  | assignLeft {U V : IntType} {c result : Checked U} (h : Chain start c) (op : Operation) (rhs : Checked V)
      (hresult : Checked.operatorAssignChecked op c rhs = some result) : Chain start result
  | assignRight {U V : IntType} {c : Checked U} {result : Checked V} (h : Chain start c) (op : Operation) (lhs : Checked V)
      (hresult : Checked.operatorAssignChecked op lhs c = some result) : Chain start result

theorem hasOverflowed_operator {op : Operation} {lhs : Checked U} {rhs : Checked V} {result : Checked (ResultType U V)}
    (h : Checked.operator op lhs rhs = some result) (hover : lhs.hasOverflowed = true ∨ rhs.hasOverflowed = true) :
    result.hasOverflowed = true := by
  have hor : (lhs.hasOverflowed || rhs.hasOverflowed) = true := by rwa [Bool.or_eq_true]
  simp only [Checked.operator, hor, Option.bind_eq_bind, Option.bind_eq_some_iff] at h
  obtain ⟨result', -, h⟩ := h
  cases result' <;> cases h <;> rfl

theorem hasOverflowed_operatorAssign {op : Operation} {lhs result : Checked U} {rhs : CInt}
    (h : Checked.operatorAssign op lhs rhs = some result) (hover : lhs.hasOverflowed = true) :
    result.hasOverflowed = true := by
  simp only [Checked.operatorAssign, Option.bind_eq_bind, Option.bind_eq_some_iff] at h
  obtain ⟨result', -, h⟩ := h
  cases result' with
  | none =>
    cases h
    rfl
  | some value =>
    cases h
    exact hover

/-- **The flag is never lost.** -/
theorem Chain.hasOverflowed {start : Checked T} {c : Checked U} (h : Chain start c) (hover : start.hasOverflowed = true) :
    c.hasOverflowed = true := by
  induction h with
  | start => exact hover
  | convert _ V ih =>
    rw [Checked.ofChecked, ih]
    rfl
  | left _ op rhs hresult ih => exact hasOverflowed_operator hresult (.inl ih)
  | right _ op lhs hresult ih => exact hasOverflowed_operator hresult (.inr ih)
  | assign _ op rhs hresult ih => exact hasOverflowed_operatorAssign hresult ih
  | assignLeft _ op rhs hresult ih => exact hasOverflowed_operatorAssign hresult (by rw [ih]; rfl)
  | assignRight _ op lhs hresult ih => exact hasOverflowed_operatorAssign hresult (by rw [ih, Bool.or_true])

/-- **`Checked` is exact or flagged** exactly for the operands that its tests are right for, and the flag is never lost. -/
theorem checked_exact (T V : IntType) :
    (∀ x : Int, V.Has x → (Meets T x false (some (Checked.ofValue T ⟨V, x⟩)) ↔ ¬ Elided T V x)) ∧
    (∀ rhs : Checked V, Meets T rhs.m_value rhs.hasOverflowed (some (Checked.ofChecked T rhs)) ↔
      rhs.hasOverflowed = true ∨ ¬ Elided T V rhs.m_value) ∧
    (∀ (op : Operation) (lhs : Checked T) (rhs : Checked V), Compiles T V →
      (Meets (ResultType T V) (op.exact lhs.m_value rhs.m_value) (lhs.hasOverflowed || rhs.hasOverflowed)
          (Checked.operator op lhs rhs) ↔
        ¬ Undefined op T V (ResultType T V) lhs.m_value rhs.m_value ∧
          ((lhs.hasOverflowed || rhs.hasOverflowed) = true ∨ Sound op T V (ResultType T V) lhs.m_value rhs.m_value))) ∧
    (∀ (op : Operation) (lhs : Checked T) (y : Int), V.Has y → Compiles T V →
      (Meets T (op.exact lhs.m_value y) lhs.hasOverflowed (Checked.operatorAssign op lhs ⟨V, y⟩) ↔
        ¬ Undefined op T V T lhs.m_value y ∧ (lhs.hasOverflowed = true ∨ Sound op T V T lhs.m_value y))) ∧
    (∀ (op : Operation) (lhs : Checked T) (rhs : Checked V), Compiles T V →
      (Meets T (op.exact lhs.m_value rhs.m_value) (lhs.hasOverflowed || rhs.hasOverflowed)
          (Checked.operatorAssignChecked op lhs rhs) ↔
        ¬ Undefined op T V T lhs.m_value rhs.m_value ∧
          ((lhs.hasOverflowed || rhs.hasOverflowed) = true ∨ Sound op T V T lhs.m_value rhs.m_value))) ∧
    (∀ (start : Checked T) (c : Checked V), Chain start c → start.hasOverflowed = true → c.hasOverflowed = true) :=
  ⟨fun _ hx => meets_ofValue T hx, fun rhs => meets_ofChecked T rhs,
    fun op lhs rhs hcompiles => meets_operator op lhs rhs hcompiles,
    fun op lhs _ hy hcompiles => meets_operatorAssign op lhs hy hcompiles,
    fun op lhs rhs hcompiles => meets_operatorAssignChecked op lhs rhs hcompiles,
    fun _ _ h hover => h.hasOverflowed hover⟩

/-- `Checked<uint64_t>(-1)` has the value 2 ^ 64 - 1 and no flag, and `Checked<int>(-1) - INT_MAX` is flagged although
`INT_MIN` fits. -/
theorem checked_elided : ¬ Meets uint64 (-1) false (some (Checked.ofValue uint64 ⟨int, -1⟩)) ∧
    ¬ Meets int (-1 - 2147483647) false
      (Checked.operator .sub (Checked.ofValue int ⟨int, -1⟩) (Checked.ofValue int ⟨int, 2147483647⟩)) := by
  constructor
  · rintro ⟨c, hc, hexact, -⟩
    obtain rfl := Option.some.inj hc
    exact absurd (hexact rfl) (by decide)
  · rintro ⟨c, hc, -, hflag⟩
    have hresult : Checked.operator .sub (Checked.ofValue int ⟨int, -1⟩) (Checked.ofValue int ⟨int, 2147483647⟩) =
        some (Checked.resultOverflowed int) := rfl
    rw [hresult] at hc
    obtain rfl := Option.some.inj hc
    rcases hflag rfl with h | h
    · exact h (by decide)
    · cases h

end WebKit.WTF
