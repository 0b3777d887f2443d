import Mathlib.Algebra.Group.Nat.Defs
import Mathlib.Algebra.Group.Int.Defs

/-!
# `CheckedArithmetic.h`

`safeAdd`, `safeSub` and `safeMultiply` for signed operands. A result type of `w` bits gives the bounds `intMin w` and
`intMax w`; `none` is the return value `false`, which leaves the result alone. Addition is exact
(`safeAdd_eq_none`), and so is multiplication by a positive number (`safeMultiply_eq_none`). Subtraction refuses one
difference too many, the least number of the type (`safeSub_eq_none`).
-/

namespace WebKit.WTF

/-- `std::numeric_limits<T>::min()` of a signed type of `w` bits. -/
def intMin (w : Nat) : Int := -2 ^ (w - 1)

/-- `std::numeric_limits<T>::max()` of a signed type of `w` bits. -/
def intMax (w : Nat) : Int := 2 ^ (w - 1) - 1

theorem intMin_64 : intMin 64 = -9223372036854775808 := rfl

theorem intMax_64 : intMax 64 = 9223372036854775807 := rfl

theorem intMax_32 : intMax 32 = 2147483647 := rfl

/-- The number is one of the signed type of `w` bits. -/
def Fits (w : Nat) (x : Int) : Prop := intMin w ≤ x ∧ x ≤ intMax w

instance (w : Nat) (x : Int) : Decidable (Fits w x) := inferInstanceAs (Decidable (_ ∧ _))

/-- `signsMatch`, which tests the sign of the exclusive or. -/
def signsMatch (lhs rhs : Int) : Bool := decide (0 ≤ lhs) == decide (0 ≤ rhs)

def safeAdd (w : Nat) (lhs rhs : Int) : Option Int :=
  if signsMatch lhs rhs then
    if 0 ≤ lhs then
      if intMax w - rhs < lhs then none else some (lhs + rhs)
    else
      let temp := lhs - intMin w
      if rhs < -temp then none else some (lhs + rhs)
  else some (lhs + rhs)

def safeSub (w : Nat) (lhs rhs : Int) : Option Int :=
  if !signsMatch lhs rhs then
    if 0 ≤ lhs then
      if lhs > intMax w + rhs then none else some (lhs - rhs)
    else
      if rhs > intMax w + lhs then none else some (lhs - rhs)
  else some (lhs - rhs)

def safeMultiply (w : Nat) (lhs rhs : Int) : Option Int :=
  if signsMatch lhs rhs then
    if 0 ≤ lhs then
      if lhs ≠ 0 ∧ (intMax w).tdiv lhs < rhs then none else some (lhs * rhs)
    else
      if lhs = intMin w ∨ rhs = intMin w then none
      else if (intMax w).tdiv (-lhs) < -rhs then none else some (lhs * rhs)
  else
    if lhs < 0 then
      if rhs ≠ 0 ∧ lhs < (intMin w).tdiv rhs then none else some (lhs * rhs)
    else
      if lhs ≠ 0 ∧ rhs < (intMin w).tdiv lhs then none else some (lhs * rhs)

variable {w : Nat} {lhs rhs r : Int}

/-! ## What is computed -/

theorem safeAdd_eq_some (h : safeAdd w lhs rhs = some r) : r = lhs + rhs := by
  unfold safeAdd at h
  grind

theorem safeSub_eq_some (h : safeSub w lhs rhs = some r) : r = lhs - rhs := by
  unfold safeSub at h
  grind

theorem safeMultiply_eq_some (h : safeMultiply w lhs rhs = some r) : r = lhs * rhs := by
  unfold safeMultiply at h
  grind

/-! ## When it is refused -/

theorem intMin_eq (w : Nat) : intMin w = -(intMax w + 1) := by
  unfold intMin intMax
  omega

theorem signsMatch_iff : signsMatch lhs rhs = true ↔ (0 ≤ lhs ↔ 0 ≤ rhs) := by
  unfold signsMatch
  rw [beq_iff_eq, decide_eq_decide]

/-- **`safeAdd`** refuses the sums that do not fit. -/
theorem safeAdd_eq_none (hl : Fits w lhs) (hr : Fits w rhs) : safeAdd w lhs rhs = none ↔ ¬Fits w (lhs + rhs) := by
  unfold Fits at *
  unfold safeAdd
  simp only [signsMatch_iff]
  have := intMin_eq w
  split
  · split
    · split <;> simp <;> omega
    · split <;> simp <;> omega
  · simp
    omega

/-- **`safeSub`** refuses the differences that do not fit, and the least number of the type as a difference of a negative
number and another one. -/
theorem safeSub_eq_none (hl : Fits w lhs) (hr : Fits w rhs) :
    safeSub w lhs rhs = none ↔ ¬Fits w (lhs - rhs) ∨ lhs < 0 ∧ 0 ≤ rhs ∧ lhs - rhs = intMin w := by
  unfold Fits at *
  unfold safeSub
  simp only [Bool.not_eq_true', Bool.eq_false_iff, ne_eq, signsMatch_iff]
  have := intMin_eq w
  split
  · split
    · split <;> simp <;> omega
    · split <;> simp <;> omega
  · simp
    omega

theorem intMax_nonneg (w : Nat) : 0 ≤ intMax w := by
  unfold intMax
  have : (0 : Int) < 2 ^ (w - 1) := Int.pow_pos (by decide)
  omega

/-- **`safeMultiply`** by a positive number refuses the products that do not fit. -/
theorem safeMultiply_eq_none (hr : 0 < rhs) :
    safeMultiply w lhs rhs = none ↔ ¬Fits w (lhs * rhs) := by
  unfold Fits safeMultiply
  simp only [signsMatch_iff]
  have hw := intMax_nonneg w
  have hmin := intMin_eq w
  have hrz : rhs ≠ 0 := by omega
  by_cases hl : 0 ≤ lhs
  · rw [if_pos (by omega), if_pos hl]
    have hpos : 0 ≤ lhs * rhs := Int.mul_nonneg hl (Int.le_of_lt hr)
    have hcond : lhs ≠ 0 ∧ (intMax w).tdiv lhs < rhs ↔ intMax w < lhs * rhs := by
      by_cases hz : lhs = 0
      · subst hz
        simp
        omega
      · have hlt : 0 < lhs := by omega
        rw [Int.tdiv_eq_ediv_of_nonneg hw, Int.ediv_lt_iff_lt_mul hlt, Int.mul_comm]
        exact and_iff_right hz
    simp only [hcond]
    split <;> simp <;> omega
  · rw [if_neg (by omega), if_pos (by omega)]
    have hneg : lhs * rhs < 0 := Int.mul_neg_of_neg_of_pos (by omega) hr
    have hcond : rhs ≠ 0 ∧ lhs < (intMin w).tdiv rhs ↔ lhs * rhs < intMin w := by
      have he : (intMin w).tdiv rhs = -((intMax w + 1) / rhs) := by
        rw [hmin, Int.neg_tdiv, Int.tdiv_eq_ediv_of_nonneg (by omega)]
      have hlt := Int.ediv_lt_iff_lt_mul (a := intMax w + 1) (b := -lhs) hr
      rw [Int.neg_mul] at hlt
      rw [he, hmin]
      omega
    simp only [hcond]
    split <;> simp <;> omega

end WebKit.WTF
