import Mathlib.Data.Prod.Lex
import WebKit.Lib.CInteger
import WebKit.WTF.MediaTimeArithmetic

/-!
# `MediaTime::compare` is a total order

`compareMachine` is `compare` with each of its 64-bit operations, and has no result where one overflows
(`compareMachine_eq`: none does). A time of one class has a `key`, the rank of its class and its quotient, and `compare`
compares the keys (`compare_eq_cmp`): negative infinity, the finite times in the order of their quotients, indefinite,
positive infinity, invalid. So `compare` is antisymmetric and transitive and the six operators agree
(`compare_total_order`).
-/

namespace WebKit.WTF

open WebKit.Lib

/-! ## 64-bit operations -/

/-- The result of a signed 64-bit operation, if it does not overflow. -/
def arith64 (x : Int) : Option Int := IntType.int64.arith x

/-- `x / y`. -/
def div64 (x y : Int) : Option Int := if y = 0 then none else arith64 (x.tdiv y)

/-- `x % y`, which is defined where `x / y` is. -/
def mod64 (x y : Int) : Option Int := (div64 x y).map fun _ => x.tmod y

theorem arith64_of_fits {x : Int} (h : Fits 64 x) : arith64 x = some x := if_pos h

theorem arith64_of_not_fits {x : Int} (h : ¬Fits 64 x) : arith64 x = none := if_neg h

/-- Division by a positive number. -/
theorem div64_eq {x y : Int} (hx : Fits 64 x) (hy : 0 < y) : div64 x y = some (x.tdiv y) := by
  have h := Truncation.tdiv_mul_between hy (t := 1) (by omega) (by omega) x
  rw [Int.mul_one] at h
  rw [div64, if_neg hy.ne', arith64_of_fits (MediaTime.fits_of_between hx h)]

theorem mod64_eq {x y : Int} (hx : Fits 64 x) (hy : 0 < y) : mod64 x y = some (x.tmod y) := by
  rw [mod64, div64_eq hx hy, Option.map_some]

/-- The product of a remainder by one 32-bit number and another one. -/
theorem fits_tmod_mul {x s t : Int} (hs : 0 < s) (hsmax : s ≤ MediaTime.MaximumTimeScale) (ht : 0 ≤ t)
    (htmax : t ≤ MediaTime.MaximumTimeScale) : Fits 64 (x.tmod s * t) := by
  unfold MediaTime.MaximumTimeScale at hsmax htmax
  rw [intMax_32] at hsmax htmax
  have hlt := Int.tmod_lt_of_pos x hs
  have hgt := Int.lt_tmod_of_pos x hs
  unfold Fits
  rw [intMin_64, intMax_64]
  constructor
  · nlinarith
  · nlinarith

namespace MediaTime

/-- `operator>`. -/
def gt (lhs rhs : MediaTime) : Bool := lhs.compare rhs == .gt

/-- The last part of `compare` with its 64-bit operations. -/
def compareFiniteMachine (lhs rhs : MediaTime) : Option Ordering := do
  let rhsWhole ← div64 rhs.timeValue rhs.timeScale
  let lhsWhole ← div64 lhs.timeValue lhs.timeScale
  if lhsWhole > rhsWhole then some .gt
  else if lhsWhole < rhsWhole then some .lt
  else do
    let rhsRemain ← mod64 rhs.timeValue rhs.timeScale
    let lhsRemain ← mod64 lhs.timeValue lhs.timeScale
    let lhsFactor ← arith64 (lhsRemain * rhs.timeScale)
    let rhsFactor ← arith64 (rhsRemain * lhs.timeScale)
    if lhsFactor = rhsFactor then some .eq
    else if lhsFactor > rhsFactor then some .gt else some .lt

/-- `compare` with its 64-bit operations; `none` if one of them overflows. -/
def compareMachine (lhs rhs : MediaTime) : Option Ordering :=
  if lhs.isPositiveInfinite && rhs.isPositiveInfinite || lhs.isNegativeInfinite && rhs.isNegativeInfinite ||
      lhs.isInvalid && rhs.isInvalid || lhs.isIndefinite && rhs.isIndefinite then some .eq
  else if lhs.isInvalid then some .gt
  else if rhs.isInvalid then some .lt
  else if rhs.isNegativeInfinite || lhs.isPositiveInfinite then some .gt
  else if rhs.isPositiveInfinite || lhs.isNegativeInfinite then some .lt
  else if lhs.isIndefinite then some .gt
  else if rhs.isIndefinite then some .lt
  else lhs.compareFiniteMachine rhs

/-- A time that the types can hold, with a positive time scale. It is finite or of one of the classes of times that are
not: infinite of one sign, indefinite, and invalid. -/
structure Regular (t : MediaTime) : Prop where
  value : Fits 64 t.timeValue
  scale_pos : 0 < t.timeScale
  scale_le : t.timeScale ≤ MaximumTimeScale
  one_class : [t.isInvalid, t.isPositiveInfinite, t.isNegativeInfinite, t.isIndefinite].count true ≤ 1

instance (t : MediaTime) : Decidable t.Regular :=
  decidable_of_iff (Fits 64 t.timeValue ∧ 0 < t.timeScale ∧ t.timeScale ≤ MaximumTimeScale ∧
    [t.isInvalid, t.isPositiveInfinite, t.isNegativeInfinite, t.isIndefinite].count true ≤ 1)
    ⟨fun ⟨h₁, h₂, h₃, h₄⟩ => ⟨h₁, h₂, h₃, h₄⟩, fun ⟨h₁, h₂, h₃, h₄⟩ => ⟨h₁, h₂, h₃, h₄⟩⟩

/-- The rank of the class of a time, and the quotient of a finite one. -/
def key (t : MediaTime) : ℕ ×ₗ ℚ :=
  if t.isInvalid then toLex (4, 0)
  else if t.isPositiveInfinite then toLex (3, 0)
  else if t.isIndefinite then toLex (2, 0)
  else if t.isNegativeInfinite then toLex (0, 0)
  else toLex (1, t.quotient)

variable {a b c : MediaTime}

theorem IsFinite.regular (h : a.IsFinite) : a.Regular := by
  refine ⟨h.value, h.scale_pos, h.scale_le, ?_⟩
  simp [isInvalid, h.valid, h.not_positiveInfinite, h.not_negativeInfinite, h.not_indefinite]

section Machine

variable (ha : a.Regular) (hb : b.Regular)

include ha hb

theorem compareFiniteMachine_eq : a.compareFiniteMachine b = some (a.compareFinite b) := by
  have hl := fits_tmod_mul (x := a.timeValue) ha.scale_pos ha.scale_le hb.scale_pos.le hb.scale_le
  have hr := fits_tmod_mul (x := b.timeValue) hb.scale_pos hb.scale_le ha.scale_pos.le ha.scale_le
  unfold compareFiniteMachine compareFinite
  rw [div64_eq ha.value ha.scale_pos, div64_eq hb.value hb.scale_pos, mod64_eq ha.value ha.scale_pos,
    mod64_eq hb.value hb.scale_pos]
  simp only [Option.bind_eq_bind, Option.bind_some, arith64_of_fits hl, arith64_of_fits hr, ← apply_ite some]

/-- **`compare` never overflows.** -/
theorem compareMachine_eq : a.compareMachine b = some (a.compare b) := by
  unfold compareMachine compare
  rw [compareFiniteMachine_eq ha hb]
  simp only [← apply_ite some]

end Machine

/-! ## The order -/

/-- A time of one class. -/
theorem Regular.cases (h : a.Regular) :
    a.isInvalid = true ∧ a.isPositiveInfinite = false ∧ a.isNegativeInfinite = false ∧ a.isIndefinite = false ∨
    a.isInvalid = false ∧ a.isPositiveInfinite = true ∧ a.isNegativeInfinite = false ∧ a.isIndefinite = false ∨
    a.isInvalid = false ∧ a.isPositiveInfinite = false ∧ a.isNegativeInfinite = true ∧ a.isIndefinite = false ∨
    a.isInvalid = false ∧ a.isPositiveInfinite = false ∧ a.isNegativeInfinite = false ∧ a.isIndefinite = true ∨
    a.isInvalid = false ∧ a.isPositiveInfinite = false ∧ a.isNegativeInfinite = false ∧ a.isIndefinite = false := by
  have hone := h.one_class
  revert hone
  cases a.isInvalid <;> cases a.isPositiveInfinite <;> cases a.isNegativeInfinite <;> cases a.isIndefinite <;> decide

theorem cmp_of_orders {α : Type*} [LinearOrder α] {r : Ordering} {x y : α} (h : Orders r x y) : r = cmp x y := by
  rcases h with ⟨rfl, h⟩ | ⟨rfl, h⟩ | ⟨rfl, h⟩
  · exact ((cmp_eq_lt_iff x y).2 h).symm
  · exact ((cmp_eq_eq_iff x y).2 h).symm
  · exact ((cmp_eq_gt_iff x y).2 h).symm

/-- Keys of one class are compared by their quotients. -/
theorem cmp_toLex_same (n : ℕ) (x y : ℚ) : cmp (toLex (n, x)) (toLex (n, y)) = cmp x y := by
  rcases lt_trichotomy x y with h | rfl | h
  · rw [(cmp_eq_lt_iff x y).2 h, cmp_eq_lt_iff]
    exact Prod.Lex.toLex_lt_toLex.2 (.inr ⟨rfl, h⟩)
  · rw [cmp_self_eq_eq, cmp_self_eq_eq]
  · rw [(cmp_eq_gt_iff x y).2 h, cmp_eq_gt_iff]
    exact Prod.Lex.toLex_lt_toLex.2 (.inr ⟨rfl, h⟩)

/-- **`compare` compares the keys.** -/
theorem compare_eq_cmp (ha : a.Regular) (hb : b.Regular) : a.compare b = cmp a.key b.key := by
  apply cmp_of_orders
  -- two finite times have the same rank, and are compared by their quotients
  have hfinite := compareFinite_orders ha.scale_pos hb.scale_pos
  unfold Orders at hfinite ⊢
  unfold compare key
  rcases ha.cases with ⟨h₁, h₂, h₃, h₄⟩ | ⟨h₁, h₂, h₃, h₄⟩ | ⟨h₁, h₂, h₃, h₄⟩ | ⟨h₁, h₂, h₃, h₄⟩ | ⟨h₁, h₂, h₃, h₄⟩ <;>
    rcases hb.cases with ⟨k₁, k₂, k₃, k₄⟩ | ⟨k₁, k₂, k₃, k₄⟩ | ⟨k₁, k₂, k₃, k₄⟩ | ⟨k₁, k₂, k₃, k₄⟩ | ⟨k₁, k₂, k₃, k₄⟩ <;>
      simp [h₁, h₂, h₃, h₄, k₁, k₂, k₃, k₄, Prod.Lex.toLex_lt_toLex, hfinite]

theorem isLE_cmp {α : Type*} [LinearOrder α] {x y : α} : (cmp x y).isLE = true ↔ x ≤ y := by
  rw [Ordering.isLE_iff_ne_gt, cmp_eq_gt_iff, not_lt]

theorem compare_finite (ha : a.IsFinite) (hb : b.IsFinite) : a.compare b = cmp a.quotient b.quotient := by
  have hkey : ∀ {t : MediaTime}, t.IsFinite → t.key = toLex (1, t.quotient) := fun {t} h => by
    simp [key, isInvalid, h.valid, h.not_positiveInfinite, h.not_negativeInfinite, h.not_indefinite]
  rw [compare_eq_cmp ha.regular hb.regular, hkey ha, hkey hb, cmp_toLex_same]

theorem compare_swap (ha : a.Regular) (hb : b.Regular) : b.compare a = (a.compare b).swap := by
  rw [compare_eq_cmp ha hb, compare_eq_cmp hb ha, cmp_swap]

theorem compare_trans (ha : a.Regular) (hb : b.Regular) (hc : c.Regular) (hab : (a.compare b).isLE)
    (hbc : (b.compare c).isLE) : (a.compare c).isLE := by
  rw [compare_eq_cmp ha hb, isLE_cmp] at hab
  rw [compare_eq_cmp hb hc, isLE_cmp] at hbc
  rw [compare_eq_cmp ha hc, isLE_cmp]
  exact hab.trans hbc

/-- Equal times are compared in the same way with every time. -/
theorem compare_congr (ha : a.Regular) (hb : b.Regular) (hc : c.Regular) (hab : a.compare b = .eq) :
    a.compare c = b.compare c := by
  rw [compare_eq_cmp ha hb, cmp_eq_eq_iff] at hab
  rw [compare_eq_cmp ha hc, compare_eq_cmp hb hc, hab]

/-- The six operators are those of one order. -/
structure OperatorsAgree (a b : MediaTime) : Prop where
  gt : a.gt b = b.lt a
  ge : a.ge b = b.le a
  eq : a.eq b = b.eq a
  ne : a.ne b = !a.eq b
  lt_iff : a.lt b = !a.ge b
  gt_iff : a.gt b = !a.le b
  le_iff : a.le b = (a.lt b || a.eq b)
  ge_iff : a.ge b = (a.gt b || a.eq b)

theorem operatorsAgree (ha : a.Regular) (hb : b.Regular) : OperatorsAgree a b := by
  have hswap := compare_swap ha hb
  constructor <;> simp only [gt, ge, lt, le, eq, ne, hswap] <;> cases a.compare b <;> rfl

/-- What makes `compare` a total order on three times. -/
structure TotallyOrdered (a b c : MediaTime) : Prop where
  no_overflow : a.compareMachine b = some (a.compare b)
  finite : a.IsFinite → b.IsFinite → a.compare b = cmp a.quotient b.quotient
  antisymmetric : b.compare a = (a.compare b).swap
  transitive : (a.compare b).isLE → (b.compare c).isLE → (a.compare c).isLE
  congruent : a.compare b = .eq → a.compare c = b.compare c
  operators : OperatorsAgree a b

/-- **`compare` is a total order on the times of all classes**, and exact on the finite ones. -/
theorem compare_total_order (ha : a.Regular) (hb : b.Regular) (hc : c.Regular) : TotallyOrdered a b c :=
  ⟨compareMachine_eq ha hb, compare_finite, compare_swap ha hb, compare_trans ha hb hc, compare_congr ha hb hc,
    operatorsAgree ha hb⟩

/-- A negative finite time, an indefinite one and an infinite one. -/
theorem compare_total_order_classes : TotallyOrdered ⟨-7, 2, Valid⟩ indefiniteTime positiveInfiniteTime :=
  compare_total_order (by decide) (by decide) (by decide)

end MediaTime

end WebKit.WTF
