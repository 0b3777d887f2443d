import Mathlib.Algebra.Order.Ring.Int
import Mathlib.Tactic.Ring

/-!
# Integers of a C program

Integer types of 8 to 64 bits (`IntType`), the conversion to a type (`cast`), the integer promotions and the usual
arithmetic conversions (`promote`, `common`), and the operators on values that carry their type (`CInt`). An operation
whose result is not in its signed type has no result; in an unsigned type the result wraps around.

Where the operands are both signed or both unsigned the conversions change nothing, so comparisons are those of the
numbers (`lt_eq`, `le_eq`), and operations too, as long as their result is in the common type (`binary_eq`).
-/

namespace WebKit.Lib

/-- An integer type. -/
structure IntType where
  signed : Bool
  width : Nat
  isWidth : width = 8 ∨ width = 16 ∨ width = 32 ∨ width = 64
  deriving DecidableEq

namespace IntType

def int : IntType := ⟨true, 32, .inr (.inr (.inl rfl))⟩
def unsigned : IntType := ⟨false, 32, .inr (.inr (.inl rfl))⟩
def int64 : IntType := ⟨true, 64, .inr (.inr (.inr rfl))⟩
def uint64 : IntType := ⟨false, 64, .inr (.inr (.inr rfl))⟩

/-- `std::numeric_limits<T>::max()`. -/
def max (T : IntType) : Int := if T.signed then 2 ^ (T.width - 1) - 1 else 2 ^ T.width - 1

/-- `std::numeric_limits<T>::min()`. -/
def min (T : IntType) : Int := if T.signed then -2 ^ (T.width - 1) else 0

/-- The number is a value of the type. -/
def Has (T : IntType) (x : Int) : Prop := T.min ≤ x ∧ x ≤ T.max

instance (T : IntType) (x : Int) : Decidable (T.Has x) := inferInstanceAs (Decidable (_ ∧ _))

/-- `static_cast<T>(x)`. -/
def cast (T : IntType) (x : Int) : Int := if T.signed then x.bmod (2 ^ T.width) else x % 2 ^ T.width

def promote (T : IntType) : IntType := if T.width < 32 then int else T

/-- The type of `x + y` for an `x` of type `T` and a `y` of type `U`. -/
def common (T U : IntType) : IntType :=
  let T := T.promote
  let U := U.promote
  if T.signed = U.signed then if U.width ≤ T.width then T else U
  else if T.signed then if T.width ≤ U.width then U else T
  else if U.width ≤ T.width then T else U

/-- The result of an operation in the type, which is not defined outside a signed type. -/
def arith (T : IntType) (x : Int) : Option Int :=
  if T.signed then if T.Has x then some x else none else some (T.cast x)

variable {T U V : IntType} {x y : Int}

/-! ## The ranges -/

theorem min_of_signed (h : T.signed = true) : T.min = -T.max - 1 := by
  rw [min, max, if_pos h, if_pos h]
  omega

theorem min_of_unsigned (h : T.signed = false) : T.min = 0 := by
  simp [min, h]

theorem le_max (T : IntType) : 127 ≤ T.max := by
  obtain ⟨signed, width, rfl | rfl | rfl | rfl⟩ := T <;> cases signed <;> decide

theorem max_le_of_narrow (hsigned : T.signed = false) (hwidth : T.width < 32) : T.max ≤ 65535 := by
  obtain ⟨signed, width, hw⟩ := T
  obtain rfl : signed = false := hsigned
  rcases hw with rfl | rfl | rfl | rfl
  · decide
  · decide
  · exact absurd hwidth (by decide)
  · exact absurd hwidth (by decide)

theorem max_mono (hsigned : T.signed = U.signed) (hwidth : T.width ≤ U.width) : T.max ≤ U.max := by
  have hpow : ∀ m n : Nat, m ≤ n → (2 : Int) ^ m ≤ 2 ^ n := fun m n h => pow_le_pow_right₀ (by decide) h
  rw [max, max, hsigned]
  split_ifs
  · have := hpow (T.width - 1) (U.width - 1) (by omega)
    omega
  · have := hpow T.width U.width hwidth
    omega

/-- A wider type goes further, and an unsigned type goes further than a signed type that is no wider. -/
theorem max_le_max (h : T.width < U.width ∨ (T.signed = true ∧ T.width ≤ U.width)) : T.max ≤ U.max := by
  obtain ⟨signed, width, hw⟩ := T
  obtain ⟨signed', width', hw'⟩ := U
  rcases hw with rfl | rfl | rfl | rfl <;> rcases hw' with rfl | rfl | rfl | rfl <;> cases signed <;> cases signed' <;>
    revert h <;> decide

theorem Has.mono (h : T.Has x) (hsigned : T.signed = U.signed) (hwidth : T.width ≤ U.width) : U.Has x := by
  have hmax := max_mono hsigned hwidth
  obtain ⟨hlow, hhigh⟩ := h
  refine ⟨?_, by omega⟩
  cases hT : T.signed with
  | true =>
    rw [min_of_signed hT] at hlow
    rw [min_of_signed (hsigned ▸ hT)]
    omega
  | false =>
    rw [min_of_unsigned hT] at hlow
    rw [min_of_unsigned (hsigned ▸ hT)]
    omega

theorem has_zero (T : IntType) : T.Has 0 := by
  have hle := T.le_max
  refine ⟨?_, by omega⟩
  cases h : T.signed with
  | true =>
    rw [min_of_signed h]
    omega
  | false => rw [min_of_unsigned h]

theorem has_max (T : IntType) : T.Has T.max := ⟨by have := T.has_zero.1; have := T.le_max; omega, Int.le_refl _⟩

theorem has_min (T : IntType) : T.Has T.min := ⟨Int.le_refl _, by have := T.has_zero.1; have := T.le_max; omega⟩

/-! ## Conversions -/

theorem two_pow_width_of_signed (h : T.signed = true) : (2 : Int) ^ T.width = 2 * (T.max + 1) := by
  obtain ⟨signed, width, hw⟩ := T
  obtain rfl : signed = true := h
  rcases hw with rfl | rfl | rfl | rfl <;> decide

theorem two_pow_width_of_unsigned (h : T.signed = false) : (2 : Int) ^ T.width = T.max + 1 := by
  rw [max, h]
  simp

theorem has_cast (T : IntType) (x : Int) : T.Has (T.cast x) := by
  have hle := T.le_max
  cases h : T.signed with
  | true =>
    have hpow := two_pow_width_of_signed h
    have hpos : 0 < 2 ^ T.width := Nat.two_pow_pos _
    have hlow := Int.le_bmod hpos (x := x)
    have hhigh := Int.bmod_lt hpos (x := x)
    rw [Has, min_of_signed h, cast, if_pos h]
    push_cast at hlow hhigh
    omega
  | false =>
    have hpow := two_pow_width_of_unsigned h
    rw [Has, min_of_unsigned h, cast, h, if_neg Bool.false_ne_true, hpow]
    have := Int.emod_nonneg x (show T.max + 1 ≠ 0 by omega)
    have := Int.emod_lt_of_pos x (show 0 < T.max + 1 by omega)
    omega

/-- Values of the type are kept. -/
theorem cast_of_has (h : T.Has x) : T.cast x = x := by
  have hle := T.le_max
  obtain ⟨hlow, hhigh⟩ := h
  cases hT : T.signed with
  | true =>
    have hpow := two_pow_width_of_signed hT
    rw [min_of_signed hT] at hlow
    rw [cast, if_pos hT]
    apply Int.bmod_eq_of_le <;> push_cast <;> omega
  | false =>
    have hpow := two_pow_width_of_unsigned hT
    rw [min_of_unsigned hT] at hlow
    rw [cast, hT, if_neg Bool.false_ne_true]
    exact Int.emod_eq_of_lt hlow (by omega)

theorem cast_eq_self_iff : T.cast x = x ↔ T.Has x := ⟨fun h => h ▸ T.has_cast x, cast_of_has⟩

/-- Converting twice is converting once, when the first type is no narrower. -/
theorem cast_cast_of_unsigned (hT : T.signed = false) (hU : U.signed = false) (hwidth : T.width ≤ U.width) (x : Int) :
    T.cast (U.cast x) = T.cast x := by
  rw [cast, cast, cast, hT, hU, if_neg Bool.false_ne_true, if_neg Bool.false_ne_true]
  exact Int.emod_emod_of_dvd x (pow_dvd_pow 2 hwidth)

section Unsigned

variable (hT : T.signed = false)
include hT

theorem cast_of_unsigned (x : Int) : T.cast x = x % (T.max + 1) := by
  rw [cast, hT, if_neg Bool.false_ne_true, two_pow_width_of_unsigned hT]

theorem cast_bounds (x : Int) : 0 ≤ T.cast x ∧ T.cast x ≤ T.max := by
  rw [← min_of_unsigned hT]
  exact T.has_cast x

/-- A sum is at most one turn too large. -/
theorem cast_add (hx : 0 ≤ x ∧ x ≤ T.max) (y : Int) :
    T.cast (x + y) = if x + T.cast y ≤ T.max then x + T.cast y else x + T.cast y - (T.max + 1) := by
  obtain ⟨hlow, hhigh⟩ := cast_bounds hT y
  have hsum : T.cast (x + y) = (x + T.cast y) % (T.max + 1) := by
    rw [cast_of_unsigned hT, cast_of_unsigned hT, Int.add_emod_emod]
  rw [hsum]
  split_ifs with h
  · exact Int.emod_eq_of_lt (by omega) (by omega)
  · rw [← Int.sub_emod_right]
    exact Int.emod_eq_of_lt (by omega) (by omega)

/-- A difference is at most one turn too small. -/
theorem cast_sub (hx : 0 ≤ x ∧ x ≤ T.max) (y : Int) :
    T.cast (x - y) = if T.cast y ≤ x then x - T.cast y else x - T.cast y + (T.max + 1) := by
  obtain ⟨hlow, hhigh⟩ := cast_bounds hT y
  have hdifference : T.cast (x - y) = (x - T.cast y) % (T.max + 1) := by
    rw [cast_of_unsigned hT, cast_of_unsigned hT, Int.sub_emod_emod]
  rw [hdifference]
  split_ifs with h
  · exact Int.emod_eq_of_lt (by omega) (by omega)
  · rw [← Int.add_emod_right]
    exact Int.emod_eq_of_lt (by omega) (by omega)

end Unsigned

/-! ## The common type -/

theorem common_covers (h : T.signed = U.signed) :
    (common T U).min ≤ T.min ∧ T.max ≤ (common T U).max ∧ (common T U).min ≤ U.min ∧ U.max ≤ (common T U).max := by
  obtain ⟨signed, width, hw⟩ := T
  obtain ⟨signed', width', hw'⟩ := U
  obtain rfl : signed = signed' := h
  rcases hw with rfl | rfl | rfl | rfl <;> rcases hw' with rfl | rfl | rfl | rfl <;> cases signed <;> decide

theorem Has.common_left (hx : T.Has x) (h : T.signed = U.signed) : (common T U).Has x := by
  obtain ⟨hmin, hmax, -, -⟩ := common_covers h
  exact ⟨Int.le_trans hmin hx.1, Int.le_trans hx.2 hmax⟩

theorem Has.common_right (hx : U.Has x) (h : T.signed = U.signed) : (common T U).Has x := by
  obtain ⟨-, -, hmin, hmax⟩ := common_covers h
  exact ⟨Int.le_trans hmin hx.1, Int.le_trans hx.2 hmax⟩

theorem common_covers_nonneg (T U : IntType) :
    (common T U).min ≤ 0 ∧ T.max ≤ (common T U).max ∧ U.max ≤ (common T U).max := by
  obtain ⟨signed, width, hw⟩ := T
  obtain ⟨signed', width', hw'⟩ := U
  rcases hw with rfl | rfl | rfl | rfl <;> rcases hw' with rfl | rfl | rfl | rfl <;> cases signed <;> cases signed' <;>
    decide

/-- What is between values of the two types is a value of the common type. -/
theorem has_common (h : T.signed = U.signed) (hlow : T.min ≤ x ∨ U.min ≤ x) (hhigh : x ≤ T.max ∨ x ≤ U.max) :
    (common T U).Has x := by
  obtain ⟨hminT, hmaxT, hminU, hmaxU⟩ := common_covers h
  exact ⟨by omega, by omega⟩

theorem common_signed (hT : T.signed = true) (hU : U.signed = true) : (common T U).signed = true := by
  obtain ⟨signed, width, hw⟩ := T
  obtain ⟨signed', width', hw'⟩ := U
  obtain rfl : signed = true := hT
  obtain rfl : signed' = true := hU
  rcases hw with rfl | rfl | rfl | rfl <;> rcases hw' with rfl | rfl | rfl | rfl <;> rfl

/-- Promotion keeps a signed type, or makes it `int`. -/
theorem promote_of_signed (hT : T.signed = true) : T.promote.signed = true ∧ T.max ≤ T.promote.max ∧
    (T.width < 32 → T.max < T.promote.max) ∧ (32 ≤ T.width → T.promote = T) := by
  obtain ⟨signed, width, hw⟩ := T
  obtain rfl : signed = true := hT
  rcases hw with rfl | rfl | rfl | rfl <;> decide

theorem common_of_unsigned (hT : T.signed = false) (hU : U.signed = false) :
    (T.width < 32 ∧ U.width < 32 ∧ common T U = int) ∨
      ((common T U).signed = false ∧ T.width ≤ (common T U).width ∧ U.width ≤ (common T U).width) := by
  obtain ⟨signed, width, hw⟩ := T
  obtain ⟨signed', width', hw'⟩ := U
  obtain rfl : signed = false := hT
  obtain rfl : signed' = false := hU
  rcases hw with rfl | rfl | rfl | rfl <;> rcases hw' with rfl | rfl | rfl | rfl <;> decide

end IntType

structure CInt where
  type : IntType
  value : Int

namespace CInt

open IntType

def Valid (a : CInt) : Prop := a.type.Has a.value

/-- `static_cast<T>(a)`. -/
def convert (T : IntType) (a : CInt) : CInt := ⟨T, T.cast a.value⟩

def binary (f : Int → Int → Int) (a b : CInt) : Option CInt :=
  let T := common a.type b.type
  (T.arith (f (T.cast a.value) (T.cast b.value))).map (CInt.mk T)

def add (a b : CInt) : Option CInt := binary (· + ·) a b
def sub (a b : CInt) : Option CInt := binary (· - ·) a b
def mul (a b : CInt) : Option CInt := binary (· * ·) a b

/-- Division, which is not defined by 0. -/
def div (a b : CInt) : Option CInt :=
  if (common a.type b.type).cast b.value = 0 then none else binary Int.tdiv a b

def neg (a : CInt) : Option CInt := (a.type.promote.arith (-a.type.promote.cast a.value)).map (CInt.mk a.type.promote)

def lt (a b : CInt) : Bool :=
  let T := common a.type b.type
  T.cast a.value < T.cast b.value

def le (a b : CInt) : Bool :=
  let T := common a.type b.type
  T.cast a.value ≤ T.cast b.value

/-! ## Operands of one signedness -/

section SameSignedness

variable {T U : IntType} {x y : Int} {f : Int → Int → Int}
variable (hx : T.Has x) (hy : U.Has y) (h : T.signed = U.signed)
include hx hy h

theorem lt_eq : lt ⟨T, x⟩ ⟨U, y⟩ = decide (x < y) := by
  rw [lt, cast_of_has (hx.common_left h), cast_of_has (hy.common_right h)]

theorem le_eq : le ⟨T, x⟩ ⟨U, y⟩ = decide (x ≤ y) := by
  rw [le, cast_of_has (hx.common_left h), cast_of_has (hy.common_right h)]

/-- **An operation whose result is in the common type.** -/
theorem binary_eq (hresult : (common T U).Has (f x y)) : binary f ⟨T, x⟩ ⟨U, y⟩ = some ⟨common T U, f x y⟩ := by
  rw [binary, cast_of_has (hx.common_left h), cast_of_has (hy.common_right h), arith, if_pos hresult,
    cast_of_has hresult, ite_self]
  rfl

theorem div_eq (hzero : y ≠ 0) (hresult : (common T U).Has (x.tdiv y)) :
    div ⟨T, x⟩ ⟨U, y⟩ = some ⟨common T U, x.tdiv y⟩ := by
  rw [div, cast_of_has (hy.common_right h), if_neg hzero]
  exact binary_eq hx hy h hresult

/-- **An operation on unsigned operands**, converted to one of their types. -/
theorem exists_binary_unsigned {R : IntType} (hsigned : T.signed = false) (hR : R = T ∨ R = U)
    (hint : T.width < 32 → U.width < 32 → int.Has (f x y)) :
    ∃ c, binary f ⟨T, x⟩ ⟨U, y⟩ = some c ∧ R.cast c.value = R.cast (f x y) := by
  have hsigned' : U.signed = false := h ▸ hsigned
  rcases common_of_unsigned hsigned hsigned' with ⟨hwidth, hwidth', hcommon⟩ | ⟨hunsigned, hwidth, hwidth'⟩
  · have hresult : (common T U).Has (f x y) := hcommon ▸ hint hwidth hwidth'
    exact ⟨_, binary_eq hx hy h hresult, rfl⟩
  · refine ⟨⟨common T U, (common T U).cast (f x y)⟩, ?_, ?_⟩
    · rw [binary, cast_of_has (hx.common_left h), cast_of_has (hy.common_right h), arith, hunsigned,
        if_neg Bool.false_ne_true]
      rfl
    · rcases hR with rfl | rfl
      · exact cast_cast_of_unsigned hsigned hunsigned hwidth _
      · exact cast_cast_of_unsigned hsigned' hunsigned hwidth' _

end SameSignedness

/-- The negation of a number that is not the least one of a type that is not promoted. -/
theorem has_promote_neg {T : IntType} {x : Int} (hx : T.Has x) (hsigned : T.signed = true)
    (h : ¬ (x = T.min ∧ 32 ≤ T.width)) : T.promote.Has (-x) := by
  obtain ⟨hpromote, hmax, hsmall, hlarge⟩ := promote_of_signed hsigned
  have hmin := min_of_signed hsigned
  have hmin' := min_of_signed hpromote
  obtain ⟨hlow, hhigh⟩ := hx
  by_cases hwidth : 32 ≤ T.width
  · rw [hlarge hwidth]
    exact ⟨by omega, by omega⟩
  · have := hsmall (by omega)
    exact ⟨by omega, by omega⟩

/-- The comparison of values that are not negative. -/
theorem lt_eq_of_nonneg {T U : IntType} {x y : Int} (hx : T.Has x) (hy : U.Has y) (hx0 : 0 ≤ x) (hy0 : 0 ≤ y) :
    lt ⟨T, x⟩ ⟨U, y⟩ = decide (x < y) := by
  obtain ⟨hmin, hmaxT, hmaxU⟩ := common_covers_nonneg T U
  have hx' := hx.2
  have hy' := hy.2
  have hcommonx : (common T U).Has x := ⟨by omega, by omega⟩
  have hcommony : (common T U).Has y := ⟨by omega, by omega⟩
  rw [lt, cast_of_has hcommonx, cast_of_has hcommony]

/-- **A negation**, which is not defined for the least number of a type that is not promoted. -/
theorem neg_of_signed {T : IntType} {x : Int} (hx : T.Has x) (hsigned : T.signed = true) :
    neg ⟨T, x⟩ = if x = T.min ∧ 32 ≤ T.width then none else some ⟨T.promote, -x⟩ := by
  obtain ⟨hpromote, hmax, -, hlarge⟩ := promote_of_signed hsigned
  have hmin := min_of_signed hsigned
  have hmin' := min_of_signed hpromote
  have hhas : T.promote.Has x := ⟨by have := hx.1; omega, by have := hx.2; omega⟩
  rw [neg, cast_of_has hhas, arith, if_pos hpromote]
  by_cases h : x = T.min ∧ 32 ≤ T.width
  · have hnot : ¬ T.promote.Has (-x) := by
      rw [hlarge h.2]
      rintro ⟨-, hle⟩
      omega
    rw [if_neg hnot, if_pos h]
    rfl
  · rw [if_pos (has_promote_neg hx hsigned h), if_neg h]
    rfl

end CInt

end WebKit.Lib
