import WebKit.Lib.Truncation
import WebKit.WebCore.LayoutUnit

/-!
# The arithmetic of layout units is that of the rationals

A layout unit stands for the rational number `value`. An `Operation` is one of the functions with its arguments;
`exact` is what it stands for, and `Kind.rounded` how that is made a number of the code. `operation_iff` says when the
code rounds the exact result: always but for two slips of the constructors, that for an `unsigned` taking one value too
many for one that overflows, and those for longer types losing the high bits of a product. What is rounded is monotone
(`rounded_mono`).

`remainder_iff` is about the two remainder functions: `intMod` keeps its law, and `%` keeps its one only where nothing
is cut off from the remainder.
-/

namespace WebKit.WebCore.LayoutUnit

open Truncation

/-- The number of pixels. -/
def value (a : LayoutUnit) : ℚ := a.rawValue.toInt / 64

theorem ext_toInt {a b : LayoutUnit} (h : a.rawValue.toInt = b.rawValue.toInt) : a = b := by
  obtain ⟨rawValue⟩ := a
  obtain ⟨rawValue'⟩ := b
  exact congrArg LayoutUnit.mk (Int32.toInt_inj.1 h)

/-! ## Operations -/

inductive Kind
  | add | subtract | multiply | divide
  | ofInt | ofUnsigned | ofUnsignedLong | ofUnsignedLong32 | ofUnsignedLongLong
  | floor | ceil | round
  deriving DecidableEq

/-- The constructors from numbers of whole pixels. -/
def Kind.constructs : Kind → Bool
  | .ofInt | .ofUnsigned | .ofUnsignedLong | .ofUnsignedLong32 | .ofUnsignedLongLong => true
  | _ => false

/-- How an exact result becomes a number: a raw value, or a number of whole pixels. -/
def Kind.rounded : Kind → ℚ → Int
  | .floor, q => clampPixels ⌊q⌋
  | .ceil, q => clampPixels ⌈q⌉
  | .round, q => clampPixels ⌊q + 1 / 2⌋
  | _, q => clampRaw (towardZero (64 * q))

inductive Operation
  | add (a b : LayoutUnit)
  | subtract (a b : LayoutUnit)
  | multiply (a b : LayoutUnit)
  | divide (a b : LayoutUnit) (hb : b.rawValue ≠ 0)
  | ofInt (value : Int32)
  | ofUnsigned (value : UInt32)
  | ofUnsignedLong (value : UInt64)
  | ofUnsignedLong32 (value : UInt32)
  | ofUnsignedLongLong (value : UInt64)
  | floor (a : LayoutUnit)
  | ceil (a : LayoutUnit)
  | round (a : LayoutUnit)

namespace Operation

def kind : Operation → Kind
  | .add .. => .add
  | .subtract .. => .subtract
  | .multiply .. => .multiply
  | .divide .. => .divide
  | .ofInt _ => .ofInt
  | .ofUnsigned _ => .ofUnsigned
  | .ofUnsignedLong _ => .ofUnsignedLong
  | .ofUnsignedLong32 _ => .ofUnsignedLong32
  | .ofUnsignedLongLong _ => .ofUnsignedLongLong
  | .floor _ => .floor
  | .ceil _ => .ceil
  | .round _ => .round

/-- What the code returns: the raw value of a unit, or an `int`. -/
def result : Operation → Int
  | .add a b => (a + b).rawValue.toInt
  | .subtract a b => (a - b).rawValue.toInt
  | .multiply a b => (a * b).rawValue.toInt
  | .divide a b _ => (a / b).rawValue.toInt
  | .ofInt value => (LayoutUnit.ofInt value).rawValue.toInt
  | .ofUnsigned value => (LayoutUnit.ofUnsigned value).rawValue.toInt
  | .ofUnsignedLong value => (LayoutUnit.ofUnsignedLong value).rawValue.toInt
  | .ofUnsignedLong32 value => (LayoutUnit.ofUnsignedLong32 value).rawValue.toInt
  | .ofUnsignedLongLong value => (LayoutUnit.ofUnsignedLongLong value).rawValue.toInt
  | .floor a => a.floor.toInt
  | .ceil a => a.ceil.toInt
  | .round a => a.round.toInt

/-- The number that the operation is about. -/
def exact : Operation → ℚ
  | .add a b => a.value + b.value
  | .subtract a b => a.value - b.value
  | .multiply a b => a.value * b.value
  | .divide a b _ => a.value / b.value
  | .ofInt value => value.toInt
  | .ofUnsigned value => value.toNat
  | .ofUnsignedLong value => value.toNat
  | .ofUnsignedLong32 value => value.toNat
  | .ofUnsignedLongLong value => value.toNat
  | .floor a => a.value
  | .ceil a => a.value
  | .round a => a.value

/-- The product with 64 wraps in the type, and what is left of it is no longer too large. -/
def Wraps (bits value : Nat) : Prop := 2 ^ bits ≤ 64 * value ∧ 64 * value % 2 ^ bits < 2147483647

instance (bits value : Nat) : Decidable (Wraps bits value) := inferInstanceAs (Decidable (_ ∧ _))

/-- The arguments are not those that a constructor gets wrong. -/
def Condition : Operation → Prop
  | .ofUnsigned value => value ≠ intMaxForLayoutUnit.toUInt32
  | .ofUnsignedLong value => ¬Wraps 64 value.toNat
  | .ofUnsignedLong32 value => ¬Wraps 32 value.toNat
  | .ofUnsignedLongLong value => ¬Wraps 64 value.toNat
  | _ => True

end Operation

/-! ## Exactness -/

theorem value_ne_zero {b : LayoutUnit} (hb : b.rawValue ≠ 0) : b.rawValue.toInt ≠ 0 :=
  fun h => hb (Int32.toInt_inj.1 h)

theorem towardZero_raw {q : ℚ} {x : Int} (h : 64 * q = x) : towardZero (64 * q) = x := by
  rw [h, towardZero_intCast]

theorem floor_value (a : LayoutUnit) : ⌊a.value⌋ = a.rawValue.toInt / 64 :=
  Rat.floor_intCast_div_natCast a.rawValue.toInt 64

theorem ceil_value (a : LayoutUnit) : ⌈a.value⌉ = -(-a.rawValue.toInt / 64) := by
  have h : a.value = -((-a.rawValue.toInt : Int) / (64 : Nat) : ℚ) := by
    unfold value
    push_cast
    ring
  rw [h, Int.ceil_neg, Rat.floor_intCast_div_natCast]
  rfl

theorem floor_value_add_half (a : LayoutUnit) : ⌊a.value + 1 / 2⌋ = (a.rawValue.toInt + 32) / 64 := by
  have h : a.value + 1 / 2 = ((a.rawValue.toInt + 32 : Int) / (64 : Nat) : ℚ) := by
    unfold value
    push_cast
    ring
  rw [h, Rat.floor_intCast_div_natCast]
  rfl

theorem multiply_exact (a b : LayoutUnit) :
    towardZero (64 * (a.value * b.value)) = (a.rawValue.toInt * b.rawValue.toInt).tdiv 64 := by
  have h : 64 * (a.value * b.value) = ((a.rawValue.toInt * b.rawValue.toInt : Int) / (64 : Int) : ℚ) := by
    unfold value
    push_cast
    ring
  rw [h, towardZero_div (by decide)]

theorem divide_exact (a : LayoutUnit) {b : LayoutUnit} (hb : b.rawValue ≠ 0) :
    towardZero (64 * (a.value / b.value)) = (64 * a.rawValue.toInt).tdiv b.rawValue.toInt := by
  have hb' : (b.rawValue.toInt : ℚ) ≠ 0 := Int.cast_ne_zero.2 (value_ne_zero hb)
  have h : 64 * (a.value / b.value) = ((64 * a.rawValue.toInt : Int) / b.rawValue.toInt : ℚ) := by
    unfold value
    push_cast
    field_simp
  rw [h, towardZero_div (value_ne_zero hb)]

theorem ofProduct_iff (bits value : Nat) (hbits : 2 ^ 32 ≤ 2 ^ bits) :
    (ofProduct bits value).rawValue.toInt = clampRaw (64 * (value : Int)) ↔ ¬Operation.Wraps bits value := by
  rw [rawValue_ofProduct]
  unfold clampRaw Operation.Wraps
  rcases Nat.lt_or_ge (64 * value) (2 ^ bits) with hlt | hge
  · rw [Nat.mod_eq_of_lt hlt]
    push_cast
    exact ⟨fun _ h => absurd h.1 (by omega), fun _ => rfl⟩
  · generalize 64 * value % 2 ^ bits = product
    omega

theorem ofUnsigned_iff (value : UInt32) :
    (ofUnsigned value).rawValue.toInt = clampRaw (64 * (value.toNat : Int)) ↔ value ≠ intMaxForLayoutUnit.toUInt32 := by
  have hmax : value = intMaxForLayoutUnit.toUInt32 ↔ value.toNat = 33554431 := UInt32.toNat_inj.symm
  rw [rawValue_ofUnsigned, ne_eq, hmax]
  unfold clampRaw
  split_ifs <;> omega

/-- **The code rounds the exact result** if and only if the arguments are not those of the two slips. -/
theorem result_eq_iff (op : Operation) : op.result = op.kind.rounded op.exact ↔ op.Condition := by
  have hcast (n : Nat) : towardZero (64 * (n : ℚ)) = 64 * (n : Int) := towardZero_raw (by push_cast; rfl)
  cases op with
  | add a b =>
    refine iff_of_true ?_ trivial
    show (a + b).rawValue.toInt = clampRaw (towardZero (64 * (a.value + b.value)))
    rw [rawValue_add, towardZero_raw]
    unfold value
    push_cast
    ring
  | subtract a b =>
    refine iff_of_true ?_ trivial
    show (a - b).rawValue.toInt = clampRaw (towardZero (64 * (a.value - b.value)))
    rw [rawValue_sub, towardZero_raw]
    unfold value
    push_cast
    ring
  | multiply a b =>
    refine iff_of_true ?_ trivial
    show (a * b).rawValue.toInt = clampRaw (towardZero (64 * (a.value * b.value)))
    rw [rawValue_mul, multiply_exact]
  | divide a b hb =>
    refine iff_of_true ?_ trivial
    show (a / b).rawValue.toInt = clampRaw (towardZero (64 * (a.value / b.value)))
    rw [rawValue_div, divide_exact a hb]
  | ofInt value =>
    refine iff_of_true ?_ trivial
    show (LayoutUnit.ofInt value).rawValue.toInt = clampRaw (towardZero (64 * (value.toInt : ℚ)))
    rw [rawValue_ofInt, towardZero_raw]
    push_cast
    rfl
  | ofUnsigned value =>
    show (LayoutUnit.ofUnsigned value).rawValue.toInt = clampRaw (towardZero (64 * (value.toNat : ℚ))) ↔ _
    rw [hcast]
    exact ofUnsigned_iff value
  | ofUnsignedLong value =>
    show (ofProduct 64 value.toNat).rawValue.toInt = clampRaw (towardZero (64 * (value.toNat : ℚ))) ↔ _
    rw [hcast]
    exact ofProduct_iff 64 value.toNat (by decide)
  | ofUnsignedLong32 value =>
    show (ofProduct 32 value.toNat).rawValue.toInt = clampRaw (towardZero (64 * (value.toNat : ℚ))) ↔ _
    rw [hcast]
    exact ofProduct_iff 32 value.toNat (by decide)
  | ofUnsignedLongLong value =>
    show (ofProduct 64 value.toNat).rawValue.toInt = clampRaw (towardZero (64 * (value.toNat : ℚ))) ↔ _
    rw [hcast]
    exact ofProduct_iff 64 value.toNat (by decide)
  | floor a =>
    refine iff_of_true ?_ trivial
    show a.floor.toInt = clampPixels ⌊a.value⌋
    rw [toInt_floor, floor_value]
  | ceil a =>
    refine iff_of_true ?_ trivial
    show a.ceil.toInt = clampPixels ⌈a.value⌉
    rw [toInt_ceil, ceil_value]
  | round a =>
    refine iff_of_true ?_ trivial
    show a.round.toInt = clampPixels ⌊a.value + 1 / 2⌋
    rw [toInt_round, floor_value_add_half]

/-! ## Monotonicity -/

theorem rounded_mono (kind : Kind) {q q' : ℚ} (h : q ≤ q') : kind.rounded q ≤ kind.rounded q' := by
  have hraw : clampRaw (towardZero (64 * q)) ≤ clampRaw (towardZero (64 * q')) :=
    clampRaw_mono (towardZero_mono (by linarith))
  cases kind with
  | floor => exact clampPixels_mono (Int.floor_mono h)
  | ceil => exact clampPixels_mono (Int.ceil_mono h)
  | round => exact clampPixels_mono (Int.floor_mono (by linarith))
  | _ => exact hraw

theorem rounded_of_constructs {kind kind' : Kind} (h : kind.constructs = true) (h' : kind'.constructs = true) (q : ℚ) :
    kind.rounded q = kind'.rounded q := by
  have hraw : ∀ kind : Kind, kind.constructs = true → kind.rounded q = clampRaw (towardZero (64 * q)) := by
    intro kind hkind
    cases kind <;> first | rfl | exact absurd hkind (by decide)
  rw [hraw kind h, hraw kind' h']

/-- **The operations give the exact results, rounded and clamped,** if and only if a constructor is not given the
largest number of pixels as an `unsigned`, nor a number whose product wraps to one in range; and then they are monotone
wherever the exact operations are, and equal numbers of all types make equal units. -/
theorem operation_iff (op op' : Operation) :
    (op.result = op.kind.rounded op.exact ↔ op.Condition) ∧
      (op.Condition → op'.Condition →
        (op.kind = op'.kind → op.exact ≤ op'.exact → op.result ≤ op'.result) ∧
          (op.kind.constructs = true → op'.kind.constructs = true → op.exact = op'.exact →
            op.result = op'.result)) := by
  refine ⟨result_eq_iff op, fun h h' => ⟨fun hkind hle => ?_, fun hc hc' heq => ?_⟩⟩
  · rw [(result_eq_iff op).2 h, (result_eq_iff op').2 h', hkind]
    exact rounded_mono op'.kind hle
  · rw [(result_eq_iff op).2 h, (result_eq_iff op').2 h', heq]
    exact rounded_of_constructs hc hc' _

/-- An `unsigned` and an `int` of one value make different units. -/
theorem ofUnsigned_too_large :
    (Operation.ofUnsigned 33554431).result ≠ Kind.ofUnsigned.rounded (Operation.ofUnsigned 33554431).exact ∧
      (Operation.ofInt 33554431).result = Kind.ofInt.rounded (Operation.ofInt 33554431).exact ∧
      (Operation.ofUnsigned 33554431).exact = (Operation.ofInt 33554431).exact ∧
      (Operation.ofUnsigned 33554431).result ≠ (Operation.ofInt 33554431).result :=
  ⟨fun h => (result_eq_iff _).1 h rfl, (result_eq_iff _).2 trivial, rfl, by decide⟩

/-! ## Remainders -/

section Remainder

variable {a b : LayoutUnit}

/-- Every function that saturates is exact, in the order of the two laws. -/
structure NoStepSaturates (a b : LayoutUnit) : Prop where
  quotient : (a / b).rawValue.toInt = (64 * a.rawValue.toInt).tdiv b.rawValue.toInt
  product : (a / b * b).rawValue.toInt = ((a / b).rawValue.toInt * b.rawValue.toInt).tdiv 64
  sum : (a / b * b + a % b).rawValue.toInt = (a / b * b).rawValue.toInt + (a % b).rawValue.toInt
  intQuotient : (LayoutUnit.ofInt (a / b).toInt).rawValue.toInt = 64 * (a / b).toInt.toInt
  intProduct : (LayoutUnit.ofInt (a / b).toInt * b).rawValue.toInt =
    ((LayoutUnit.ofInt (a / b).toInt).rawValue.toInt * b.rawValue.toInt).tdiv 64
  intSum : (LayoutUnit.ofInt (a / b).toInt * b + intMod a b).rawValue.toInt =
    (LayoutUnit.ofInt (a / b).toInt * b).rawValue.toInt + (intMod a b).rawValue.toInt

/-- Whole parts of a number and of a smaller one of its sign add up if and only if the smaller one has no other part. -/
theorem tdiv_sub_add_tdiv {x r : Int} (h : 0 ≤ r ∧ r ≤ 64 * x ∨ r ≤ 0 ∧ 64 * x ≤ r) :
    (64 * x - r).tdiv 64 + r.tdiv 64 = x ↔ 64 ∣ r := by
  rw [tdiv_64, tdiv_64]
  split_ifs <;> omega

/-- A remainder is no larger than the number, and has its sign. -/
theorem tmod_between (x y : Int) : 0 ≤ x.tmod y ∧ x.tmod y ≤ x ∨ x.tmod y ≤ 0 ∧ x ≤ x.tmod y := by
  have hle : (x.tmod y).natAbs ≤ x.natAbs := by
    rw [Int.natAbs_tmod]
    exact Nat.mod_le _ _
  rcases Int.le_total 0 x with hx | hx
  · have := Int.tmod_nonneg y hx
    omega
  · have := Int.tmod_nonneg y (show 0 ≤ -x by omega)
    rw [Int.neg_tmod] at this
    omega

/-- The law of `%`, for the quotient that is a layout unit. -/
theorem div_mul_add_mod_iff (h : NoStepSaturates a b) :
    a / b * b + a % b = a ↔ 64 ∣ (64 * a.rawValue.toInt).tmod b.rawValue.toInt := by
  have hdivision := Int.tmod_add_tdiv_mul (64 * a.rawValue.toInt) b.rawValue.toInt
  have hraw : (a / b * b + a % b).rawValue.toInt =
      (64 * a.rawValue.toInt - (64 * a.rawValue.toInt).tmod b.rawValue.toInt).tdiv 64 +
        ((64 * a.rawValue.toInt).tmod b.rawValue.toInt).tdiv 64 := by
    rw [h.sum, h.product, h.quotient, rawValue_mod]
    congr 2
    omega
  rw [← tdiv_sub_add_tdiv (tmod_between _ _), ← hraw]
  exact ⟨fun heq => by rw [heq], ext_toInt⟩

/-- The law of `intMod`, for the quotient that is an `int`. -/
theorem ofInt_mul_add_intMod (hb : b.rawValue ≠ 0) (h : NoStepSaturates a b) :
    LayoutUnit.ofInt (a / b).toInt * b + intMod a b = a := by
  have hquotient : (a / b).toInt.toInt = a.rawValue.toInt.tdiv b.rawValue.toInt := by
    rw [toInt_toInt, h.quotient, Int.mul_comm]
    exact tdiv_tdiv_of_ne (value_ne_zero hb) (by decide) a.rawValue.toInt
  apply ext_toInt
  rw [h.intSum, h.intProduct, h.intQuotient, hquotient, rawValue_intMod, Int.mul_assoc,
    Int.mul_tdiv_cancel_left _ (by decide), Int.tdiv_mul_add_tmod]

theorem value_nonneg : 0 ≤ a.value ↔ 0 ≤ a.rawValue.toInt := by
  unfold value
  rw [le_div_iff₀ (by norm_num), zero_mul]
  exact_mod_cast Iff.rfl

theorem value_nonpos : a.value ≤ 0 ↔ a.rawValue.toInt ≤ 0 := by
  unfold value
  rw [div_le_iff₀ (by norm_num), zero_mul]
  exact_mod_cast Iff.rfl

/-- The remainder is smaller than the divisor. -/
theorem abs_intMod_lt (hb : b.rawValue ≠ 0) : |(intMod a b).value| < |b.value| := by
  have hlt : |a.rawValue.toInt.tmod b.rawValue.toInt| < |b.rawValue.toInt| := by
    rw [Int.abs_eq_natAbs, Int.abs_eq_natAbs, Int.natAbs_tmod]
    exact_mod_cast Nat.mod_lt _ (Int.natAbs_pos.2 (value_ne_zero hb))
  unfold value
  rw [abs_div, abs_div, rawValue_intMod]
  exact div_lt_div_of_pos_right (by exact_mod_cast hlt) (by norm_num)

/-- **`intMod` keeps its law, and `%` keeps its law exactly where the remainder of 64 times the dividend is a multiple
of 64**; the former has the sign of the dividend and is smaller than the divisor. -/
theorem remainder_iff (a b : LayoutUnit) (hb : b.rawValue ≠ 0) (h : NoStepSaturates a b) :
    (a / b * b + a % b = a ∧ LayoutUnit.ofInt (a / b).toInt * b + intMod a b = a ∧
        |(intMod a b).value| < |b.value| ∧ (0 ≤ a.value → 0 ≤ (intMod a b).value) ∧
          (a.value ≤ 0 → (intMod a b).value ≤ 0)) ↔
      64 ∣ (64 * a.rawValue.toInt).tmod b.rawValue.toInt := by
  rw [value_nonneg, value_nonpos, value_nonneg, value_nonpos, rawValue_intMod]
  have hbetween := tmod_between a.rawValue.toInt b.rawValue.toInt
  constructor
  · rintro ⟨hlaw, -⟩
    exact (div_mul_add_mod_iff h).1 hlaw
  · intro hdvd
    exact ⟨(div_mul_add_mod_iff h).2 hdvd, ofInt_mul_add_intMod hb h, abs_intMod_lt hb, by omega, by omega⟩

/-- Half a pixel and a quarter of one. -/
theorem remainder_half_quarter :
    (⟨32⟩ / ⟨16⟩ * ⟨16⟩ + ⟨32⟩ % ⟨16⟩ : LayoutUnit) = ⟨32⟩ ∧
      LayoutUnit.ofInt (⟨32⟩ / ⟨16⟩ : LayoutUnit).toInt * ⟨16⟩ + intMod ⟨32⟩ ⟨16⟩ = ⟨32⟩ :=
  have h := (remainder_iff ⟨32⟩ ⟨16⟩ (by decide) ⟨by decide, by decide, by decide, by decide, by decide, by decide⟩).2
    (by decide)
  ⟨h.1, h.2.1⟩

/-- The quotient of 1/64 and 3/64 is cut to 21/64, and its product with 3/64 and the remainder are both cut to 0. -/
theorem div_mul_add_mod_ne :
    NoStepSaturates ⟨1⟩ ⟨3⟩ ∧ (⟨1⟩ / ⟨3⟩ * ⟨3⟩ + ⟨1⟩ % ⟨3⟩ : LayoutUnit) = ⟨0⟩ ∧
      (⟨1⟩ / ⟨3⟩ * ⟨3⟩ + ⟨1⟩ % ⟨3⟩ : LayoutUnit) ≠ ⟨1⟩ :=
  ⟨⟨by decide, by decide, by decide, by decide, by decide, by decide⟩, by decide, by decide⟩

end Remainder

end WebKit.WebCore.LayoutUnit
