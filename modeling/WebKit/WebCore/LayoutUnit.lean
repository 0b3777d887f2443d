import Mathlib.Algebra.Order.Ring.Int
import Mathlib.Algebra.Order.Ring.Nat
import Mathlib.Data.Nat.Log

/-!
# Layout units

A `LayoutUnit` counts 64ths of a pixel in an `int`, with `ENABLE(SATURATED_LAYOUT_ARITHMETIC)`. What each function makes
of the raw values is said in the integers: `toInt_saturatedAddition`, `toInt_saturatedSubtraction`,
`toInt_boundedMultiply` and `rawValue_div` saturate the exact result, `toInt_floor`, `toInt_ceil` and `toInt_round` the
exact rounding, and `rawValue_ofInt` to `rawValue_ofUnsignedLong` say what the constructors do.
-/

namespace WebKit.WebCore

def INT_MAX : Int32 := 2147483647
def INT_MIN : Int32 := -2147483648

def saturatedAddition (a b : Int32) : Int32 :=
  let ua := a.toUInt32
  let ub := b.toUInt32
  let result := ua + ub
  let result :=
    if (if (ua ^^^ ub) >>> 31 = 0 then (1 : UInt32) else 0) &&& ((result ^^^ ua) >>> 31) ≠ 0 then
      INT_MAX.toUInt32 + (ua >>> 31)
    else result
  result.toInt32

def saturatedSubtraction (a b : Int32) : Int32 :=
  let ua := a.toUInt32
  let ub := b.toUInt32
  let result := ua - ub
  let result :=
    if ((ua ^^^ ub) >>> 31) &&& ((result ^^^ ua) >>> 31) ≠ 0 then INT_MAX.toUInt32 + (ua >>> 31) else result
  result.toInt32

/-- The conversion to `double` of a number that is not negative: 53 bits are kept, and ties go to the even one. -/
def toDouble (n : Nat) : Nat :=
  let unit := 2 ^ (n.log2 + 1 - 53)
  let rounded := if unit < 2 * (n % unit) ∨ unit = 2 * (n % unit) ∧ n / unit % 2 = 1 then n / unit + 1 else n / unit
  rounded * unit

/-- `clampTo<int>`, whose parameter is a `double`, of an integer. -/
def clampToInt (value : Int) : Int32 :=
  let value := value.sign * toDouble value.natAbs
  if INT_MAX.toInt ≤ value then INT_MAX
  else if value ≤ INT_MIN.toInt then INT_MIN
  else Int32.ofInt value

/-! ## `LayoutUnit.h` -/

def kFixedPointDenominator : Int32 := 64
def intMaxForLayoutUnit : Int32 := INT_MAX / kFixedPointDenominator
def intMinForLayoutUnit : Int32 := INT_MIN / kFixedPointDenominator

structure LayoutUnit where
  rawValue : Int32
  deriving DecidableEq, Repr

namespace LayoutUnit

/-- The constructor for an `int`. -/
def ofInt (value : Int32) : LayoutUnit :=
  if intMaxForLayoutUnit < value then ⟨INT_MAX⟩
  else if value < intMinForLayoutUnit then ⟨INT_MIN⟩
  else ⟨value * kFixedPointDenominator⟩

/-- The constructor for an `unsigned`. -/
def ofUnsigned (value : UInt32) : LayoutUnit :=
  if intMaxForLayoutUnit.toUInt32 ≤ value then ⟨INT_MAX⟩ else ⟨(value * kFixedPointDenominator.toUInt32).toInt32⟩

/-- The constructors that multiply in an unsigned type of `bits` bits before they clamp. -/
def ofProduct (bits value : Nat) : LayoutUnit :=
  ⟨clampToInt (Int.ofNat (value * kFixedPointDenominator.toUInt32.toNat % 2 ^ bits))⟩

/-- The constructor for an `unsigned long`, where that has 64 bits. -/
def ofUnsignedLong (value : UInt64) : LayoutUnit := ofProduct 64 value.toNat

/-- The constructor for an `unsigned long`, where that has 32 bits. -/
def ofUnsignedLong32 (value : UInt32) : LayoutUnit := ofProduct 32 value.toNat

/-- The constructor for an `unsigned long long`. -/
def ofUnsignedLongLong (value : UInt64) : LayoutUnit := ofProduct 64 value.toNat

def toInt (a : LayoutUnit) : Int32 := a.rawValue / kFixedPointDenominator

def ceil (a : LayoutUnit) : Int32 :=
  if INT_MAX - kFixedPointDenominator + 1 ≤ a.rawValue then intMaxForLayoutUnit
  else if 0 ≤ a.rawValue then (a.rawValue + kFixedPointDenominator - 1) / kFixedPointDenominator
  else a.toInt

def round (a : LayoutUnit) : Int32 :=
  if 0 < a.rawValue then saturatedAddition a.rawValue (kFixedPointDenominator / 2) / kFixedPointDenominator
  else saturatedSubtraction a.rawValue (kFixedPointDenominator / 2 - 1) / kFixedPointDenominator

def floor (a : LayoutUnit) : Int32 :=
  if a.rawValue ≤ INT_MIN + kFixedPointDenominator - 1 then intMinForLayoutUnit
  else if 0 ≤ a.rawValue then a.toInt
  else (a.rawValue - kFixedPointDenominator + 1) / kFixedPointDenominator

def fraction (a : LayoutUnit) : LayoutUnit := ⟨a.rawValue % kFixedPointDenominator⟩

def boundedMultiply (a b : LayoutUnit) : LayoutUnit :=
  let result := a.rawValue.toInt64 * b.rawValue.toInt64 / kFixedPointDenominator.toInt64
  let high := (result >>> 32).toInt32
  let low := result.toInt32
  let saturated := ((a.rawValue ^^^ b.rawValue).toUInt32 >>> 31) + INT_MAX.toUInt32
  let result := if high ≠ low >>> 31 then saturated.toUInt64.toInt64 else result
  ⟨result.toInt32⟩

instance : Add LayoutUnit := ⟨fun a b => ⟨saturatedAddition a.rawValue b.rawValue⟩⟩

instance : Sub LayoutUnit := ⟨fun a b => ⟨saturatedSubtraction a.rawValue b.rawValue⟩⟩

instance : Mul LayoutUnit := ⟨boundedMultiply⟩

/-- `rawVal` is a `long long`. -/
instance : Div LayoutUnit :=
  ⟨fun a b =>
    let rawVal := kFixedPointDenominator.toInt64 * a.rawValue.toInt64 / b.rawValue.toInt64
    ⟨clampToInt rawVal.toInt⟩⟩

/-- The remainder after a division with integer results. -/
def intMod (a b : LayoutUnit) : LayoutUnit := ⟨a.rawValue % b.rawValue⟩

instance : Mod LayoutUnit :=
  ⟨fun a b =>
    let rawVal := kFixedPointDenominator.toInt64 * a.rawValue.toInt64 % b.rawValue.toInt64
    ⟨(rawVal / kFixedPointDenominator.toInt64).toInt32⟩⟩

end LayoutUnit

/-! ## Saturation -/

/-- The nearest raw value. -/
def clampRaw (x : Int) : Int := max (-2147483648) (min x 2147483647)

/-- The nearest number of whole pixels. -/
def clampPixels (x : Int) : Int := max (-33554432) (min x 33554431)

theorem clampRaw_of_mem {x : Int} (hle : -2147483648 ≤ x) (hge : x ≤ 2147483647) : clampRaw x = x := by
  unfold clampRaw
  omega

theorem clampRaw_mono {x y : Int} (h : x ≤ y) : clampRaw x ≤ clampRaw y := by
  unfold clampRaw
  omega

theorem clampPixels_mono {x y : Int} (h : x ≤ y) : clampPixels x ≤ clampPixels y := by
  unfold clampPixels
  omega

/-- What is left of a number in 32 bits. -/
theorem bmod_cases (x : Int) (hle : -4294967296 ≤ x) (hlt : x < 4294967296) :
    x.bmod (2 ^ 32) = if x < -2147483648 then x + 4294967296 else if 2147483647 < x then x - 4294967296 else x := by
  rw [Int.bmod_def]
  show (if x % 4294967296 < (4294967296 + 1) / 2 then x % 4294967296 else x % 4294967296 - 4294967296) = _
  split_ifs <;> omega

theorem bmod_of_mem {x : Int} (hle : -2147483648 ≤ x) (hge : x ≤ 2147483647) : x.bmod (2 ^ 32) = x := by
  rw [bmod_cases x (by omega) (by omega), if_neg (by omega), if_neg (by omega)]

theorem tdiv_64 (x : Int) : x.tdiv 64 = if 0 ≤ x then x / 64 else -(-x / 64) := by
  split_ifs with hx
  · exact Int.tdiv_eq_ediv_of_nonneg hx
  · rw [← Int.tdiv_eq_ediv_of_nonneg (show 0 ≤ -x by omega), Int.neg_tdiv, Int.neg_neg]

theorem le_toInt (a : Int32) : -2147483648 ≤ a.toInt := a.le_toInt

theorem toInt_le (a : Int32) : a.toInt ≤ 2147483647 := Int.le_of_lt_add_one a.toInt_lt

/-- The sign bit. -/
theorem toUInt32_shiftRight (a : Int32) : a.toUInt32 >>> 31 = if a.toInt < 0 then 1 else 0 := by
  have hcond : a.toInt =
      if 2 * a.toUInt32.toNat < 2 ^ 32 then (a.toUInt32.toNat : Int) else a.toUInt32.toNat - 2 ^ 32 :=
    a.toBitVec.toInt_eq_toNat_cond
  have hlt := a.toUInt32.toNat_lt
  apply UInt32.toNat.inj
  rw [UInt32.toNat_shiftRight]
  show a.toUInt32.toNat >>> 31 = _
  rw [Nat.shiftRight_eq_div_pow]
  by_cases hneg : a.toInt < 0
  · rw [if_pos hneg]
    show _ = 1
    split_ifs at hcond <;> omega
  · rw [if_neg hneg]
    show _ = 0
    split_ifs at hcond <;> omega

/-- The sign bit of an exclusive or says whether the signs differ. -/
theorem xor_shiftRight (a b : Int32) :
    (a.toUInt32 ^^^ b.toUInt32) >>> 31 = if (a.toInt < 0 ↔ b.toInt < 0) then 0 else 1 := by
  rw [UInt32.shiftRight_xor, toUInt32_shiftRight, toUInt32_shiftRight]
  by_cases ha : a.toInt < 0 <;> by_cases hb : b.toInt < 0 <;> simp [ha, hb]

/-- What both functions put in the place of a result that overflows. -/
theorem toInt_saturated (a : Int32) :
    (INT_MAX.toUInt32 + a.toUInt32 >>> 31).toInt32.toInt = if a.toInt < 0 then -2147483648 else 2147483647 := by
  rw [toUInt32_shiftRight]
  by_cases ha : a.toInt < 0
  · rw [if_pos ha, if_pos ha]
    decide
  · rw [if_neg ha, if_neg ha]
    decide

theorem sameSign_and_changes (p q : Prop) [Decidable p] [Decidable q] :
    (if (if p then (0 : UInt32) else 1) = 0 then (1 : UInt32) else 0) &&& (if q then 0 else 1) ≠ 0 ↔ p ∧ ¬q := by
  by_cases hp : p <;> by_cases hq : q <;> simp [hp, hq]

theorem otherSign_and_changes (p q : Prop) [Decidable p] [Decidable q] :
    (if p then (0 : UInt32) else 1) &&& (if q then 0 else 1) ≠ 0 ↔ ¬p ∧ ¬q := by
  by_cases hp : p <;> by_cases hq : q <;> simp [hp, hq]

/-- **Addition saturates.** -/
theorem toInt_saturatedAddition (a b : Int32) : (saturatedAddition a b).toInt = clampRaw (a.toInt + b.toInt) := by
  have ha := le_toInt a
  have ha' := toInt_le a
  have hb := le_toInt b
  have hb' := toInt_le b
  have hsum := Int32.toInt_add a b
  rw [bmod_cases (a.toInt + b.toInt) (by omega) (by omega)] at hsum
  unfold saturatedAddition
  simp only [← Int32.toUInt32_add, xor_shiftRight, sameSign_and_changes]
  by_cases hover : (a.toInt < 0 ↔ b.toInt < 0) ∧ ¬((a + b).toInt < 0 ↔ a.toInt < 0)
  · rw [if_pos hover, toInt_saturated]
    unfold clampRaw
    split_ifs at hsum ⊢ <;> omega
  · rw [if_neg hover, Int32.toInt32_toUInt32, hsum]
    unfold clampRaw
    split_ifs at hsum ⊢ <;> omega

/-- **Subtraction saturates.** -/
theorem toInt_saturatedSubtraction (a b : Int32) : (saturatedSubtraction a b).toInt = clampRaw (a.toInt - b.toInt) := by
  have ha := le_toInt a
  have ha' := toInt_le a
  have hb := le_toInt b
  have hb' := toInt_le b
  have hdiff := Int32.toInt_sub a b
  rw [bmod_cases (a.toInt - b.toInt) (by omega) (by omega)] at hdiff
  unfold saturatedSubtraction
  simp only [← Int32.toUInt32_sub, xor_shiftRight, otherSign_and_changes]
  by_cases hover : ¬(a.toInt < 0 ↔ b.toInt < 0) ∧ ¬((a - b).toInt < 0 ↔ a.toInt < 0)
  · rw [if_pos hover, toInt_saturated]
    unfold clampRaw
    split_ifs at hdiff ⊢ <;> omega
  · rw [if_neg hover, Int32.toInt32_toUInt32, hdiff]
    unfold clampRaw
    split_ifs at hdiff ⊢ <;> omega

/-! ## `clampTo<int>` -/

/-- Numbers of 53 bits are doubles. -/
theorem toDouble_of_lt {n : Nat} (hn : n < 2 ^ 53) : toDouble n = n := by
  have hlog : n.log2 + 1 - 53 = 0 := by
    rcases Nat.eq_zero_or_pos n with rfl | hpos
    · rfl
    · have := (Nat.log2_lt (Nat.ne_of_gt hpos)).2 hn
      omega
  unfold toDouble
  simp only [hlog, Nat.pow_zero, Nat.mod_one, Nat.div_one, Nat.mul_one]
  rw [if_neg (by omega)]

/-- Larger numbers stay as large. -/
theorem le_toDouble {n : Nat} (hn : 2 ^ 53 ≤ n) : 2 ^ 52 ≤ toDouble n := by
  have hpos : n ≠ 0 := by omega
  have hlog : 53 ≤ n.log2 := (Nat.le_log2 hpos).2 hn
  obtain ⟨k, hk⟩ : ∃ k, n.log2 + 1 - 53 = k := ⟨_, rfl⟩
  have hself : 2 ^ (52 + k) ≤ n := by
    rw [show 52 + k = n.log2 by omega]
    exact Nat.log2_self_le hpos
  have hunit : 0 < 2 ^ k := Nat.two_pow_pos k
  have hquotient : 2 ^ 52 ≤ n / 2 ^ k := by
    rw [Nat.le_div_iff_mul_le hunit, ← Nat.pow_add]
    exact hself
  unfold toDouble
  simp only [hk]
  calc 2 ^ 52 ≤ n / 2 ^ k := hquotient
    _ ≤ _ := by split_ifs <;> omega
    _ ≤ _ := Nat.le_mul_of_pos_right _ hunit

/-- **Clamping through a double is clamping.** -/
theorem toInt_clampToInt (x : Int) : (clampToInt x).toInt = clampRaw x := by
  unfold clampToInt
  rw [show INT_MAX.toInt = 2147483647 from rfl, show INT_MIN.toInt = -2147483648 from rfl]
  simp only
  rcases Nat.lt_or_ge x.natAbs (2 ^ 53) with hlt | hge
  · rw [toDouble_of_lt hlt, Int.sign_mul_natAbs]
    unfold clampRaw
    split_ifs with hmax hmin
    · show (2147483647 : Int) = _
      omega
    · show (-2147483648 : Int) = _
      omega
    · rw [Int32.toInt_ofInt_of_le (by omega) (by omega)]
      omega
  · have hdouble := le_toDouble hge
    unfold clampRaw
    rcases Int.lt_or_gt_of_ne (show x ≠ 0 by omega) with hneg | hpos
    · rw [Int.sign_eq_neg_one_of_neg hneg, if_neg (by omega), if_pos (by omega)]
      show (-2147483648 : Int) = _
      omega
    · rw [Int.sign_eq_one_of_pos hpos, if_pos (by omega)]
      show (2147483647 : Int) = _
      omega

/-! ## Multiplication and division -/

theorem natAbs_toInt_le (a : Int32) : a.toInt.natAbs ≤ 2 ^ 31 := by
  have hle := le_toInt a
  have hge := toInt_le a
  omega

/-- Products of two raw values fit in 64 bits, with room for the factor of a division. -/
theorem natAbs_mul_le (a b : Int32) : (a.toInt * b.toInt).natAbs ≤ 2 ^ 62 := by
  have h := Nat.mul_le_mul (natAbs_toInt_le a) (natAbs_toInt_le b)
  rw [Int.natAbs_mul]
  omega

theorem natAbs_tdiv_le (x y : Int) : (x.tdiv y).natAbs ≤ x.natAbs := by
  rw [Int.natAbs_tdiv]
  exact Nat.div_le_self _ _

theorem bmod_64_of_natAbs_le {x : Int} (h : x.natAbs ≤ 2 ^ 62) : x.bmod (2 ^ 64) = x :=
  Int.bmod_eq_of_le (by omega) (by omega)

theorem toInt64_mul (a b : Int32) : (a.toInt64 * b.toInt64).toInt = a.toInt * b.toInt := by
  rw [Int64.toInt_mul, Int32.toInt_toInt64, Int32.toInt_toInt64, bmod_64_of_natAbs_le (natAbs_mul_le a b)]

theorem toInt_shiftRight_32 (x : Int64) : (x >>> 32).toInt = x.toInt / 4294967296 := by
  show (x.toBitVec.sshiftRight' _).toInt = _
  rw [BitVec.toInt_sshiftRight', Int.shiftRight_eq_div_pow]
  rfl

theorem toInt_shiftRight_31 (x : Int32) : (x >>> 31).toInt = x.toInt / 2147483648 := by
  show (x.toBitVec.sshiftRight' _).toInt = _
  rw [BitVec.toInt_sshiftRight', Int.shiftRight_eq_div_pow]
  rfl

theorem high_eq_low_iff {result : Int64} (h : result.toInt.natAbs ≤ 2 ^ 62) :
    (result >>> 32).toInt32 = result.toInt32 >>> 31 ↔ -2147483648 ≤ result.toInt ∧ result.toInt ≤ 2147483647 := by
  have hlow := bmod_cases (result.toInt % 4294967296) (by omega) (by omega)
  have hhigh : (result.toInt / 4294967296).bmod (2 ^ 32) = result.toInt / 4294967296 :=
    bmod_of_mem (by omega) (by omega)
  have hresidue : (result.toInt % 4294967296).bmod (2 ^ 32) = result.toInt.bmod (2 ^ 32) := Int.emod_bmod _ _
  rw [hresidue] at hlow
  rw [← Int32.toInt_inj, Int64.toInt_toInt32, toInt_shiftRight_32, toInt_shiftRight_31, Int64.toInt_toInt32, hhigh,
    hlow]
  split_ifs <;> omega

namespace LayoutUnit

/-- **Multiplication saturates.** -/
theorem toInt_boundedMultiply (a b : LayoutUnit) :
    (boundedMultiply a b).rawValue.toInt = clampRaw ((a.rawValue.toInt * b.rawValue.toInt).tdiv 64) := by
  obtain ⟨result, hresult⟩ :
      ∃ result, a.rawValue.toInt64 * b.rawValue.toInt64 / kFixedPointDenominator.toInt64 = result := ⟨_, rfl⟩
  have htoInt : result.toInt = (a.rawValue.toInt * b.rawValue.toInt).tdiv 64 := by
    rw [← hresult, Int64.toInt_div_of_ne_right _ _ (by decide), toInt64_mul]
    rfl
  have hbound : result.toInt.natAbs ≤ 2 ^ 62 := by
    rw [htoInt]
    exact (natAbs_tdiv_le _ _).trans (natAbs_mul_le _ _)
  unfold boundedMultiply
  simp only [hresult, Int32.toUInt32_xor, xor_shiftRight]
  rw [← htoInt]
  by_cases hfits : -2147483648 ≤ result.toInt ∧ result.toInt ≤ 2147483647
  · rw [if_neg (not_not.2 ((high_eq_low_iff hbound).2 hfits)), Int64.toInt_toInt32, bmod_of_mem hfits.1 hfits.2,
      clampRaw_of_mem hfits.1 hfits.2]
  · rw [if_pos (fun h => hfits ((high_eq_low_iff hbound).1 h))]
    by_cases hsign : (a.rawValue.toInt < 0 ↔ b.rawValue.toInt < 0)
    · have hpos : 0 ≤ result.toInt := by
        rw [htoInt]
        refine Int.tdiv_nonneg ?_ (by decide)
        by_cases ha : a.rawValue.toInt < 0
        · exact Int.mul_nonneg_of_nonpos_of_nonpos (Int.le_of_lt ha) (Int.le_of_lt (hsign.1 ha))
        · exact Int.mul_nonneg (by omega) (by omega)
      rw [if_pos hsign]
      unfold clampRaw
      show (2147483647 : Int) = _
      omega
    · have hneg : result.toInt ≤ 0 := by
        rw [htoInt, ← Int.neg_nonneg, ← Int.neg_tdiv]
        refine Int.tdiv_nonneg ?_ (by decide)
        by_cases ha : a.rawValue.toInt < 0
        · rw [← Int.neg_mul]
          exact Int.mul_nonneg (by omega) (by omega)
        · rw [← Int.mul_neg]
          exact Int.mul_nonneg (by omega) (by omega)
      rw [if_neg hsign]
      unfold clampRaw
      show (-2147483648 : Int) = _
      omega

theorem rawValue_add (a b : LayoutUnit) : (a + b).rawValue.toInt = clampRaw (a.rawValue.toInt + b.rawValue.toInt) :=
  toInt_saturatedAddition _ _

theorem rawValue_sub (a b : LayoutUnit) : (a - b).rawValue.toInt = clampRaw (a.rawValue.toInt - b.rawValue.toInt) :=
  toInt_saturatedSubtraction _ _

theorem rawValue_mul (a b : LayoutUnit) :
    (a * b).rawValue.toInt = clampRaw ((a.rawValue.toInt * b.rawValue.toInt).tdiv 64) :=
  toInt_boundedMultiply a b

/-- The product that is divided. -/
theorem toInt_scaled (a : LayoutUnit) :
    (kFixedPointDenominator.toInt64 * a.rawValue.toInt64).toInt = 64 * a.rawValue.toInt := toInt64_mul _ _

theorem rawValue_div (a b : LayoutUnit) :
    (a / b).rawValue.toInt = clampRaw ((64 * a.rawValue.toInt).tdiv b.rawValue.toInt) := by
  have hscaled : (64 * a.rawValue.toInt).natAbs ≤ 2 ^ 62 := natAbs_mul_le kFixedPointDenominator a.rawValue
  show (clampToInt _).toInt = _
  rw [toInt_clampToInt, Int64.toInt_div, toInt_scaled, Int32.toInt_toInt64,
    bmod_64_of_natAbs_le ((natAbs_tdiv_le _ _).trans hscaled)]

theorem rawValue_intMod (a b : LayoutUnit) : (intMod a b).rawValue.toInt = a.rawValue.toInt.tmod b.rawValue.toInt :=
  Int32.toInt_mod _ _

theorem rawValue_mod (a b : LayoutUnit) :
    (a % b).rawValue.toInt = ((64 * a.rawValue.toInt).tmod b.rawValue.toInt).tdiv 64 := by
  obtain ⟨r, hr⟩ : ∃ r, kFixedPointDenominator.toInt64 * a.rawValue.toInt64 % b.rawValue.toInt64 = r := ⟨_, rfl⟩
  have htoInt : r.toInt = (64 * a.rawValue.toInt).tmod b.rawValue.toInt := by
    rw [← hr, Int64.toInt_mod, toInt_scaled, Int32.toInt_toInt64]
  have hfits : -2147483648 ≤ r.toInt.tdiv 64 ∧ r.toInt.tdiv 64 ≤ 2147483647 := by
    by_cases hb : b.rawValue.toInt = 0
    · rw [htoInt, hb, Int.tmod_zero, Int.mul_tdiv_cancel_left _ (by decide)]
      exact ⟨le_toInt _, toInt_le _⟩
    · have hlt : r.toInt.natAbs < b.rawValue.toInt.natAbs := by
        rw [htoInt, Int.natAbs_tmod]
        exact Nat.mod_lt _ (Int.natAbs_pos.2 hb)
      have hb := natAbs_toInt_le b.rawValue
      have hquotient : (r.toInt.tdiv 64).natAbs = r.toInt.natAbs / 64 := Int.natAbs_tdiv _ _
      omega
  show (_ % _ / _ : Int64).toInt32.toInt = _
  rw [hr, Int64.toInt_toInt32, Int64.toInt_div_of_ne_right _ _ (by decide), ← htoInt]
  exact bmod_of_mem hfits.1 hfits.2

/-! ## Rounding -/

theorem toInt_toInt (a : LayoutUnit) : a.toInt.toInt = a.rawValue.toInt.tdiv 64 := by
  unfold toInt
  rw [Int32.toInt_div_of_ne_right _ _ (by decide)]
  rfl

theorem rawValue_fraction (a : LayoutUnit) : a.fraction.rawValue.toInt = a.rawValue.toInt.tmod 64 :=
  Int32.toInt_mod _ _

theorem toInt_floor (a : LayoutUnit) : a.floor.toInt = clampPixels (a.rawValue.toInt / 64) := by
  have hle := le_toInt a.rawValue
  have hge := toInt_le a.rawValue
  unfold floor clampPixels
  simp only [Int32.le_iff_toInt_le]
  rw [show (INT_MIN + kFixedPointDenominator - 1).toInt = -2147483585 from rfl, show (0 : Int32).toInt = 0 from rfl]
  split_ifs with hmin hpos
  · show (-33554432 : Int) = _
    omega
  · rw [toInt_toInt, tdiv_64, if_pos hpos]
    omega
  · have hsum : (a.rawValue - kFixedPointDenominator + 1).toInt = a.rawValue.toInt - 63 := by
      rw [Int32.toInt_add, Int32.toInt_sub]
      show ((a.rawValue.toInt - 64).bmod (2 ^ 32) + 1).bmod (2 ^ 32) = _
      rw [bmod_of_mem (x := a.rawValue.toInt - 64) (by omega) (by omega), bmod_of_mem (by omega) (by omega)]
      omega
    rw [Int32.toInt_div_of_ne_right _ _ (by decide), hsum]
    show (a.rawValue.toInt - 63).tdiv 64 = _
    rw [tdiv_64, if_neg (by omega)]
    omega

theorem toInt_ceil (a : LayoutUnit) : a.ceil.toInt = clampPixels (-(-a.rawValue.toInt / 64)) := by
  have hle := le_toInt a.rawValue
  have hge := toInt_le a.rawValue
  unfold ceil clampPixels
  simp only [Int32.le_iff_toInt_le]
  rw [show (INT_MAX - kFixedPointDenominator + 1).toInt = 2147483584 from rfl, show (0 : Int32).toInt = 0 from rfl]
  split_ifs with hmax hpos
  · show (33554431 : Int) = _
    omega
  · have hsum : (a.rawValue + kFixedPointDenominator - 1).toInt = a.rawValue.toInt + 63 := by
      rw [Int32.toInt_sub, Int32.toInt_add]
      show ((a.rawValue.toInt + 64).bmod (2 ^ 32) - 1).bmod (2 ^ 32) = _
      rw [bmod_cases (a.rawValue.toInt + 64) (by omega) (by omega)]
      rw [bmod_of_mem (by split_ifs <;> omega) (by split_ifs <;> omega)]
      split_ifs <;> omega
    rw [Int32.toInt_div_of_ne_right _ _ (by decide), hsum]
    show (a.rawValue.toInt + 63).tdiv 64 = _
    rw [tdiv_64, if_pos (by omega)]
    omega
  · rw [toInt_toInt, tdiv_64, if_neg hpos]
    omega

/-- **Halves are rounded up**, also below zero. -/
theorem toInt_round (a : LayoutUnit) : a.round.toInt = clampPixels ((a.rawValue.toInt + 32) / 64) := by
  have hle := le_toInt a.rawValue
  have hge := toInt_le a.rawValue
  unfold round clampPixels
  simp only [Int32.lt_iff_toInt_lt]
  rw [show (0 : Int32).toInt = 0 from rfl]
  split_ifs with hpos
  · rw [Int32.toInt_div_of_ne_right _ _ (by decide), toInt_saturatedAddition]
    show (clampRaw (a.rawValue.toInt + 32)).tdiv 64 = _
    unfold clampRaw
    rw [tdiv_64, if_pos (by omega)]
    omega
  · rw [Int32.toInt_div_of_ne_right _ _ (by decide), toInt_saturatedSubtraction]
    show (clampRaw (a.rawValue.toInt - 31)).tdiv 64 = _
    unfold clampRaw
    rw [tdiv_64, if_neg (by omega)]
    omega

/-! ## Constructors -/

theorem rawValue_ofInt (value : Int32) : (ofInt value).rawValue.toInt = clampRaw (64 * value.toInt) := by
  unfold ofInt clampRaw
  simp only [Int32.lt_iff_toInt_lt]
  rw [show intMaxForLayoutUnit.toInt = 33554431 from rfl, show intMinForLayoutUnit.toInt = -33554432 from rfl]
  split_ifs with hmax hmin
  · show (2147483647 : Int) = _
    omega
  · show (-2147483648 : Int) = _
    omega
  · show (value * kFixedPointDenominator).toInt = _
    rw [Int32.toInt_mul]
    show (value.toInt * 64).bmod (2 ^ 32) = _
    rw [bmod_of_mem (by omega) (by omega)]
    omega

/-- The largest number of whole pixels is taken for one that overflows. -/
theorem rawValue_ofUnsigned (value : UInt32) :
    (ofUnsigned value).rawValue.toInt = if 33554431 ≤ value.toNat then 2147483647 else 64 * (value.toNat : Int) := by
  unfold ofUnsigned
  simp only [UInt32.le_iff_toNat_le]
  rw [show intMaxForLayoutUnit.toUInt32.toNat = 33554431 from rfl]
  split_ifs with hmax
  · rfl
  · have hproduct : (value * kFixedPointDenominator.toUInt32).toNat = value.toNat * 64 := by
      rw [UInt32.toNat_mul]
      exact Nat.mod_eq_of_lt (by show value.toNat * 64 < 2 ^ 32; omega)
    show (value * kFixedPointDenominator.toUInt32).toBitVec.toInt = _
    rw [BitVec.toInt_eq_toNat_of_lt]
    · show ((value * kFixedPointDenominator.toUInt32).toNat : Int) = _
      omega
    · show 2 * (value * kFixedPointDenominator.toUInt32).toNat < 2 ^ 32
      omega

theorem rawValue_ofProduct (bits value : Nat) :
    (ofProduct bits value).rawValue.toInt = clampRaw ↑(64 * value % 2 ^ bits) := by
  unfold ofProduct
  rw [toInt_clampToInt, Nat.mul_comm]
  rfl

end LayoutUnit

end WebKit.WebCore
