import WebKit.WTF.CheckedArithmetic

/-!
# `MediaTime`

`MediaTime.cpp`: a 64-bit value over a 32-bit time scale, with flags for the times that are not finite. The comparison is
exact, and the sum and the difference bring both operands to a common time scale, which `setTimeScale` lowers until the
whole part fits.
-/

namespace WebKit.WTF

/-- `m_timeValue` is an `int64_t`, `m_timeScale` an `int32_t`. -/
structure MediaTime where
  timeValue : Int
  timeScale : Int
  timeFlags : UInt32
  deriving DecidableEq, Repr

namespace MediaTime

/-! ## Flags -/

def Valid : UInt32 := (1 : UInt32) <<< 0
def PositiveInfinite : UInt32 := (1 : UInt32) <<< 2
def NegativeInfinite : UInt32 := (1 : UInt32) <<< 3
def Indefinite : UInt32 := (1 : UInt32) <<< 4

variable (t : MediaTime)

def isValid : Bool := t.timeFlags &&& Valid ≠ 0
def isInvalid : Bool := !t.isValid
def isPositiveInfinite : Bool := t.timeFlags &&& PositiveInfinite ≠ 0
def isNegativeInfinite : Bool := t.timeFlags &&& NegativeInfinite ≠ 0
def isIndefinite : Bool := t.timeFlags &&& Indefinite ≠ 0

def zeroTime : MediaTime := ⟨0, 1, Valid⟩
def invalidTime : MediaTime := ⟨-1, 1, 0⟩
def positiveInfiniteTime : MediaTime := ⟨0, 1, PositiveInfinite ||| Valid⟩
def negativeInfiniteTime : MediaTime := ⟨-1, 1, NegativeInfinite ||| Valid⟩
def indefiniteTime : MediaTime := ⟨0, 1, Indefinite ||| Valid⟩

/-! ## Comparison -/

/-- The last part of `compare`. The products are of two 32-bit numbers, so they do not overflow. -/
def compareFinite (lhs rhs : MediaTime) : Ordering :=
  let rhsWhole := rhs.timeValue.tdiv rhs.timeScale
  let lhsWhole := lhs.timeValue.tdiv lhs.timeScale
  if lhsWhole > rhsWhole then .gt
  else if lhsWhole < rhsWhole then .lt
  else
    let rhsRemain := rhs.timeValue.tmod rhs.timeScale
    let lhsRemain := lhs.timeValue.tmod lhs.timeScale
    let lhsFactor := lhsRemain * rhs.timeScale
    let rhsFactor := rhsRemain * lhs.timeScale
    if lhsFactor = rhsFactor then .eq
    else if lhsFactor > rhsFactor then .gt else .lt

/-- `compare`. -/
def compare (lhs rhs : MediaTime) : Ordering :=
  if lhs.isPositiveInfinite && rhs.isPositiveInfinite || lhs.isNegativeInfinite && rhs.isNegativeInfinite ||
      lhs.isInvalid && rhs.isInvalid || lhs.isIndefinite && rhs.isIndefinite then .eq
  else if lhs.isInvalid then .gt
  else if rhs.isInvalid then .lt
  else if rhs.isNegativeInfinite || lhs.isPositiveInfinite then .gt
  else if rhs.isPositiveInfinite || lhs.isNegativeInfinite then .lt
  else if lhs.isIndefinite then .gt
  else if rhs.isIndefinite then .lt
  else lhs.compareFinite rhs

/-- `operator<`. -/
def lt (lhs rhs : MediaTime) : Bool := lhs.compare rhs == .lt

/-- `operator==`. -/
def eq (lhs rhs : MediaTime) : Bool := lhs.compare rhs == .eq

/-- `operator!=`. -/
def ne (lhs rhs : MediaTime) : Bool := lhs.compare rhs != .eq

/-- `operator>=`. -/
def ge (lhs rhs : MediaTime) : Bool := (lhs.compare rhs).isGE

/-- `operator<=`. -/
def le (lhs rhs : MediaTime) : Bool := (lhs.compare rhs).isLE

/-- `std::min`, with `operator<`. -/
def min (a b : MediaTime) : MediaTime := if b.lt a then b else a

/-- `std::max`, with `operator<`. -/
def max (a b : MediaTime) : MediaTime := if a.lt b then b else a

/-! ## Time scales -/

def MaximumTimeScale : Int := intMax 32

/-- The loop of `greatestCommonDivisor`, at most `fuel` times. -/
def greatestCommonDivisorLoop : Nat → Int → Int → Int
  | 0, a, _ => a
  | fuel + 1, a, b => if b = 0 then a else greatestCommonDivisorLoop fuel b (a.tmod b)

/-- `greatestCommonDivisor`: Euclid's algorithm, in which `b` gets smaller in every round. -/
def greatestCommonDivisor (a b : Int) : Int := greatestCommonDivisorLoop b.natAbs a b

/-- `leastCommonMultiple`; `none` is the return value `false`. -/
def leastCommonMultiple (a b : Int) : Option Int := safeMultiply 32 a (b.tdiv (greatestCommonDivisor a b))

/-- The loop of `setTimeScale`, which halves the time scale until the whole part fits, at most `fuel` times: the time
scale and `newWholePart`. -/
def fitTimeScale : Nat → Int → Int → Int × Int
  | 0, wholePart, timeScale => (timeScale, wholePart * timeScale)
  | fuel + 1, wholePart, timeScale =>
    match safeMultiply 64 wholePart timeScale with
    | some newWholePart => (timeScale, newWholePart)
    | none => fitTimeScale fuel wholePart (timeScale.tdiv 2)

/-- `setTimeScale`. The time scale has 31 bits, and every whole part fits at the time scale `1`. A sum that overflows wraps around. -/
def setTimeScale (timeScale : Int) : MediaTime :=
  if timeScale = t.timeScale then t
  else
    let wholePart := t.timeValue.tdiv t.timeScale
    let (timeScale, newWholePart) := fitTimeScale 31 wholePart (Min.min MaximumTimeScale timeScale)
    let remainder := t.timeValue.tmod t.timeScale
    { t with
      timeValue := (newWholePart + (remainder * timeScale).tdiv t.timeScale).bmod (2 ^ 64)
      timeScale := timeScale }

/-! ## Sums and differences -/

/-- The loop of `operator+` and `operator-`, at most `fuel` times. -/
def combineLoop (op : Int → Int → Option Int) : Nat → Int → MediaTime → MediaTime → Option MediaTime
  | 0, _, _, _ => none
  | fuel + 1, commonTimeScale, a, b =>
    match op a.timeValue b.timeValue with
    | some timeValue => some { a with timeValue := timeValue }
    | none =>
      if commonTimeScale = 1 then some (if a.timeValue > 0 then positiveInfiniteTime else negativeInfiniteTime)
      else
        let commonTimeScale := commonTimeScale.tdiv 2
        combineLoop op fuel commonTimeScale (a.setTimeScale commonTimeScale) (b.setTimeScale commonTimeScale)

/-- The time scale that both operands are set to first. -/
def commonTimeScale (a b : MediaTime) : Int :=
  match leastCommonMultiple a.timeScale b.timeScale with
  | some commonTimeScale => if commonTimeScale > MaximumTimeScale then MaximumTimeScale else commonTimeScale
  | none => MaximumTimeScale

/-- `operator+` and `operator-` of finite times. The 31 bits of the time scale are used up after 31 rounds. -/
def combine (op : Int → Int → Option Int) (a b : MediaTime) : Option MediaTime :=
  let commonTimeScale := commonTimeScale a b
  combineLoop op 31 commonTimeScale (a.setTimeScale commonTimeScale) (b.setTimeScale commonTimeScale)

/-- `operator+`; `none` if the loop does not end. -/
def add (lhs rhs : MediaTime) : Option MediaTime :=
  if rhs.isInvalid || lhs.isInvalid then some invalidTime
  else if rhs.isIndefinite || lhs.isIndefinite then some indefiniteTime
  else if lhs.isPositiveInfinite && rhs.isNegativeInfinite then some invalidTime
  else if lhs.isNegativeInfinite && rhs.isPositiveInfinite then some invalidTime
  else if lhs.isPositiveInfinite || rhs.isPositiveInfinite then some positiveInfiniteTime
  else if lhs.isNegativeInfinite || rhs.isNegativeInfinite then some negativeInfiniteTime
  else combine (safeAdd 64) lhs rhs

/-- `operator-`; `none` if the loop does not end. -/
def sub (lhs rhs : MediaTime) : Option MediaTime :=
  if rhs.isInvalid || lhs.isInvalid then some invalidTime
  else if rhs.isIndefinite || lhs.isIndefinite then some indefiniteTime
  else if lhs.isPositiveInfinite && rhs.isPositiveInfinite then some invalidTime
  else if lhs.isNegativeInfinite && rhs.isNegativeInfinite then some invalidTime
  else if lhs.isPositiveInfinite || rhs.isNegativeInfinite then some positiveInfiniteTime
  else if lhs.isNegativeInfinite || rhs.isPositiveInfinite then some negativeInfiniteTime
  else combine (safeSub 64) lhs rhs

end MediaTime

end WebKit.WTF
