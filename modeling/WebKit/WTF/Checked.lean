import WebKit.Lib.CInteger
import WebKit.WTF.CheckedArithmetic

/-!
# `Checked<T, RecordOverflow>`

The bounds checks of a conversion, `ArithmeticOperations` for operands of any integer types, and the constructors and
operators of `Checked`. The outer `Option` of an operation is `none` where its behaviour is not defined (a signed
intermediate result that does not fit), the inner one where it returns `false`.
-/

namespace WebKit.WTF

open WebKit.Lib IntType

def maxOf (T : IntType) : CInt := ⟨T, T.max⟩
def minOf (T : IntType) : CInt := ⟨T, T.min⟩

/-- `BoundsChecker<Target, Source>::inBounds`. -/
def BoundsChecker.inBounds (Target : IntType) (value : CInt) : Bool :=
  match Target.signed, value.type.signed with
  | false, false => CInt.le value (maxOf Target)
  | true, true => CInt.le (minOf Target) value && CInt.le value (maxOf Target)
  | false, true =>
    if CInt.lt value ⟨int, 0⟩ then false
    else if Target.width ≥ value.type.width then CInt.le (value.convert Target) (maxOf Target)
    else CInt.le value ((maxOf Target).convert value.type)
  | true, false =>
    if Target.width ≤ value.type.width then CInt.le value ((maxOf Target).convert value.type) else true

/-- `isInBounds<Target>`, which `BoundsCheckElider` may cut short. -/
def isInBounds (Target : IntType) (value : CInt) : Bool :=
  if Target = value.type ∨ Target.width > value.type.width then true else BoundsChecker.inBounds Target value

/-! ## `ArithmeticOperations` -/

inductive Operation
  | add
  | sub
  | multiply
  deriving DecidableEq, Repr

namespace Operation

/-- What the operation is about. -/
def exact : Operation → Int → Int → Int
  | add, x, y => x + y
  | sub, x, y => x - y
  | multiply, x, y => x * y

/-- The operator of the language. -/
def compute : Operation → CInt → CInt → Option CInt
  | add => CInt.add
  | sub => CInt.sub
  | multiply => CInt.mul

end Operation

namespace ArithmeticOperations

variable (lhs rhs : CInt) (R : IntType)

/-- `result = lhs op rhs; return true`. -/
def assign (op : Operation) : Option (Option CInt) := do
  let result ← op.compute lhs rhs
  return some (result.convert R)

/-! For signed operands. -/

def addSigned : Option (Option CInt) := do
  if signsMatch lhs.value rhs.value then
    if lhs.value ≥ 0 then
      let room ← CInt.sub (maxOf R) rhs
      if CInt.lt room lhs then return none
    else
      let temp ← CInt.sub lhs (minOf R)
      let least ← CInt.neg (temp.convert R)
      if CInt.lt rhs least then return none
  assign lhs rhs R .add

def subSigned : Option (Option CInt) := do
  if !signsMatch lhs.value rhs.value then
    if lhs.value ≥ 0 then
      let most ← CInt.add (maxOf R) rhs
      if CInt.lt most lhs then return none
    else
      let most ← CInt.add (maxOf R) lhs
      if CInt.lt most rhs then return none
  assign lhs rhs R .sub

def multiplySigned : Option (Option CInt) := do
  if signsMatch lhs.value rhs.value then
    if lhs.value ≥ 0 then
      if lhs.value ≠ 0 then
        let most ← CInt.div (maxOf R) lhs
        if CInt.lt most rhs then return none
    else
      if (lhs.convert R).value = R.min ∨ (rhs.convert R).value = R.min then return none
      let minusLhs ← CInt.neg lhs
      let most ← CInt.div (maxOf R) minusLhs
      let minusRhs ← CInt.neg rhs
      if CInt.lt most minusRhs then return none
  else
    if lhs.value < 0 then
      if rhs.value ≠ 0 then
        let least ← CInt.div (minOf R) rhs
        if CInt.lt lhs least then return none
    else
      if lhs.value ≠ 0 then
        let least ← CInt.div (minOf R) lhs
        if CInt.lt rhs least then return none
  assign lhs rhs R .multiply

/-! For unsigned operands. -/

def addUnsigned : Option (Option CInt) := do
  let sum ← CInt.add lhs rhs
  let temp := sum.convert R
  if CInt.lt temp lhs then return none
  return some temp

def subUnsigned : Option (Option CInt) := do
  let difference ← CInt.sub lhs rhs
  let temp := difference.convert R
  if CInt.lt lhs temp then return none
  return some temp

def multiplyUnsigned : Option (Option CInt) := do
  if lhs.value = 0 ∨ rhs.value = 0 then return some ⟨R, 0⟩
  let most ← CInt.div (maxOf R) lhs
  if CInt.lt most rhs then return none
  assign lhs rhs R .multiply

/-- For an `int` and an `unsigned`, which are `int64_t`s here. -/
def mixed (op : Operation) : Option (Option CInt) := do
  let temp ← op.compute (lhs.convert int64) (rhs.convert int64)
  if CInt.lt temp (minOf R) then return none
  if CInt.lt (maxOf R) temp then return none
  return some (temp.convert R)

end ArithmeticOperations

open ArithmeticOperations in
/-- `safeAdd`, `safeSub` and `safeMultiply`. -/
def safe (op : Operation) (lhs rhs : CInt) (R : IntType) : Option (Option CInt) :=
  match lhs.type.signed, rhs.type.signed, op with
  | true, true, .add => addSigned lhs rhs R
  | true, true, .sub => subSigned lhs rhs R
  | true, true, .multiply => multiplySigned lhs rhs R
  | false, false, .add => addUnsigned lhs rhs R
  | false, false, .sub => subUnsigned lhs rhs R
  | false, false, .multiply => multiplyUnsigned lhs rhs R
  | true, false, op => mixed lhs rhs R op
  | false, true, .add => mixed rhs lhs R .add
  | false, true, .sub => mixed lhs rhs R .sub
  | false, true, .multiply => mixed rhs lhs R .multiply

/-- There is a specialization of `ArithmeticOperations` for the types. -/
def Compiles (T U : IntType) : Prop := T.signed = U.signed ∨ (T = int ∧ U = unsigned) ∨ (T = unsigned ∧ U = int)

instance (T U : IntType) : Decidable (Compiles T U) := inferInstanceAs (Decidable (_ ∨ _))

/-- `Result<U, V>::ResultType`. -/
def ResultType (U V : IntType) : IntType :=
  if V.width < U.width then U
  else if U.width < V.width then V
  else if U.signed then if V.signed then U else V else U

/-! ## `Checked` -/

structure Checked (T : IntType) where
  m_value : Int
  hasOverflowed : Bool
  has : T.Has m_value

namespace Checked

variable {T U V : IntType}

/-- `Checked(ResultOverflowedTag)`. -/
def resultOverflowed (T : IntType) : Checked T where
  m_value := 0
  hasOverflowed := true
  has := T.has_zero

/-- `Checked(U value)`. -/
def ofValue (T : IntType) (value : CInt) : Checked T where
  m_value := T.cast value.value
  hasOverflowed := !isInBounds T value
  has := T.has_cast _

/-- The constructors from a `Checked`. For the same type nothing is checked. -/
def ofChecked (T : IntType) (rhs : Checked U) : Checked T where
  m_value := T.cast rhs.m_value
  hasOverflowed := rhs.hasOverflowed || !isInBounds T ⟨U, rhs.m_value⟩
  has := T.has_cast _

/-- `operator+`, `operator-` and `operator*`. -/
def operator (op : Operation) (lhs : Checked U) (rhs : Checked V) : Option (Checked (ResultType U V)) := do
  let overflowed := lhs.hasOverflowed || rhs.hasOverflowed
  match ← safe op ⟨U, lhs.m_value⟩ ⟨V, rhs.m_value⟩ (ResultType U V) with
  | none => return resultOverflowed (ResultType U V)
  | some result =>
    if overflowed then return resultOverflowed (ResultType U V)
    return ofValue (ResultType U V) result

/-- `operator+=`, `operator-=` and `operator*=` with a `rhs` that is no `Checked`. -/
def operatorAssign (op : Operation) (lhs : Checked T) (rhs : CInt) : Option (Checked T) := do
  match ← safe op ⟨T, lhs.m_value⟩ rhs T with
  | none => return { lhs with hasOverflowed := true }
  | some result => return { m_value := T.cast result.value, hasOverflowed := lhs.hasOverflowed, has := T.has_cast _ }

/-- `operator+=`, `operator-=` and `operator*=` with a `Checked`. -/
def operatorAssignChecked (op : Operation) (lhs : Checked T) (rhs : Checked V) : Option (Checked T) :=
  operatorAssign op { lhs with hasOverflowed := lhs.hasOverflowed || rhs.hasOverflowed } ⟨V, rhs.m_value⟩

end Checked

end WebKit.WTF
