import Mathlib.Algebra.GroupWithZero.Nat
import Mathlib.Algebra.Order.Group.Int

/-!
# Doubles

A `double` of the code by its bit pattern. Only comparisons are needed: `Double.value` is the value of a number in units
of 2^-1074, the least positive one, so that comparing doubles is comparing integers. An infinity has the value that the
format would give it without the exception for the largest exponent, which is above every finite value.
-/

namespace WebKit.WTF

/-- A `double`, as its sign, 11 bits of exponent and 52 bits of fraction. -/
structure Double where
  bits : UInt64
  deriving DecidableEq

namespace Double

def isNegative (d : Double) : Bool := decide (2 ^ 63 ≤ d.bits.toNat)

def exponent (d : Double) : Nat := d.bits.toNat / 2 ^ 52 % 2 ^ 11

def fraction (d : Double) : Nat := d.bits.toNat % 2 ^ 52

def isNaN (d : Double) : Bool := decide (d.exponent = 2 ^ 11 - 1 ∧ d.fraction ≠ 0)

/-- The absolute value in units of 2^-1074. -/
def magnitude (d : Double) : Nat :=
  if d.exponent = 0 then d.fraction else (2 ^ 52 + d.fraction) * 2 ^ (d.exponent - 1)

/-- The value in units of 2^-1074; both zeros have the value 0. -/
def value (d : Double) : Int := if d.isNegative then -d.magnitude else d.magnitude

/-- `<` of doubles. -/
def lt (d e : Double) : Bool := !d.isNaN && !e.isNaN && decide (d.value < e.value)

theorem lt_iff {d e : Double} (hd : d.isNaN = false) (he : e.isNaN = false) : d.lt e = true ↔ d.value < e.value := by
  simp [lt, hd, he]

end Double

end WebKit.WTF
