import Mathlib.Algebra.GroupWithZero.Nat
import Mathlib.Data.Finmap

/-!
# Strings

A `String` of the code is null or refers to a `StringImpl`, whose length is an `unsigned`. `WTFString` is a string that
is not null, `MaybeString` a `String`, and `length` the length the code reads from it, 0 for the null string. Where the
code looks at how the characters are stored, `StringImpl` has both forms.
-/

namespace WebKit.WTF

/-- A `UChar`, a UTF-16 code unit. -/
abbrev UChar := UInt16

def isASCIIDigit (c : UChar) : Bool := c ≥ 0x30 && c ≤ 0x39

/-- `isSpaceOrNewline`, with the test of `u_charDirection` for the characters outside ASCII. -/
def isSpaceOrNewline (isWhiteSpaceNeutral : UChar → Bool) (c : UChar) : Bool :=
  if c ≤ 0x7F then c ≤ 0x20 ∧ (c = 0x20 ∨ c ≤ 0xD ∧ c ≥ 0x9) else isWhiteSpaceNeutral c

section

variable {α : Type} {p : α → Prop} [DecidablePred p]

-- What all or some characters of a list are is decided by going over the list, not over every character there is.

instance (priority := 2000) decidableForallMem (l : List α) : Decidable (∀ a ∈ l, p a) := List.decidableBAll p l

instance (priority := 2000) decidableExistsMem (l : List α) : Decidable (∃ a ∈ l, p a) := List.decidableBEx p l

end

/-- A string that is not null. -/
structure WTFString where
  characters : List UChar
  fits : characters.length < 2 ^ 32
  deriving DecidableEq

/-- A `String`, with `none` for the null string. -/
abbrev MaybeString := Option WTFString

namespace WTFString

def length (string : WTFString) : UInt32 := UInt32.ofNat string.characters.length

theorem toNat_length (string : WTFString) : string.length.toNat = string.characters.length :=
  UInt32.toNat_ofNat_of_lt' string.fits

end WTFString

/-- The length of a `String`, which is 0 for the null string. -/
def length : MaybeString → UInt32
  | none => 0
  | some string => string.length

/-- How many characters a `String` has. -/
def size : MaybeString → Nat
  | none => 0
  | some string => string.characters.length

theorem toNat_length : ∀ string : MaybeString, (length string).toNat = size string
  | none => rfl
  | some string => string.toNat_length

/-! ## 8-bit and 16-bit strings -/

/-- A `StringImpl`: `LChar`s when `is8Bit`, else `UChar`s. -/
inductive StringImpl
  | latin1 (characters8 : List UInt8)
  | utf16 (characters16 : List UChar)
  deriving DecidableEq

namespace StringImpl

/-- The characters, on which equality of strings depends. -/
def characters : StringImpl → List UChar
  | latin1 characters8 => characters8.map (·.toUInt16)
  | utf16 characters16 => characters16

/-- `StringImpl::empty()`. -/
def empty : StringImpl := latin1 []

end StringImpl

/-- `codePointCompare`, on the characters of two strings. -/
def codePointCompare : List UChar → List UChar → Int
  | [], [] => 0
  | [], _ => -1
  | _, [] => 1
  | c₁ :: text₁, c₂ :: text₂ => if c₁ = c₂ then codePointCompare text₁ text₂ else if c₁ > c₂ then 1 else -1

end WebKit.WTF
