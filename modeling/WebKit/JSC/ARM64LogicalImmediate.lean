/-!
# Logical immediates of the ARM64 assembler

`LogicalImmediate.create64` and `create32` look for the widest repeated element of a value that is a contiguous range of
set or of clear bits, `findBitRange`, and encode it in the fields `immN:immr:imms`, `encodeLogicalImmediate`. The output
arguments of `findBitRange` are read only if it returns true, so it is an option here.
-/

namespace WebKit.JSC

structure LogicalImmediate where
  m_value : Int

namespace LogicalImmediate

def InvalidLogicalImmediate : LogicalImmediate := ⟨-1⟩

def isValid (immediate : LogicalImmediate) : Bool := immediate.m_value ≠ InvalidLogicalImmediate.m_value

/-! ## Bits -/

/-- The bits `hsb..0`; `hsb` is below 64. -/
def mask (hsb : UInt32) : UInt64 := 0xffffffffffffffff >>> (63 - hsb).toUInt64

def partialHSB (N : UInt64) (value : UInt64) (result : UInt32) : UInt64 × UInt32 :=
  if value &&& (0xffffffffffffffff <<< N) ≠ 0 then (value >>> N, result + N.toUInt32) else (value, result)

def highestSetBit (value : UInt64) : UInt32 :=
  let s := partialHSB 32 value 0
  let s := partialHSB 16 s.1 s.2
  let s := partialHSB 8 s.1 s.2
  let s := partialHSB 4 s.1 s.2
  let s := partialHSB 2 s.1 s.2
  (partialHSB 1 s.1 s.2).2

/-- The output of `findBitRange`. -/
structure BitRange where
  hsb : UInt32
  lsb : UInt32
  inverted : Bool

/-- `findBitRange` after the top bit has been looked at. -/
def findClearTopRange (inverted : Bool) (value : UInt64) : Option BitRange :=
  let hsb := highestSetBit value
  let value := value ^^^ mask hsb
  if value = 0 then some ⟨hsb, 0, inverted⟩
  else
    let lsb := highestSetBit value
    let value := value ^^^ mask lsb
    if value = 0 then some ⟨hsb, lsb + 1, inverted⟩ else none

def findBitRange (width : UInt32) (value : UInt64) : Option BitRange :=
  let msb : UInt64 := 1 <<< (width - 1).toUInt64
  if value &&& msb ≠ 0 then findClearTopRange true (value ^^^ mask (width - 1)) else findClearTopRange false value

/-! ## Fields -/

def encodeLogicalImmediate (width : UInt32) (range : BitRange) : LogicalImmediate :=
  let immN : UInt32 := if width = 64 then 1 else 0
  let imms : UInt32 := if width = 64 then 0 else 63 &&& ~~~(width + width - 1)
  let immr := if range.inverted then (width - 1) - range.hsb else (width - range.lsb) &&& (width - 1)
  let imms :=
    if range.inverted then imms ||| ((width - ((range.hsb - range.lsb) + 1)) - 1)
    else imms ||| (range.hsb - range.lsb)
  ⟨((immN <<< 12) ||| (immr <<< 6) ||| imms).toNat⟩

/-- A range of the value at this width is encoded. -/
def tryWidth (width : UInt32) (value : UInt64) (otherwise : LogicalImmediate) : LogicalImmediate :=
  match findBitRange width value with
  | some range => encodeLogicalImmediate width range
  | none => otherwise

/-- The low half of `width` bits goes on, if the high half is the same. -/
def narrow (width low value : UInt32) (next : UInt32 → LogicalImmediate) : LogicalImmediate :=
  if value &&& low ≠ value >>> width then InvalidLogicalImmediate else next (value &&& low)

def create32 (value : UInt32) : LogicalImmediate :=
  if value = 0 ∨ ~~~value = 0 then InvalidLogicalImmediate
  else
    tryWidth 32 value.toUInt64 <| narrow 16 0xffff value fun value =>
      tryWidth 16 value.toUInt64 <| narrow 8 0xff value fun value =>
        tryWidth 8 value.toUInt64 <| narrow 4 0xf value fun value =>
          tryWidth 4 value.toUInt64 <| narrow 2 0x3 value fun value =>
            tryWidth 2 value.toUInt64 InvalidLogicalImmediate

def create64 (value : UInt64) : LogicalImmediate :=
  if value = 0 ∨ ~~~value = 0 then InvalidLogicalImmediate
  else
    tryWidth 64 value <|
      if value.toUInt32 = (value >>> 32).toUInt32 then create32 value.toUInt32 else InvalidLogicalImmediate

end LogicalImmediate

end WebKit.JSC
