import WebKit.WTF.WTFString

/-!
# Base64

`base64EncodeInternal` and `base64DecodeInternal`. A cell of the output vector is `none` between `grow` and the first
write to it. There is no result when a cell is read before it is written, when a read or write is outside a vector or a
table, or when `count` passes `INT_MAX`. A `char` is a byte: where the code shifts one, it masks the sign away.
-/

namespace WebKit.WTF

inductive Base64EncodePolicy
  | Base64DoNotInsertLFs
  | Base64InsertLFs
  | Base64URLPolicy
  deriving DecidableEq, Repr

inductive Base64DecodePolicy
  | Base64FailOnInvalidCharacterOrExcessPadding
  | Base64FailOnInvalidCharacter
  | Base64IgnoreWhitespace
  | Base64IgnoreInvalidCharacters
  deriving DecidableEq, Repr

/-- `const char nonAlphabet = -1`. -/
def nonAlphabet : UInt8 := 0xFF

def base64EncMap : List UInt8 :=
  [0x41, 0x42, 0x43, 0x44, 0x45, 0x46, 0x47, 0x48,
   0x49, 0x4A, 0x4B, 0x4C, 0x4D, 0x4E, 0x4F, 0x50,
   0x51, 0x52, 0x53, 0x54, 0x55, 0x56, 0x57, 0x58,
   0x59, 0x5A, 0x61, 0x62, 0x63, 0x64, 0x65, 0x66,
   0x67, 0x68, 0x69, 0x6A, 0x6B, 0x6C, 0x6D, 0x6E,
   0x6F, 0x70, 0x71, 0x72, 0x73, 0x74, 0x75, 0x76,
   0x77, 0x78, 0x79, 0x7A, 0x30, 0x31, 0x32, 0x33,
   0x34, 0x35, 0x36, 0x37, 0x38, 0x39, 0x2B, 0x2F]

def base64DecMap : List UInt8 :=
  List.replicate 43 nonAlphabet ++
  [0x3E, nonAlphabet, nonAlphabet, nonAlphabet, 0x3F,
   0x34, 0x35, 0x36, 0x37, 0x38, 0x39, 0x3A, 0x3B,
   0x3C, 0x3D, nonAlphabet, nonAlphabet, nonAlphabet, nonAlphabet, nonAlphabet, nonAlphabet,
   nonAlphabet, 0x00, 0x01, 0x02, 0x03, 0x04, 0x05, 0x06,
   0x07, 0x08, 0x09, 0x0A, 0x0B, 0x0C, 0x0D, 0x0E,
   0x0F, 0x10, 0x11, 0x12, 0x13, 0x14, 0x15, 0x16,
   0x17, 0x18, 0x19, nonAlphabet, nonAlphabet, nonAlphabet, nonAlphabet, nonAlphabet,
   nonAlphabet, 0x1A, 0x1B, 0x1C, 0x1D, 0x1E, 0x1F, 0x20,
   0x21, 0x22, 0x23, 0x24, 0x25, 0x26, 0x27, 0x28,
   0x29, 0x2A, 0x2B, 0x2C, 0x2D, 0x2E, 0x2F, 0x30,
   0x31, 0x32, 0x33, nonAlphabet, nonAlphabet, nonAlphabet, nonAlphabet, nonAlphabet]

def base64URLEncMap : List UInt8 :=
  [0x41, 0x42, 0x43, 0x44, 0x45, 0x46, 0x47, 0x48,
   0x49, 0x4A, 0x4B, 0x4C, 0x4D, 0x4E, 0x4F, 0x50,
   0x51, 0x52, 0x53, 0x54, 0x55, 0x56, 0x57, 0x58,
   0x59, 0x5A, 0x61, 0x62, 0x63, 0x64, 0x65, 0x66,
   0x67, 0x68, 0x69, 0x6A, 0x6B, 0x6C, 0x6D, 0x6E,
   0x6F, 0x70, 0x71, 0x72, 0x73, 0x74, 0x75, 0x76,
   0x77, 0x78, 0x79, 0x7A, 0x30, 0x31, 0x32, 0x33,
   0x34, 0x35, 0x36, 0x37, 0x38, 0x39, 0x2D, 0x5F]

def base64URLDecMap : List UInt8 :=
  List.replicate 45 nonAlphabet ++
  [0x3E, nonAlphabet, nonAlphabet,
   0x34, 0x35, 0x36, 0x37, 0x38, 0x39, 0x3A, 0x3B,
   0x3C, 0x3D, nonAlphabet, nonAlphabet, nonAlphabet, nonAlphabet, nonAlphabet, nonAlphabet,
   nonAlphabet, 0x00, 0x01, 0x02, 0x03, 0x04, 0x05, 0x06,
   0x07, 0x08, 0x09, 0x0A, 0x0B, 0x0C, 0x0D, 0x0E,
   0x0F, 0x10, 0x11, 0x12, 0x13, 0x14, 0x15, 0x16,
   0x17, 0x18, 0x19, nonAlphabet, nonAlphabet, nonAlphabet, nonAlphabet, 0x3F,
   nonAlphabet, 0x1A, 0x1B, 0x1C, 0x1D, 0x1E, 0x1F, 0x20,
   0x21, 0x22, 0x23, 0x24, 0x25, 0x26, 0x27, 0x28,
   0x29, 0x2A, 0x2B, 0x2C, 0x2D, 0x2E, 0x2F, 0x30,
   0x31, 0x32, 0x33, nonAlphabet, nonAlphabet, nonAlphabet, nonAlphabet, nonAlphabet]

/-- A `Vector<char>`. -/
abbrev CharVector := List (Option UInt8)

namespace Base64

/-- `out[index]`. -/
def get (out : CharVector) (index : Nat) : Option UInt8 := out[index]?.join

/-- `out[index] = value`. -/
def put (out : CharVector) (index : Nat) (value : UInt8) : Option CharVector :=
  if index < out.length then some (out.set index (some value)) else none

/-! ## Encoding -/

/-- The six bits of a group of three bytes. -/
def sextet0 (a : UInt8) : UInt8 := (a >>> 2) &&& 0o77
def sextet1 (a b : UInt8) : UInt8 := ((b >>> 4) &&& (0o17 : UInt8)) ||| ((a <<< 4) &&& (0o77 : UInt8))
def sextet2 (b c : UInt8) : UInt8 := ((c >>> 6) &&& (0o03 : UInt8)) ||| ((b <<< 2) &&& (0o77 : UInt8))
def sextet3 (c : UInt8) : UInt8 := c &&& 0o77

/-- The last sextet behind one byte, and behind two. -/
def lastSextet1 (a : UInt8) : UInt8 := (a <<< 4) &&& 0o77
def lastSextet2 (b : UInt8) : UInt8 := (b <<< 2) &&& 0o77

/-- The vector, and the index that is written next. -/
structure Output where
  out : CharVector
  didx : Nat
  deriving DecidableEq

/-- `out[didx++] = value`. -/
def Output.emit (o : Output) (value : UInt8) : Option Output := do
  let out ← put o.out o.didx value
  return { out, didx := o.didx + 1 }

/-- The line feed in front of a group of four characters. -/
def emitFeed (insertLFs : Bool) (count : Nat) (o : Output) : Option Output :=
  if insertLFs ∧ count ≠ 0 ∧ count % 76 = 0 then o.emit 0x0A else some o

def maxInputBufferSize : Nat := 4294967295 / 77 * 76 / 4 * 3 - 2

def intMax : Nat := 2147483647

/-- The length without line feeds. -/
def paddedLength (len : Nat) : Nat := (len + 2) % 2 ^ 32 / 3 * 4 % 2 ^ 32

def insertsLFs (policy : Base64EncodePolicy) (len : Nat) : Bool :=
  policy = .Base64InsertLFs ∧ paddedLength len > 76

/-- The length that the vector is grown to. -/
def outLength (policy : Base64EncodePolicy) (len : Nat) : Nat :=
  if insertsLFs policy len then (paddedLength len + (paddedLength len - 1) / 76) % 2 ^ 32 else paddedLength len

section

variable (data : List UInt8) (encodeMap : List UInt8) (insertLFs : Bool)

/-- `while (sidx < len - 2)`, for at most `fuel` iterations: where it stops, `count`, and the output. -/
@[grind =] def encodeLoop : Nat → Nat → Nat → Output → Option (Nat × Nat × Output)
  | fuel, sidx, count, o =>
    if sidx < data.length - 2 then
      match fuel with
      | 0 => none
      | fuel + 1 => do
        let o ← emitFeed insertLFs count o
        let count := if insertLFs then count + 4 else count
        if count > intMax then none
        else
          let a ← data[sidx]?
          let b ← data[sidx + 1]?
          let c ← data[sidx + 2]?
          let o ← o.emit (← encodeMap[(sextet0 a).toNat]?)
          let o ← o.emit (← encodeMap[(sextet1 a b).toNat]?)
          let o ← o.emit (← encodeMap[(sextet2 b c).toNat]?)
          let o ← o.emit (← encodeMap[(sextet3 c).toNat]?)
          encodeLoop fuel (sidx + 3) count o
    else some (sidx, count, o)

/-- The last one or two bytes. -/
def encodeTail (sidx count : Nat) (o : Output) : Option Output :=
  if sidx < data.length then do
    let o ← emitFeed insertLFs count o -- `count > 0` here
    let a ← data[sidx]?
    let o ← o.emit (← encodeMap[(sextet0 a).toNat]?)
    if sidx < data.length - 1 then
      let b ← data[sidx + 1]?
      let o ← o.emit (← encodeMap[(sextet1 a b).toNat]?)
      o.emit (← encodeMap[(lastSextet2 b).toNat]?)
    else
      o.emit (← encodeMap[(lastSextet1 a).toNat]?)
  else some o

end

/-- `while (didx < out.size())`, as many times as there are cells left. -/
@[grind =] def padLoop : Nat → Output → Option Output
  | 0, o => some o
  | n + 1, o => do
    let o ← o.emit 0x3D
    padLoop n o

end Base64

open Base64 in
/-- The vector `out`, whose contents before the call do not matter. -/
def base64EncodeInternal (data : List UInt8) (policy : Base64EncodePolicy) (encodeMap : List UInt8) :
    Option CharVector := do
  if data.length = 0 then return []
  if data.length > maxInputBufferSize then return []
  let insertLFs := insertsLFs policy data.length
  let o : Output := { out := List.replicate (outLength policy data.length) none, didx := 0 }
  let whole := if data.length > 1 then encodeLoop data encodeMap insertLFs data.length 0 0 o else some (0, 0, o)
  let (sidx, count, o) ← whole
  let o ← encodeTail data encodeMap insertLFs sidx count o
  if policy = .Base64URLPolicy then return o.out.take o.didx
  else
    let o ← padLoop (o.out.length - o.didx) o
    return o.out

def base64Encode (data : List UInt8) (policy : Base64EncodePolicy) : Option CharVector :=
  base64EncodeInternal data policy base64EncMap

def base64URLEncode (data : List UInt8) : Option CharVector := base64EncodeInternal data .Base64URLPolicy base64URLEncMap

/-! ## Decoding -/

namespace Base64

structure Decoding where
  equalsSignCount : Nat
  outLength : Nat
  out : CharVector
  deriving DecidableEq

section

variable (isWhiteSpaceNeutral : UChar → Bool) (policy : Base64DecodePolicy) (decodeMap : List UInt8)

/-- The value of a character. -/
def decodedCharacter (ch : UChar) : Option UInt8 :=
  if ch.toNat < decodeMap.length then decodeMap[ch.toNat]? else some nonAlphabet

/-- A character that is neither padding nor in the alphabet ends the decoding. -/
def rejects (ch : UChar) : Bool :=
  policy = .Base64FailOnInvalidCharacterOrExcessPadding ∨ policy = .Base64FailOnInvalidCharacter ∨
    policy = .Base64IgnoreWhitespace ∧ !isSpaceOrNewline isWhiteSpaceNeutral ch

/-- The loop over the characters, `length` being that of the whole string; `some none` where the code returns
`false`. -/
@[grind =] def decodeLoop (length : Nat) : List UChar → Decoding → Option (Option Decoding)
  | [], d => some (some d)
  | ch :: data, d =>
    if ch = 0x3D then
      let d := { d with equalsSignCount := d.equalsSignCount + 1 }
      if policy = .Base64FailOnInvalidCharacterOrExcessPadding ∧ (length % 4 ≠ 0 ∨ d.equalsSignCount > 2) then some none
      else decodeLoop length data d
    else do
      let decodedCharacter ← decodedCharacter decodeMap ch
      if decodedCharacter ≠ nonAlphabet then
        if d.equalsSignCount ≠ 0 then return none
        let out ← put d.out d.outLength decodedCharacter
        decodeLoop length data { d with outLength := d.outLength + 1, out }
      else if rejects isWhiteSpaceNeutral policy ch then return none
      else decodeLoop length data d

end

/-- The bytes of a group of four sextets. -/
def byte0 (s t : UInt8) : UInt8 := ((s <<< 2) &&& (255 : UInt8)) ||| ((t >>> 4) &&& (0o03 : UInt8))
def byte1 (t u : UInt8) : UInt8 := ((t <<< 4) &&& (255 : UInt8)) ||| ((u >>> 2) &&& (0o17 : UInt8))
def byte2 (u v : UInt8) : UInt8 := ((u <<< 6) &&& (255 : UInt8)) ||| (v &&& (0o77 : UInt8))

/-- `while (didx < outLength - 2)`, for at most `fuel` iterations: where it stops, and the vector. -/
@[grind =] def joinLoop (outLength : Nat) : Nat → Nat → Nat → CharVector → Option (Nat × Nat × CharVector)
  | fuel, sidx, didx, out =>
    if didx < outLength - 2 then
      match fuel with
      | 0 => none
      | fuel + 1 => do
        let out ← put out didx (byte0 (← get out sidx) (← get out (sidx + 1)))
        let out ← put out (didx + 1) (byte1 (← get out (sidx + 1)) (← get out (sidx + 2)))
        let out ← put out (didx + 2) (byte2 (← get out (sidx + 2)) (← get out (sidx + 3)))
        joinLoop outLength fuel (sidx + 4) (didx + 3) out
    else some (sidx, didx, out)

/-- The last one or two bytes. -/
def joinTail (outLength sidx didx : Nat) (out : CharVector) : Option CharVector := do
  let first :=
    if didx < outLength then (do put out didx (byte0 (← get out sidx) (← get out (sidx + 1)))) else some out
  let out ← first
  let didx := didx + 1
  if didx < outLength then put out didx (byte1 (← get out (sidx + 1)) (← get out (sidx + 2))) else some out

end Base64

open Base64 in
/-- `some none` where the code returns `false`; otherwise the vector `out`. -/
def base64DecodeInternal (isWhiteSpaceNeutral : UChar → Bool) (data : List UChar) (policy : Base64DecodePolicy)
    (decodeMap : List UInt8) : Option (Option CharVector) := do
  if data.length = 0 then return some []
  let d : Decoding := { equalsSignCount := 0, outLength := 0, out := List.replicate data.length none }
  match ← decodeLoop isWhiteSpaceNeutral policy decodeMap data.length data d with
  | none => return none
  | some d =>
    if d.outLength = 0 then return if d.equalsSignCount = 0 then some d.out else none
    if d.outLength % 4 = 1 then return none
    let outLength := d.outLength - (d.outLength + 3) % 2 ^ 32 / 4
    if outLength = 0 then return none
    let whole := if outLength > 1 then joinLoop outLength outLength 0 0 d.out else some (0, 0, d.out)
    let (sidx, didx, out) ← whole
    let out ← joinTail outLength sidx didx out
    return some (if outLength < out.length then out.take outLength else out)

def base64Decode (isWhiteSpaceNeutral : UChar → Bool) (data : List UChar) (policy : Base64DecodePolicy) :
    Option (Option CharVector) :=
  base64DecodeInternal isWhiteSpaceNeutral data policy base64DecMap

def base64URLDecode (isWhiteSpaceNeutral : UChar → Bool) (data : List UChar) : Option (Option CharVector) :=
  base64DecodeInternal isWhiteSpaceNeutral data .Base64FailOnInvalidCharacter base64URLDecMap

end WebKit.WTF
