import WebKit.WTF.StringUTF8

/-!
# URI coding

`encodeURI`, `encodeURIComponent`, `decodeURI`, `decodeURIComponent` and what they are made of. A read outside the
characters of the string has no result. 8-bit characters are decoded as the `UChar`s of the same values: the code is one
template. A builder that runs out of memory is left out.
-/

namespace WebKit.WTF

def isASCIIHexDigit (c : UChar) : Bool := isASCIIDigit c || ((c ||| 0x20) ≥ 0x61 && (c ||| 0x20) ≤ 0x66)

def toASCIIHexValue (c : UChar) : UChar :=
  if c < 0x41 then c - 0x30
  else
    let value := c - 0x41 + 10
    value &&& 0xF

namespace Unicode

/-- `decodeUTF8Sequence`, which gives -1 for what is not the sequence of a character, with a 0 behind it. -/
def decodeUTF8Sequence (sequence : List UInt8) : Option Int := do
  let b0 ← sequence[0]?
  let length := inlineUTF8SequenceLength b0
  if length = 0 then return -1
  let b1 ← sequence[1]?
  if length = 1 then
    if b1 ≠ 0 then return -1
    return b0.toNat
  if b1 &&& 0xC0 ≠ 0x80 then return -1
  let b2 ← sequence[2]?
  if length = 2 then
    if b2 ≠ 0 then return -1
    let c := ((b0 &&& 0x1F).toNat <<< 6) ||| (b1 &&& 0x3F).toNat
    if c < 0x80 then return -1
    return c
  if b2 &&& 0xC0 ≠ 0x80 then return -1
  let b3 ← sequence[3]?
  if length = 3 then
    if b3 ≠ 0 then return -1
    let c := (((b0 &&& 0xF).toNat <<< 12) ||| ((b1 &&& 0x3F).toNat <<< 6)) ||| (b2 &&& 0x3F).toNat
    if c < 0x800 then return -1
    if c ≥ 0xD800 ∧ c ≤ 0xDFFF then return -1
    return c
  if b3 &&& 0xC0 ≠ 0x80 then return -1
  let b4 ← sequence[4]?
  if length = 4 then
    if b4 ≠ 0 then return -1
    let c := ((((b0 &&& 0x7).toNat <<< 18) ||| ((b1 &&& 0x3F).toNat <<< 12)) ||| ((b2 &&& 0x3F).toNat <<< 6)) |||
      (b3 &&& 0x3F).toNat
    if c < 0x10000 ∨ c > 0x10FFFF then return -1
    return c
  return -1

end Unicode

end WebKit.WTF

namespace WebKit.JSC

open WTF WTF.Unicode

namespace Lexer

def convertHex (c1 c2 : UChar) : UInt8 := ((toASCIIHexValue c1 <<< 4) ||| toASCIIHexValue c2).toUInt8

def convertUnicode (c1 c2 c3 c4 : UChar) : UChar := ((convertHex c1 c2).toUInt16 <<< 8) ||| (convertHex c3 c4).toUInt16

end Lexer

/-- A `JSStringBuilder`, which `m_is8Bit` or not. -/
inductive JSStringBuilder
  | buffer8 (units : List UInt8)
  | buffer16 (units : List UChar)

namespace JSStringBuilder

def append : JSStringBuilder → UChar → JSStringBuilder
  | buffer8 units, character =>
    if character < 0x100 then buffer8 (units ++ [character.toUInt8])
    else buffer16 (units.map (·.toUInt16) ++ [character])
  | buffer16 units, character => buffer16 (units ++ [character])

def build : JSStringBuilder → StringImpl
  | buffer8 units => .latin1 units
  | buffer16 units => .utf16 units

@[simp] theorem characters_append (builder : JSStringBuilder) (character : UChar) :
    (builder.append character).build.characters = builder.build.characters ++ [character] := by
  cases builder with
  | buffer8 units =>
    simp only [append]
    split_ifs with h
    · have hnarrow : character.toUInt8.toUInt16 = character := by
        apply UInt16.toNat.inj
        rw [UInt8.toNat_toUInt16, UInt16.toNat_toUInt8]
        exact Nat.mod_eq_of_lt (UInt16.lt_iff_toNat_lt.1 h)
      simp [build, StringImpl.characters, hnarrow]
    · simp [build, StringImpl.characters]
  | buffer16 units => rfl

theorem characters_foldl_append (units : List UChar) (builder : JSStringBuilder) :
    (units.foldl append builder).build.characters = builder.build.characters ++ units := by
  induction units generalizing builder with
  | nil => simp
  | cons unit units ih => rw [List.foldl_cons, ih, characters_append]; simp

end JSStringBuilder

structure URIError where
  message : String
  deriving DecidableEq

/-! ## Encoding -/

/-- A digit of `%02X`. -/
def upperHexDigit (n : UInt8) : UInt8 := if n < 10 then 0x30 + n else 0x41 + (n - 10)

/-- What `encode` appends for a byte. -/
def encodeByte (doNotEscape : List UInt8) (c : UInt8) : List UInt8 :=
  if c ≠ 0 ∧ c ∈ doNotEscape then [c] else [0x25, upperHexDigit (c / 16), upperHexDigit (c % 16)]

def encode (string : StringImpl) (doNotEscape : List UInt8) : Option (Except URIError StringImpl) := do
  match ← string.utf8 true with
  | none => return .error ⟨"String contained an illegal UTF-16 sequence."⟩
  | some cstr =>
    let appended := (cstr.flatMap (encodeByte doNotEscape)).map (·.toUInt16)
    return .ok (appended.foldl JSStringBuilder.append (.buffer8 [])).build

/-! ## Decoding -/

variable (characters : List UChar) (length : Int)

/-- The bytes of the escapes from the `i`-th on, with nothing where there is no escape. -/
def readEscapes (k : Nat) : Nat → Nat → Option (Option (List UInt8))
  | _, 0 => some (some [])
  | i, n + 1 => do
    let q := k + i * 3
    let q0 ← characters[q]?
    if q0 ≠ 0x25 then return none
    let q1 ← characters[q + 1]?
    if !isASCIIHexDigit q1 then return none
    let q2 ← characters[q + 2]?
    if !isASCIIHexDigit q2 then return none
    let sequence ← readEscapes k (i + 1) n
    return sequence.map (Lexer.convertHex q1 q2 :: ·)

/-- `character` and `charLen` for the escapes at `k`, the first of which is of `b0`. -/
def readSequence (k : Nat) (b0 : UInt8) : Option (Option (Nat × Nat)) := do
  let sequenceLen := inlineUTF8SequenceLength b0
  if sequenceLen = 0 then return none
  if ¬ k ≤ length - sequenceLen * 3 then return none
  match ← readEscapes characters k 1 (sequenceLen - 1) with
  | none => return none
  | some sequence =>
    let character ← decodeUTF8Sequence (b0 :: sequence ++ [0])
    if character < 0 ∨ character ≥ 0x110000 then return none
    return some (character.toNat, sequenceLen * 3)

/-- `character` and `charLen` for the `%` at `k`, with nothing where `charLen` stays 0. -/
def readCharacter (k : Nat) : Option (Option (Nat × Nat)) := do
  if ¬ k ≤ length - 3 then return none
  let p1 ← characters[k + 1]?
  if !isASCIIHexDigit p1 then return none
  let p2 ← characters[k + 2]?
  if !isASCIIHexDigit p2 then return none
  readSequence characters length k (Lexer.convertHex p1 p2)

/-- The unit of a `%u` escape at `k`. -/
def readUnicodeEscape (k : Nat) : Option (Option UChar) := do
  if ¬ k ≤ length - 6 then return none
  if (← characters[k + 1]?) ≠ 0x75 then return none
  let p2 ← characters[k + 2]?
  if !isASCIIHexDigit p2 then return none
  let p3 ← characters[k + 3]?
  if !isASCIIHexDigit p3 then return none
  let p4 ← characters[k + 4]?
  if !isASCIIHexDigit p4 then return none
  let p5 ← characters[k + 5]?
  if !isASCIIHexDigit p5 then return none
  return some (Lexer.convertUnicode p2 p3 p4 p5)

/-- What is appended for the escape of `u` that has `charLen` units, and how far `k` moves. -/
def appendUnescaped (doNotUnescape : List UChar) (u : UChar) (charLen : Nat) : List UChar × Nat :=
  if u = 0 ∨ u ≥ 128 ∨ u ∉ doNotUnescape then ([u], charLen) else ([0x25], 1)

/-- `u` for a character, after the lead surrogate where there is one. -/
def surrogates (character : Nat) : List UChar × UChar :=
  if character ≥ 0x10000 then
    ([UInt16.ofNat (0xD800 ||| (character - 0x10000) >>> 10)], UInt16.ofNat (0xDC00 ||| ((character - 0x10000) &&& 0x3FF)))
  else ([], UInt16.ofNat character)

/-- An iteration of `decode`: what it appends and how far `k` moves. -/
def decodeStep (doNotUnescape : List UChar) (strict : Bool) (k : Nat) :
    Option (Except URIError (List UChar × Nat)) := do
  let c ← characters[k]?
  if c ≠ 0x25 then return .ok ([c], 1)
  match ← readCharacter characters length k with
  | some (character, charLen) =>
    let (high, u) := surrogates character
    let (units, moved) := appendUnescaped doNotUnescape u charLen
    return .ok (high ++ units, moved)
  | none =>
    if strict then return .error ⟨"URI error"⟩
    match ← readUnicodeEscape characters length k with
    | some u => return .ok (appendUnescaped doNotUnescape u 6)
    | none => return .ok ([c], 1)

/-- The `while` loop of `decode`, which makes at most `fuel` iterations. -/
def decodeLoop (doNotUnescape : List UChar) (strict : Bool) :
    Nat → Nat → JSStringBuilder → Option (Except URIError JSStringBuilder)
  | 0, _, _ => none
  | fuel + 1, k, builder =>
    if k < length then do
      match ← decodeStep characters length doNotUnescape strict k with
      | .error error => return .error error
      | .ok (units, moved) => decodeLoop doNotUnescape strict fuel (k + moved) (units.foldl JSStringBuilder.append builder)
    else some (.ok builder)

/-- `decode`, whose `length` is an `int`. -/
def decode (string : StringImpl) (doNotUnescape : List UChar) (strict : Bool) :
    Option (Except URIError StringImpl) := do
  let characters := string.characters
  let length := (characters.length : Int).bmod (2 ^ 32)
  let builder ← decodeLoop characters length doNotUnescape strict (characters.length + 1) 0 (.buffer8 [])
  return builder.map JSStringBuilder.build

/-! ## The functions of the global object -/

def lettersAndDigits : List UInt8 :=
  (List.range 26).map (fun i => UInt8.ofNat (0x41 + i)) ++ (List.range 26).map (fun i => UInt8.ofNat (0x61 + i)) ++
    (List.range 10).map (fun i => UInt8.ofNat (0x30 + i))

/-- The letters, the digits and `!#$&'()*+,-./:;=?@_~`. -/
def do_not_escape_when_encoding_URI : List UInt8 :=
  lettersAndDigits ++ [0x21, 0x23, 0x24, 0x26, 0x27, 0x28, 0x29, 0x2A, 0x2B, 0x2C, 0x2D, 0x2E, 0x2F, 0x3A, 0x3B, 0x3D,
    0x3F, 0x40, 0x5F, 0x7E]

/-- The letters, the digits and `!'()*-._~`. -/
def do_not_escape_when_encoding_URI_component : List UInt8 :=
  lettersAndDigits ++ [0x21, 0x27, 0x28, 0x29, 0x2A, 0x2D, 0x2E, 0x5F, 0x7E]

/-- `#$&+,/:;=?@`. -/
def do_not_unescape_when_decoding_URI : List UChar :=
  [0x23, 0x24, 0x26, 0x2B, 0x2C, 0x2F, 0x3A, 0x3B, 0x3D, 0x3F, 0x40]

def globalFuncDecodeURI (string : StringImpl) : Option (Except URIError StringImpl) :=
  decode string do_not_unescape_when_decoding_URI true

def globalFuncDecodeURIComponent (string : StringImpl) : Option (Except URIError StringImpl) := decode string [] true

def globalFuncEncodeURI (string : StringImpl) : Option (Except URIError StringImpl) :=
  encode string do_not_escape_when_encoding_URI

def globalFuncEncodeURIComponent (string : StringImpl) : Option (Except URIError StringImpl) :=
  encode string do_not_escape_when_encoding_URI_component

end WebKit.JSC
