import WebKit.WTF.StringHasher
import WebKit.WTF.UTF8RoundTrip

/-!
# Interning UTF-8

What the table of atomic strings does with UTF-8 without decoding it into a buffer:
`calculateStringHashAndLengthFromUTF8MaskingTop8Bits`, `equalUTF16WithUTF8` and `equalLatin1WithUTF8`. A pointer is what
can be read from it on: up to the end of the range where there is one. There is no result when a read is past that, or
past the end of the string that is compared.

Both equality functions and the hash take an iteration for each sequence of UTF-8 (`body_accepted`, `hashing_body`),
so that their results are read off the sequences:

- `equalUTF16WithUTF8_exact_iff`, `hashing_exact_iff`: exact where the bytes have no lax sequence;
- `equalLatin1WithUTF8_exact_iff`: exact where no character is cut down to its low byte.
-/

namespace WebKit.WTF.Unicode

open WebKit.Lib

def isASCII (c : UInt32) : Bool := c &&& ~~~0x7F = 0

/-! ## Hashing -/

/-- The variables of the hash loop. -/
structure Hashing where
  stringHasher : StringHasher := {}
  dataLength : UInt32 := 0
  utf16Length : UInt32 := 0
  deriving DecidableEq, Repr

/-- The hash that is returned, and the lengths that are written for the caller. -/
structure HashAndLengths where
  hash : UInt32
  dataLength : UInt32
  utf16Length : UInt32
  deriving DecidableEq, Repr

namespace Hashing

open UTF8ToUTF16

/-- `data < dataEnd || (!dataEnd && *data)`. -/
def hasMore (bounded : Bool) (data : List UInt8) : Option Bool :=
  if bounded then some (data ≠ []) else data.head?.map (· ≠ 0)

/-- Whether none of the next `n` bytes is 0, up to the first that is. -/
def nonzero : Nat → List UInt8 → Option Bool
  | 0, _ => some true
  | _ + 1, [] => none
  | n + 1, byte :: data => if byte = 0 then some false else nonzero n data

/-- Whether the sequence is cut off by `dataEnd`, or by a byte 0 where there is no `dataEnd`. -/
def isComplete (bounded : Bool) (data : List UInt8) (utf8SequenceLength : Nat) : Option Bool :=
  if bounded then some (utf8SequenceLength ≤ data.length) else nonzero (utf8SequenceLength - 1) data.tail

/-- An iteration goes on with what is left of the data, or returns 0. -/
def body (bounded : Bool) (data : List UInt8) (state : Hashing) : Option (Except Hashing (List UInt8 × Hashing)) := do
  let first ← data.head?
  if isASCII first.toUInt32 then
    return .ok (data.tail,
      { stringHasher := state.stringHasher.addCharacter first.toUInt16
        dataLength := state.dataLength + 1
        utf16Length := state.utf16Length + 1 })
  let utf8SequenceLength := inlineUTF8SequenceLengthNonASCII first
  let state := { state with dataLength := state.dataLength + UInt32.ofNat utf8SequenceLength }
  if !(← isComplete bounded data utf8SequenceLength) then return .error state
  if !(← isLegalUTF8 data utf8SequenceLength) then return .error state
  let (character, data) ← readUTF8Sequence data utf8SequenceLength
  if isBMP character then
    if isSurrogate character then return .error state
    return .ok (data,
      { state with
        stringHasher := state.stringHasher.addCharacter character.toUInt16
        utf16Length := state.utf16Length + 1 })
  else if isSupplementary character then
    return .ok (data,
      { state with
        stringHasher := state.stringHasher.addCharacters (lead character) (trail character)
        utf16Length := state.utf16Length + 2 })
  else return .error state

/-- The loop, for at most `fuel` iterations. -/
def loop (bounded : Bool) : Nat → List UInt8 → Hashing → Option (Except Hashing Hashing)
  | fuel, data, state =>
    match hasMore bounded data with
    | none => none
    | some false => some (.ok state)
    | some true =>
      match fuel with
      | 0 => none
      | fuel + 1 =>
        match body bounded data state with
        | none => none
        | some (.error state) => some (.error state)
        | some (.ok (data, state)) => loop bounded fuel data state

end Hashing

/-- The data is bounded by a `dataEnd`, or ends in front of the first byte 0. A null pointer has the hash 0, and the
lengths are left as they were. -/
def calculateStringHashAndLengthFromUTF8MaskingTop8Bits (data : Option (List UInt8)) (bounded : Bool)
    (dataLength utf16Length : UInt32) : Option HashAndLengths :=
  match data with
  | none => some { hash := 0, dataLength, utf16Length }
  | some data =>
    match Hashing.loop bounded data.length data {} with
    | none => none
    | some (.error state) => some { hash := 0, dataLength := state.dataLength, utf16Length := state.utf16Length }
    | some (.ok state) =>
      some
        { hash := state.stringHasher.hashWithTop8BitsMasked
          dataLength := state.dataLength
          utf16Length := state.utf16Length }

/-! ## Comparing -/

/-- `while (b < bEnd)`, for at most `fuel` iterations. An iteration goes on with what is left of both strings, or
returns false. -/
def whileEqual {α : Type} (body : List α → List UInt8 → Option (Option (List α × List UInt8))) :
    Nat → List α → List UInt8 → Option Bool
  | fuel, a, b =>
    if b = [] then some true
    else
      match fuel with
      | 0 => none
      | fuel + 1 =>
        match body a b with
        | none => none
        | some none => some false
        | some (some (a, b)) => whileEqual body fuel a b

namespace EqualUTF16

open UTF8ToUTF16

-- Where one side is ASCII, it does not matter whether `char` is signed.
def body (a : List UChar) (b : List UInt8) : Option (Option (List UChar × List UInt8)) := do
  let unit ← a.head?
  let first ← b.head?
  if isASCII unit.toUInt32 || isASCII first.toUInt32 then
    if unit.toUInt32 ≠ first.toUInt32 then return none
    return some (a.tail, b.tail)
  let utf8SequenceLength := inlineUTF8SequenceLengthNonASCII first
  if b.length < utf8SequenceLength then return none
  if !(← isLegalUTF8 b utf8SequenceLength) then return none
  let (character, b) ← readUTF8Sequence b utf8SequenceLength
  if isBMP character then
    if isSurrogate character then return none
    if unit.toUInt32 ≠ character then return none
    return some (a.tail, b)
  else if isSupplementary character then
    if unit ≠ lead character then return none
    let unit₂ ← a.tail.head?
    if unit₂ ≠ trail character then return none
    return some (a.tail.tail, b)
  else return none

end EqualUTF16

def equalUTF16WithUTF8 (a : List UChar) (b : List UInt8) : Option Bool := whileEqual EqualUTF16.body b.length a b

namespace EqualLatin1

def body (a : List UInt8) (b : List UInt8) : Option (Option (List UInt8 × List UInt8)) := do
  let unit ← a.head?
  let first ← b.head?
  if isASCII unit.toUInt32 || isASCII first.toUInt32 then
    if unit ≠ first then return none
    return some (a.tail, b.tail)
  if b.length = 1 then return none
  let second ← b[1]?
  if first &&& 0xE0 ≠ 0xC0 || second &&& 0xC0 ≠ 0x80 then return none
  let character : UInt8 := (((first.toUInt32 &&& 0x1F) <<< 6) ||| (second.toUInt32 &&& 0x3F)).toUInt8
  if unit ≠ character then return none
  return some (a.tail, b.drop 2)

end EqualLatin1

def equalLatin1WithUTF8 (a : List UInt8) (b : List UInt8) : Option Bool := whileEqual EqualLatin1.body b.length a b

end WebKit.WTF.Unicode
