import WebKit.Lib.Bytes
import WebKit.WTF.WTFString

/-!
# UTF-8 and UTF-16 conversion

`convertUTF8ToUTF16` and `convertUTF16ToUTF8`. A source pointer is what is left between it and `sourceEnd`, a target
pointer a position in the cells up to `targetEnd`. There is no result when a read is past the end of the source, a write
outside the cells, or an index outside a table. A `UChar32` is never negative here and is a `UInt32`.
-/

namespace WebKit.WTF.Unicode

inductive ConversionResult
  | conversionOK
  | sourceExhausted
  | targetExhausted
  | sourceIllegal
  deriving DecidableEq, Repr

def replacementCharacter : UChar := 0xFFFD

/-! ## Targets and loops -/

/-- The cells from the target pointer of the caller to `targetEnd`, and how many of them are behind `target`. -/
structure Target (β : Type) where
  cells : List β
  position : Nat
  deriving DecidableEq

namespace Target

variable {β : Type}

/-- `*target++ = value`. -/
def put (target : Target β) (value : β) : Option (Target β) :=
  if target.position < target.cells.length then
    some { cells := target.cells.set target.position value, position := target.position + 1 }
  else none

/-- `*--target = value`. -/
def putBefore (target : Target β) (value : β) : Option (Target β) :=
  if 0 < target.position ∧ target.position ≤ target.cells.length then
    some { cells := target.cells.set (target.position - 1) value, position := target.position - 1 }
  else none

end Target

/-- The variables of a conversion loop: the two pointers, and what else is carried from one iteration to the next. -/
structure State (α β γ : Type) where
  source : List α
  target : Target β
  data : γ
  deriving DecidableEq

/-- An iteration goes on, or leaves the loop with a result. -/
inductive Iteration (σ : Type)
  | next (state : σ)
  | leave (result : ConversionResult) (state : σ)

/-- `while (source < sourceEnd)`, for at most `fuel` iterations. -/
def whileSource {α β γ : Type} (body : State α β γ → Option (Iteration (State α β γ))) :
    Nat → State α β γ → Option (ConversionResult × State α β γ)
  | fuel, state =>
    if state.source = [] then some (.conversionOK, state)
    else
      match fuel with
      | 0 => none
      | fuel + 1 =>
        match body state with
        | none => none
        | some (.leave result state) => some (result, state)
        | some (.next state) => whileSource body fuel state

/-! ## UTF-16 to UTF-8 -/

/-- The bits that mark the first byte of a sequence, by its length. -/
def firstByteMark : List UInt8 := [0x00, 0x00, 0xC0, 0xE0, 0xF0, 0xF8, 0xFC]

namespace UTF16ToUTF8

def byteMask : UInt32 := 0xBF
def byteMark : UInt32 := 0x80

/-- The next character, from a surrogate pair where there is one. -/
def read (strict : Bool) : List UChar → Option (Except ConversionResult (UInt32 × List UChar))
  | [] => none
  | unit :: source =>
    let ch := unit.toUInt32
    if ch ≥ 0xD800 ∧ ch ≤ 0xDBFF then
      match source with
      | unit₂ :: source₂ =>
        let ch2 := unit₂.toUInt32
        if ch2 ≥ 0xDC00 ∧ ch2 ≤ 0xDFFF then
          some (.ok (((ch - 0xD800) <<< 10) + (ch2 - 0xDC00) + 0x0010000, source₂))
        else if strict then some (.error .sourceIllegal) -- an unpaired high surrogate
        else some (.ok (ch, source))
      | [] => some (.error .sourceExhausted)
    else if strict ∧ ch ≥ 0xDC00 ∧ ch ≤ 0xDFFF then some (.error .sourceIllegal)
    else some (.ok (ch, source))

/-- How many bytes a character takes, and the character that is written. -/
def bytesToWrite (ch : UInt32) : Nat × UInt32 :=
  if ch < 0x80 then (1, ch)
  else if ch < 0x800 then (2, ch)
  else if ch < 0x10000 then (3, ch)
  else if ch < 0x110000 then (4, ch)
  else (3, replacementCharacter.toUInt32)

/-- The cases of the `switch` that write a trailing byte: as many of them as are left, the last byte first. -/
def writeTrailing : Nat → UInt32 → Target UInt8 → Option (UInt32 × Target UInt8)
  | 0, ch, target => some (ch, target)
  | n + 1, ch, target => do
    let target ← target.putBefore ((ch ||| byteMark) &&& byteMask).toUInt8
    writeTrailing n (ch >>> 6) target

def body (strict : Bool) (state : State UChar UInt8 Unit) : Option (Iteration (State UChar UInt8 Unit)) := do
  match ← read strict state.source with
  | .error result => return .leave result state
  | .ok (ch, source) =>
    let (n, ch) := bytesToWrite ch
    let target := { state.target with position := state.target.position + n }
    if target.position > target.cells.length then return .leave .targetExhausted state
    let (ch, target) ← writeTrailing (n - 1) ch target
    let mark ← firstByteMark[n]?
    let target ← target.putBefore (ch ||| mark.toUInt32).toUInt8
    return .next { source, target := { target with position := target.position + n }, data := () }

end UTF16ToUTF8

/-- The result, with what is left of the source and what was written. -/
def convertUTF16ToUTF8 (source : List UChar) (cells : List UInt8) (strict : Bool) :
    Option (ConversionResult × State UChar UInt8 Unit) :=
  whileSource (UTF16ToUTF8.body strict) source.length { source, target := { cells, position := 0 }, data := () }

/-! ## UTF-8 to UTF-16 -/

def inlineUTF8SequenceLengthNonASCII (b0 : UInt8) : Nat :=
  if b0 &&& 0xC0 ≠ 0xC0 then 0
  else if b0 &&& 0xE0 = 0xC0 then 2
  else if b0 &&& 0xF0 = 0xE0 then 3
  else if b0 &&& 0xF8 = 0xF0 then 4
  else 0

def inlineUTF8SequenceLength (b0 : UInt8) : Nat :=
  if b0 &&& ~~~0x7F = 0 then 1 else inlineUTF8SequenceLengthNonASCII b0

namespace isLegalUTF8

variable (source : List UInt8)

def case1 : Option Bool := do
  let first ← source[0]?
  if first ≥ 0x80 ∧ first < 0xC2 then return false
  if first > 0xF4 then return false
  return true

def case2 : Option Bool := do
  let a ← source[1]?
  if a > 0xBF then return false
  let first ← source[0]?
  if first = 0xE0 then
    if a < 0xA0 then return false else case1 source
  else if first = 0xED then
    if a > 0x9F then return false else case1 source
  else if first = 0xF0 then
    if a < 0x90 then return false else case1 source
  else if first = 0xF4 then
    if a > 0x8F then return false else case1 source
  else if a < 0x80 then return false else case1 source

def case3 : Option Bool := do
  let a ← source[2]?
  if a < 0x80 ∨ a > 0xBF then return false
  case2 source

def case4 : Option Bool := do
  let a ← source[3]?
  if a < 0x80 ∨ a > 0xBF then return false
  case3 source

end isLegalUTF8

/-- The cases of the `switch` fall through from the last byte to the first. -/
def isLegalUTF8 (source : List UInt8) : Nat → Option Bool
  | 4 => isLegalUTF8.case4 source
  | 3 => isLegalUTF8.case3 source
  | 2 => isLegalUTF8.case2 source
  | 1 => isLegalUTF8.case1 source
  | _ => some false

/-- Subtracted from the sum of the shifted bytes of a sequence, by the number of trailing bytes. -/
def offsetsFromUTF8 : List UInt32 := [0x00000000, 0x00003080, 0x000E2080, 0x03C82080, 0xFA082080, 0x82082080]

namespace UTF8ToUTF16

/-- The bytes added up and shifted, and the sequence behind them. -/
def sumSequence : Nat → UInt32 → List UInt8 → Option (UInt32 × List UInt8)
  | 0, character, sequence => some (character, sequence)
  | 1, character, byte :: sequence => some (character + byte.toUInt32, sequence)
  | length + 2, character, byte :: sequence => sumSequence (length + 1) ((character + byte.toUInt32) <<< 6) sequence
  | _, _, [] => none

def readUTF8Sequence (sequence : List UInt8) : Nat → Option (UInt32 × List UInt8)
  | 0 => none
  | length + 1 => do
    let (character, sequence) ← sumSequence (length + 1) 0 sequence
    let offset ← offsetsFromUTF8[length]?
    return (character - offset, sequence)

def isBMP (c : UInt32) : Bool := c ≤ 0xffff
def isSupplementary (c : UInt32) : Bool := c - 0x10000 ≤ 0xfffff
def isSurrogate (c : UInt32) : Bool := c &&& 0xfffff800 = 0xd800
def lead (supplementary : UInt32) : UChar := ((supplementary >>> 10) + 0xd7c0).toUInt16
def trail (supplementary : UInt32) : UChar := ((supplementary &&& 0x3ff) ||| 0xdc00).toUInt16

/-- `data` is `orAllData`. Where the loop is left, `source` is back at the start of the sequence. -/
def body (strict : Bool) (state : State UInt8 UChar UChar) : Option (Iteration (State UInt8 UChar UChar)) := do
  let first ← state.source.head?
  let utf8SequenceLength := inlineUTF8SequenceLength first
  if state.source.length < utf8SequenceLength then return .leave .sourceExhausted state
  if !(← isLegalUTF8 state.source utf8SequenceLength) then return .leave .sourceIllegal state
  let (character, source) ← readUTF8Sequence state.source utf8SequenceLength
  let target := state.target
  if target.position ≥ target.cells.length then return .leave .targetExhausted state
  if isBMP character then
    if isSurrogate character then
      if strict then return .leave .sourceIllegal state
      let target ← target.put replacementCharacter
      return .next { source, target, data := state.data ||| replacementCharacter }
    let target ← target.put character.toUInt16
    return .next { source, target, data := state.data ||| character.toUInt16 }
  else if isSupplementary character then
    if target.position + 1 ≥ target.cells.length then return .leave .targetExhausted state
    let target ← target.put (lead character)
    let target ← target.put (trail character)
    return .next { source, target, data := 0xffff }
  else
    if strict then return .leave .sourceIllegal state
    let target ← target.put replacementCharacter
    return .next { source, target, data := state.data ||| replacementCharacter }

end UTF8ToUTF16

/-- The result, with what is left of the source and what was written. -/
def convertUTF8ToUTF16 (source : List UInt8) (cells : List UChar) (strict : Bool) :
    Option (ConversionResult × State UInt8 UChar UChar) :=
  whileSource (UTF8ToUTF16.body strict) source.length { source, target := { cells, position := 0 }, data := 0 }

/-- `*sourceAllASCII`. -/
def sourceAllASCII (state : State UInt8 UChar UChar) : Bool := state.data &&& ~~~0x7f = 0

end WebKit.WTF.Unicode
