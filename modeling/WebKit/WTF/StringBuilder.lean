import WebKit.WTF.StringStorage
import WebKit.WTF.UTF8

/-!
# String builders

`WTF::StringBuilder` builds a string in a buffer, of 8-bit characters as long as these do, or only refers to a string
that it was given or has handed out. A buffer may be shared with strings that were handed out; it is changed in place
(`reallocate`) only when nothing else refers to it, which `shared` tells of the blocks.

The blocks are an argument and a result of each function. `m_bufferCharacters8` is the start of `m_buffer`. What
`append` writes from a pointer is a list, whose 8-bit characters are given as code units.

A state has the blocks, the builders and the strings that are in use, and `step` is one call on it.
-/

namespace WebKit.WTF

structure StringBuilder where
  m_length : Nat
  m_string : Option SharedString
  m_buffer : Option Nat
  m_is8Bit : Bool
  deriving DecidableEq, Repr

namespace StringBuilder

/-- The constructor. -/
def create : StringBuilder := ⟨0, none, none, true⟩

def expandedCapacity (capacity requiredLength : Nat) : Nat := max requiredLength (max 16 (capacity * 2 % 2 ^ 32))

/-! ## Access -/

def capacity (b : StringBuilder) (blocks : Blocks) : Except Fault Nat :=
  match b.m_buffer with
  | none => .ok b.m_length
  | some id => do
    let buffer ← findBlock blocks id
    return buffer.length

/-- `characters8` and `characters16`. -/
def characters (b : StringBuilder) : Option Pointer :=
  if b.m_length = 0 then none else
    match b.m_string with
    | some s => some s.pointer
    | none => b.m_buffer.map fun id => ⟨id, 0⟩

/-- What `operator[]` returns. -/
def get (b : StringBuilder) (blocks : Blocks) (i : Nat) : Except Fault UChar := do
  let characters ← readCharacters blocks (b.characters.map fun p => ⟨p.block, p.offset + i⟩) b.m_is8Bit 1
  (characters.head?).elim (.error .outOfBounds) .ok

/-! ## Buffers -/

/-- A new buffer of the width `to8`, with the characters at `current`, which have the width `from8`. -/
def fillBuffer (b : StringBuilder) (blocks : Blocks) (from8 to8 : Bool) (current : Option Pointer)
    (requiredLength : Nat) : Except Fault (Blocks × StringBuilder) := do
  let (id, blocks) ← createUninitialized blocks to8 requiredLength
  let characters ← readCharacters blocks current from8 b.m_length
  let blocks ← writeCharacters blocks ⟨id, 0⟩ to8 characters
  return (blocks, { b with m_buffer := some id, m_string := none })

def allocateBuffer (b : StringBuilder) (blocks : Blocks) (is8Bit : Bool) (current : Option Pointer)
    (requiredLength : Nat) : Except Fault (Blocks × StringBuilder) :=
  b.fillBuffer blocks is8Bit is8Bit current requiredLength

def allocateBufferUpConvert (b : StringBuilder) (blocks : Blocks) (current : Option Pointer) (requiredLength : Nat) :
    Except Fault (Blocks × StringBuilder) := do
  let (blocks, b) ← b.fillBuffer blocks true false current requiredLength
  return (blocks, { b with m_is8Bit := false })

section

variable (shared : Nat → Bool)

/-- Nothing but `m_buffer` refers to the block. -/
def hasOneRef (b : StringBuilder) (id : Nat) : Bool := !(b.m_string.any (·.block = id)) && !shared id

def reallocateBuffer (b : StringBuilder) (blocks : Blocks) (is8Bit : Bool) (requiredLength : Nat) :
    Except Fault (Blocks × StringBuilder) :=
  match b.m_buffer with
  | none => .error .outOfBounds
  | some id => do
    let b := { b with m_string := none }
    let buffer ← findBlock blocks id
    if !is8Bit && buffer.is8Bit then b.allocateBufferUpConvert blocks (some ⟨id, 0⟩) requiredLength
    else if b.hasOneRef shared id then do
      let (id, blocks) ← reallocate blocks id is8Bit requiredLength
      return (blocks, { b with m_buffer := some id })
    else b.allocateBuffer blocks is8Bit (some ⟨id, 0⟩) requiredLength

def reserveCapacity (b : StringBuilder) (blocks : Blocks) (newCapacity : Nat) : Except Fault (Blocks × StringBuilder) :=
  match b.m_buffer with
  | some id => do
    let buffer ← findBlock blocks id
    if buffer.length < newCapacity then b.reallocateBuffer shared blocks buffer.is8Bit newCapacity
    else return (blocks, b)
  | none =>
    if newCapacity ≤ b.m_length then .ok (blocks, b)
    else if b.m_length = 0 then b.allocateBuffer blocks true none newCapacity
    else
      match b.m_string with
      | none => .error .outOfBounds
      | some s => do
        let is8Bit ← s.is8Bit blocks
        b.allocateBuffer blocks is8Bit (some s.pointer) newCapacity

/-- The pointer is the end of what was there. -/
def appendUninitializedSlow (b : StringBuilder) (blocks : Blocks) (is8Bit : Bool) (requiredLength : Nat) :
    Except Fault (Blocks × StringBuilder × Pointer) := do
  let capacity ← b.capacity blocks
  let newCapacity := expandedCapacity capacity requiredLength
  let (blocks, b) ←
    match b.m_buffer with
    | some _ => b.reallocateBuffer shared blocks is8Bit newCapacity
    | none =>
      let current := if b.m_length = 0 then none else b.m_string.map SharedString.pointer
      b.allocateBuffer blocks is8Bit current newCapacity
  let id ← b.m_buffer.elim (.error .outOfBounds) .ok
  return (blocks, { b with m_length := requiredLength }, ⟨id, b.m_length⟩)

def appendUninitialized (b : StringBuilder) (blocks : Blocks) (is8Bit : Bool) (length : Nat) :
    Except Fault (Blocks × StringBuilder × Pointer) :=
  let requiredLength := (length + b.m_length) % 2 ^ 32
  if requiredLength < length then .error .crash else
    match b.m_buffer with
    | none => b.appendUninitializedSlow shared blocks is8Bit requiredLength
    | some id => do
      let buffer ← findBlock blocks id
      if requiredLength ≤ buffer.length then
        return (blocks, { b with m_string := none, m_length := requiredLength }, ⟨id, b.m_length⟩)
      else b.appendUninitializedSlow shared blocks is8Bit requiredLength

/-! ## Appending -/

/-- What is written to the storage that was made available. -/
def appendInPlace (b : StringBuilder) (blocks : Blocks) (is8Bit : Bool) (characters : List UChar) :
    Except Fault (Blocks × StringBuilder) := do
  let (blocks, b, destination) ← b.appendUninitialized shared blocks is8Bit characters.length
  let blocks ← writeCharacters blocks destination is8Bit characters
  return (blocks, b)

/-- `append` of LChars. -/
def append8 (b : StringBuilder) (blocks : Blocks) (characters : List UChar) : Except Fault (Blocks × StringBuilder) :=
  if characters = [] then .ok (blocks, b) else b.appendInPlace shared blocks b.m_is8Bit characters

/-- `append` of UChars. -/
def append16 (b : StringBuilder) (blocks : Blocks) (characters : List UChar) : Except Fault (Blocks × StringBuilder) :=
  if characters = [] then .ok (blocks, b)
  else if b.m_is8Bit then
    if characters.length = 1 && characters.all (fun c => c &&& 0xff00 = 0) then b.append8 shared blocks characters
    else
      let requiredLength := (characters.length + b.m_length) % 2 ^ 32
      if requiredLength < characters.length then .error .crash else do
        let capacity ← b.capacity blocks
        let current := b.m_buffer.elim (b.m_string.map SharedString.pointer) fun id => some ⟨id, 0⟩
        let (blocks, b) ← b.allocateBufferUpConvert blocks current (expandedCapacity capacity requiredLength)
        let id ← b.m_buffer.elim (.error .outOfBounds) .ok
        let blocks ← writeCharacters blocks ⟨id, b.m_length⟩ false characters
        return (blocks, { b with m_length := requiredLength })
  else b.appendInPlace shared blocks false characters

def append (b : StringBuilder) (blocks : Blocks) (is8Bit : Bool) (characters : List UChar) :
    Except Fault (Blocks × StringBuilder) :=
  if is8Bit then b.append8 shared blocks characters else b.append16 shared blocks characters

/-- One character behind the last one of the buffer. -/
def appendOne (b : StringBuilder) (blocks : Blocks) (id : Nat) (c : UChar) : Except Fault (Blocks × StringBuilder) := do
  let blocks ← writeCharacters blocks ⟨id, b.m_length⟩ b.m_is8Bit [c]
  return (blocks, { b with m_length := b.m_length + 1 })

def appendUChar (b : StringBuilder) (blocks : Blocks) (c : UChar) : Except Fault (Blocks × StringBuilder) :=
  match b.m_buffer with
  | none => b.append16 shared blocks [c]
  | some id => do
    let buffer ← findBlock blocks id
    if b.m_length < buffer.length && b.m_string.isNone && (!b.m_is8Bit || c &&& 0xff00 = 0) then b.appendOne blocks id c
    else b.append16 shared blocks [c]

def appendLChar (b : StringBuilder) (blocks : Blocks) (c : UChar) : Except Fault (Blocks × StringBuilder) :=
  match b.m_buffer with
  | none => b.append8 shared blocks [c]
  | some id => do
    let buffer ← findBlock blocks id
    if b.m_length < buffer.length && b.m_string.isNone then b.appendOne blocks id c else b.append8 shared blocks [c]

def appendUChar32 (b : StringBuilder) (blocks : Blocks) (c : UInt32) : Except Fault (Blocks × StringBuilder) :=
  if Unicode.UTF8ToUTF16.isBMP c then b.appendUChar shared blocks c.toUInt16 else do
    let (blocks, b) ← b.appendUChar shared blocks (Unicode.UTF8ToUTF16.lead c)
    b.appendUChar shared blocks (Unicode.UTF8ToUTF16.trail c)

def appendString (b : StringBuilder) (blocks : Blocks) : Option SharedString → Except Fault (Blocks × StringBuilder)
  | none => .ok (blocks, b)
  | some s =>
    if s.length = 0 then .ok (blocks, b) else do
      let is8Bit ← s.is8Bit blocks
      if b.m_length = 0 && b.m_buffer.isNone then
        return (blocks, { b with m_string := some s, m_length := s.length, m_is8Bit := is8Bit })
      else
        let characters ← readCharacters blocks (some s.pointer) is8Bit s.length
        b.append shared blocks is8Bit characters

/-- `append` of a part of a string. -/
def appendSubstring (b : StringBuilder) (blocks : Blocks) (offset length : Nat) :
    Option SharedString → Except Fault (Blocks × StringBuilder)
  | none => .ok (blocks, b)
  | some s =>
    if s.length = 0 || s.length < (offset + length) % 2 ^ 32 then .ok (blocks, b) else do
      let is8Bit ← s.is8Bit blocks
      let characters ← readCharacters blocks (some ⟨s.block, s.offset + offset⟩) is8Bit length
      b.append shared blocks is8Bit characters

/-- `append` of what another builder has built. -/
def appendBuilder (b : StringBuilder) (blocks : Blocks) (other : StringBuilder) : Except Fault (Blocks × StringBuilder) :=
  if other.m_length = 0 then .ok (blocks, b)
  else if b.m_length = 0 && b.m_buffer.isNone && other.m_string.isSome then
    .ok (blocks, { b with m_string := other.m_string, m_length := other.m_length })
  else do
    let characters ← readCharacters blocks other.characters other.m_is8Bit other.m_length
    b.append shared blocks other.m_is8Bit characters

/-! ## Shrinking and strings -/

def resize (b : StringBuilder) (blocks : Blocks) (newSize : Nat) : Except Fault (Blocks × StringBuilder) :=
  if newSize = b.m_length then .ok (blocks, b) else
    match b.m_buffer with
    | some id => do
      let b := { b with m_string := none }
      let buffer ← findBlock blocks id
      let (blocks, b) ←
        if b.hasOneRef shared id then .ok (blocks, b)
        else b.allocateBuffer blocks buffer.is8Bit (some ⟨id, 0⟩) buffer.length
      return (blocks, { b with m_length := newSize })
    | none =>
      match b.m_string with
      | none => .error .outOfBounds
      | some s => .ok (blocks, { b with m_length := newSize, m_string := some (s.createSubstringSharing 0 newSize) })

def canShrink (b : StringBuilder) (blocks : Blocks) : Except Fault Bool :=
  match b.m_buffer with
  | none => .ok false
  | some id => do
    let buffer ← findBlock blocks id
    return decide ((b.m_length + b.m_length / 4) % 2 ^ 32 < buffer.length)

def shrinkToFit (b : StringBuilder) (blocks : Blocks) : Except Fault (Blocks × StringBuilder) := do
  let canShrink ← b.canShrink blocks
  if canShrink then
    let (blocks, b) ← b.reallocateBuffer shared blocks b.m_is8Bit b.m_length
    let id ← b.m_buffer.elim (.error .outOfBounds) .ok
    let s ← SharedString.ofBlock blocks id
    return (blocks, { b with m_string := some s, m_buffer := none })
  else return (blocks, b)

def reifyString (b : StringBuilder) (blocks : Blocks) : Except Fault (Blocks × StringBuilder) :=
  match b.m_string with
  | some _ => .ok (blocks, b)
  | none =>
    if b.m_length = 0 then .ok (blocks, { b with m_string := some .empty }) else
      match b.m_buffer with
      | none => .error .outOfBounds
      | some id => do
        let s ← SharedString.ofBlock blocks id
        return (blocks, { b with m_string := some (if b.m_length = s.length then s else s.createSubstringSharing 0 b.m_length) })

/-- The string that `toString` returns is `m_string`. -/
def toString (b : StringBuilder) (blocks : Blocks) : Except Fault (Blocks × StringBuilder) := do
  let (blocks, b) ← b.shrinkToFit shared blocks
  b.reifyString blocks

/-- The string that `toStringPreserveCapacity` returns is `m_string`. -/
def toStringPreserveCapacity (b : StringBuilder) (blocks : Blocks) : Except Fault (Blocks × StringBuilder) :=
  b.reifyString blocks

end

def clear (_ : StringBuilder) : StringBuilder := create

end StringBuilder

/-! ## Builders and strings -/

/-- Characters that a call is given. -/
abbrev Characters (α : Type) := { characters : List α // characters.length < 2 ^ 32 }

/-- A call. The numbers `i` are builders and `j` is a string, or a second builder. -/
inductive BuilderOp
  | newBuilder
  | newString8 (characters : Characters UInt8)
  | newString16 (characters : Characters UChar)
  | shareString (j offset length : Nat)
  | dropString (j : Nat)
  | append8 (i : Nat) (characters : Characters UInt8)
  | append16 (i : Nat) (characters : Characters UChar)
  | appendLChar (i : Nat) (c : UInt8)
  | appendUChar (i : Nat) (c : UChar)
  | appendUChar32 (i : Nat) (c : UInt32)
  | appendString (i j : Nat)
  | appendSubstring (i j offset length : Nat)
  | appendBuilder (i j : Nat)
  | reserveCapacity (i newCapacity : Nat)
  | resize (i newSize : Nat)
  | shrinkToFit (i : Nat)
  | toString (i : Nat)
  | toStringPreserveCapacity (i : Nat)
  | clear (i : Nat)
  | swap (i j : Nat)

structure BuilderState where
  blocks : Blocks
  builders : List StringBuilder
  strings : List (Option SharedString)
  deriving DecidableEq, Repr

namespace BuilderState

/-- There is the block of the empty string. -/
def initial : BuilderState := ⟨[⟨true, []⟩], [], []⟩

/-- Something that is not builder `i` refers to the block. -/
def shared (s : BuilderState) (i id : Nat) : Bool :=
  (s.builders.eraseIdx i).any (fun b => b.m_buffer = some id || b.m_string.any (·.block = id)) ||
    s.strings.any fun string => string.any (·.block = id)

/-- A call on builder `i`. With a builder that there is not it does nothing. -/
def change (s : BuilderState) (i : Nat) (f : StringBuilder → Except Fault (Blocks × StringBuilder)) :
    Except Fault BuilderState :=
  match s.builders[i]? with
  | none => .ok s
  | some b => do
    let (blocks, b) ← f b
    return { s with blocks := blocks, builders := s.builders.set i b }

/-- A call on builder `i` whose result is `m_string`. -/
def changeAndHandOut (s : BuilderState) (i : Nat) (f : StringBuilder → Except Fault (Blocks × StringBuilder)) :
    Except Fault BuilderState :=
  match s.builders[i]? with
  | none => .ok s
  | some b => do
    let (blocks, b) ← f b
    return { s with blocks := blocks, builders := s.builders.set i b, strings := s.strings ++ [b.m_string] }

/-- A new string. -/
def addString (s : BuilderState) (is8Bit : Bool) (characters : List UChar) : Except Fault BuilderState := do
  let (string, blocks) ← createString s.blocks is8Bit characters
  return { s with blocks := blocks, strings := s.strings ++ [some string] }

/-- LChars as code units. -/
def widen (characters : List UInt8) : List UChar := characters.map UInt8.toUInt16

def step (s : BuilderState) : BuilderOp → Except Fault BuilderState
  | .newBuilder => .ok { s with builders := s.builders ++ [.create] }
  | .newString8 characters => s.addString true (widen characters.1)
  | .newString16 characters => s.addString false characters.1
  | .shareString j offset length =>
    match s.strings[j]? with
    | some (some string) =>
      if offset + length ≤ string.length then
        .ok { s with strings := s.strings ++ [some (string.createSubstringSharing offset length)] }
      else .ok s
    | _ => .ok s
  | .dropString j => .ok { s with strings := s.strings.set j none }
  | .append8 i characters => s.change i fun b => b.append8 (s.shared i) s.blocks (widen characters.1)
  | .append16 i characters => s.change i fun b => b.append16 (s.shared i) s.blocks characters.1
  | .appendLChar i c => s.change i fun b => b.appendLChar (s.shared i) s.blocks c.toUInt16
  | .appendUChar i c => s.change i fun b => b.appendUChar (s.shared i) s.blocks c
  | .appendUChar32 i c => s.change i fun b => b.appendUChar32 (s.shared i) s.blocks c
  | .appendString i j => s.change i fun b =>
    (s.strings[j]?).elim (.ok (s.blocks, b)) fun string => b.appendString (s.shared i) s.blocks string
  | .appendSubstring i j offset length => s.change i fun b =>
    (s.strings[j]?).elim (.ok (s.blocks, b)) fun string => b.appendSubstring (s.shared i) s.blocks offset length string
  | .appendBuilder i j => s.change i fun b =>
    (s.builders[j]?).elim (.ok (s.blocks, b)) fun other => b.appendBuilder (s.shared i) s.blocks other
  | .reserveCapacity i newCapacity => s.change i fun b => b.reserveCapacity (s.shared i) s.blocks newCapacity
  | .resize i newSize => s.change i fun b => b.resize (s.shared i) s.blocks newSize
  | .shrinkToFit i => s.change i fun b => b.shrinkToFit (s.shared i) s.blocks
  | .toString i => s.changeAndHandOut i fun b => b.toString (s.shared i) s.blocks
  | .toStringPreserveCapacity i => s.changeAndHandOut i fun b => b.toStringPreserveCapacity s.blocks
  | .clear i => s.change i fun b => .ok (s.blocks, b.clear)
  | .swap i j =>
    match s.builders[i]?, s.builders[j]? with
    | some b, some c => .ok { s with builders := (s.builders.set i c).set j b }
    | _, _ => .ok s

end BuilderState

end WebKit.WTF
