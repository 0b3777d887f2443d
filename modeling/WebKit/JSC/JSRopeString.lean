import WebKit.Lib.Memory
import WebKit.WTF.WTFString

/-!
# Ropes

A `JSString` is resolved if it has an `m_value`, and a rope otherwise, whose union has up to three fibers or the base
and the offset of a substring. The heap gives the string at an address. A buffer is the `History` of what is written to
its positions, and the new string has its contents when all fibers are copied.

The traversal is the same for both widths but for what it reads of a string: a `CharacterReader`, which fails where
`characters8` or `characters16` asserts. The work queue's last element is the first one of its list. `allocates` tells
whether `tryCreateUninitialized` gets memory for a string that is not empty; the exception that is thrown otherwise is
left out. The `AtomicStringTable` is the one before the operation.
-/

namespace WebKit.WTF.StringImpl

def is8Bit : StringImpl → Bool
  | latin1 _ => true
  | utf16 _ => false

def length : StringImpl → Nat
  | latin1 characters8 => characters8.length
  | utf16 characters16 => characters16.length

def substring (start length : Nat) : StringImpl → StringImpl
  | latin1 characters8 =>
    if start ≥ characters8.length then empty else latin1 ((characters8.drop start).take length)
  | utf16 characters16 =>
    if start ≥ characters16.length then empty else utf16 ((characters16.drop start).take length)

def create8BitIfPossible (characters : List UChar) : StringImpl :=
  if characters.all (· ≤ 0xFF) then latin1 (characters.map (·.toUInt8)) else utf16 characters

end WebKit.WTF.StringImpl

namespace WebKit.JSC.Rope

open WebKit.Lib WebKit.WTF

/-- Why a call does not return: an assertion fails, memory is read that nothing was written to, or the work queue is not
empty after the given number of steps. -/
inductive RopeFault
  | assertion
  | uninitialized
  | outOfFuel
  deriving DecidableEq

/-! ## Strings -/

/-- The union of a `JSRopeString`. -/
inductive RopeUnion (Address : Type)
  | fibers (fiber0 fiber1 fiber2 : Option Address)
  | substring (substringBase : Option Address) (substringOffset : Nat)

structure JSString (Address : Type) where
  is8Bit : Bool
  length : Nat
  value : Option StringImpl
  u : RopeUnion Address

namespace JSString

variable {Address : Type}

def isRope (string : JSString Address) : Bool := string.value.isNone

/-- The fibers in front of the first null one. -/
def fibers (string : JSString Address) : List Address :=
  match string.u with
  | .fibers (some fiber0) (some fiber1) (some fiber2) => [fiber0, fiber1, fiber2]
  | .fibers (some fiber0) (some fiber1) none => [fiber0, fiber1]
  | .fibers (some fiber0) none _ => [fiber0]
  | .fibers none _ _ => []
  | .substring _ _ => []

def clearFibers (string : JSString Address) : JSString Address := { string with u := .fibers none none none }

end JSString

abbrev StringHeap (Address : Type) := Address → JSString Address

/-- The atomic strings by their characters. -/
structure AtomicStringTable where
  find : List UChar → Option StringImpl
  find_characters : ∀ characters impl, find characters = some impl → impl.characters = characters
  find_nil : find [] = none

namespace AtomicStringTable

/-- `AtomicString::add`, of characters for which `translate` creates a string. -/
def add (table : AtomicStringTable) (characters : List UChar) (translate : StringImpl) : StringImpl :=
  if characters.length = 0 then .empty else (table.find characters).getD translate

end AtomicStringTable

/-- What `characters8` or `characters16` of a string are for a buffer. -/
structure CharacterReader (α : Type) where
  characters : StringImpl → Option (List α)
  toUChar : α → UChar
  characters_eq : ∀ impl chars, characters impl = some chars → chars.map toUChar = impl.characters

def reader8 : CharacterReader UInt8 where
  characters
    | .latin1 characters8 => some characters8
    | .utf16 _ => none
  toUChar := (·.toUInt16)
  characters_eq := by
    rintro (chars | chars) chars' h
    · rw [Option.some.inj h, StringImpl.characters]
    · exact absurd h.symm (Option.some_ne_none _)

/-- A `UChar` buffer takes the characters of a string of either width. -/
def reader16 : CharacterReader UChar where
  characters impl := some impl.characters
  toUChar := id
  characters_eq impl chars h := by rw [List.map_id, Option.some.inj h]

section

variable {Address α : Type} (reader : CharacterReader α) (heap : StringHeap Address)

/-! ## Filling a buffer -/

def readCharacters (string : Option StringImpl) : Except RopeFault (List α) :=
  match string with
  | none => .error .assertion
  | some string => match reader.characters string with
    | none => .error .assertion
    | some characters => .ok characters

def copyChars (buffer : History α) (position : Int) (characters : List α) (length : Nat) :
    Except RopeFault (History α) :=
  if length ≤ characters.length then .ok (buffer.write position (characters.take length)) else .error .uninitialized

/-- `substringBase()->m_value`, which is not a rope. -/
def substringBaseValue (substringBase : Option Address) : Option StringImpl :=
  substringBase.bind fun base => (heap base).value

/-- The loop that copies fibers that are no ropes: where it ends, and the buffer. -/
def copyFibers : List Address → Int → History α → Except RopeFault (Int × History α)
  | [], position, buffer => .ok (position, buffer)
  | fiber :: fibers, position, buffer => do
    let characters ← readCharacters reader (heap fiber).value
    let length := ((heap fiber).value.map StringImpl.length).getD 0
    let buffer ← copyChars buffer position characters length
    copyFibers fibers (position + length) buffer

/-- The loop over the work queue, which `length` tells how long a resolved string is. -/
def workQueueLoop (length : JSString Address → Nat) :
    Nat → List Address → Int → History α → Except RopeFault (Int × History α)
  | 0, _, _, _ => .error .outOfFuel
  | _ + 1, [], position, buffer => .ok (position, buffer)
  | fuel + 1, currentFiber :: workQueue, position, buffer =>
    if (heap currentFiber).isRope then
      match (heap currentFiber).u with
      | .substring substringBase substringOffset => do
        let characters ← readCharacters reader (substringBaseValue heap substringBase)
        let position := position - (heap currentFiber).length
        let buffer ← copyChars buffer position (characters.drop substringOffset) (heap currentFiber).length
        workQueueLoop length fuel workQueue position buffer
      | .fibers _ _ _ =>
        workQueueLoop length fuel ((heap currentFiber).fibers.reverse ++ workQueue) position buffer
    else do
      let characters ← readCharacters reader (heap currentFiber).value
      let position := position - length (heap currentFiber)
      let buffer ← copyChars buffer position characters (length (heap currentFiber))
      workQueueLoop length fuel workQueue position buffer

/-- `resolveRopeSlowCase8` and `resolveRopeSlowCase`. -/
def resolveRopeSlowCaseWith (length : JSString Address → Nat) (fuel : Nat) (rope : JSString Address)
    (buffer : History α) : Except RopeFault (History α) := do
  let (position, buffer) ← workQueueLoop reader heap length fuel rope.fibers.reverse rope.length buffer
  if position = 0 then .ok buffer else .error .assertion

/-- `resolveRopeInternal8NoSubstring` and `resolveRopeInternal16NoSubstring`, with their slow case. -/
def resolveRopeInternalNoSubstringWith (slowCase : JSString Address → History α → Except RopeFault (History α))
    (rope : JSString Address) (buffer : History α) : Except RopeFault (History α) :=
  if rope.fibers.any fun fiber => (heap fiber).isRope then slowCase rope buffer
  else do
    let (position, buffer) ← copyFibers reader heap rope.fibers 0 buffer
    if position = rope.length then .ok buffer else .error .assertion

/-- `resolveRopeInternal8` and `resolveRopeInternal16`, with the rest of it. -/
def resolveRopeInternalWith (noSubstring : JSString Address → History α → Except RopeFault (History α))
    (rope : JSString Address) (buffer : History α) : Except RopeFault (History α) :=
  match rope.u with
  | .substring substringBase substringOffset => do
    let characters ← readCharacters reader (substringBaseValue heap substringBase)
    copyChars buffer 0 (characters.drop substringOffset) rope.length
  | .fibers _ _ _ => noSubstring rope buffer

end

section

variable {Address : Type} (heap : StringHeap Address) (fuel : Nat)

def resolveRopeSlowCase8 : JSString Address → History UInt8 → Except RopeFault (History UInt8) :=
  resolveRopeSlowCaseWith reader8 heap (fun currentFiber => currentFiber.length) fuel

def resolveRopeInternal8NoSubstring : JSString Address → History UInt8 → Except RopeFault (History UInt8) :=
  resolveRopeInternalNoSubstringWith reader8 heap (resolveRopeSlowCase8 heap fuel)

def resolveRopeInternal8 : JSString Address → History UInt8 → Except RopeFault (History UInt8) :=
  resolveRopeInternalWith reader8 heap (resolveRopeInternal8NoSubstring heap fuel)

/-- The slow case for `UChar`s takes the length of the string itself. -/
def resolveRopeSlowCase : JSString Address → History UChar → Except RopeFault (History UChar) :=
  resolveRopeSlowCaseWith reader16 heap (fun currentFiber => (currentFiber.value.map StringImpl.length).getD 0) fuel

def resolveRopeInternal16NoSubstring : JSString Address → History UChar → Except RopeFault (History UChar) :=
  resolveRopeInternalNoSubstringWith reader16 heap (resolveRopeSlowCase heap fuel)

def resolveRopeInternal16 : JSString Address → History UChar → Except RopeFault (History UChar) :=
  resolveRopeInternalWith reader16 heap (resolveRopeInternal16NoSubstring heap fuel)

end

/-! ## Resolving -/

def maxLengthForOnStackResolve : Nat := 2048

/-- The characters of a buffer, all of which have to be written. -/
def bufferContents {α : Type} (buffer : History α) (length : Nat) : Except RopeFault (List α) :=
  match buffer.contents 0 length with
  | none => .error .uninitialized
  | some characters => .ok characters

section

variable {Address : Type} [DecidableEq Address] (fuel : Nat) (allocates : Bool) (table : AtomicStringTable)
  (heap : StringHeap Address) (address : Address)

/-- What the string at an address becomes. -/
def setString (string : JSString Address) : StringHeap Address := Function.update heap address string

/-- The string that `tryCreateUninitialized` creates, with the characters of its buffer. -/
def createdString (characters : StringImpl) : StringImpl := if characters.length = 0 then .empty else characters

def resolveRope : Except RopeFault (StringHeap Address) :=
  let rope := heap address
  if !rope.isRope then .error .assertion
  else match rope.u with
    | .substring substringBase substringOffset =>
      match substringBaseValue heap substringBase with
      | none => .error .assertion
      | some base =>
        let value := base.substring substringOffset rope.length
        .ok (setString heap address { rope with value := some value, u := .substring none substringOffset })
    | .fibers _ _ _ =>
      if rope.length ≠ 0 && !allocates then .ok (setString heap address rope.clearFibers)
      else if rope.is8Bit then do
        let buffer ← resolveRopeInternal8NoSubstring heap fuel rope History.empty
        let characters ← bufferContents buffer rope.length
        return setString heap address { rope.clearFibers with value := some (createdString (.latin1 characters)) }
      else do
        let buffer ← resolveRopeInternal16NoSubstring heap fuel rope History.empty
        let characters ← bufferContents buffer rope.length
        return setString heap address { rope.clearFibers with value := some (createdString (.utf16 characters)) }

def resolveRopeToAtomicString : Except RopeFault (StringHeap Address) :=
  let rope := heap address
  if rope.length > maxLengthForOnStackResolve then do
    let heap ← resolveRope fuel allocates heap address
    match (heap address).value with
    | none => .error .assertion
    | some value =>
      let value := table.add value.characters value
      return setString heap address { heap address with value := some value, is8Bit := value.is8Bit }
  else if rope.is8Bit then do
    let buffer ← resolveRopeInternal8 heap fuel rope History.empty
    let characters ← bufferContents buffer rope.length
    let value := table.add (characters.map (·.toUInt16)) (.latin1 characters)
    return setString heap address { rope.clearFibers with value := some value, is8Bit := value.is8Bit }
  else do
    let buffer ← resolveRopeInternal16 heap fuel rope History.empty
    let characters ← bufferContents buffer rope.length
    let value := table.add characters (.create8BitIfPossible characters)
    return setString heap address { rope.clearFibers with value := some value, is8Bit := value.is8Bit }

/-- The atomic string that is found, if there is one, becomes the value. -/
def useExistingAtomicString : Option StringImpl → StringHeap Address × Option StringImpl
  | none => (heap, none)
  | some existingAtomicString =>
    (setString heap address { (heap address).clearFibers with
      value := some existingAtomicString, is8Bit := existingAtomicString.is8Bit }, some existingAtomicString)

/-- The heap, and the atomic string that is found. -/
def resolveRopeToExistingAtomicString : Except RopeFault (StringHeap Address × Option StringImpl) :=
  let rope := heap address
  if rope.length > maxLengthForOnStackResolve then do
    let heap ← resolveRope fuel allocates heap address
    return useExistingAtomicString heap address
      ((heap address).value.bind fun value => table.find value.characters)
  else if rope.is8Bit then do
    let buffer ← resolveRopeInternal8 heap fuel rope History.empty
    let characters ← bufferContents buffer rope.length
    return useExistingAtomicString heap address (table.find (characters.map (·.toUInt16)))
  else do
    let buffer ← resolveRopeInternal16 heap fuel rope History.empty
    let characters ← bufferContents buffer rope.length
    return useExistingAtomicString heap address (table.find characters)

end

end WebKit.JSC.Rope
