import WebKit.WTF.WTFString
import WebKit.WebKit2.ArgumentDecoder

/-!
# The IPC coders

`Ty` is what `ArgumentCoder` is instantiated with, `Ty.Val` the values of a type, and `encode` and `decode` are the
coders: one case for each specialisation of the template. A hash table is the list of its entries, in the order its
iterators visit them when it is encoded and in the order of `add` when it is decoded. What `add` answers is a parameter
of `decode`, as the traits and the hash function are template parameters of the table.
-/

namespace WebKit.WebKit2

open WebKit.Lib WebKit.WTF

/-- The types of arguments. -/
inductive Ty
  | arithmetic (type : Arithmetic)
  | byteArray
  | string
  | cString
  | optional (type : Ty)
  | pair (first second : Ty)
  | vector (element : Ty)
  | hashMap (key mapped : Ty)
  | hashSet (key : Ty)

/-- The values of a type. -/
abbrev Ty.Val : Ty → Type
  | .arithmetic type => type.Val
  | .byteArray => List UInt8
  | .string => Option StringImpl
  | .cString => Option (List UInt8)
  | .optional type => Option type.Val
  | .pair first second => first.Val × second.Val
  | .vector element => List element.Val
  | .hashMap key mapped => List (key.Val × mapped.Val)
  | .hashSet key => List key.Val

/-- The tuples of the given types: a sequence of values. -/
abbrev Ty.Tuple : List Ty → Type
  | [] => Unit
  | type :: types => type.Val × Tuple types

/-- `add(key).isNewEntry` on a table that holds the given keys. -/
abbrev IsNewEntry : Type := (key : Ty) → List key.Val → key.Val → Bool

/-! ## Encoding -/

namespace ArgumentCoder

open ArgumentEncoder

def encodeCString : Option (List UInt8) → ArgumentEncoder → ArgumentEncoder
  -- Special case the null string.
  | none, encoder => encoder.encodeArithmetic .bits32 0xFFFFFFFF
  | some data, encoder =>
    let length := UInt32.ofNat data.length
    (encoder.encodeArithmetic .bits32 length).encodeFixedLengthData (data.take length.toNat) 1 Nat.one_pos

def encodeString : Option StringImpl → ArgumentEncoder → ArgumentEncoder
  -- Special case the null string.
  | none, encoder => encoder.encodeArithmetic .bits32 0xFFFFFFFF
  | some (.latin1 characters8), encoder =>
    let length := UInt32.ofNat characters8.length
    ((encoder.encodeArithmetic .bits32 length).encodeArithmetic .bool true).encodeFixedLengthData
      ((characters8.take length.toNat).flatMap (Arithmetic.toBytes .bits8)) Arithmetic.bits8.size
      Arithmetic.bits8.size_pos
  | some (.utf16 characters16), encoder =>
    let length := UInt32.ofNat characters16.length
    ((encoder.encodeArithmetic .bits32 length).encodeArithmetic .bool false).encodeFixedLengthData
      ((characters16.take length.toNat).flatMap (Arithmetic.toBytes .bits16)) Arithmetic.bits16.size
      Arithmetic.bits16.size_pos

/-- `VectorArgumentCoder::encode`, which copies the elements of an arithmetic type at once. -/
def encodeVector : (element : Ty) → (element.Val → ArgumentEncoder → ArgumentEncoder) → List element.Val →
    ArgumentEncoder → ArgumentEncoder
  | .arithmetic type, _, vector, encoder =>
    (encoder.encodeArithmetic .bits64 (UInt64.ofNat vector.length)).encodeFixedLengthData
      (vector.flatMap type.toBytes) type.size type.size_pos
  | _, encodeElement, vector, encoder =>
    vector.foldl (fun encoder element => encodeElement element encoder)
      (encoder.encodeArithmetic .bits64 (UInt64.ofNat vector.length))

def encode : (type : Ty) → type.Val → ArgumentEncoder → ArgumentEncoder
  | .arithmetic type, value, encoder => encoder.encodeArithmetic type value
  | .byteArray, data, encoder => encoder.encodeVariableLengthByteArray data
  | .string, string, encoder => encodeString string encoder
  | .cString, string, encoder => encodeCString string encoder
  | .optional _, none, encoder => encoder.encodeArithmetic .bool false
  | .optional type, some value, encoder => encode type value (encoder.encodeArithmetic .bool true)
  | .pair first second, (value, value'), encoder => encode second value' (encode first value encoder)
  | .vector element, vector, encoder => encodeVector element (encode element) vector encoder
  | .hashMap key mapped, entries, encoder =>
    entries.foldl (fun encoder entry => encode mapped entry.2 (encode key entry.1 encoder))
      (encoder.encodeArithmetic .bits64 (UInt64.ofNat entries.length))
  | .hashSet key, keys, encoder =>
    keys.foldl (fun encoder value => encode key value encoder)
      (encoder.encodeArithmetic .bits64 (UInt64.ofNat keys.length))

/-- `TupleCoder::encode`: the values of a sequence one after the other. -/
def encodeTuple : (types : List Ty) → Ty.Tuple types → ArgumentEncoder → ArgumentEncoder
  | [], _, encoder => encoder
  | type :: types, tuple, encoder => encodeTuple types tuple.2 (encode type tuple.1 encoder)

/-! ## Decoding -/

open Decoding ArgumentDecoder

/-- `markInvalid` and `return false`. -/
def bail {α : Type} : Decoding α := do
  markInvalid
  returnFalse

def decodeCString : Decoding (Option (List UInt8)) := do
  let length ← decodeArithmetic .bits32
  if length = 0xFFFFFFFF then
    -- This is the null string.
    return none
  else if !(← bufferIsLargeEnoughToContainElements .bits8 length.toUInt64) then
    bail
  else
    return some (← decodeFixedLengthData length.toUInt64 1)

/-- `decodeStringText<CharacterType>`; `createUninitialized` makes no 16-bit string of length 0. -/
def decodeStringText (characterType : Arithmetic) (create : List characterType.Val → StringImpl) (length : UInt32) :
    Decoding (Option StringImpl) := do
  if !(← bufferIsLargeEnoughToContainElements characterType length.toUInt64) then
    bail
  else
    let sizeofCharacterType := UInt64.ofNat characterType.size
    let size ← mul length.toUInt64 sizeofCharacterType
    let data ← decodeFixedLengthData size sizeofCharacterType
    if length = 0 then return some .empty
    else return some (create ((chunks characterType.size length.toNat data).map characterType.ofBytes))

def decodeString : Decoding (Option StringImpl) := do
  let length ← decodeArithmetic .bits32
  if length = 0xFFFFFFFF then
    -- This is the null string.
    return none
  else
    let is8Bit ← decodeArithmetic .bool
    if is8Bit then decodeStringText .bits8 .latin1 length
    else decodeStringText .bits16 .utf16 length

/-- The vector of an arithmetic type, in one copy; what the copy returns is not looked at. -/
def decodeArithmeticVector (type : Arithmetic) : Decoding (List type.Val) := do
  let size ← decodeArithmetic .bits64
  if !(← bufferIsLargeEnoughToContainElements type size) then
    bail
  else
    let sizeofT := UInt64.ofNat type.size
    let bytes ← mul size sizeofT
    let data ← ignoringResult (decodeFixedLengthData bytes sizeofT) (List.replicate bytes.toNat 0)
    return (chunks type.size size.toNat data).map type.ofBytes

/-- The loop over the elements, behind those in `tmp`. -/
def decodeElements {α : Type} (decodeElement : Decoding α) : Nat → List α → Decoding (List α)
  | 0, tmp => return tmp
  | count + 1, tmp => do
    let element ← decodeElement
    decodeElements decodeElement count (tmp ++ [element])

def decodeElementVector {α : Type} (decodeElement : Decoding α) : Decoding (List α) := do
  let size ← decodeArithmetic .bits64
  decodeElements decodeElement size.toNat []

/-- `VectorArgumentCoder::decode`. -/
def decodeVector : (element : Ty) → Decoding element.Val → Decoding (List element.Val)
  | .arithmetic type, _ => decodeArithmeticVector type
  | _, decodeElement => decodeElementVector decodeElement

/-- The loop over the entries of a hash table; `keyOf` is the key of an entry. -/
def decodeEntries {α κ : Type} (isNewEntry : List κ → κ → Bool) (keyOf : α → κ) (decodeEntry : Decoding α) :
    Nat → List α → Decoding (List α)
  | 0, table => return table
  | count + 1, table => do
    let entry ← decodeEntry
    if !isNewEntry (table.map keyOf) (keyOf entry) then
      -- The hash map already has the specified key, bail.
      bail
    else
      decodeEntries isNewEntry keyOf decodeEntry count (table ++ [entry])

def decodeTable {α κ : Type} (isNewEntry : List κ → κ → Bool) (keyOf : α → κ) (decodeEntry : Decoding α) :
    Decoding (List α) := do
  let size ← decodeArithmetic .bits64
  decodeEntries isNewEntry keyOf decodeEntry size.toNat []

def decodeOptional {α : Type} (decodeValue : Decoding α) : Decoding (Option α) := do
  let isEngaged ← decodeArithmetic .bool
  if !isEngaged then return none
  else return some (← decodeValue)

def decodePair {α β : Type} (decodeFirst : Decoding α) (decodeSecond : Decoding β) : Decoding (α × β) := do
  let first ← decodeFirst
  let second ← decodeSecond
  return (first, second)

def decode (isNewEntry : IsNewEntry) : (type : Ty) → Decoding type.Val
  | .arithmetic type => decodeArithmetic type
  | .byteArray => decodeVariableLengthByteArray
  | .string => decodeString
  | .cString => decodeCString
  | .optional type => decodeOptional (decode isNewEntry type)
  | .pair first second => decodePair (decode isNewEntry first) (decode isNewEntry second)
  | .vector element => decodeVector element (decode isNewEntry element)
  | .hashMap key mapped =>
    decodeTable (isNewEntry key) Prod.fst (decodePair (decode isNewEntry key) (decode isNewEntry mapped))
  | .hashSet key => decodeTable (isNewEntry key) id (decode isNewEntry key)

/-- `TupleCoder::decode`. -/
def decodeTuple (isNewEntry : IsNewEntry) : (types : List Ty) → Decoding (Ty.Tuple types)
  | [] => return ()
  | type :: types => do
    let value ← decode isNewEntry type
    let values ← decodeTuple isNewEntry types
    return (value, values)

end ArgumentCoder

end WebKit.WebKit2
