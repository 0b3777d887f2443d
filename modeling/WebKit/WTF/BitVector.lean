import Mathlib.Algebra.Order.Ring.Nat

/-!
# Bit vectors

A vector of bits is one word while 63 bits are enough, the highest bit of the word being set; else it is an array of
words (`OutOfLineBits`), as many as `create` rounds the number of bits up to. An operation that reads or writes outside
the array has no result.
-/

namespace WebKit.WTF

/-- `m_bitsOrPointer`, as the word that it is or as the words that it points to. -/
inductive BitVector
  | inlineBits (bitsOrPointer : UInt64)
  | outOfLine (words : List UInt64)
  deriving DecidableEq, Repr

namespace BitVector

def bitsInPointer : Nat := 64

def maxInlineBits : Nat := bitsInPointer - 1

/-- `static_cast<uintptr_t>(1) << maxInlineBits()`. -/
def inlineFlag : UInt64 := (1 : UInt64) <<< UInt64.ofNat 63

def makeInlineBits (bits : UInt64) : UInt64 := bits ||| inlineFlag

def cleanseInlineBits (bits : UInt64) : UInt64 := bits &&& ~~~inlineFlag

def isInline : BitVector → Bool
  | inlineBits _ => true
  | outOfLine _ => false

def size : BitVector → Nat
  | inlineBits _ => maxInlineBits
  | outOfLine words => bitsInPointer * words.length

/-- How many words `OutOfLineBits::create` allocates. Its mask `~(bitsInPointer() - 1)` is an `unsigned`. -/
def numWordsFor (numBits : Nat) : Nat :=
  ((numBits + bitsInPointer - 1) % 2 ^ 64 &&& (2 ^ 32 - 1 - (bitsInPointer - 1))) / bitsInPointer

/-- New words, and what `memcpy` and `memset` put into them. -/
def allocate (newNumWords : Nat) (written : List UInt64) : Option BitVector :=
  if written.length = newNumWords then some (outOfLine written) else none

/-! ## Words -/

/-- `bits()[k]`. -/
def readWord : BitVector → Nat → Option UInt64
  | inlineBits bits, k => if k = 0 then some bits else none
  | outOfLine words, k => words[k]?

def writeWord : BitVector → Nat → UInt64 → Option BitVector
  | inlineBits _, k, word => if k = 0 then some (inlineBits word) else none
  | outOfLine words, k, word => if k < words.length then some (outOfLine (words.set k word)) else none

/-- `static_cast<uintptr_t>(1) << (bit & (bitsInPointer() - 1))`. -/
def mask (bit : Nat) : UInt64 := (1 : UInt64) <<< UInt64.ofNat (bit &&& (bitsInPointer - 1))

def quickGet (v : BitVector) (bit : Nat) : Option Bool := do
  let word ← v.readWord (bit / bitsInPointer)
  return decide (word &&& mask bit ≠ 0)

def quickSet (v : BitVector) (bit : Nat) : Option (BitVector × Bool) := do
  let word ← v.readWord (bit / bitsInPointer)
  let v ← v.writeWord (bit / bitsInPointer) (word ||| mask bit)
  return (v, decide (word &&& mask bit ≠ 0))

def quickClear (v : BitVector) (bit : Nat) : Option (BitVector × Bool) := do
  let word ← v.readWord (bit / bitsInPointer)
  let v ← v.writeWord (bit / bitsInPointer) (word &&& ~~~mask bit)
  return (v, decide (word &&& mask bit ≠ 0))

/-! ## Sizes -/

def resizeOutOfLine (v : BitVector) (numBits : Nat) : Option BitVector :=
  let newNumWords := numWordsFor numBits
  match v with
  | inlineBits bits => allocate newNumWords (cleanseInlineBits bits :: List.replicate (newNumWords - 1) 0)
  | outOfLine words =>
    if bitsInPointer * words.length < numBits then
      allocate newNumWords (words ++ List.replicate (newNumWords - words.length) 0)
    else allocate newNumWords (words.take newNumWords)

def ensureSize (v : BitVector) (numBits : Nat) : Option BitVector :=
  if numBits ≤ v.size then some v else v.resizeOutOfLine numBits

def resize (v : BitVector) (numBits : Nat) : Option BitVector :=
  if numBits ≤ maxInlineBits then
    match v with
    | inlineBits _ => some v
    | outOfLine words => do
      let word ← words[0]?
      return inlineBits (makeInlineBits word)
  else v.resizeOutOfLine numBits

/-- `BitVector(size_t numBits)`. -/
def create (numBits : Nat) : Option BitVector := (inlineBits (makeInlineBits 0)).ensureSize numBits

/-! ## Bits -/

def get (v : BitVector) (bit : Nat) : Option Bool := if v.size ≤ bit then some false else v.quickGet bit

def set (v : BitVector) (bit : Nat) : Option (BitVector × Bool) := do
  let v ← v.ensureSize ((bit + 1) % 2 ^ 64)
  v.quickSet bit

def clear (v : BitVector) (bit : Nat) : Option (BitVector × Bool) :=
  if v.size ≤ bit then some (v, false) else v.quickClear bit

def setValue (v : BitVector) (bit : Nat) (value : Bool) : Option (BitVector × Bool) :=
  if value then v.set bit else v.clear bit

def clearAll : BitVector → BitVector
  | inlineBits _ => inlineBits (makeInlineBits 0)
  | outOfLine words => outOfLine (List.replicate words.length 0)

/-! ## Copies -/

def setSlow : BitVector → Option BitVector
  | inlineBits bits => some (inlineBits bits)
  | outOfLine words => allocate (numWordsFor (bitsInPointer * words.length)) words

/-- `operator=`, which replaces the vector whatever it was. -/
def assign (v other : BitVector) : Option BitVector :=
  match v, other with
  | inlineBits _, inlineBits bits => some (inlineBits bits)
  | _, _ => setSlow other

/-- `BitVector(const BitVector& other)`. -/
def copy (other : BitVector) : Option BitVector := (inlineBits (makeInlineBits 0)).assign other

/-- `std::swap`. -/
def swap (v w : BitVector) : Option (BitVector × BitVector) := do
  let temporary ← v.copy
  let v ← v.assign w
  let w ← w.assign temporary
  return (v, w)

/-! ## Union, intersection and difference -/

/-- `for (unsigned i = n; i--;) a->bits()[i] = f(a->bits()[i], b->bits()[i])`. -/
def zipLoop (f : UInt64 → UInt64 → UInt64) (b : List UInt64) : Nat → List UInt64 → Option (List UInt64)
  | 0, a => some a
  | i + 1, a => do
    let x ← a[i]?
    let y ← b[i]?
    zipLoop f b i (a.set i (f x y))

/-- `for (unsigned i = b->numWords(); i < a->numWords(); ++i) a->bits()[i] = 0`. -/
def zeroLoop : Nat → Nat → List UInt64 → Option (List UInt64)
  | 0, _, _ => none
  | fuel + 1, i, a => if i < a.length then zeroLoop fuel ((i + 1) % 2 ^ 32) (a.set i 0) else some a

/-- `*bits() = f(*bits())`. -/
def updateFirst (v : BitVector) (f : UInt64 → UInt64) : Option BitVector := do
  let word ← v.readWord 0
  v.writeWord 0 (f word)

def mergeSlow (v other : BitVector) : Option BitVector :=
  match other with
  | inlineBits bits => v.updateFirst (· ||| cleanseInlineBits bits)
  | outOfLine b => do
    match ← v.ensureSize other.size with
    | inlineBits _ => none
    | outOfLine a =>
      let words ← zipLoop (fun x y => x ||| y) b (a.length % 2 ^ 32) a
      return outOfLine words

def merge (v other : BitVector) : Option BitVector :=
  match v, other with
  | inlineBits bits, inlineBits otherBits => some (inlineBits (bits ||| otherBits))
  | _, _ => v.mergeSlow other

def filterSlow (v other : BitVector) : Option BitVector :=
  match v, other with
  | _, inlineBits bits => v.updateFirst (· &&& cleanseInlineBits bits)
  | inlineBits bits, outOfLine b => do
    let word ← b[0]?
    return inlineBits (bits &&& word ||| inlineFlag)
  | outOfLine a, outOfLine b => do
    let words ← zipLoop (fun x y => x &&& y) b (min a.length b.length % 2 ^ 32) a
    let words ← zeroLoop (words.length + 1) (b.length % 2 ^ 32) words
    return outOfLine words

def filter (v other : BitVector) : Option BitVector :=
  match v, other with
  | inlineBits bits, inlineBits otherBits => some (inlineBits (bits &&& otherBits))
  | _, _ => v.filterSlow other

def excludeSlow (v other : BitVector) : Option BitVector :=
  match v, other with
  | _, inlineBits bits => v.updateFirst (· &&& ~~~cleanseInlineBits bits)
  | inlineBits bits, outOfLine b => do
    let word ← b[0]?
    return inlineBits (bits &&& ~~~word ||| inlineFlag)
  | outOfLine a, outOfLine b => do
    let words ← zipLoop (fun x y => x &&& ~~~y) b (min a.length b.length % 2 ^ 32) a
    return outOfLine words

def exclude (v other : BitVector) : Option BitVector :=
  match v, other with
  | inlineBits bits, inlineBits otherBits => some (inlineBits (bits &&& ~~~otherBits ||| inlineFlag))
  | _, _ => v.excludeSlow other

/-! ## Counting, comparing and hashing -/

/-- `for (unsigned i = n; i--;) result = f(result, bits[i])`. -/
def readLoop {α : Type} (f : α → UInt64 → α) (words : List UInt64) : Nat → α → Option α
  | 0, result => some result
  | i + 1, result => do
    let word ← words[i]?
    readLoop f words i (f result word)

/-- `WTF::bitCount(unsigned)`. -/
def bitCount32 (bits : UInt32) : UInt32 :=
  let shifted := bits >>> 1
  let bits := bits - (shifted &&& 0x55555555)
  let shifted := bits >>> 2
  let bits := (bits &&& 0x33333333) + (shifted &&& 0x33333333)
  let shifted := bits >>> 4
  let sum := ((bits + shifted) &&& 0xF0F0F0F) * 0x1010101
  sum >>> 24

/-- `WTF::bitCount(uint64_t)`. -/
def bitCount64 (bits : UInt64) : Nat := (bitCount32 bits.toUInt32).toNat + (bitCount32 (bits >>> 32).toUInt32).toNat

def bitCount : BitVector → Option Nat
  | inlineBits bits => some (bitCount64 (cleanseInlineBits bits))
  | outOfLine words => readLoop (fun result word => result + bitCount64 word) words (words.length % 2 ^ 32) 0

def equalsLoop (v other : BitVector) : Nat → Option Bool
  | 0 => some true
  | i + 1 => do
    let x ← v.get i
    let y ← other.get i
    if x ≠ y then some false else equalsLoop v other i

/-- `operator==`. -/
def equals (v other : BitVector) : Option Bool :=
  match v, other with
  | inlineBits bits, inlineBits otherBits => some (decide (bits = otherBits))
  | _, _ => equalsLoop v other (max v.size other.size % 2 ^ 32)

/-- `WTF::intHash(uint64_t)`. -/
def intHash (key : UInt64) : UInt32 :=
  let key := key + ~~~(key <<< 32)
  let key := key ^^^ key >>> 22
  let key := key + ~~~(key <<< 13)
  let key := key ^^^ key >>> 8
  let key := key + key <<< 3
  let key := key ^^^ key >>> 15
  let key := key + ~~~(key <<< 27)
  let key := key ^^^ key >>> 31
  key.toUInt32

def hash : BitVector → Option UInt32
  | inlineBits bits => some (intHash (cleanseInlineBits bits))
  | outOfLine words => do
    let value ← readLoop (fun result word => result ^^^ word) words (words.length % 2 ^ 32) 0
    return intHash value

end BitVector

end WebKit.WTF
