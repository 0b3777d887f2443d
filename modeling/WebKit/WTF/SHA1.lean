import WebKit.Lib.SecureHash

/-!
# The hash object `SHA1`

Bytes are collected in `m_buffer`, and a full buffer is mixed into `m_hash`. `finalize` pads what was added and
`computeHash` writes the hash out and starts again. A write to `m_buffer` at `m_cursor` is `none` if it leaves the
buffer.
-/

namespace WebKit.WTF

/-! ## The compression of a block -/

namespace SHA1

def f (t : Nat) (b c d : UInt32) : UInt32 :=
  if t < 20 then (b &&& c) ||| (~~~b &&& d)
  else if t < 40 then b ^^^ c ^^^ d
  else if t < 60 then (b &&& c) ||| (b &&& d) ||| (c &&& d)
  else b ^^^ c ^^^ d

def k (t : Nat) : UInt32 :=
  if t < 20 then 0x5a827999 else if t < 40 then 0x6ed9eba1 else if t < 60 then 0x8f1bbcdc else 0xca62c1d6

/-- `n` is from 1 to 31. -/
def rotateLeft (n x : UInt32) : UInt32 := (x <<< n) ||| (x >>> (32 - n))

/-- The first loop over `w`. -/
def loadWords (m_buffer : Vector UInt8 64) (w : Vector UInt32 80) : Vector UInt32 80 :=
  Nat.fold 16 (fun t _ w => w.set t
    ((m_buffer[t * 4].toUInt32 <<< 24) ||| (m_buffer[t * 4 + 1].toUInt32 <<< 16) |||
      (m_buffer[t * 4 + 2].toUInt32 <<< 8) ||| m_buffer[t * 4 + 3].toUInt32)) w

/-- The second loop over `w`, with `t` as 16 and the index of the iteration. -/
def expandWords (w : Vector UInt32 80) : Vector UInt32 80 :=
  Nat.fold 64 (fun i _ w => w.set (16 + i)
    (rotateLeft 1 (w[16 + i - 3] ^^^ w[16 + i - 8] ^^^ w[16 + i - 14] ^^^ w[16 + i - 16]))) w

/-- The local variables of `processBlock`. -/
structure Variables where
  a : UInt32
  b : UInt32
  c : UInt32
  d : UInt32
  e : UInt32

def mix (w : Vector UInt32 80) (v : Variables) : Variables :=
  Nat.fold 80 (fun t _ v =>
    let temp := rotateLeft 5 v.a + f t v.b v.c v.d + v.e + w[t] + k t
    ⟨temp, v.a, rotateLeft 30 v.b, v.c, v.d⟩) v

/-- The loops that write the `width` low bytes of an unsigned value behind `start`, the last byte first. -/
def storeBytes {n : Nat} (start width value : Nat) (h : start + width ≤ n) (bytes : Vector UInt8 n) :
    Vector UInt8 n :=
  (Nat.fold width (fun i hi state =>
    (state.1.set (start + (width - 1 - i)) (UInt8.ofNat state.2) (Lib.store_lt h hi), state.2 / 256)) (bytes, value)).1

/-- The loops that clear `count` bytes of the buffer. -/
def clearBytes (start count : Nat) (h : start + count ≤ 64) (m_buffer : Vector UInt8 64) : Vector UInt8 64 :=
  Nat.fold count (fun i _ m_buffer => m_buffer.set (start + i) 0x00) m_buffer

end SHA1

/-! ## The object -/

structure SHA1 where
  m_buffer : Vector UInt8 64
  m_cursor : Nat
  m_totalBytes : UInt64
  m_hash : Vector UInt32 5

namespace SHA1

def reset (_s : SHA1) : SHA1 where
  m_cursor := 0
  m_totalBytes := 0
  m_hash := #v[0x67452301, 0xefcdab89, 0x98badcfe, 0x10325476, 0xc3d2e1f0]
  m_buffer := .replicate 64 0

/-- The constructor, on memory with any contents. -/
def construct (memory : SHA1) : SHA1 := memory.reset

def processBlock (s : SHA1) : SHA1 :=
  let w := expandWords (loadWords s.m_buffer (.replicate 80 0))
  let v := mix w ⟨s.m_hash[0], s.m_hash[1], s.m_hash[2], s.m_hash[3], s.m_hash[4]⟩
  { s with
    m_hash := #v[s.m_hash[0] + v.a, s.m_hash[1] + v.b, s.m_hash[2] + v.c, s.m_hash[3] + v.d, s.m_hash[4] + v.e]
    m_cursor := 0 }

/-- `m_buffer[m_cursor++] = byte`. -/
def put (s : SHA1) (byte : UInt8) : Option SHA1 :=
  if h : s.m_cursor < 64 then
    some { s with m_buffer := s.m_buffer.set s.m_cursor byte, m_cursor := s.m_cursor + 1 }
  else none

/-- One iteration of `addBytes`. -/
def addByte (s : SHA1) (byte : UInt8) : Option SHA1 := do
  let s ← s.put byte
  let s := { s with m_totalBytes := s.m_totalBytes + 1 }
  return if s.m_cursor == 64 then s.processBlock else s

def addBytes (s : SHA1) (input : List UInt8) : Option SHA1 := input.foldlM addByte s

/-- The branch of `finalize` that pads out to the next block; the loop ends with the cursor at 64, or where it was. -/
def padOut (s : SHA1) : SHA1 :=
  if h : 56 < s.m_cursor ∧ s.m_cursor ≤ 64 then
    { s with m_buffer := clearBytes s.m_cursor (64 - s.m_cursor) (by omega) s.m_buffer, m_cursor := 64 }.processBlock
  else s

/-- The rest of `finalize`: zeros up to the length, the length in bits and the last block. -/
def writeLength (s : SHA1) : SHA1 :=
  let m_buffer :=
    if h : s.m_cursor ≤ 56 then clearBytes s.m_cursor (56 - s.m_cursor) (by omega) s.m_buffer else s.m_buffer
  let bits := s.m_totalBytes * 8
  { s with m_buffer := storeBytes 56 8 bits.toNat (by omega) m_buffer, m_cursor := 64 }.processBlock

def finalize (s : SHA1) : Option SHA1 := do
  let s ← s.put 0x80
  return s.padOut.writeLength

/-- The loop over `m_hash` of `computeHash`. -/
def writeDigest (m_hash : Vector UInt32 5) (digest : Vector UInt8 20) : Vector UInt8 20 :=
  Nat.fold 5 (fun i _ digest => storeBytes (4 * i) 4 m_hash[i].toNat (by omega) digest) digest

/-- The digest written over `digest`, and the object afterwards. -/
def computeHash (s : SHA1) (digest : Vector UInt8 20) : Option (Vector UInt8 20 × SHA1) := do
  let s ← s.finalize
  return (writeDigest s.m_hash digest, s.reset)

/-- The words of the hash as registers. -/
def registers (m_hash : Vector UInt32 5) : Lib.SecureHash.Registers :=
  ⟨m_hash[0].toBitVec, m_hash[1].toBitVec, m_hash[2].toBitVec, m_hash[3].toBitVec, m_hash[4].toBitVec⟩

end SHA1

end WebKit.WTF
