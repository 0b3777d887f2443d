import WebKit.Lib.Bytes

/-!
# The compact map from bytecode to machine code

The map from bytecode indices to machine code offsets that the baseline compiler keeps: `Encoder` writes the differences
between successive pairs in one, two or four bytes each, `Decoder` reads them back. Sizes are `unsigned`; the buffer is
the block that `fastRealloc` returned, `none` where nothing was written, and an access outside it has no result.

- one number: what `encodeNumber` writes is `encodedNumber` (`encodeNumber_eq`), and `decodeNumber` reads it back up to
  bit 30 (`decodeNumber_encodedNumber`).
-/

namespace WebKit.JSC

open WebKit.Lib

/-- `fastRealloc`: the common prefix of the two blocks is kept. -/
def fastRealloc (buffer : List (Option UInt8)) (size : Nat) : List (Option UInt8) :=
  buffer.take size ++ List.replicate (size - buffer.length) none

structure BytecodeAndMachineOffset where
  m_bytecodeIndex : UInt32
  m_machineCodeOffset : UInt32
  deriving DecidableEq, Repr

structure CompactJITCodeMap where
  m_buffer : List (Option UInt8)
  m_size : UInt32
  m_numberOfEntries : UInt32
  deriving DecidableEq, Repr

namespace CompactJITCodeMap

/-! ## The encoder -/

structure Encoder where
  m_buffer : List (Option UInt8) := []
  m_size : UInt32 := 0
  m_capacity : UInt32 := 0
  m_numberOfEntries : UInt32 := 0
  m_previousBytecodeIndex : UInt32 := 0
  m_previousMachineCodeOffset : UInt32 := 0
  deriving DecidableEq, Repr

namespace Encoder

def ensureCapacityFor (e : Encoder) (numberOfEntriesToAdd : UInt32) : Encoder :=
  let capacityNeeded := e.m_size + numberOfEntriesToAdd * 2 * 4
  if capacityNeeded > e.m_capacity then
    { e with
      m_capacity := capacityNeeded * 2
      m_buffer := fastRealloc e.m_buffer (capacityNeeded * 2).toNat }
  else e

/-- No result when the byte would be written past the end of the buffer. -/
def appendByte (e : Encoder) (value : UInt8) : Option Encoder :=
  if e.m_size < e.m_capacity then
    some { e with m_buffer := e.m_buffer.set e.m_size.toNat (some value), m_size := e.m_size + 1 }
  else none

def encodeNumber (e : Encoder) (value : UInt32) : Option Encoder :=
  if value ≤ 127 then
    e.appendByte value.toUInt8
  else if value ≤ 16383 then do
    let headValue := (value >>> 8).toUInt8
    let e ← e.appendByte (headValue ||| 128)
    e.appendByte value.toUInt8
  else do
    let headValue := (value >>> 24).toUInt8
    let e ← e.appendByte (headValue ||| 128 ||| 64)
    let e ← e.appendByte (value >>> 16).toUInt8
    let e ← e.appendByte (value >>> 8).toUInt8
    e.appendByte value.toUInt8

def append (e : Encoder) (bytecodeIndex machineCodeOffset : UInt32) : Option Encoder := do
  let e := e.ensureCapacityFor 1
  let e ← e.encodeNumber (bytecodeIndex - e.m_previousBytecodeIndex)
  let e ← e.encodeNumber (machineCodeOffset - e.m_previousMachineCodeOffset)
  return { e with
    m_previousBytecodeIndex := bytecodeIndex
    m_previousMachineCodeOffset := machineCodeOffset
    m_numberOfEntries := e.m_numberOfEntries + 1 }

/-- The map and the encoder, which starts again from nothing. -/
def finish (e : Encoder) : CompactJITCodeMap × Encoder :=
  ({ m_buffer := fastRealloc e.m_buffer e.m_size.toNat
     m_size := e.m_size
     m_numberOfEntries := e.m_numberOfEntries }, {})

/-- The pairs appended in order. -/
def appendAll (e : Encoder) : List BytecodeAndMachineOffset → Option Encoder
  | [] => some e
  | p :: ps => do
    let e ← e.append p.m_bytecodeIndex p.m_machineCodeOffset
    e.appendAll ps

end Encoder

/-! ## The decoder -/

def «at» (map : CompactJITCodeMap) (index : UInt32) : Option UInt8 := map.m_buffer[index.toNat]?.join

/-- The number that starts at an index, and the index behind it. -/
def decodeNumber (map : CompactJITCodeMap) (index : UInt32) : Option (UInt32 × UInt32) := do
  let headValue ← map.at index
  if headValue &&& 128 = 0 then
    return (headValue.toUInt32, index + 1)
  else if headValue &&& 64 = 0 then
    let second ← map.at (index + 1)
    return ((headValue.toUInt32 &&& ~~~128) <<< 8 ||| second.toUInt32, index + 1 + 1)
  else
    let second ← map.at (index + 1)
    let third ← map.at (index + 1 + 1)
    let fourth ← map.at (index + 1 + 1 + 1)
    return ((headValue.toUInt32 &&& ~~~(128 + 64)) <<< 24 ||| second.toUInt32 <<< 16 ||| third.toUInt32 <<< 8 |||
      fourth.toUInt32, index + 1 + 1 + 1 + 1)

structure Decoder where
  m_previousBytecodeIndex : UInt32 := 0
  m_previousMachineCodeOffset : UInt32 := 0
  m_numberOfEntriesRemaining : UInt32
  m_bufferIndex : UInt32 := 0
  deriving DecidableEq, Repr

/-- The decoder of a map at its start. -/
def decoder (map : CompactJITCodeMap) : Decoder := { m_numberOfEntriesRemaining := map.m_numberOfEntries }

namespace Decoder

variable (map : CompactJITCodeMap)

def read (d : Decoder) : Option (BytecodeAndMachineOffset × Decoder) := do
  let (bytecodeDelta, index) ← map.decodeNumber d.m_bufferIndex
  let (machineCodeDelta, index) ← map.decodeNumber index
  let bytecodeIndex := d.m_previousBytecodeIndex + bytecodeDelta
  let machineCodeOffset := d.m_previousMachineCodeOffset + machineCodeDelta
  return (⟨bytecodeIndex, machineCodeOffset⟩,
    { m_previousBytecodeIndex := bytecodeIndex
      m_previousMachineCodeOffset := machineCodeOffset
      m_numberOfEntriesRemaining := d.m_numberOfEntriesRemaining - 1
      m_bufferIndex := index })

/-- A number of pairs read one after the other. -/
def readMany (d : Decoder) : Nat → Option (List BytecodeAndMachineOffset × Decoder)
  | 0 => some ([], d)
  | n + 1 => do
    let (p, d) ← d.read map
    let (ps, d) ← d.readMany n
    return (p :: ps, d)

end Decoder

/-- `result` is as long as the decoder says, and every slot of it is read into. -/
def decode (map : CompactJITCodeMap) : Option (List BytecodeAndMachineOffset) :=
  (map.decoder.readMany map map.decoder.m_numberOfEntriesRemaining.toNat).map Prod.fst

/-! ## The bytes of a number -/

/-- The bytes that `encodeNumber` writes. -/
def encodedNumber (value : UInt32) : List UInt8 :=
  if value ≤ 127 then [value.toUInt8]
  else if value ≤ 16383 then [(value >>> 8).toUInt8 ||| 128, value.toUInt8]
  else [(value >>> 24).toUInt8 ||| 128 ||| 64, (value >>> 16).toUInt8, (value >>> 8).toUInt8, value.toUInt8]

theorem length_encodedNumber_le (value : UInt32) : (encodedNumber value).length ≤ 4 := by
  unfold encodedNumber
  split_ifs <;> simp

theorem length_encodedNumber_pos (value : UInt32) : 0 < (encodedNumber value).length := by
  unfold encodedNumber
  split_ifs <;> simp

theorem encodeNumber_eq (e : Encoder) (value : UInt32) :
    e.encodeNumber value = (encodedNumber value).foldlM Encoder.appendByte e := by
  unfold Encoder.encodeNumber encodedNumber
  split_ifs <;> simp

/-! ## Reading a number back -/

theorem head_one (h : UInt8) : h.toNat < 128 → h &&& 128 = 0 := by
  revert h
  exact forall_uint8 (by decide +kernel)

theorem head_two (h : UInt8) : h.toNat < 64 → (h ||| 128) &&& 128 ≠ 0 ∧ (h ||| 128) &&& 64 = 0 ∧
    ((h ||| 128).toUInt32 &&& ~~~128).toNat = h.toNat := by
  revert h
  exact forall_uint8 (by decide +kernel)

theorem head_four (h : UInt8) : (h ||| 128 ||| 64) &&& 128 ≠ 0 ∧ (h ||| 128 ||| 64) &&& 64 ≠ 0 ∧
    ((h ||| 128 ||| 64).toUInt32 &&& ~~~(128 + 64)).toNat = h.toNat % 64 := by
  revert h
  exact forall_uint8 (by decide +kernel)

theorem toNat_shift_or (a b : UInt32) {k : UInt32} (hk : k.toNat < 32) (ha : a.toNat * 2 ^ k.toNat < 2 ^ 32)
    (hb : b.toNat < 2 ^ k.toNat) : (a <<< k ||| b).toNat = a.toNat * 2 ^ k.toNat + b.toNat := by
  rw [UInt32.toNat_or, UInt32.toNat_shiftLeft, Nat.mod_eq_of_lt hk, Nat.shiftLeft_eq, Nat.mod_eq_of_lt ha,
    Nat.mul_comm, Nat.two_pow_add_eq_or_of_lt hb]

theorem toNat_four_bytes {a b c d : UInt32} (ha : a.toNat < 256) (hb : b.toNat < 256) (hc : c.toNat < 256)
    (hd : d.toNat < 256) : (a <<< 24 ||| b <<< 16 ||| c <<< 8 ||| d).toNat =
      a.toNat * 16777216 + b.toNat * 65536 + c.toNat * 256 + d.toNat := by
  have hcd : (c <<< 8 ||| d).toNat = c.toNat * 256 + d.toNat :=
    toNat_shift_or c d (by decide) (show _ * 256 < 2 ^ 32 by omega) hd
  have hbcd : (b <<< 16 ||| (c <<< 8 ||| d)).toNat = b.toNat * 65536 + (c.toNat * 256 + d.toNat) := by
    rw [toNat_shift_or b _ (by decide) (show _ * 65536 < 2 ^ 32 by omega) (show _ < 65536 by omega), hcd]
    rfl
  rw [UInt32.or_assoc, UInt32.or_assoc, toNat_shift_or a _ (by decide) (show _ * 16777216 < 2 ^ 32 by omega)
    (show _ < 16777216 by omega), hbcd]
  show a.toNat * 16777216 + _ = _
  omega

theorem toNat_shiftRight_toUInt8 (value : UInt32) {k : UInt32} (hk : k.toNat < 32) :
    (value >>> k).toUInt8.toNat = value.toNat / 2 ^ k.toNat % 256 := by
  rw [UInt32.toNat_toUInt8, UInt32.toNat_shiftRight, Nat.mod_eq_of_lt hk, Nat.shiftRight_eq_div_pow]

/-- The bytes `bytes` of a map start at `index`. -/
def Holds (map : CompactJITCodeMap) (index : UInt32) (bytes : List UInt8) : Prop :=
  index.toNat + bytes.length < 2 ^ 32 ∧ ∀ i b, bytes[i]? = some b → map.m_buffer[index.toNat + i]? = some (some b)

variable {map : CompactJITCodeMap} {index : UInt32}

theorem Holds.head {b : UInt8} {bytes : List UInt8} (h : Holds map index (b :: bytes)) : map.at index = some b := by
  have hb := h.2 0 b rfl
  unfold CompactJITCodeMap.at
  rw [← Nat.add_zero index.toNat, hb]
  rfl

theorem Holds.toNat_index {b : UInt8} {bytes : List UInt8} (h : Holds map index (b :: bytes)) :
    (index + 1).toNat = index.toNat + 1 := by
  have hlt := h.1
  rw [List.length_cons] at hlt
  rw [UInt32.toNat_add, UInt32.toNat_one, Nat.mod_eq_of_lt (by omega)]

theorem Holds.tail {b : UInt8} {bytes : List UInt8} (h : Holds map index (b :: bytes)) : Holds map (index + 1) bytes := by
  have hlt := h.1
  rw [List.length_cons] at hlt
  refine ⟨by rw [h.toNat_index]; omega, fun i c hc => ?_⟩
  rw [h.toNat_index, Nat.add_assoc, Nat.add_comm 1 i]
  exact h.2 (i + 1) c hc

theorem Holds.append_right {front bytes : List UInt8} (h : Holds map index (front ++ bytes)) :
    Holds map (index + UInt32.ofNat front.length) bytes := by
  induction front generalizing index with
  | nil => simpa using h
  | cons b front ih =>
    have := ih h.tail
    rwa [UInt32.add_assoc, ← UInt32.ofNat_one, ← UInt32.ofNat_add, Nat.add_comm 1] at this

/-- **A number is read back up to its bit 30**, and the index moves behind it. -/
theorem decodeNumber_encodedNumber {value : UInt32} {rest : List UInt8}
    (h : Holds map index (encodedNumber value ++ rest)) :
    map.decodeNumber index = some (value % 1073741824, index + UInt32.ofNat (encodedNumber value).length) := by
  unfold encodedNumber at h ⊢
  unfold decodeNumber
  split_ifs at h ⊢ with hone htwo
  · -- one byte
    have hlt : value.toNat ≤ 127 := UInt32.le_iff_toNat_le.1 hone
    have hbyte : value.toUInt8.toNat = value.toNat := by
      rw [UInt32.toNat_toUInt8]
      omega
    have hvalue : value.toUInt8.toUInt32 = value % 1073741824 := by
      apply UInt32.toNat.inj
      rw [UInt8.toNat_toUInt32, hbyte, UInt32.toNat_mod]
      exact (Nat.mod_eq_of_lt (by show value.toNat < 1073741824; omega)).symm
    have hhead := head_one value.toUInt8 (by omega)
    rw [h.head]
    simp [hhead, hvalue]
  · -- two bytes
    have hlt : value.toNat ≤ 16383 := UInt32.le_iff_toNat_le.1 htwo
    have hhigh : (value >>> 8).toUInt8.toNat = value.toNat / 256 := by
      rw [toNat_shiftRight_toUInt8 value (by decide)]
      show value.toNat / 256 % 256 = _
      omega
    have hlow : value.toUInt8.toUInt32.toNat = value.toNat % 256 := by
      rw [UInt8.toNat_toUInt32, UInt32.toNat_toUInt8]
    obtain ⟨htag, htag', hhead⟩ := head_two (value >>> 8).toUInt8 (by omega)
    have hvalue : (((value >>> 8).toUInt8 ||| 128).toUInt32 &&& ~~~128) <<< 8 ||| value.toUInt8.toUInt32 =
        value % 1073741824 := by
      apply UInt32.toNat.inj
      rw [toNat_shift_or _ _ (by decide), hhead, hhigh, hlow, UInt32.toNat_mod]
      · show value.toNat / 256 * 256 + value.toNat % 256 = value.toNat % 1073741824
        omega
      · show _ * 256 < 2 ^ 32
        omega
      · show _ < 256
        omega
    rw [h.head, h.tail.head]
    simp only [htag, htag', ↓reduceIte, Option.bind_eq_bind, Option.bind_some, Option.pure_def, hvalue]
    rw [UInt32.add_assoc]
    rfl
  · -- four bytes
    have hhigh : (value >>> 24).toUInt8.toNat = value.toNat / 16777216 := by
      rw [toNat_shiftRight_toUInt8 value (by decide)]
      show value.toNat / 16777216 % 256 = _
      have := value.toNat_lt
      omega
    have hsecond : (value >>> 16).toUInt8.toUInt32.toNat = value.toNat / 65536 % 256 := by
      rw [UInt8.toNat_toUInt32, toNat_shiftRight_toUInt8 value (by decide)]
      rfl
    have hthird : (value >>> 8).toUInt8.toUInt32.toNat = value.toNat / 256 % 256 := by
      rw [UInt8.toNat_toUInt32, toNat_shiftRight_toUInt8 value (by decide)]
      rfl
    have hlow : value.toUInt8.toUInt32.toNat = value.toNat % 256 := by
      rw [UInt8.toNat_toUInt32, UInt32.toNat_toUInt8]
    obtain ⟨htag, htag', hhead⟩ := head_four (value >>> 24).toUInt8
    have hvalue : (((value >>> 24).toUInt8 ||| 128 ||| 64).toUInt32 &&& ~~~(128 + 64)) <<< 24 |||
        (value >>> 16).toUInt8.toUInt32 <<< 16 ||| (value >>> 8).toUInt8.toUInt32 <<< 8 ||| value.toUInt8.toUInt32 =
          value % 1073741824 := by
      apply UInt32.toNat.inj
      rw [toNat_four_bytes (by omega) (by omega) (by omega) (by omega), hhead, hhigh, hsecond, hthird, hlow,
        UInt32.toNat_mod]
      show _ = value.toNat % 1073741824
      omega
    rw [h.head, h.tail.head, h.tail.tail.head, h.tail.tail.tail.head]
    simp only [htag, htag', ↓reduceIte, Option.bind_eq_bind, Option.bind_some, Option.pure_def, hvalue]
    rw [UInt32.add_assoc, UInt32.add_assoc, UInt32.add_assoc]
    rfl

end CompactJITCodeMap
end WebKit.JSC
