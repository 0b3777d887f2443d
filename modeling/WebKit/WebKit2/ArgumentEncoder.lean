import WebKit.Lib.Bytes

/-!
# The IPC encoder

`ArgumentEncoder` appends values to one buffer, each at an offset that is a multiple of its alignment. Nothing writes
the bytes skipped for that: they are what the allocated memory held.

- `grow` makes room at an aligned offset, inside the capacity that `reserve` provides (`grow_fits`);
- `encodeFixedLengthData` appends padding and the data (`encodeFixedLengthData_buffer`).
-/

namespace WebKit.WebKit2

open WebKit.Lib

/-! ## Arithmetic types -/

/-- The arithmetic types by their encoded size; signed and floating-point values are their bit patterns. -/
inductive Arithmetic
  | bool
  | bits8
  | bits16
  | bits32
  | bits64
  deriving DecidableEq

namespace Arithmetic

abbrev Val : Arithmetic → Type
  | bool => Bool
  | bits8 => UInt8
  | bits16 => UInt16
  | bits32 => UInt32
  | bits64 => UInt64

instance : (type : Arithmetic) → DecidableEq type.Val
  | bool => inferInstanceAs (DecidableEq Bool)
  | bits8 => inferInstanceAs (DecidableEq UInt8)
  | bits16 => inferInstanceAs (DecidableEq UInt16)
  | bits32 => inferInstanceAs (DecidableEq UInt32)
  | bits64 => inferInstanceAs (DecidableEq UInt64)

/-- `sizeof`, which is `alignof` too. -/
def size : Arithmetic → Nat
  | bool => 1
  | bits8 => 1
  | bits16 => 2
  | bits32 => 4
  | bits64 => 8

/-- The bytes a value has in memory. -/
def toBytes : (type : Arithmetic) → type.Val → List UInt8
  | bool, value => littleEndian 1 value.toNat
  | bits8, value => littleEndian 1 value.toNat
  | bits16, value => littleEndian 2 value.toNat
  | bits32, value => littleEndian 4 value.toNat
  | bits64, value => littleEndian 8 value.toNat

/-- The value that bytes are copied to. -/
def ofBytes : (type : Arithmetic) → List UInt8 → type.Val
  | bool, bytes => decide (ofLittleEndian bytes ≠ 0)
  | bits8, bytes => UInt8.ofNat (ofLittleEndian bytes)
  | bits16, bytes => UInt16.ofNat (ofLittleEndian bytes)
  | bits32, bytes => UInt32.ofNat (ofLittleEndian bytes)
  | bits64, bytes => UInt64.ofNat (ofLittleEndian bytes)

@[simp] theorem length_toBytes (type : Arithmetic) (value : type.Val) : (type.toBytes value).length = type.size := by
  cases type <;> simp [toBytes, size]

@[simp] theorem ofBytes_toBytes (type : Arithmetic) (value : type.Val) : type.ofBytes (type.toBytes value) = value := by
  cases type with
  | bool => cases value <;> decide
  | bits8 => rw [toBytes, ofBytes, ofLittleEndian_littleEndian value.toNat_lt, UInt8.ofNat_toNat]
  | bits16 => rw [toBytes, ofBytes, ofLittleEndian_littleEndian value.toNat_lt, UInt16.ofNat_toNat]
  | bits32 => rw [toBytes, ofBytes, ofLittleEndian_littleEndian value.toNat_lt, UInt32.ofNat_toNat]
  | bits64 => rw [toBytes, ofBytes, ofLittleEndian_littleEndian value.toNat_lt, UInt64.ofNat_toNat]

/-- The sizes are powers of 2, up to 8. -/
theorem size_eq (type : Arithmetic) : ∃ k < 4, type.size = 2 ^ k := by
  cases type with
  | bool => exact ⟨0, by omega, rfl⟩
  | bits8 => exact ⟨0, by omega, rfl⟩
  | bits16 => exact ⟨1, by omega, rfl⟩
  | bits32 => exact ⟨2, by omega, rfl⟩
  | bits64 => exact ⟨3, by omega, rfl⟩

theorem size_le (type : Arithmetic) : type.size ≤ 8 := by
  cases type <;> simp [size]

theorem size_pos (type : Arithmetic) : 0 < type.size := by
  cases type <;> simp [size]

end Arithmetic

/-! ## The buffer of the encoder -/

/-- The encoder's memory: `m_buffer` as far as `m_bufferSize`, and how large the allocation is. `uninitialized` is what
the memory holds at each offset until something is written there. -/
structure ArgumentEncoder where
  buffer : List UInt8
  bufferCapacity : Nat
  uninitialized : Nat → UInt8
  fits : buffer.length ≤ bufferCapacity
  inline_le : 512 ≤ bufferCapacity

namespace ArgumentEncoder

/-- `ArgumentEncoder()`, with the inline buffer. -/
def new (uninitialized : Nat → UInt8) : ArgumentEncoder :=
  { buffer := [], bufferCapacity := 512, uninitialized, fits := Nat.zero_le _, inline_le := Nat.le_refl _ }

def bufferSize (encoder : ArgumentEncoder) : Nat := encoder.buffer.length

def roundUpToAlignment (value alignment : Nat) : Nat := (value + alignment - 1) / alignment * alignment

/-- `while (newCapacity < size) newCapacity *= 2;` -/
def doubleUntil (size newCapacity : Nat) : Nat :=
  if 0 < newCapacity ∧ newCapacity < size then doubleUntil size (newCapacity * 2) else newCapacity
termination_by size - newCapacity

theorem le_doubleUntil (size newCapacity : Nat) : newCapacity ≤ doubleUntil size newCapacity := by
  fun_induction doubleUntil size newCapacity with
  | case1 _ _ ih => omega
  | case2 _ _ => exact Nat.le_refl _

theorem size_le_doubleUntil {size newCapacity : Nat} (h : 0 < newCapacity) : size ≤ doubleUntil size newCapacity := by
  fun_induction doubleUntil size newCapacity with
  | case1 _ _ ih => exact ih (by omega)
  | case2 _ hdone => omega

theorem le_roundUpToAlignment (value : Nat) {alignment : Nat} (h : 0 < alignment) :
    value ≤ roundUpToAlignment value alignment := by
  have := Nat.div_add_mod (value + alignment - 1) alignment
  have := Nat.mod_lt (value + alignment - 1) h
  rw [roundUpToAlignment, Nat.mul_comm]
  omega

/-- The capacity after the reallocation of `reserve`. -/
def newCapacity (encoder : ArgumentEncoder) (size : Nat) : Nat :=
  doubleUntil size (roundUpToAlignment (encoder.bufferCapacity * 2) 4096)

theorem bufferCapacity_le_newCapacity (encoder : ArgumentEncoder) (size : Nat) :
    encoder.bufferCapacity ≤ encoder.newCapacity size := by
  have hround := le_roundUpToAlignment (encoder.bufferCapacity * 2) (show 0 < 4096 by omega)
  have hdouble := le_doubleUntil size (roundUpToAlignment (encoder.bufferCapacity * 2) 4096)
  rw [newCapacity]
  omega

theorem size_le_newCapacity (encoder : ArgumentEncoder) (size : Nat) : size ≤ encoder.newCapacity size := by
  have hround := le_roundUpToAlignment (encoder.bufferCapacity * 2) (show 0 < 4096 by omega)
  have hinline := encoder.inline_le
  exact size_le_doubleUntil (by omega)

def reserve (encoder : ArgumentEncoder) (size : Nat) : ArgumentEncoder :=
  if size ≤ encoder.bufferCapacity then encoder
  else
    { encoder with
      bufferCapacity := encoder.newCapacity size
      fits := encoder.fits.trans (encoder.bufferCapacity_le_newCapacity size)
      inline_le := encoder.inline_le.trans (encoder.bufferCapacity_le_newCapacity size) }

theorem le_reserve_bufferCapacity (encoder : ArgumentEncoder) (size : Nat) :
    size ≤ (encoder.reserve size).bufferCapacity := by
  rw [reserve]
  split
  · assumption
  · exact encoder.size_le_newCapacity size

/-- The bytes of the memory from the end of the buffer to an offset. -/
def fresh (encoder : ArgumentEncoder) (limit : Nat) : List UInt8 :=
  (List.range' encoder.bufferSize (limit - encoder.bufferSize)).map encoder.uninitialized

theorem grow_fits (encoder : ArgumentEncoder) {alignment : Nat} (size : Nat) (h : 0 < alignment) :
    (encoder.buffer ++ encoder.fresh (roundUpToAlignment encoder.bufferSize alignment + size)).length ≤
      (encoder.reserve (roundUpToAlignment encoder.bufferSize alignment + size)).bufferCapacity := by
  have hcapacity := encoder.le_reserve_bufferCapacity (roundUpToAlignment encoder.bufferSize alignment + size)
  have hround := le_roundUpToAlignment encoder.bufferSize h
  simp only [List.length_append, fresh, List.length_map, List.length_range', bufferSize] at hround hcapacity ⊢
  omega

/-- `grow`: room for `size` bytes behind the buffer, and the aligned offset where it starts. -/
def grow (encoder : ArgumentEncoder) (alignment size : Nat) (h : 0 < alignment) : ArgumentEncoder × Nat :=
  let alignedSize := roundUpToAlignment encoder.bufferSize alignment
  ({ encoder.reserve (alignedSize + size) with
      buffer := encoder.buffer ++ encoder.fresh (alignedSize + size)
      fits := encoder.grow_fits size h },
    alignedSize)

/-- `memcpy` to an offset of the buffer. -/
def memcpy (encoder : ArgumentEncoder) (start : Nat) (data : List UInt8) : ArgumentEncoder :=
  { encoder with
    buffer := overwrite encoder.buffer start data
    fits := by rw [length_overwrite]; exact encoder.fits }

def encodeFixedLengthData (data : List UInt8) (alignment : Nat) (h : 0 < alignment) (encoder : ArgumentEncoder) :
    ArgumentEncoder :=
  let (encoder, start) := encoder.grow alignment data.length h
  encoder.memcpy start data

/-- `encode` of an arithmetic type. -/
def encodeArithmetic (type : Arithmetic) (value : type.Val) (encoder : ArgumentEncoder) : ArgumentEncoder :=
  let (encoder, start) := encoder.grow type.size type.size type.size_pos
  encoder.memcpy start (type.toBytes value)

def encodeVariableLengthByteArray (data : List UInt8) (encoder : ArgumentEncoder) : ArgumentEncoder :=
  (encoder.encodeArithmetic .bits64 (UInt64.ofNat data.length)).encodeFixedLengthData data 1 Nat.one_pos

/-! ## What an encoding appends -/

/-- The padding in front of data of an alignment. -/
def padding (encoder : ArgumentEncoder) (alignment : Nat) : List UInt8 :=
  encoder.fresh (roundUpToAlignment encoder.bufferSize alignment)

theorem length_padding (encoder : ArgumentEncoder) {alignment : Nat} (h : 0 < alignment) :
    encoder.buffer.length + (encoder.padding alignment).length = roundUpToAlignment encoder.bufferSize alignment := by
  have := le_roundUpToAlignment encoder.bufferSize h
  simp only [padding, fresh, List.length_map, List.length_range', bufferSize] at this ⊢
  omega

theorem fresh_eq (encoder : ArgumentEncoder) {alignment : Nat} (size : Nat) (h : 0 < alignment) :
    ∃ room : List UInt8, room.length = size ∧
      encoder.fresh (roundUpToAlignment encoder.bufferSize alignment + size) = encoder.padding alignment ++ room := by
  have hround := le_roundUpToAlignment encoder.bufferSize h
  refine ⟨(List.range' (roundUpToAlignment encoder.bufferSize alignment) size).map encoder.uninitialized, by simp, ?_⟩
  have hsplit : roundUpToAlignment encoder.bufferSize alignment + size - encoder.bufferSize =
      (roundUpToAlignment encoder.bufferSize alignment - encoder.bufferSize) + size := by omega
  have hstart : roundUpToAlignment encoder.bufferSize alignment =
      encoder.bufferSize + (roundUpToAlignment encoder.bufferSize alignment - encoder.bufferSize) := by omega
  rw [padding, fresh, fresh, hsplit, ← List.range'_append_1, List.map_append, ← hstart]

theorem memcpy_grow_buffer (encoder : ArgumentEncoder) {alignment : Nat} (data : List UInt8) (h : 0 < alignment) :
    ((encoder.grow alignment data.length h).1.memcpy (encoder.grow alignment data.length h).2 data).buffer =
      encoder.buffer ++ encoder.padding alignment ++ data := by
  obtain ⟨room, hroom, hfresh⟩ := encoder.fresh_eq data.length h
  have hstart : (encoder.buffer ++ encoder.padding alignment).length =
      roundUpToAlignment encoder.bufferSize alignment := by
    rw [List.length_append, encoder.length_padding h]
  simp only [grow, memcpy]
  rw [hfresh, ← List.append_assoc, ← hstart, overwrite_append _ hroom]

theorem encodeFixedLengthData_buffer (data : List UInt8) {alignment : Nat} (h : 0 < alignment)
    (encoder : ArgumentEncoder) :
    (encoder.encodeFixedLengthData data alignment h).buffer = encoder.buffer ++ encoder.padding alignment ++ data :=
  encoder.memcpy_grow_buffer data h

theorem encodeArithmetic_eq (type : Arithmetic) (value : type.Val) (encoder : ArgumentEncoder) :
    encoder.encodeArithmetic type value =
      encoder.encodeFixedLengthData (type.toBytes value) type.size type.size_pos := by
  simp only [encodeArithmetic, encodeFixedLengthData, Arithmetic.length_toBytes]

end ArgumentEncoder

end WebKit.WebKit2
