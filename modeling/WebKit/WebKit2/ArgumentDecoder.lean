import WebKit.WebKit2.ArgumentEncoder

/-!
# The IPC decoder

`Buffer` is the block the decoder allocates for the received bytes. The decoder walks over it with `m_bufferPos`, an
address, and a position one past the end of the buffer marks it invalid. A `Decoding` is what a decode function does
with the decoder: it fails (`return false`), decodes a value, or faults when an address or a size wraps or when a byte
outside the block is read.

- `roundUpToAlignment_eq`, the mask computation in terms of `Nat`;
- `alignBufferPosition_eq` and `bufferIsLargeEnoughToContain_eq`, the length checks on every position of the decoder.
-/

namespace WebKit.WebKit2

open WebKit.Lib

/-- The memory from `m_buffer` to `m_bufferEnd`: what `malloc` returned, aligned for every arithmetic type and not at
the top of the address space, with the received bytes copied to it. -/
structure Buffer where
  address : UInt64
  bytes : List UInt8
  aligned : address.toNat % 8 = 0
  below : address.toNat + bytes.length + 8 < 2 ^ 64

namespace Buffer

def addressOf (buffer : Buffer) (offset : Nat) : UInt64 := buffer.address + UInt64.ofNat offset

/-- `m_bufferEnd`. -/
def bufferEnd (buffer : Buffer) : UInt64 := buffer.addressOf buffer.bytes.length

theorem toNat_addressOf (buffer : Buffer) {offset : Nat} (h : offset ≤ buffer.bytes.length + 8) :
    (buffer.addressOf offset).toNat = buffer.address.toNat + offset := by
  have hbelow := buffer.below
  have hoffset : (UInt64.ofNat offset).toNat = offset := UInt64.toNat_ofNat_of_lt' (by rw [UInt64.size]; omega)
  rw [Buffer.addressOf, UInt64.toNat_add, hoffset, Nat.mod_eq_of_lt (by omega)]

@[simp] theorem toNat_bufferEnd (buffer : Buffer) :
    buffer.bufferEnd.toNat = buffer.address.toNat + buffer.bytes.length :=
  buffer.toNat_addressOf (by omega)

theorem size_dvd_address (buffer : Buffer) (type : Arithmetic) : type.size ∣ buffer.address.toNat := by
  obtain ⟨k, hk, hsize⟩ := type.size_eq
  rw [hsize]
  exact (pow_dvd_pow 2 (by omega : k ≤ 3)).trans (Nat.dvd_of_mod_eq_zero buffer.aligned)

end Buffer

/-- What a decode function does, with the position it leaves. -/
inductive Outcome (α : Type)
  | fault
  | failed (bufferPos : UInt64)
  | decoded (value : α) (bufferPos : UInt64)
  deriving DecidableEq

/-- A function of the decoder, which reads its block and moves its position. -/
structure Decoding (α : Type) where
  run : Buffer → UInt64 → Outcome α

namespace Decoding

variable {α β : Type}

def value (a : α) : Decoding α where
  run _ bufferPos := .decoded a bufferPos

def andThen (first : Decoding α) (next : α → Decoding β) : Decoding β where
  run buffer bufferPos :=
    match first.run buffer bufferPos with
    | .fault => .fault
    | .failed bufferPos => .failed bufferPos
    | .decoded a bufferPos => (next a).run buffer bufferPos

instance : Monad Decoding where
  pure := value
  bind := andThen

/-- `return false`. -/
def returnFalse : Decoding α where
  run _ bufferPos := .failed bufferPos

def fault : Decoding α where
  run _ _ := .fault

def position : Decoding UInt64 where
  run _ bufferPos := .decoded bufferPos bufferPos

def setPosition (bufferPos : UInt64) : Decoding Unit where
  run _ _ := .decoded () bufferPos

/-- `m_bufferEnd`. -/
def theEnd : Decoding UInt64 where
  run buffer bufferPos := .decoded buffer.bufferEnd bufferPos

/-- `address + size`, which may not wrap. -/
def add (address size : UInt64) : Decoding UInt64 :=
  if address.toNat + size.toNat < 2 ^ 64 then value (address + size) else fault

/-- `count * size`, which may not wrap. -/
def mul (count size : UInt64) : Decoding UInt64 :=
  if count.toNat * size.toNat < 2 ^ 64 then value (count * size) else fault

/-- Copying `size` bytes from the position, all of them in the block. -/
def readBytes (size : UInt64) : Decoding (List UInt8) where
  run buffer bufferPos :=
    if buffer.address ≤ bufferPos ∧ bufferPos.toNat + size.toNat ≤ buffer.bufferEnd.toNat then
      .decoded ((buffer.bytes.drop (bufferPos.toNat - buffer.address.toNat)).take size.toNat) bufferPos
    else .fault

/-- A call whose result is ignored: after a failure `otherwise` is left where the value should be. -/
def ignoringResult (call : Decoding α) (otherwise : α) : Decoding α where
  run buffer bufferPos :=
    match call.run buffer bufferPos with
    | .failed bufferPos => .decoded otherwise bufferPos
    | outcome => outcome

section

variable {buffer : Buffer} {bufferPos : UInt64}

@[simp] theorem run_pure (a : α) : (pure a : Decoding α).run buffer bufferPos = .decoded a bufferPos := rfl

@[simp] theorem run_returnFalse : (returnFalse : Decoding α).run buffer bufferPos = .failed bufferPos := rfl

@[simp] theorem run_position : position.run buffer bufferPos = .decoded bufferPos bufferPos := rfl

@[simp] theorem run_setPosition (next : UInt64) : (setPosition next).run buffer bufferPos = .decoded () next := rfl

@[simp] theorem run_theEnd : theEnd.run buffer bufferPos = .decoded buffer.bufferEnd bufferPos := rfl

theorem run_bind_decoded {m : Decoding α} {f : α → Decoding β} {a : α} {next : UInt64}
    (h : m.run buffer bufferPos = .decoded a next) : (m >>= f).run buffer bufferPos = (f a).run buffer next := by
  show (andThen m f).run buffer bufferPos = (f a).run buffer next
  simp only [andThen, h]

theorem run_bind_failed {m : Decoding α} {f : α → Decoding β} {next : UInt64}
    (h : m.run buffer bufferPos = .failed next) : (m >>= f).run buffer bufferPos = .failed next := by
  show (andThen m f).run buffer bufferPos = .failed next
  simp only [andThen, h]

theorem run_add {address size : UInt64} (h : address.toNat + size.toNat < 2 ^ 64) :
    (add address size).run buffer bufferPos = .decoded (address + size) bufferPos := by
  rw [add, if_pos h]
  rfl

theorem run_mul {count size : UInt64} (h : count.toNat * size.toNat < 2 ^ 64) :
    (mul count size).run buffer bufferPos = .decoded (count * size) bufferPos := by
  rw [mul, if_pos h]
  rfl

theorem run_ignoringResult {m : Decoding α} {a : α} {next : UInt64} (otherwise : α)
    (h : m.run buffer bufferPos = .decoded a next) :
    (ignoringResult m otherwise).run buffer bufferPos = .decoded a next := by
  simp only [ignoringResult, h]

end

end Decoding

/-! ## The functions of the decoder -/

namespace ArgumentDecoder

open Decoding

def isInvalid (buffer : Buffer) (bufferPos : UInt64) : Bool := decide (bufferPos > buffer.bufferEnd)

def markInvalid : Decoding Unit := do
  let bufferEnd ← theEnd
  let bufferPos ← add bufferEnd 1
  setPosition bufferPos

def roundUpToAlignment (ptr alignment : UInt64) : Decoding UInt64 := do
  let alignmentMask := alignment - 1
  let sum ← add ptr alignmentMask
  return sum &&& ~~~alignmentMask

def alignedBufferIsLargeEnoughToContain (alignedPosition bufferEnd size : UInt64) : Bool :=
  decide (bufferEnd ≥ alignedPosition) && decide (bufferEnd - alignedPosition ≥ size)

def alignBufferPosition (alignment size : UInt64) : Decoding Unit := do
  let alignedPosition ← roundUpToAlignment (← position) alignment
  if !alignedBufferIsLargeEnoughToContain alignedPosition (← theEnd) size then
    -- We've walked off the end of this buffer.
    markInvalid
    returnFalse
  else
    setPosition alignedPosition

def bufferIsLargeEnoughToContain (alignment size : UInt64) : Decoding Bool := do
  let alignedPosition ← roundUpToAlignment (← position) alignment
  return alignedBufferIsLargeEnoughToContain alignedPosition (← theEnd) size

/-- `bufferIsLargeEnoughToContain<T>`. -/
def bufferIsLargeEnoughToContainElements (type : Arithmetic) (numElements : UInt64) : Decoding Bool := do
  let sizeofT := UInt64.ofNat type.size
  if numElements > UInt64.ofNat (2 ^ 64 - 1) / sizeofT then
    return false
  else
    let size ← mul numElements sizeofT
    bufferIsLargeEnoughToContain sizeofT size

def decodeFixedLengthData (size alignment : UInt64) : Decoding (List UInt8) := do
  alignBufferPosition alignment size
  let data ← readBytes size
  setPosition (← add (← position) size)
  return data

/-- `decode` of an arithmetic type. -/
def decodeArithmetic (type : Arithmetic) : Decoding type.Val := do
  let sizeofResult := UInt64.ofNat type.size
  alignBufferPosition sizeofResult sizeofResult
  let bytes ← readBytes sizeofResult
  setPosition (← add (← position) sizeofResult)
  return type.ofBytes bytes

def decodeVariableLengthByteArray : Decoding (List UInt8) := do
  let size ← decodeArithmetic .bits64
  alignBufferPosition 1 size
  let data ← readBytes size
  setPosition (← add (← position) size)
  return data

/-! ## The functions on the positions of the decoder -/

/-- The position of an invalid decoder. -/
def invalidPos (buffer : Buffer) : UInt64 := buffer.addressOf (buffer.bytes.length + 1)

section

variable {buffer : Buffer} {offset : Nat}

theorem run_markInvalid (buffer : Buffer) (bufferPos : UInt64) :
    markInvalid.run buffer bufferPos = .decoded () (invalidPos buffer) := by
  have hbelow := buffer.below
  have hone : (1 : UInt64).toNat = 1 := rfl
  have hsum : buffer.bufferEnd.toNat + (1 : UInt64).toNat < 2 ^ 64 := by
    rw [buffer.toNat_bufferEnd, hone]
    omega
  have hpos : buffer.bufferEnd + 1 = invalidPos buffer := by
    rw [← UInt64.toNat_inj, UInt64.toNat_add, Nat.mod_eq_of_lt hsum, buffer.toNat_bufferEnd, invalidPos,
      buffer.toNat_addressOf (by omega), hone, Nat.add_assoc]
  rw [markInvalid, run_bind_decoded run_theEnd, run_bind_decoded (run_add hsum), hpos]
  rfl

theorem roundUpToAlignment_lt (offset : Nat) (type : Arithmetic) :
    ArgumentEncoder.roundUpToAlignment offset type.size < offset + type.size := by
  have := Nat.div_mul_le_self (offset + type.size - 1) type.size
  have := type.size_pos
  rw [ArgumentEncoder.roundUpToAlignment]
  omega

theorem roundUp_address {address : Nat} (offset : Nat) {alignment : Nat} (hpos : 0 < alignment)
    (h : alignment ∣ address) :
    (address + offset + (alignment - 1)) / alignment * alignment =
      address + ArgumentEncoder.roundUpToAlignment offset alignment := by
  obtain ⟨q, rfl⟩ := h
  have hcomm : alignment * q + offset + (alignment - 1) = (offset + alignment - 1) + alignment * q := by omega
  rw [hcomm, Nat.add_mul_div_left _ _ hpos, ArgumentEncoder.roundUpToAlignment]
  ring

theorem run_roundUpToAlignment (type : Arithmetic) (h : offset ≤ buffer.bytes.length + 1) (bufferPos : UInt64) :
    (roundUpToAlignment (buffer.addressOf offset) (UInt64.ofNat type.size)).run buffer bufferPos =
      .decoded (buffer.addressOf (ArgumentEncoder.roundUpToAlignment offset type.size)) bufferPos := by
  have hbelow := buffer.below
  have hround := roundUpToAlignment_lt offset type
  have hle := type.size_le
  obtain ⟨k, hk, hsize⟩ := type.size_eq
  have haddress : (buffer.addressOf offset).toNat = buffer.address.toNat + offset :=
    buffer.toNat_addressOf (by omega)
  have hmask : UInt64.ofNat type.size - 1 = UInt64.ofNat (2 ^ k - 1) := by
    rw [hsize, UInt64.ofNat_sub (Nat.one_le_two_pow)]
    rfl
  have hmaskNat : (UInt64.ofNat (2 ^ k - 1)).toNat = type.size - 1 := by
    rw [← hsize]
    exact UInt64.toNat_ofNat_of_lt' (by rw [UInt64.size]; omega)
  have hsum : (buffer.addressOf offset).toNat + (UInt64.ofNat (2 ^ k - 1)).toNat < 2 ^ 64 := by
    rw [haddress, hmaskNat]
    omega
  have hresult : (buffer.addressOf offset + UInt64.ofNat (2 ^ k - 1)) &&& ~~~UInt64.ofNat (2 ^ k - 1) =
      buffer.addressOf (ArgumentEncoder.roundUpToAlignment offset type.size) := by
    rw [← UInt64.toNat_inj, toNat_and_not_mask _ (by omega), UInt64.toNat_add, Nat.mod_eq_of_lt hsum, haddress,
      hmaskNat, ← hsize, roundUp_address offset type.size_pos (buffer.size_dvd_address type), buffer.toNat_addressOf (by omega)]
  rw [roundUpToAlignment, hmask, run_bind_decoded (run_add hsum), run_pure, hresult]

theorem alignedBufferIsLargeEnoughToContain_eq {aligned : Nat} (h : aligned ≤ buffer.bytes.length + 8)
    (size : UInt64) :
    alignedBufferIsLargeEnoughToContain (buffer.addressOf aligned) buffer.bufferEnd size =
      decide (aligned + size.toNat ≤ buffer.bytes.length) := by
  have haligned := buffer.toNat_addressOf h
  have hend := buffer.toNat_bufferEnd
  rw [alignedBufferIsLargeEnoughToContain, ← Bool.decide_and, decide_eq_decide]
  constructor
  · rintro ⟨hle, hsize⟩
    rw [ge_iff_le, UInt64.le_iff_toNat_le, UInt64.toNat_sub_of_le _ _ hle] at hsize
    rw [ge_iff_le, UInt64.le_iff_toNat_le] at hle
    omega
  · intro hfits
    have hle : buffer.addressOf aligned ≤ buffer.bufferEnd := by
      rw [UInt64.le_iff_toNat_le]
      omega
    refine ⟨hle, ?_⟩
    rw [ge_iff_le, UInt64.le_iff_toNat_le, UInt64.toNat_sub_of_le _ _ hle]
    omega

/-- The end of `size` bytes at the next aligned offset. -/
def endOffset (offset : Nat) (type : Arithmetic) (size : Nat) : Nat :=
  ArgumentEncoder.roundUpToAlignment offset type.size + size

theorem run_alignBufferPosition (type : Arithmetic) (h : offset ≤ buffer.bytes.length + 1) (size : UInt64) :
    (alignBufferPosition (UInt64.ofNat type.size) size).run buffer (buffer.addressOf offset) =
      if endOffset offset type size.toNat ≤ buffer.bytes.length then
        .decoded () (buffer.addressOf (ArgumentEncoder.roundUpToAlignment offset type.size))
      else .failed (invalidPos buffer) := by
  have hround := roundUpToAlignment_lt offset type
  have hle := type.size_le
  rw [alignBufferPosition, run_bind_decoded run_position, run_bind_decoded (run_roundUpToAlignment type h _),
    run_bind_decoded run_theEnd, alignedBufferIsLargeEnoughToContain_eq (by omega), endOffset]
  by_cases hfits : ArgumentEncoder.roundUpToAlignment offset type.size + size.toNat ≤ buffer.bytes.length
  · simp [hfits]
  · simp only [hfits, decide_false, Bool.not_false, if_true, if_false]
    rw [run_bind_decoded (run_markInvalid buffer _), run_returnFalse]

theorem run_bufferIsLargeEnoughToContain (type : Arithmetic) (h : offset ≤ buffer.bytes.length + 1) (size : UInt64) :
    (bufferIsLargeEnoughToContain (UInt64.ofNat type.size) size).run buffer (buffer.addressOf offset) =
      .decoded (decide (endOffset offset type size.toNat ≤ buffer.bytes.length)) (buffer.addressOf offset) := by
  have hround := roundUpToAlignment_lt offset type
  have hle := type.size_le
  rw [bufferIsLargeEnoughToContain, run_bind_decoded run_position,
    run_bind_decoded (run_roundUpToAlignment type h _), run_bind_decoded run_theEnd, run_pure,
    alignedBufferIsLargeEnoughToContain_eq (by omega), endOffset]

theorem run_bufferIsLargeEnoughToContainElements (type : Arithmetic) (h : offset ≤ buffer.bytes.length + 1)
    (numElements : UInt64) :
    (bufferIsLargeEnoughToContainElements type numElements).run buffer (buffer.addressOf offset) =
      .decoded (decide (endOffset offset type (numElements.toNat * type.size) ≤ buffer.bytes.length))
        (buffer.addressOf offset) := by
  have hbelow := buffer.below
  have hle := type.size_le
  have hpos := type.size_pos
  have hsize : (UInt64.ofNat type.size).toNat = type.size := UInt64.toNat_ofNat_of_lt' (by rw [UInt64.size]; omega)
  have hmax : (UInt64.ofNat (2 ^ 64 - 1)).toNat = 2 ^ 64 - 1 := rfl
  have hcheck : numElements > UInt64.ofNat (2 ^ 64 - 1) / UInt64.ofNat type.size ↔
      2 ^ 64 ≤ numElements.toNat * type.size := by
    rw [gt_iff_lt, UInt64.lt_iff_toNat_lt, UInt64.toNat_div, hmax, hsize, Nat.div_lt_iff_lt_mul hpos]
    omega
  rw [bufferIsLargeEnoughToContainElements]
  by_cases hwraps : 2 ^ 64 ≤ numElements.toNat * type.size
  · have hfalse : ¬ endOffset offset type (numElements.toNat * type.size) ≤ buffer.bytes.length := by
      rw [endOffset]
      omega
    simp only [hcheck, hwraps, if_true, run_pure, hfalse, decide_false]
  · have hmul : numElements.toNat * (UInt64.ofNat type.size).toNat < 2 ^ 64 := by
      rw [hsize]
      omega
    simp only [hcheck, hwraps, if_false]
    rw [run_bind_decoded (run_mul hmul), run_bufferIsLargeEnoughToContain type h, UInt64.toNat_mul,
      Nat.mod_eq_of_lt hmul, hsize]

theorem run_readBytes {size : UInt64} (h : offset + size.toNat ≤ buffer.bytes.length) :
    (readBytes size).run buffer (buffer.addressOf offset) =
      .decoded ((buffer.bytes.drop offset).take size.toNat) (buffer.addressOf offset) := by
  have hoffset := buffer.toNat_addressOf (show offset ≤ buffer.bytes.length + 8 by omega)
  have hend := buffer.toNat_bufferEnd
  have hin : buffer.address ≤ buffer.addressOf offset ∧
      (buffer.addressOf offset).toNat + size.toNat ≤ buffer.bufferEnd.toNat := by
    rw [UInt64.le_iff_toNat_le]
    omega
  have hdrop : (buffer.addressOf offset).toNat - buffer.address.toNat = offset := by omega
  simp only [readBytes, if_pos hin, hdrop]

theorem run_add_position {size : UInt64} (h : offset + size.toNat ≤ buffer.bytes.length) (bufferPos : UInt64) :
    (add (buffer.addressOf offset) size).run buffer bufferPos =
      .decoded (buffer.addressOf (offset + size.toNat)) bufferPos := by
  have hbelow := buffer.below
  have hoffset := buffer.toNat_addressOf (show offset ≤ buffer.bytes.length + 8 by omega)
  have hsum : (buffer.addressOf offset).toNat + size.toNat < 2 ^ 64 := by omega
  have hresult : buffer.addressOf offset + size = buffer.addressOf (offset + size.toNat) := by
    have hnext := buffer.toNat_addressOf (show offset + size.toNat ≤ buffer.bytes.length + 8 by omega)
    rw [← UInt64.toNat_inj, UInt64.toNat_add, Nat.mod_eq_of_lt hsum, hnext, hoffset, Nat.add_assoc]
  rw [run_add hsum, hresult]

theorem run_fixedLength (type : Arithmetic) (h : offset ≤ buffer.bytes.length + 1) (size : UInt64)
    {α : Type} (result : List UInt8 → α) :
    (do alignBufferPosition (UInt64.ofNat type.size) size
        let data ← readBytes size
        setPosition (← add (← position) size)
        return result data : Decoding α).run buffer (buffer.addressOf offset) =
      if endOffset offset type size.toNat ≤ buffer.bytes.length then
        .decoded
          (result ((buffer.bytes.drop (ArgumentEncoder.roundUpToAlignment offset type.size)).take size.toNat))
          (buffer.addressOf (endOffset offset type size.toNat))
      else .failed (invalidPos buffer) := by
  have halign := run_alignBufferPosition type h size
  by_cases hfits : endOffset offset type size.toNat ≤ buffer.bytes.length
  · rw [if_pos hfits] at halign ⊢
    rw [run_bind_decoded halign, run_bind_decoded (run_readBytes hfits), run_bind_decoded run_position,
      run_bind_decoded (run_add_position hfits _), run_bind_decoded (run_setPosition _), run_pure, endOffset]
  · rw [if_neg hfits] at halign ⊢
    exact run_bind_failed halign

theorem run_decodeFixedLengthData (type : Arithmetic) (h : offset ≤ buffer.bytes.length + 1) (size : UInt64) :
    (decodeFixedLengthData size (UInt64.ofNat type.size)).run buffer (buffer.addressOf offset) =
      if endOffset offset type size.toNat ≤ buffer.bytes.length then
        .decoded ((buffer.bytes.drop (ArgumentEncoder.roundUpToAlignment offset type.size)).take size.toNat)
          (buffer.addressOf (endOffset offset type size.toNat))
      else .failed (invalidPos buffer) :=
  run_fixedLength type h size id

theorem run_decodeArithmetic (type : Arithmetic) (h : offset ≤ buffer.bytes.length + 1) :
    (decodeArithmetic type).run buffer (buffer.addressOf offset) =
      if endOffset offset type type.size ≤ buffer.bytes.length then
        .decoded (type.ofBytes
            ((buffer.bytes.drop (ArgumentEncoder.roundUpToAlignment offset type.size)).take type.size))
          (buffer.addressOf (endOffset offset type type.size))
      else .failed (invalidPos buffer) := by
  have hle := type.size_le
  have hsize : (UInt64.ofNat type.size).toNat = type.size := UInt64.toNat_ofNat_of_lt' (by rw [UInt64.size]; omega)
  have hfixed := run_fixedLength type h (UInt64.ofNat type.size) type.ofBytes
  rw [hsize] at hfixed
  exact hfixed

end

end ArgumentDecoder

end WebKit.WebKit2
