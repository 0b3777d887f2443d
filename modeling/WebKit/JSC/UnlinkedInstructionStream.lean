import WebKit.Lib.Bytes

/-!
# Unlinked instruction streams

Instructions are an opcode and as many operands as the opcode asks for, one slot each. In a stream the opcode is a byte,
and an operand one, two or five bytes, whose first three bits are the format (`PackedValueType`). The packer writes to a
buffer of five bytes for each slot; there is no result when a write, a read or an index is out of range.
-/

namespace WebKit.JSC

/-- What `opcodeLength` knows: the opcodes are numbered from 0, and their numbers fit a byte. -/
structure OpcodeTable where
  lengths : List Nat
  numOpcodeIDs_le : lengths.length ≤ 256
  length_bounds : ∀ n ∈ lengths, 1 ≤ n ∧ n ≤ 16

/-- The opcodes of `BytecodeList.json`, and behind them the helpers, whose length is 1. -/
def bytecodes : OpcodeTable where
  lengths := [1, 2, 1, 2, 2, 4, 3, 4, 4, 5, 4, 5, 3, 3, 4, 3, 4, 3, 4, 3, 4, 4, 4, 4, 4, 4, 2, 2, 3, 3, 5, 5, 5, 4, 5, 4,
    4, 4, 3, 5, 5, 5, 5, 4, 3, 3, 3, 3, 3, 3, 3, 4, 5, 5, 9, 9, 9, 4, 9, 9, 9, 9, 9, 9, 4, 6, 6, 5, 5, 4, 4, 5, 2, 3, 3,
    3, 3, 4, 4, 4, 4, 4, 4, 4, 4, 4, 1, 4, 4, 4, 4, 4, 3, 9, 9, 9, 2, 3, 2, 3, 9, 9, 4, 3, 6, 8, 7, 2, 1, 4, 2, 2, 3, 3,
    2, 2, 2, 6, 3, 5, 5, 4, 7, 4, 5, 4, 3] ++ List.replicate 12 1
  numOpcodeIDs_le := by decide +kernel
  length_bounds := by decide +kernel

/-- `opcodeLength`, which has a `RELEASE_ASSERT` for what is no opcode. -/
def OpcodeTable.opcodeLength (table : OpcodeTable) (opcode : UInt32) : Option Nat := table.lengths[opcode.toNat]?

/-! ## Packing -/

def Positive5Bit : UInt8 := 0
def Negative5Bit : UInt8 := 1
def Positive13Bit : UInt8 := 2
def Negative13Bit : UInt8 := 3
def ConstantRegister5Bit : UInt8 := 4
def ConstantRegister13Bit : UInt8 := 5
def Full32Bit : UInt8 := 6

/-- The size of the buffer, and what is written behind `ptr`. -/
structure Packer where
  capacity : Nat
  written : List UInt8
  deriving DecidableEq, Repr

namespace Packer

def append8 (ptr : Packer) (value : UInt8) : Option Packer :=
  if ptr.written.length < ptr.capacity then some { ptr with written := ptr.written ++ [value] } else none

def append32 (ptr : Packer) (value : UInt32) : Option Packer := do
  if value &&& 0xffffffe0 = 0 then
    ptr.append8 value.toUInt8
  else if value &&& 0xffffffe0 = 0xffffffe0 then
    ptr.append8 (Negative5Bit <<< 5 ||| (value &&& 0x1f).toUInt8)
  else if value &&& 0xffffffe0 = 0x40000000 then
    ptr.append8 (ConstantRegister5Bit <<< 5 ||| (value &&& 0x1f).toUInt8)
  else if value &&& 0xffffe000 = 0 then
    let ptr ← ptr.append8 (Positive13Bit <<< 5 ||| (value >>> 8 &&& 0x1f).toUInt8)
    ptr.append8 (value &&& 0xff).toUInt8
  else if value &&& 0xffffe000 = 0xffffe000 then
    let ptr ← ptr.append8 (Negative13Bit <<< 5 ||| (value >>> 8 &&& 0x1f).toUInt8)
    ptr.append8 (value &&& 0xff).toUInt8
  else if value &&& 0xffffe000 = 0x40000000 then
    let ptr ← ptr.append8 (ConstantRegister13Bit <<< 5 ||| (value >>> 8 &&& 0x1f).toUInt8)
    ptr.append8 (value &&& 0xff).toUInt8
  else
    let ptr ← ptr.append8 (Full32Bit <<< 5)
    let ptr ← ptr.append8 (value &&& 0xff).toUInt8
    let ptr ← ptr.append8 (value >>> 8 &&& 0xff).toUInt8
    let ptr ← ptr.append8 (value >>> 16 &&& 0xff).toUInt8
    ptr.append8 (value >>> 24 &&& 0xff).toUInt8

end Packer

/-- `m_data` and `m_instructionCount`. -/
structure UnlinkedInstructionStream where
  data : List UInt8
  instructionCount : Nat
  deriving DecidableEq, Repr

namespace UnlinkedInstructionStream

variable (table : OpcodeTable)

/-- `for (unsigned j = 1; j < opLength; ++j)`, for the slots from `j` on. -/
def appendOperands (instructions : List UInt32) : Nat → Nat → Packer → Option Packer
  | 0, _, ptr => some ptr
  | n + 1, j, ptr => do
    let index ← instructions[j]?
    let ptr ← ptr.append32 index
    appendOperands instructions n (j + 1) ptr

/-- `for (unsigned i = 0; i < m_instructionCount;)`. -/
def appendInstructions (instructions : List UInt32) : Nat → Nat → Packer → Option Packer
  | 0, _, _ => none
  | fuel + 1, i, ptr =>
    if i < instructions.length then do
      let opcode ← instructions[i]?
      let ptr ← ptr.append8 opcode.toUInt8
      let opLength ← table.opcodeLength opcode
      let ptr ← appendOperands instructions (opLength - 1) (i + 1) ptr
      appendInstructions instructions fuel (i + opLength) ptr
    else some ptr

/-- The constructor. The size of the buffer is an `unsigned` product. -/
def pack (instructions : List UInt32) : Option UnlinkedInstructionStream := do
  let ptr ← appendInstructions table instructions (instructions.length + 1) 0
    { capacity := instructions.length * 5 % 2 ^ 32, written := [] }
  return { data := ptr.written, instructionCount := instructions.length }

def count (stream : UnlinkedInstructionStream) : Nat := stream.instructionCount

/-! ## Reading -/

/-- `m_index` and `m_unpackedBuffer`. -/
structure Reader where
  index : Nat
  unpackedBuffer : List UInt32

namespace Reader

def create : Reader := { index := 0, unpackedBuffer := List.replicate 16 0 }

def atEnd (reader : Reader) (stream : UnlinkedInstructionStream) : Bool := reader.index = stream.data.length

/-- The byte, and `m_index` behind it. -/
def read8 (stream : UnlinkedInstructionStream) (index : Nat) : Option (UInt8 × Nat) := do
  let byte ← stream.data[index]?
  return (byte, index + 1)

/-- The value, and `m_index` behind it. -/
def read32 (stream : UnlinkedInstructionStream) (index : Nat) : Option (UInt32 × Nat) := do
  let data0 ← stream.data[index]?
  let type := data0 >>> 5
  if type = Positive5Bit then
    return (data0.toUInt32, index + 1)
  else if type = Negative5Bit then
    return (0xffffffe0 ||| data0.toUInt32, index + 1)
  else if type = Positive13Bit then
    let data1 ← stream.data[index + 1]?
    let high := (data0 &&& 0x1F).toUInt32 <<< 8
    return (high ||| data1.toUInt32, index + 2)
  else if type = Negative13Bit then
    let data1 ← stream.data[index + 1]?
    let high := (data0 &&& 0x1F).toUInt32 <<< 8
    return (0xffffe000 ||| high ||| data1.toUInt32, index + 2)
  else if type = ConstantRegister5Bit then
    return (0x40000000 ||| (data0 &&& 0x1F).toUInt32, index + 1)
  else if type = ConstantRegister13Bit then
    let data1 ← stream.data[index + 1]?
    let high := (data0 &&& 0x1F).toUInt32 <<< 8
    return (0x40000000 ||| high ||| data1.toUInt32, index + 2)
  else
    let data1 ← stream.data[index + 1]?
    let data2 ← stream.data[index + 2]?
    let data3 ← stream.data[index + 3]?
    let data4 ← stream.data[index + 4]?
    return (data1.toUInt32 ||| data2.toUInt32 <<< 8 ||| data3.toUInt32 <<< 16 ||| data4.toUInt32 <<< 24, index + 5)

/-- `m_unpackedBuffer[i] = value`. -/
def store (reader : Reader) (i : Nat) (value : UInt32) (index : Nat) : Option Reader :=
  if i < reader.unpackedBuffer.length then some { index, unpackedBuffer := reader.unpackedBuffer.set i value } else none

/-- `for (unsigned i = 1; i < opLength; ++i)`. -/
def readOperands (stream : UnlinkedInstructionStream) : Nat → Nat → Reader → Option Reader
  | 0, _, reader => some reader
  | n + 1, i, reader => do
    let (value, index) ← read32 stream reader.index
    let reader ← reader.store i value index
    readOperands stream n (i + 1) reader

/-- `next`, after which the instruction is in the buffer. -/
def next (stream : UnlinkedInstructionStream) (reader : Reader) : Option Reader := do
  let (opcode, index) ← read8 stream reader.index
  let reader ← reader.store 0 opcode.toUInt32 index
  let opLength ← table.opcodeLength opcode.toUInt32
  readOperands stream (opLength - 1) 1 reader

end Reader

/-- `next` until `atEnd`, and of each instruction the slots that `opcodeLength` says, as `unpackForDebugging` takes them. -/
def readInstructions (stream : UnlinkedInstructionStream) : Nat → Reader → Option (List (List UInt32))
  | 0, _ => none
  | fuel + 1, reader =>
    if reader.atEnd stream then some []
    else do
      let reader ← reader.next table stream
      let opcode ← reader.unpackedBuffer[0]?
      let opLength ← table.opcodeLength opcode
      let rest ← readInstructions stream fuel reader
      return reader.unpackedBuffer.take opLength :: rest

/-- All instructions. Each is at least one byte. -/
def unpack (stream : UnlinkedInstructionStream) : Option (List (List UInt32)) :=
  readInstructions table stream (stream.data.length + 1) Reader.create

end UnlinkedInstructionStream

end WebKit.JSC
