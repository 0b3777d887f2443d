import WebKit.Lib.BigEndian
import WebKit.Lib.Memory

/-!
# WebSocket frames

`makeFrameData` lays out a frame: two bytes of flags and length, an extended length field of two or eight bytes if it
needs one, the masking key, and the payload. `parseFrame` reads a frame from the start of a buffer and unmasks its
payload in place. Places in the buffer are indices; reading or writing outside of it is `none`. The width of `size_t` is
that of an `AddressSize`.
-/

namespace WebKit.WebCore

open WebKit.Lib

/-- The platforms' widths of a pointer and of `size_t`. -/
inductive AddressSize where
  | bits32
  | bits64

def AddressSize.bits : AddressSize → Nat
  | bits32 => 32
  | bits64 => 64

/-- A frame whose payload is given by a value of type `π`. -/
structure WebSocketFrame (π : Type) where
  opCode : UInt8
  final : Bool
  compress : Bool
  reserved2 : Bool
  reserved3 : Bool
  masked : Bool
  payload : π
  payloadLength : Nat

namespace WebSocketFrame

/-- The constructor. -/
def construct {π : Type} (opCode : UInt8) (final compress masked : Bool) (payload : π) (payloadLength : Nat) :
    WebSocketFrame π where
  opCode := opCode
  final := final
  compress := compress
  reserved2 := false
  reserved3 := false
  masked := masked
  payload := payload
  payloadLength := payloadLength

def finalBit : UInt8 := 0x80
def compressBit : UInt8 := 0x40
def reserved2Bit : UInt8 := 0x20
def reserved3Bit : UInt8 := 0x10
def opCodeMask : UInt8 := 0xF
def maskBit : UInt8 := 0x80
def payloadLengthMask : UInt8 := 0x7F
def maxPayloadLengthWithoutExtendedLengthField : Nat := 125
def payloadLengthWithTwoByteExtendedLengthField : Nat := 126
def payloadLengthWithEightByteExtendedLengthField : Nat := 127
def maskingKeyWidthInBytes : Nat := 4

/-- What `parseFrame` returns and, with it, what it has set: the frame with its payload as a place in the buffer, the
end of the frame, and the error. -/
inductive ParseFrameResult where
  | FrameOK (frame : WebSocketFrame Nat) (frameEnd : Nat)
  | FrameIncomplete
  | FrameError (errorString : String)

/-! ## Parsing -/

/-- The loop over the bytes of the extended length field, from `p` on. -/
def readLength (data : List UInt8) (payloadLength64 : UInt64) (p : Nat) : Nat → Option UInt64
  | 0 => some payloadLength64
  | count + 1 => do
    let byte ← data[p]?
    readLength data (payloadLength64 <<< 8 ||| byte.toUInt64) (p + 1) count

/-- The loop that unmasks the payload, from index `i` on. -/
def unmask (maskingKey payload i : Nat) : Nat → List UInt8 → Option (List UInt8)
  | 0, data => some data
  | count + 1, data => do
    let byte ← data[payload + i]?
    let key ← data[maskingKey + i % maskingKeyWidthInBytes]?
    let data ← writeSlot data (payload + i) (byte ^^^ key)
    unmask maskingKey payload (i + 1) count data

def lengthTooSmall : String := "The minimal number of bytes MUST be used to encode the length"

def lengthTooLarge (payloadLength64 : UInt64) : String :=
  "WebSocket frame length too large: " ++ toString payloadLength64.toNat ++ " bytes"

/-- The rest of `parseFrame`, behind the length at `p`. -/
def parsePayload (size : AddressSize) (data : List UInt8) (firstByte secondByte : UInt8) (payloadLength64 : UInt64)
    (p : Nat) : Option (ParseFrameResult × List UInt8) :=
  let masked : Bool := secondByte &&& maskBit ≠ 0
  let maskingKeyLength := if masked then maskingKeyWidthInBytes else 0
  if payloadLength64 > 0x7FFFFFFFFFFFFFFF ∨
      payloadLength64 + UInt64.ofNat maskingKeyLength > UInt64.ofNat (2 ^ size.bits - 1) then
    some (.FrameError (lengthTooLarge payloadLength64), data)
  else
    let payloadLength := payloadLength64.toNat % 2 ^ size.bits
    if (data.length - p) % 2 ^ size.bits < (maskingKeyLength + payloadLength) % 2 ^ size.bits then
      some (.FrameIncomplete, data)
    else
      let frame : WebSocketFrame Nat :=
        { opCode := firstByte &&& opCodeMask
          final := firstByte &&& finalBit ≠ 0
          compress := firstByte &&& compressBit ≠ 0
          reserved2 := firstByte &&& reserved2Bit ≠ 0
          reserved3 := firstByte &&& reserved3Bit ≠ 0
          masked := masked
          payload := p + maskingKeyLength
          payloadLength := payloadLength }
      let frameEnd := p + maskingKeyLength + payloadLength
      (if masked then unmask p (p + maskingKeyWidthInBytes) 0 payloadLength data else some data).map fun data =>
        (.FrameOK frame frameEnd, data)

/-- `parseFrame`, and the buffer afterwards. -/
def parseFrame (size : AddressSize) (data : List UInt8) : Option (ParseFrameResult × List UInt8) :=
  if data.length < 2 then some (.FrameIncomplete, data)
  else do
    let firstByte ← data[0]?
    let secondByte ← data[1]?
    let p := 2
    let payloadLength64 := (secondByte &&& payloadLengthMask).toUInt64
    if payloadLength64.toNat > maxPayloadLengthWithoutExtendedLengthField then
      let extendedPayloadLengthSize :=
        if payloadLength64.toNat = payloadLengthWithTwoByteExtendedLengthField then 2 else 8
      if data.length - p < extendedPayloadLengthSize then return (.FrameIncomplete, data)
      else do
        let payloadLength64 ← readLength data 0 p extendedPayloadLengthSize
        if extendedPayloadLengthSize = 2 ∧ payloadLength64.toNat ≤ maxPayloadLengthWithoutExtendedLengthField then
          return (.FrameError lengthTooSmall, data)
        else if extendedPayloadLengthSize = 8 ∧ payloadLength64 ≤ 0xFFFF then
          return (.FrameError lengthTooSmall, data)
        else parsePayload size data firstByte secondByte payloadLength64 (p + extendedPayloadLengthSize)
    else parsePayload size data firstByte secondByte payloadLength64 p

/-! ## Making -/

/-- The loop that masks the payload. -/
def maskPayload (maskingKey : Vector UInt8 4) (payload : List UInt8) : List UInt8 :=
  payload.mapIdx fun i byte => byte ^^^ maskingKey.get ⟨i % maskingKeyWidthInBytes, Nat.mod_lt i (by decide)⟩

/-- `maskingKey` is what the random generator puts in the place of the masking key. -/
def appendFramePayload (frame : WebSocketFrame (List UInt8)) (maskingKey : Vector UInt8 4) (frameData : List UInt8) :
    List UInt8 :=
  if frame.masked then frameData ++ maskingKey.toList ++ maskPayload maskingKey frame.payload
  else frameData ++ frame.payload

def makeFrameData (frame : WebSocketFrame (List UInt8)) (maskingKey : Vector UInt8 4) : List UInt8 :=
  let firstByte :=
    (if frame.final then finalBit else 0) ||| (if frame.compress then compressBit else 0) ||| frame.opCode
  let secondByte := if frame.masked then maskBit else 0
  let frameData :=
    if frame.payloadLength ≤ maxPayloadLengthWithoutExtendedLengthField then
      [firstByte, secondByte ||| UInt8.ofNat frame.payloadLength]
    else if frame.payloadLength ≤ 0xFFFF then
      [firstByte, secondByte ||| UInt8.ofNat payloadLengthWithTwoByteExtendedLengthField,
        UInt8.ofNat ((frame.payloadLength &&& 0xFF00) >>> 8), UInt8.ofNat (frame.payloadLength &&& 0xFF)]
    else
      let extendedPayloadLength := storeBigEndian 0 8 frame.payloadLength (by omega) (.replicate 8 0)
      [firstByte, secondByte ||| UInt8.ofNat payloadLengthWithEightByteExtendedLengthField] ++
        extendedPayloadLength.toList
  appendFramePayload frame maskingKey frameData

end WebSocketFrame

end WebKit.WebCore
