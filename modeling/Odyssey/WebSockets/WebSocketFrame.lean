import Mathlib.Data.List.Basic
import Odyssey.WTF.Text

/-!
# WebSocket frames

`WebSocketFrame::parseFrame` reads one frame from the beginning of the receive buffer. The payload
of a masked frame is unmasked in the buffer itself. Numbers of bytes are those of a 64-bit `size_t`.
-/
namespace Odyssey.WebSockets

/-- `WebSocketFrame::OpCode`, with the values that a cast of four bits can give besides. -/
inductive OpCode where
  | continuation
  | text
  | binary
  | close
  | ping
  | pong
  | reserved (value : Nat)
deriving DecidableEq, Repr

namespace OpCode

/-- The cast of a number to an opcode. -/
def ofValue : Nat → OpCode
  | 0x0 => .continuation
  | 0x1 => .text
  | 0x2 => .binary
  | 0x8 => .close
  | 0x9 => .ping
  | 0xA => .pong
  | value => .reserved value

def value : OpCode → Nat
  | .continuation => 0x0
  | .text => 0x1
  | .binary => 0x2
  | .close => 0x8
  | .ping => 0x9
  | .pong => 0xA
  | .reserved value => value

end OpCode

/-- A frame; `payloadLength` is the length of the payload. -/
structure WebSocketFrame where
  opCode : OpCode
  final : Bool
  compress : Bool
  reserved2 : Bool
  reserved3 : Bool
  masked : Bool
  payload : List UInt8
deriving DecidableEq, Repr

def finalBit : UInt8 := 0x80
def compressBit : UInt8 := 0x40
def reserved2Bit : UInt8 := 0x20
def reserved3Bit : UInt8 := 0x10
def opCodeMask : UInt8 := 0xF
def maskBit : UInt8 := 0x80
def payloadLengthMask : UInt8 := 0x7F
def maxPayloadLengthWithoutExtendedLengthField : Nat := 125
def payloadLengthWithTwoByteExtendedLengthField : Nat := 126
def maskingKeyWidthInBytes : Nat := 4
def maxPayloadLength : Nat := 0x7FFFFFFFFFFFFFFF
def maxSize : Nat := 0xFFFFFFFFFFFFFFFF

namespace WebSocketFrame

/-- The data of `frameOK` is the buffer after a masked payload was unmasked in place. -/
inductive ParseFrameResult where
  | frameOK (frame : WebSocketFrame) (frameEnd : Nat) (data : List UInt8)
  | frameIncomplete
  | frameError (errorString : String)
deriving DecidableEq, Repr

def isMasked (secondByte : UInt8) : Bool := secondByte &&& maskBit != 0

def maskingKeyLength (masked : Bool) : Nat := if masked then maskingKeyWidthInBytes else 0

def extendedPayloadLengthSize (secondByte : UInt8) : Nat :=
  let payloadLength := (secondByte &&& payloadLengthMask).toNat
  if maxPayloadLengthWithoutExtendedLengthField < payloadLength then
    if payloadLength = payloadLengthWithTwoByteExtendedLengthField then 2 else 8
  else 0

/-- The loop that reads an extended length. -/
def readLength (bytes : List UInt8) : Nat :=
  bytes.foldl (fun payloadLength b => payloadLength * 256 + b.toNat) 0

/-- The payload length of a frame whose extended length consists of these bytes, with the checks of
the length. -/
def readPayloadLength (secondByte : UInt8) (extended : List UInt8) : Except String Nat :=
  let size := extended.length
  let payloadLength :=
    if size = 0 then (secondByte &&& payloadLengthMask).toNat else readLength extended
  if size = 2 ∧ payloadLength ≤ maxPayloadLengthWithoutExtendedLengthField then
    .error "The minimal number of bytes MUST be used to encode the length"
  else if size = 8 ∧ payloadLength ≤ 0xFFFF then
    .error "The minimal number of bytes MUST be used to encode the length"
  else if maxPayloadLength < payloadLength ∨
      maxSize < payloadLength + maskingKeyLength (isMasked secondByte) then
    .error ("WebSocket frame length too large: " ++ toString payloadLength ++ " bytes")
  else .ok payloadLength

/-- The loop that unmasks a payload. -/
def unmask (maskingKey payload : List UInt8) : List UInt8 :=
  payload.mapIdx fun i b => b ^^^ maskingKey.getD (i % maskingKeyWidthInBytes) 0

/-- The rest of `parseFrame`: the header takes the first `p` bytes of the data. -/
def parsePayload (firstByte secondByte : UInt8) (payloadLength p : Nat) (data : List UInt8) :
    ParseFrameResult :=
  let masked := isMasked secondByte
  let payloadStart := p + maskingKeyLength masked
  if data.length - p < maskingKeyLength masked + payloadLength then .frameIncomplete
  else
    let received := (data.drop payloadStart).take payloadLength
    let payload :=
      if masked then unmask ((data.drop p).take maskingKeyWidthInBytes) received else received
    let frameEnd := payloadStart + payloadLength
    .frameOK
      { opCode := OpCode.ofValue (firstByte &&& opCodeMask).toNat
        final := firstByte &&& finalBit != 0
        compress := firstByte &&& compressBit != 0
        reserved2 := firstByte &&& reserved2Bit != 0
        reserved3 := firstByte &&& reserved3Bit != 0
        masked
        payload }
      frameEnd (data.take payloadStart ++ payload ++ data.drop frameEnd)

def parseFrame (data : List UInt8) : ParseFrameResult :=
  match data with
  | firstByte :: secondByte :: p =>
    let size := extendedPayloadLengthSize secondByte
    if p.length < size then .frameIncomplete
    else
      match readPayloadLength secondByte (p.take size) with
      | .error errorString => .frameError errorString
      | .ok payloadLength => parsePayload firstByte secondByte payloadLength (2 + size) data
  | _ => .frameIncomplete

end WebSocketFrame

end Odyssey.WebSockets
