import MetricMQ.ByteString
import MetricMQ.BigEndian

/-! The binary framing protocol: frames, `BinaryProtocol::serialize` and
`BinaryProtocol::parse` with every throw of its helpers kept visible. -/
namespace MetricMQ

open ByteString BigEndian

def binaryProtocolVersion : UInt8 := 1
def signatureSize : ℕ := 64
def keyIdSize : ℕ := 4
def minFrameSize : ℕ := 16
def maxTopicLen : UInt16 := 256
def maxPayloadLen : UInt32 := 16 * 1024 * 1024

def namedCommandCodes : List UInt8 := [0x01, 0x02, 0x03, 0x04, 0x05, 0x06, 0x07, 0x08, 0x10, 0x11]

/-- The scoped enumeration over `uint8_t`: a cast may also give a value without a name. -/
inductive BinaryCommand
  | subscribe
  | unsubscribe
  | publish
  | message
  | ack
  | ping
  | pong
  | error
  | signedPublish
  | signedMessage
  | unnamed (code : UInt8) (h : code ∉ namedCommandCodes)
deriving DecidableEq

def BinaryCommand.toByte : BinaryCommand → UInt8
  | .subscribe => 0x01
  | .unsubscribe => 0x02
  | .publish => 0x03
  | .message => 0x04
  | .ack => 0x05
  | .ping => 0x06
  | .pong => 0x07
  | .error => 0x08
  | .signedPublish => 0x10
  | .signedMessage => 0x11
  | .unnamed code _ => code

def BinaryCommand.named : UInt8 → BinaryCommand
  | 0x01 => .subscribe
  | 0x02 => .unsubscribe
  | 0x03 => .publish
  | 0x04 => .message
  | 0x05 => .ack
  | 0x06 => .ping
  | 0x07 => .pong
  | 0x08 => .error
  | 0x10 => .signedPublish
  | _ => .signedMessage

/-- `static_cast<BinaryCommand>` of a byte. -/
def BinaryCommand.ofByte (code : UInt8) : BinaryCommand :=
  if h : code ∈ namedCommandCodes then named code else .unnamed code h

theorem BinaryCommand.ofByte_toByte (c : BinaryCommand) : ofByte c.toByte = c := by
  cases c with
  | unnamed code h => exact dif_neg h
  | _ => rfl

theorem BinaryCommand.toByte_ofByte (code : UInt8) : (ofByte code).toByte = code := by
  by_cases h : code ∈ namedCommandCodes
  · rw [ofByte, dif_pos h]
    simp only [namedCommandCodes, List.mem_cons, List.not_mem_nil, or_false] at h
    rcases h with rfl | rfl | rfl | rfl | rfl | rfl | rfl | rfl | rfl | rfl <;> rfl
  · rw [ofByte, dif_neg h]
    rfl

abbrev Signature := Vector UInt8 64

structure BinaryFrame where
  version : UInt8 := binaryProtocolVersion
  command : BinaryCommand := .ping
  sequence : UInt64 := 0
  topic : Bytes := []
  payload : Bytes := []
  signature : Signature := Vector.replicate 64 0
  keyId : UInt32 := 0
  isSigned : Bool := false
deriving DecidableEq

namespace BinaryFrame

def subscribe (topic : Bytes) (seq : UInt64) : BinaryFrame :=
  { command := .subscribe, topic := topic, sequence := seq }

def unsubscribe (topic : Bytes) (seq : UInt64) : BinaryFrame :=
  { command := .unsubscribe, topic := topic, sequence := seq }

def publish (topic payload : Bytes) (seq : UInt64) : BinaryFrame :=
  { command := .publish, topic := topic, payload := payload, sequence := seq }

def message (topic payload : Bytes) (seq : UInt64) : BinaryFrame :=
  { command := .message, topic := topic, payload := payload, sequence := seq }

def ack (seq : UInt64) : BinaryFrame := { command := .ack, sequence := seq }

def ping : BinaryFrame := { command := .ping }

def pong : BinaryFrame := { command := .pong }

def error (message : Bytes) : BinaryFrame := { command := .error, payload := message }

def signedPublish (topic payload : Bytes) (sig : Signature) (keyId : UInt32) (seq : UInt64) :
    BinaryFrame :=
  { command := .signedPublish, topic := topic, payload := payload, signature := sig,
    keyId := keyId, isSigned := true, sequence := seq }

def signedMessage (topic payload : Bytes) (sig : Signature) (keyId : UInt32) (seq : UInt64) :
    BinaryFrame :=
  { command := .signedMessage, topic := topic, payload := payload, signature := sig,
    keyId := keyId, isSigned := true, sequence := seq }

end BinaryFrame

def BinaryCommand.isSignedCmd (c : BinaryCommand) : Bool :=
  c = .signedPublish || c = .signedMessage

namespace BinaryProtocol

def writeUint16 (buffer : Bytes) (value : UInt16) : Bytes := buffer ++ bytes16 value
def writeUint32 (buffer : Bytes) (value : UInt32) : Bytes := buffer ++ bytes32 value
def writeUint64 (buffer : Bytes) (value : UInt64) : Bytes := buffer ++ bytes64 value

def readUint16 (buffer : Bytes) (offset : ℕ) : Except Fault UInt16 :=
  if offset + 2 > buffer.length then .error .underflow
  else .ok (be16 (buffer.getD offset 0) (buffer.getD (offset + 1) 0))

def readUint32 (buffer : Bytes) (offset : ℕ) : Except Fault UInt32 :=
  if offset + 4 > buffer.length then .error .underflow
  else .ok (be32 (buffer.getD offset 0) (buffer.getD (offset + 1) 0)
    (buffer.getD (offset + 2) 0) (buffer.getD (offset + 3) 0))

def readUint64 (buffer : Bytes) (offset : ℕ) : Except Fault UInt64 :=
  if offset + 8 > buffer.length then .error .underflow
  else .ok (be64 (buffer.getD offset 0) (buffer.getD (offset + 1) 0)
    (buffer.getD (offset + 2) 0) (buffer.getD (offset + 3) 0)
    (buffer.getD (offset + 4) 0) (buffer.getD (offset + 5) 0)
    (buffer.getD (offset + 6) 0) (buffer.getD (offset + 7) 0))

/-- `memcpy` of a signature out of the buffer; a read behind the end is a fault. -/
def copySignature (buffer : Bytes) (offset : ℕ) : Except Fault Signature :=
  if offset + signatureSize > buffer.length then .error .outOfRange
  else .ok (Vector.ofFn fun i => buffer.getD (offset + i) 0)

/-- The length fields are cast to 16 and 32 bits without a check, as in the source. -/
def serialize (frame : BinaryFrame) : Bytes :=
  let buffer : Bytes := [frame.version, frame.command.toByte]
  let buffer := writeUint64 buffer frame.sequence
  let buffer := writeUint16 buffer (UInt16.ofNat frame.topic.length)
  let buffer := writeUint32 buffer (UInt32.ofNat frame.payload.length)
  let buffer := buffer ++ frame.topic ++ frame.payload
  if frame.isSigned then writeUint32 (buffer ++ frame.signature.toList) frame.keyId else buffer

/-- `if (len > 0) field = buffer.substr(offset, len)`. -/
def takeField (buffer : Bytes) (offset len : ℕ) : Except Fault Bytes :=
  if len > 0 then substrE buffer offset len else .ok []

def trailerSize (command : BinaryCommand) : ℕ :=
  if command.isSignedCmd then signatureSize + keyIdSize else 0

/-- The second half of `parse`: the header is read and its lengths are within the limits. -/
def parseBody (buffer : Bytes) (frame : BinaryFrame) (topicLen payloadLen : ℕ) :
    Except Fault (Option (BinaryFrame × ℕ)) :=
  let totalSize := minFrameSize + topicLen + payloadLen + trailerSize frame.command
  -- an incomplete frame stays in the buffer
  if buffer.length < totalSize then .ok none
  else do
    let offset := minFrameSize
    let topic ← takeField buffer offset topicLen
    let offset := offset + topicLen
    let payload ← takeField buffer offset payloadLen
    let offset := offset + payloadLen
    let frame := { frame with topic := topic, payload := payload }
    if frame.command.isSignedCmd then
      -- the trailer of the signed commands
      let signature ← copySignature buffer offset
      let keyId ← readUint32 buffer (offset + signatureSize)
      return some ({ frame with signature := signature, keyId := keyId, isSigned := true }, totalSize)
    else return some (frame, totalSize)

def parseE (buffer : Bytes) : Except Fault (Option (BinaryFrame × ℕ)) :=
  if buffer.length < minFrameSize then .ok none
  else
    let version := buffer.getD 0 0
    -- another version is answered as if the frame were incomplete
    if version ≠ binaryProtocolVersion then .ok none
    else do
      let command := BinaryCommand.ofByte (buffer.getD 1 0)
      let sequence ← readUint64 buffer 2
      let topicLen ← readUint16 buffer 10
      let payloadLen ← readUint32 buffer 12
      -- and so is a length above its limit: neither is ever consumed
      if topicLen > maxTopicLen then return none
      if payloadLen > maxPayloadLen then return none
      parseBody buffer { version := version, command := command, sequence := sequence }
        topicLen.toNat payloadLen.toNat

/-- What the callers see: no path of `parseE` faults, see `parseE_eq_ok`. -/
def parse (buffer : Bytes) : Option (BinaryFrame × ℕ) :=
  match parseE buffer with
  | .ok r => r
  | .error _ => none

end BinaryProtocol

end MetricMQ
