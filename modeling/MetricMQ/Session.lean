import MetricMQ.BinaryCodec
import MetricMQ.RespCodec
import MetricMQ.KeyStore

/-! One connection: protocol detection, the receive loop and the two command handlers. No
handler reads what a broker call returns, so a handler is modelled by the calls it makes, in
order; what a session sends itself is a call too. -/
namespace MetricMQ

open ByteString StreamFraming

def maxRecvBuffer : ℕ := 16 * 1024 * 1024

inductive ProtocolType
  | unknown
  | resp
  | binary
deriving DecidableEq

def detectProtocol (buffer : Bytes) : ProtocolType :=
  match buffer with
  | [] => .unknown
  | firstByte :: _ =>
    -- the five RESP type bytes
    if firstByte = 43 ∨ firstByte = 45 ∨ firstByte = 58 ∨ firstByte = 36 ∨ firstByte = 42 then .resp
    else if firstByte = binaryProtocolVersion then .binary
    else .unknown

/-- What the drain loops hand to `handleBinaryFrame` or `handleCommand`. -/
inductive Dispatch
  | frame (frame : BinaryFrame)
  | command (value : RespValue)

def parseFor : ProtocolType → Bytes → Option (Dispatch × ℕ)
  | .unknown, _ => none
  | .resp, buffer => (RespParser.parse buffer).map fun r => (.command r.1, r.2)
  | .binary, buffer => (BinaryProtocol.parse buffer).map fun r => (.frame r.1, r.2)

/-- The part of a session that the receive loop works on. -/
structure Receiver where
  protocol : ProtocolType := .unknown
  recvBuffer : Bytes := []

namespace Receiver

/-- `recv` returned `chunk`: the size guard, the append and the detection; `none` drops the
connection. -/
def receive (r : Receiver) (chunk : Bytes) : Option Receiver :=
  -- the guard counts the unparsed bytes together with the new ones
  if r.recvBuffer.length + chunk.length > maxRecvBuffer then none
  else
    let buffer := r.recvBuffer ++ chunk
    some
      { protocol := if r.protocol = .unknown then detectProtocol buffer else r.protocol
        recvBuffer := buffer }

/-- One turn of the drain loop of the detected protocol. -/
def next (r : Receiver) : Option (Dispatch × Receiver) :=
  if r.recvBuffer = [] then none
  else (parseFor r.protocol r.recvBuffer).map fun p =>
    (p.1, { r with recvBuffer := r.recvBuffer.drop p.2 })

/-- All turns of the drain loop. -/
def drainAll (r : Receiver) : List Dispatch × Receiver :=
  let d := drain (parseFor r.protocol) r.recvBuffer
  (d.1, { r with recvBuffer := d.2 })

/-- The receive loop over the chunks of a connection. -/
def receiveAll (r : Receiver) : List Bytes → Option (List Dispatch × Receiver)
  | [] => some ([], r)
  | chunk :: chunks =>
    match r.receive chunk with
    | none => none
    | some r' => (receiveAll r'.drainAll.2 chunks).map fun d => (r'.drainAll.1 ++ d.1, d.2)

end Receiver

structure Session extends Receiver where
  sequence : UInt64 := 0
  clientId : Bytes := []

/-- What a session's thread does next: a call of the broker or a `send` on its own socket. -/
inductive Call
  | registerClient (clientId : Bytes)
  | subscribe (topic : Bytes)
  | replayMessagesForClient (topic clientId : Bytes)
  | unsubscribe (topic : Bytes)
  | publish (topic data : Bytes)
  | handleAck (clientId : Bytes) (sequence : UInt64)
  | send (data : Bytes)
  | unregisterClient (clientId : Bytes)
  | removeSession
deriving DecidableEq

/-- The key store at the two lookups of a signed publish. `verify_with_key` and `get_key_info` lock
it one after the other, and other threads may change it in between. -/
structure KeyLookups where
  verifying : TrustedKeyStore := {}
  authorizing : TrustedKeyStore := {}

/-- Nothing has changed in between. -/
instance : Coe TrustedKeyStore KeyLookups := ⟨fun keys => ⟨keys, keys⟩⟩

namespace Session

def sendBinary (frame : BinaryFrame) : Call := .send (BinaryProtocol.serialize frame)

def sendResp (value : RespValue) : Call := .send (RespParser.serialize value)

def securePrefix : Bytes := lit "secure/"

def isSecure (topic : Bytes) : Bool := List.isPrefixOf securePrefix topic

/-- The calls of a binary publish that was accepted; `msg` is the frame for the subscribers. -/
def publishCalls (frame msg : BinaryFrame) : List Call :=
  [.publish frame.topic (BinaryProtocol.serialize msg), sendBinary (.ack frame.sequence)]

def handleSubscribe (s : Session) (frame : BinaryFrame) : Session × List Call :=
  match find frame.topic 0 with
  | some sep =>
    let clientId := frame.topic.take sep
    -- client id and topic; a further NUL stays in the topic
    let topic := frame.topic.drop (sep + 1)
    ({ s with clientId := clientId },
      [.registerClient clientId, .subscribe topic, .replayMessagesForClient topic clientId,
        sendBinary (.ack frame.sequence)])
  -- the legacy form: a client id from an earlier frame stays
  | none => (s, [.subscribe frame.topic, sendBinary (.ack frame.sequence)])

def handlePublish (s : Session) (frame : BinaryFrame) : Session × List Call :=
  if isSecure frame.topic then
    (s, [sendBinary (.error (lit "Topic '" ++ frame.topic ++
      lit "' requires signed publish (CMD_SIGNED_PUBLISH)"))])
  else
    let seq := s.sequence + 1
    -- the subscribers' frame carries the counter of this session
    ({ s with sequence := seq }, publishCalls frame (.message frame.topic frame.payload seq))

/-- A key without a scope, or no longer there at the second lookup, is not checked further. -/
def topicAuthorized (keys : TrustedKeyStore) (frame : BinaryFrame) : Bool :=
  match keys.getKeyInfo frame.keyId with
  | none => true
  | some key => if key.allowedTopics = [] then true else topicAllowed key.allowedTopics frame.topic

def handleSignedPublish (verify : Verify) (keys : KeyLookups) (s : Session)
    (frame : BinaryFrame) : Session × List Call :=
  if !keys.verifying.verifyWithKey verify frame.keyId (frame.topic ++ frame.payload) frame.signature then
    (s, [sendBinary (.error (lit "Invalid signature or unknown key"))])
  else if !topicAuthorized keys.authorizing frame then
    (s, [sendBinary (.error (lit "Key not authorized for topic '" ++ frame.topic ++ lit "'"))])
  else
    let seq := s.sequence + 1
    ({ s with sequence := seq },
      publishCalls frame
        (.signedMessage frame.topic frame.payload frame.signature frame.keyId seq))

def handleBinaryFrame (verify : Verify) (keys : KeyLookups) (s : Session)
    (frame : BinaryFrame) : Session × List Call :=
  match frame.command with
  | .subscribe => handleSubscribe s frame
  | .unsubscribe => (s, [.unsubscribe frame.topic, sendBinary (.ack frame.sequence)])
  | .publish => handlePublish s frame
  | .ping => (s, [sendBinary .pong])
  -- an acknowledgement without a client id is dropped in silence
  | .ack => (s, if s.clientId = [] then [] else [.handleAck s.clientId frame.sequence])
  | .signedPublish => handleSignedPublish verify keys s frame
  | .signedMessage => (s, [])
  -- what only a broker sends is unknown here
  | .message | .pong | .error | .unnamed _ _ => (s, [sendBinary (.error (lit "Unknown command"))])

def toUpper (s : Bytes) : Bytes := s.map fun c => if 97 ≤ c ∧ c ≤ 122 then c - 32 else c

/-- The loop of SUBSCRIBE over its topics; `i` counts from one. -/
def respSubscribe : ℕ → List RespValue → List Call
  | _, [] => []
  | i, arg :: args =>
    .subscribe arg.asString ::
      sendResp (.array [.bulkString (lit "subscribe"), .bulkString arg.asString,
        .integer (Int64.ofNat i)]) ::
      respSubscribe (i + 1) args

def respUnsubscribe (args : List RespValue) : List Call :=
  args.flatMap fun arg =>
    [.unsubscribe arg.asString,
      sendResp (.array [.bulkString (lit "unsubscribe"), .bulkString arg.asString, .integer 0])]

def respMessage (topic payload : Bytes) : RespValue :=
  .array [.bulkString (lit "message"), .bulkString topic, .bulkString payload]

def respPublish (args : List RespValue) : List Call :=
  match args with
  | [topic, payload] =>
    [.publish topic.asString (RespParser.serialize (respMessage topic.asString payload.asString)),
      sendResp (.integer 1)]
  | _ => [sendResp (.error (lit "ERR wrong number of arguments for PUBLISH"))]

def respPing (args : List RespValue) : List Call :=
  match args with
  | [] => [sendResp (.simpleString (lit "PONG"))]
  | arg :: _ => [sendResp (.bulkString arg.asString)]

def respAck (s : Session) (args : List RespValue) : List Call :=
  match args with
  | [arg] =>
    (if s.clientId = [] then [] else [.handleAck s.clientId arg.asInteger.toUInt64]) ++
      [sendResp (.simpleString (lit "OK"))]
  | _ => [sendResp (.error (lit "ERR wrong number of arguments for ACK"))]

def unknownCommand (cmd : Bytes) : RespValue :=
  .error (lit "ERR unknown command '" ++ cmd ++ lit "'")

def handleCommand (s : Session) (command : RespValue) : List Call :=
  if !command.isArray then [sendResp (.error (lit "ERR Protocol error: expected array"))]
  else
    match command.asArray with
    | [] => [sendResp (.error (lit "ERR empty command"))]
    | head :: args =>
      let cmd := toUpper head.asString
      if cmd = lit "SUBSCRIBE" then respSubscribe 1 args
      else if cmd = lit "UNSUBSCRIBE" then respUnsubscribe args
      else if cmd = lit "PUBLISH" then respPublish args
      else if cmd = lit "PING" then respPing args
      else if cmd = lit "ACK" then respAck s args
      else [sendResp (unknownCommand cmd)]

def handle (verify : Verify) (keys : KeyLookups) (s : Session) : Dispatch → Session × List Call
  | .frame frame => handleBinaryFrame verify keys s frame
  | .command value => (s, handleCommand s value)

/-- What `run` does behind its loop. -/
def exitCalls (s : Session) : List Call :=
  (if s.clientId = [] then [] else [.unregisterClient s.clientId]) ++ [.removeSession]

/-- The reply of the size guard is a binary frame in either protocol. -/
def overflowCalls (s : Session) : List Call :=
  sendBinary (.error (lit "Message too large — connection closed")) :: s.exitCalls

end Session

end MetricMQ
