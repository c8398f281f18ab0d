import MetricMQ.Handlers

/-! The client library: what the publishers write, the receive loops of the subscribers, and
that a message passes from one to the other unchanged. The console output is left out. -/
namespace MetricMQ

open ByteString StreamFraming Session

/-- A connected `BinaryPublisher`, with the key it signs with. -/
structure BinaryPublisher where
  sequence : UInt64 := 0
  signingKeyId : UInt32 := 0

namespace BinaryPublisher

/-- The frame of `send`; the counter is increased first. -/
def send (pub : BinaryPublisher) (topic payload : Bytes) : BinaryPublisher × Bytes :=
  let seq := pub.sequence + 1
  ({ pub with sequence := seq }, BinaryProtocol.serialize (.publish topic payload seq))

/-- The frame of `sendSigned`; topic and payload are signed without a separator. -/
def sendSigned (sign : Bytes → Signature) (pub : BinaryPublisher) (topic payload : Bytes) :
    BinaryPublisher × Bytes :=
  let seq := pub.sequence + 1
  let signature := sign (topic ++ payload)
  ({ pub with sequence := seq },
    BinaryProtocol.serialize (.signedPublish topic payload signature pub.signingKeyId seq))

/-- Within the limits the broker reads the frame that `send` has built. -/
theorem parse_send (pub : BinaryPublisher) (topic payload r : Bytes)
    (ht : topic.length ≤ maxTopicLen.toNat) (hp : payload.length ≤ maxPayloadLen.toNat) :
    BinaryProtocol.parse ((pub.send topic payload).2 ++ r) =
      some (.publish topic payload (pub.sequence + 1), (pub.send topic payload).2.length) :=
  BinaryProtocol.parse_serialize_append (.publish topic payload (pub.sequence + 1))
    ⟨rfl, ht, hp, rfl, fun _ => ⟨rfl, rfl⟩⟩ r

theorem parse_sendSigned (sign : Bytes → Signature) (pub : BinaryPublisher)
    (topic payload r : Bytes) (ht : topic.length ≤ maxTopicLen.toNat)
    (hp : payload.length ≤ maxPayloadLen.toNat) :
    BinaryProtocol.parse ((pub.sendSigned sign topic payload).2 ++ r) =
      some (.signedPublish topic payload (sign (topic ++ payload)) pub.signingKeyId (pub.sequence + 1),
        (pub.sendSigned sign topic payload).2.length) :=
  BinaryProtocol.parse_serialize_append
    (.signedPublish topic payload (sign (topic ++ payload)) pub.signingKeyId (pub.sequence + 1))
    ⟨rfl, ht, hp, rfl, fun h => Bool.noConfusion h⟩ r

end BinaryPublisher

/-- A connected `QueueProducer`. -/
structure QueueProducer where
  sequence : UInt64 := 0

/-- The frame of `push`: a publish on the topic of the queue. -/
def QueueProducer.push (prod : QueueProducer) (queueName payload : Bytes) : QueueProducer × Bytes :=
  let seq := prod.sequence + 1
  ({ sequence := seq }, BinaryProtocol.serialize (.publish (lit "q:" ++ queueName) payload seq))

structure SignedMessageInfo where
  topic : Bytes
  payload : Bytes
  isSigned : Bool
  keyId : UInt32
  signature : Signature
  sequence : UInt64
deriving DecidableEq

namespace BinarySubscriber

/-- What a receive loop does: it calls back or writes to its socket. -/
inductive Event
  | callback (topic payload : Bytes)
  | callbackSigned (msg : SignedMessageInfo)
  | send (data : Bytes)
deriving DecidableEq

def sendAck (sequence : UInt64) : Event := .send (BinaryProtocol.serialize (.ack sequence))

def isMessage (frame : BinaryFrame) : Bool :=
  frame.command = .message || frame.command = .signedMessage

/-- The body of the loop of `subscribe`. -/
def onFrame (autoAck : Bool) (frame : BinaryFrame) : List Event :=
  if isMessage frame then
    .callback frame.topic frame.payload :: if autoAck then [sendAck frame.sequence] else []
  else []

def signedMessageInfo (frame : BinaryFrame) : SignedMessageInfo where
  topic := frame.topic
  payload := frame.payload
  isSigned := frame.isSigned
  keyId := frame.keyId
  -- the signature stays at its zero default for a plain message
  signature := if frame.isSigned then frame.signature else Vector.replicate 64 0
  sequence := frame.sequence

/-- The body of the loop of `subscribeSigned`. -/
def onFrameSigned (autoAck : Bool) (frame : BinaryFrame) : List Event :=
  if isMessage frame then
    .callbackSigned (signedMessageInfo frame) :: if autoAck then [sendAck frame.sequence] else []
  else []

/-- The topic of the request names the client, if it has an id. -/
def subscribeTopic (clientId topic : Bytes) : Bytes :=
  if clientId = [] then topic else clientId ++ [0] ++ topic

/-- `subscribe` and `subscribeSigned` up to the end of the connection: the request, and then
the loop over what `recv` returns. -/
def subscribeWith (onFrame : BinaryFrame → List Event) (clientId topic : Bytes) (sequence : UInt64)
    (chunks : List Bytes) : List Event × Bytes :=
  let d := feed BinaryProtocol.parse [] chunks
  (.send (BinaryProtocol.serialize (.subscribe (subscribeTopic clientId topic) (sequence + 1))) ::
    d.1.flatMap onFrame, d.2)

def subscribe (autoAck : Bool) : Bytes → Bytes → UInt64 → List Bytes → List Event × Bytes :=
  subscribeWith (onFrame autoAck)

def subscribeSigned (autoAck : Bool) : Bytes → Bytes → UInt64 → List Bytes → List Event × Bytes :=
  subscribeWith (onFrameSigned autoAck)

end BinarySubscriber

namespace QueueConsumer

/-- The body of the loop of `pull`. It looks for the prefix of a queue, not for the name of its own,
and takes no notice of signed messages. -/
def onFrame (frame : BinaryFrame) : List Bytes :=
  if frame.command = .message then
    if frame.topic.take 2 = lit "q:" then [frame.payload] else []
  else []

/-- The request of `pull`, the callbacks of its loop and what is left in the buffer. No ACK is sent. -/
def pull (queueName : Bytes) (sequence : UInt64) (chunks : List Bytes) :
    Bytes × List Bytes × Bytes :=
  let d := feed BinaryProtocol.parse [] chunks
  (BinaryProtocol.serialize (.subscribe (lit "q:" ++ queueName) (sequence + 1)),
    d.1.flatMap onFrame, d.2)

end QueueConsumer

/-- The command of the RESP `Publisher::send`. -/
def Publisher.send (topic payload : Bytes) : Bytes :=
  RespParser.serialize (RespParser.makeArray [lit "PUBLISH", topic, payload])

namespace Subscriber

/-- The body of the loop of the RESP `Subscriber::subscribe`. -/
def onValue (value : RespValue) : List (Bytes × Bytes) :=
  match value.asArray with
  | msgType :: topic :: payload :: _ =>
    if msgType.asString = lit "message" then [(topic.asString, payload.asString)] else []
  | _ => []

/-- The bytes of `sendAck`. -/
def sendAck (sequence : UInt64) : Bytes :=
  RespParser.serialize (RespParser.makeArray [lit "ACK", toDecimal sequence.toNat])

/-- The request of `subscribe`, the callbacks of its loop and what is left in the buffer. -/
def subscribe (topic : Bytes) (chunks : List Bytes) : Bytes × List (Bytes × Bytes) × Bytes :=
  let d := feed RespParser.parse [] chunks
  (RespParser.serialize (RespParser.makeArray [lit "SUBSCRIBE", topic]), d.1.flatMap onValue, d.2)

end Subscriber

section Relay

/-- What becomes of a publish on its way to the subscribers. -/
structure Relays (f g : BinaryFrame) : Prop where
  command : g.command = if f.command = .publish then .message else .signedMessage
  topic : g.topic = f.topic
  payload : g.payload = f.payload
  signature : g.signature = f.signature
  keyId : g.keyId = f.keyId
  isSigned : g.isSigned = f.isSigned

theorem relays_relayFrame (verify : Verify) (keys : KeyLookups) (f : BinaryFrame) (seq : UInt64)
    (hf : BinaryProtocol.FrameWellFormed f) (ha : acceptsPublish verify keys f = true) :
    Relays f (relayFrame f seq) := by
  have hs := hf.signed
  rw [acceptsPublish] at ha
  cases hc : f.command with
  | publish =>
    have hu : f.isSigned = false := by
      rw [hs, hc]
      rfl
    obtain ⟨hsig, hkey⟩ := hf.unsigned hu
    have hr : relayFrame f seq = .message f.topic f.payload seq := by
      rw [relayFrame, hc, if_neg (by decide)]
    rw [hr]
    exact ⟨by rw [hc]; rfl, rfl, rfl, hsig.symm, hkey.symm, hu.symm⟩
  | signedPublish =>
    have hr : relayFrame f seq = .signedMessage f.topic f.payload f.signature f.keyId seq := by
      rw [relayFrame, if_pos hc]
    rw [hr]
    exact ⟨by rw [hc]; rfl, rfl, rfl, rfl, rfl, by rw [hs, hc]; rfl⟩
  | subscribe | unsubscribe | message | ack | ping | pong | error | signedMessage | unnamed =>
    simp only [hc, Bool.false_eq_true] at ha

theorem wellFormed_relayFrame (f : BinaryFrame) (seq : UInt64)
    (hf : BinaryProtocol.FrameWellFormed f) : BinaryProtocol.FrameWellFormed (relayFrame f seq) := by
  rw [relayFrame]
  split_ifs
  · exact wellFormed_signedMessage f seq hf
  · exact wellFormed_message f seq hf

theorem readsAs_serialize (g : BinaryFrame) (hg : BinaryProtocol.FrameWellFormed g) :
    ReadsAs BinaryProtocol.parse (BinaryProtocol.serialize g) g :=
  readsAs_of_parse BinaryProtocol.parser _ g (BinaryProtocol.parse_serialize_append g hg)

/-- Both binary loops call back once for a relayed frame, with what was published. -/
theorem callback_of_relays (f g : BinaryFrame) (hf : BinaryProtocol.FrameWellFormed f)
    (hr : Relays f g) (autoAck : Bool) :
    BinarySubscriber.onFrame autoAck g = .callback f.topic f.payload ::
        (if autoAck then [BinarySubscriber.sendAck g.sequence] else []) ∧
    BinarySubscriber.onFrameSigned autoAck g =
      .callbackSigned ⟨f.topic, f.payload, f.isSigned, f.keyId, f.signature, g.sequence⟩ ::
        (if autoAck then [BinarySubscriber.sendAck g.sequence] else []) := by
  have hm : BinarySubscriber.isMessage g = true := by
    rw [BinarySubscriber.isMessage, hr.command]
    split_ifs <;> rfl
  have hsig : (if f.isSigned = true then f.signature else Vector.replicate 64 0) = f.signature := by
    split_ifs with hs
    · rfl
    · exact (hf.unsigned (by simpa using hs)).1.symm
  rw [BinarySubscriber.onFrame, BinarySubscriber.onFrameSigned, if_pos hm, if_pos hm,
    BinarySubscriber.signedMessageInfo, hr.topic, hr.payload, hr.isSigned, hr.keyId, hr.signature,
    hsig]
  exact ⟨rfl, rfl⟩

theorem onValue_respMessage (topic payload : Bytes) :
    Subscriber.onValue (respMessage topic payload) = [(topic, payload)] := rfl

/-- The broker answers what `Publisher::send` wrote with one publish of the same strings. -/
theorem handleCommand_publisher (s : Session) (topic payload : Bytes) :
    handleCommand s (RespParser.makeArray [lit "PUBLISH", topic, payload]) =
      [.publish topic (RespParser.serialize (respMessage topic payload)), sendResp (.integer 1)] := rfl

/-- Every accepted publish of a binary connection is met by a binary subscriber as one message
with the same contents, and every command of the RESP publisher that the broker accepts makes
the RESP subscriber call back with its topic and payload. -/
theorem relay_faithful (verify : Verify) (keys : KeyLookups) (s : Session) :
    (∀ b f n, BinaryProtocol.parse b = some (f, n) → acceptsPublish verify keys f = true →
      ∃ data g, (handleBinaryFrame verify keys s f).2 =
          [.publish f.topic data, sendBinary (.ack f.sequence)] ∧
        ReadsAs BinaryProtocol.parse data g ∧ Relays f g ∧
        ∀ autoAck, BinarySubscriber.onFrame autoAck g = .callback f.topic f.payload ::
            (if autoAck then [BinarySubscriber.sendAck g.sequence] else []) ∧
          BinarySubscriber.onFrameSigned autoAck g =
            .callbackSigned ⟨f.topic, f.payload, f.isSigned, f.keyId, f.signature, g.sequence⟩ ::
              (if autoAck then [BinarySubscriber.sendAck g.sequence] else [])) ∧
    ∀ topic payload r v n, RespParser.parse (Publisher.send topic payload ++ r) = some (v, n) →
      ∃ data, handleCommand s v = [.publish topic data, sendResp (.integer 1)] ∧
        ∀ name pre chunks rest, (Subscriber.subscribe name [pre]).2.2 = [] →
          chunks.flatten = pre ++ (data ++ rest) →
          (Subscriber.subscribe name chunks).2 =
            ((Subscriber.subscribe name [pre]).2.1 ++ (topic, payload) ::
              (Subscriber.subscribe name [rest]).2.1, (Subscriber.subscribe name [rest]).2.2) := by
  constructor
  · intro b f n hp ha
    obtain ⟨hf, -⟩ := BinaryProtocol.parse_sound b f n hp
    have hr := relays_relayFrame verify keys f (s.sequence + 1) hf ha
    refine ⟨BinaryProtocol.serialize (relayFrame f (s.sequence + 1)), relayFrame f (s.sequence + 1),
      ?_, ?_, hr, callback_of_relays f _ hf hr⟩
    · rw [handleBinaryFrame_accepted verify keys s f ha, publishCalls]
    · exact readsAs_serialize _ (wellFormed_relayFrame f _ hf)
  · intro topic payload r v n hp
    have hw := RespParser.wellFormed_of_parse_makeArray _ r (v, n) hp
    have hv : v = RespParser.makeArray [lit "PUBLISH", topic, payload] := by
      -- within the limits the broker reads back exactly what was written
      rw [Publisher.send, RespParser.parse_serialize_append _ r hw, Option.some_inj] at hp
      exact (Prod.mk.inj hp).1.symm
    rw [RespParser.makeArray, RespParser.WellFormed, RespParser.wellFormedAll_iff] at hw
    have ht : topic.length ≤ maxBulkLen.toInt.toNat := hw.2 (.bulkString topic) (by simp)
    have hl : payload.length ≤ maxBulkLen.toInt.toNat := hw.2 (.bulkString payload) (by simp)
    have hm : RespParser.WellFormed (respMessage topic payload) :=
      wellFormed_three (lit "message") topic (.bulkString payload) (by decide) ht hl
    refine ⟨_, by rw [hv]; exact handleCommand_publisher s topic payload, ?_⟩
    intro name pre chunks rest hpre hc
    have hone (x : Bytes) : feed RespParser.parse [] [x] = drain RespParser.parse x := by
      rw [feed, feed, List.append_nil, List.nil_append]
    have hfeed := readsAs_of_parse RespParser.parser _ _
      (fun r => RespParser.parse_serialize_append _ r hm) pre chunks rest
      (by rw [Subscriber.subscribe, hone] at hpre; exact hpre) hc
    change feed RespParser.parse [] chunks = _ at hfeed
    simp only [Subscriber.subscribe, hone, hfeed, List.flatMap_append, List.flatMap_cons,
      onValue_respMessage, List.singleton_append]
    rfl

/-- A frame and a command whose contents look like framing. -/
theorem relay_faithful_crlf :
    (∃ data g, (handleBinaryFrame (fun _ _ _ => false) {} {} (.publish (lit "t") [1, 4, 0, 13, 10] 7)).2 =
        [.publish (lit "t") data, sendBinary (.ack 7)] ∧ ReadsAs BinaryProtocol.parse data g ∧
        Relays (.publish (lit "t") [1, 4, 0, 13, 10] 7) g) ∧
    ∃ data, handleCommand {} (RespParser.makeArray [lit "PUBLISH", lit "a\r\n", lit "$1"]) =
        [.publish (lit "a\r\n") data, sendResp (.integer 1)] ∧
      (Subscriber.subscribe (lit "x") [data ++ lit "+"]).2.1 = [(lit "a\r\n", lit "$1")] := by
  have h := relay_faithful (fun _ _ _ => false) {} {}
  constructor
  · obtain ⟨data, g, hc, hr, hg, -⟩ := h.1
      (BinaryProtocol.serialize (.publish (lit "t") [1, 4, 0, 13, 10] 7))
      (.publish (lit "t") [1, 4, 0, 13, 10] 7) 22 (by decide) (by decide)
    exact ⟨data, g, hc, hr, hg⟩
  · obtain ⟨data, hc, hs⟩ := h.2 (lit "a\r\n") (lit "$1") [] _ 34 rfl
    refine ⟨data, hc, ?_⟩
    rw [hs (lit "x") [] [data ++ lit "+"] (lit "+") rfl (by simp)]
    rfl

end Relay

end MetricMQ
