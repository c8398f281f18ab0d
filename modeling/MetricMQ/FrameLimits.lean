import MetricMQ.Machine
import MetricMQ.Segmentation
import MetricMQ.Clients

/-! Where the length limits meet. A client writes any topic and payload behind length fields of
16 and 32 bits, the parser refuses lengths above its own limits, and the receive loop drops a
connection whose unparsed bytes exceed `MAX_RECV_BUFFER`. -/
namespace MetricMQ

open ByteString BigEndian StreamFraming Session

namespace BinaryProtocol

/-- An unsigned frame, as the clients build it. -/
def plainFrame (command : BinaryCommand) (topic payload : Bytes) (seq : UInt64) : BinaryFrame :=
  { command := command, topic := topic, payload := payload, sequence := seq }

variable (command : BinaryCommand) (topic payload : Bytes) (seq : UInt64)

/-- The frame behind the header that `serialize` has written: the lengths are cut to 16 and 32
bits, the contents are not. -/
def narrowed : BinaryFrame :=
  plainFrame command ((topic ++ payload).take (topic.length % 2 ^ 16))
    (substr (topic ++ payload) (topic.length % 2 ^ 16) (payload.length % 2 ^ 32)) seq

/-- The lengths the header shows are within the limits of the parser. -/
def HeaderAccepted : Prop :=
  topic.length % 2 ^ 16 ≤ maxTopicLen.toNat ∧ payload.length % 2 ^ 32 ≤ maxPayloadLen.toNat

instance : Decidable (HeaderAccepted topic payload) := inferInstanceAs (Decidable (_ ∧ _))

theorem decodeBody_plain (hc : command.isSignedCmd = false) (tl pl : ℕ) (body : Bytes) :
    decodeBody { command := command, sequence := seq } tl pl body =
      plainFrame command (body.take tl) (substr body tl pl) seq := by
  simp only [decodeBody, hc, Bool.false_eq_true, ↓reduceIte]
  rfl

/-- How `parse` reads what `serialize` writes, whatever the lengths: the narrowed lengths are
never more than what is there. -/
theorem parse_serialize_plain (hc : command.isSignedCmd = false) :
    parse (serialize (plainFrame command topic payload seq)) =
      if HeaderAccepted topic payload then
        some (narrowed command topic payload seq,
          minFrameSize + topic.length % 2 ^ 16 + payload.length % 2 ^ 32)
      else none := by
  obtain ⟨s0, s1, s2, s3, s4, s5, s6, s7, hs, hse⟩ := be64_bytes64 seq
  obtain ⟨t0, t1, ht, hte⟩ := be16_bytes16 (UInt16.ofNat topic.length)
  obtain ⟨p0, p1, p2, p3, hp, hpe⟩ := be32_bytes32 (UInt32.ofNat payload.length)
  have htn : (be16 t0 t1).toNat = topic.length % 2 ^ 16 := by rw [hte, UInt16.toNat_ofNat']
  have hpn : (be32 p0 p1 p2 p3).toNat = payload.length % 2 ^ 32 := by rw [hpe, UInt32.toNat_ofNat']
  have hb : serialize (plainFrame command topic payload seq) = [binaryProtocolVersion, command.toByte,
      s0, s1, s2, s3, s4, s5, s6, s7, t0, t1, p0, p1, p2, p3] ++ (topic ++ payload) := by
    have hu : ¬ (plainFrame command topic payload seq).isSigned = true := Bool.false_ne_true
    rw [serialize_eq, signedTrailer, if_neg hu]
    simp only [plainFrame, hs, ht, hp, List.cons_append, List.nil_append, List.append_nil]
  have htrailer : trailerSize command = 0 := by
    rw [trailerSize, hc]
    rfl
  -- narrowing only shortens, so the parser never waits for more bytes
  have hroom : topic.length % 2 ^ 16 + payload.length % 2 ^ 32 ≤ (topic ++ payload).length := by
    rw [List.length_append]
    exact Nat.add_le_add (Nat.mod_le _ _) (Nat.mod_le _ _)
  have hcond : (binaryProtocolVersion = binaryProtocolVersion ∧ be16 t0 t1 ≤ maxTopicLen ∧
      be32 p0 p1 p2 p3 ≤ maxPayloadLen ∧ (be16 t0 t1).toNat + (be32 p0 p1 p2 p3).toNat +
        trailerSize (.ofByte command.toByte) ≤ (topic ++ payload).length) ↔
      HeaderAccepted topic payload := by
    rw [HeaderAccepted, UInt16.le_iff_toNat_le, UInt32.le_iff_toNat_le, htn, hpn,
      BinaryCommand.ofByte_toByte, htrailer, Nat.add_zero]
    exact ⟨fun h => ⟨h.2.1, h.2.2.1⟩, fun h => ⟨rfl, h.1, h.2, hroom⟩⟩
  rw [parse, hb, parseE_header]
  by_cases hacc : HeaderAccepted topic payload
  · rw [if_pos (hcond.mpr hacc), if_pos hacc, htn, hpn, hse, BinaryCommand.ofByte_toByte, htrailer,
      decodeBody_plain command seq hc, Nat.add_zero]
    rfl
  · rw [if_neg fun h => hacc (hcond.mp h), if_neg hacc]

/-- Nothing is lost exactly when the lengths fit their fields. -/
theorem narrowed_eq_iff : narrowed command topic payload seq = plainFrame command topic payload seq ↔
    topic.length < 2 ^ 16 ∧ payload.length < 2 ^ 32 := by
  have htl := Nat.mod_lt topic.length (show 0 < 2 ^ 16 by decide)
  have hpl := Nat.mod_lt payload.length (show 0 < 2 ^ 32 by decide)
  constructor
  · intro h
    -- equal frames have contents of equal lengths
    have ht := congrArg (fun f => f.topic.length) h
    have hp := congrArg (fun f => f.payload.length) h
    simp only [narrowed, plainFrame, substr, List.length_take, List.length_drop,
      List.length_append] at ht hp
    omega
  · rintro ⟨ht, hp⟩
    rw [narrowed, Nat.mod_eq_of_lt ht, Nat.mod_eq_of_lt hp, List.take_left, substr, List.drop_left,
      List.take_length]

end BinaryProtocol

section OneFrame

open BinaryProtocol

/-- Read at a frame boundary, the bytes are the frame `f` and nothing else, or none of them is
taken. -/
def OneFrame (f : BinaryFrame) (data : Bytes) : Prop :=
  drain BinaryProtocol.parse data = ([f], []) ∨ drain BinaryProtocol.parse data = ([], data)

theorem drain_whole (data : Bytes) (f : BinaryFrame)
    (h : BinaryProtocol.parse data = some (f, data.length)) :
    drain BinaryProtocol.parse data = ([f], []) := by
  have hd := drain_some BinaryProtocol.parser data f data.length h
  rw [List.drop_length] at hd
  exact hd

theorem oneFrame_serialize_iff (command : BinaryCommand) (hc : command.isSignedCmd = false)
    (topic payload : Bytes) (seq : UInt64) :
    OneFrame (plainFrame command topic payload seq)
        (serialize (plainFrame command topic payload seq)) ↔
      (HeaderAccepted topic payload → topic.length < 2 ^ 16 ∧ payload.length < 2 ^ 32) := by
  have hparse := parse_serialize_plain command topic payload seq hc
  by_cases hacc : HeaderAccepted topic payload
  · rw [if_pos hacc] at hparse
    rw [forall_prop_of_true hacc]
    constructor
    · -- the first frame dispatched is the one behind the narrowed header
      rw [← BinaryProtocol.parser_parse] at hparse
      have hd := drain_some BinaryProtocol.parser _ _ _ hparse
      rw [BinaryProtocol.parser_parse] at hd
      rintro (h | h)
      · rw [h] at hd
        have he := (List.cons.inj (Prod.mk.inj hd).1).1
        exact (narrowed_eq_iff command topic payload seq).mp he.symm
      · rw [h] at hd
        exact absurd (Prod.mk.inj hd).1 (List.cons_ne_nil _ _).symm
    · intro hfit
      left
      apply drain_whole
      rw [hparse, (narrowed_eq_iff command topic payload seq).mpr hfit, length_serialize _ hc.symm,
        trailerSize, plainFrame, hc, Nat.mod_eq_of_lt hfit.1, Nat.mod_eq_of_lt hfit.2]
      rfl
  · rw [if_neg hacc] at hparse
    refine iff_of_true (Or.inr ?_) fun h => absurd h hacc
    rw [← BinaryProtocol.parser_parse] at hparse ⊢
    exact drain_none BinaryProtocol.parser _ hparse

/-- A publish call is at most one frame unless a length wraps around to one that the parser
accepts: then the frame is cut short and the rest of the contents is parsed as further frames. -/
theorem publish_one_frame_iff (topic payload : Bytes) :
    (∀ pub : BinaryPublisher,
      OneFrame (.publish topic payload (pub.sequence + 1)) (pub.send topic payload).2 ↔
        (HeaderAccepted topic payload → topic.length < 2 ^ 16 ∧ payload.length < 2 ^ 32)) ∧
    ∀ prod : QueueProducer,
      OneFrame (.publish (lit "q:" ++ topic) payload (prod.sequence + 1)) (prod.push topic payload).2 ↔
        (HeaderAccepted (lit "q:" ++ topic) payload →
          (lit "q:" ++ topic).length < 2 ^ 16 ∧ payload.length < 2 ^ 32) :=
  ⟨fun pub => oneFrame_serialize_iff .publish rfl topic payload (pub.sequence + 1),
    fun prod => oneFrame_serialize_iff .publish rfl (lit "q:" ++ topic) payload (prod.sequence + 1)⟩

/-- A topic of 65536 bytes has the length zero in the header: its bytes stand where the next
frame begins. -/
theorem topic_becomes_frames :
    ¬ OneFrame (.publish (List.replicate 65536 1) [] 1)
      (({} : BinaryPublisher).send (List.replicate 65536 1) []).2 := by
  have hiff := oneFrame_serialize_iff .publish rfl (List.replicate 65536 1) [] 1
  have hlen : (List.replicate 65536 (1 : UInt8)).length = 65536 := List.length_replicate
  intro h
  have hacc : HeaderAccepted (List.replicate 65536 1) [] := by
    rw [HeaderAccepted, hlen]
    decide
  have hlt := (hiff.mp h hacc).1
  rw [hlen] at hlt
  exact absurd hlt (by decide)

end OneFrame

section ReceiveLimit

open BinaryProtocol

namespace Receiver

variable (p : ProtocolType) (b : Bytes) (item : Dispatch) (hparse : parseFor p b = some (item, b.length))
  (hdetect : detectProtocol b = p)

include hparse in
/-- No proper beginning of a whole frame is taken. -/
theorem parseFor_beginning (pre rest : Bytes) (hb : b = pre ++ rest) (hrest : rest ≠ []) :
    parseFor p pre = none := by
  rw [← dispatcher_parse] at hparse ⊢
  refine (dispatcher p).parse_beginning b item b.length hparse pre ?_ ?_
  · rw [List.take_length, hb]
    exact List.prefix_append pre rest
  · rw [List.take_length, hb]
    exact fun he => hrest (List.self_eq_append_right.mp he)

include hparse in
theorem drainAll_whole : drainAll ⟨p, b⟩ = ([item], ⟨p, []⟩) := by
  have hp := hparse
  rw [← dispatcher_parse] at hp
  have hd := drain_some (dispatcher p) b item b.length hp
  rw [List.drop_length, dispatcher_parse] at hd
  rw [drainAll, hd]
  rfl

/-- A receiver that has gathered a beginning of `b`: the protocol is settled, or nothing has
arrived. -/
def Gathers (p : ProtocolType) (r : Receiver) : Prop :=
  r.protocol = p ∨ r.protocol = .unknown ∧ r.recvBuffer = []

include hparse hdetect in
theorem receive_gathers (r : Receiver) (c rest : Bytes) (hc : c ≠ []) (hr : r.Gathers p)
    (hb : b = r.recvBuffer ++ c ++ rest) :
    r.receive c =
      if r.recvBuffer.length + c.length > maxRecvBuffer then none else some ⟨p, r.recvBuffer ++ c⟩ := by
  have hknown : p ≠ .unknown := by
    rintro rfl
    cases hparse
  have hprot : (if r.protocol = .unknown then detectProtocol (r.recvBuffer ++ c) else r.protocol) = p := by
    rcases hr with hr | ⟨hr, hempty⟩
    · rw [hr, if_neg hknown]
    · rw [hempty, List.nil_append] at hb ⊢
      rw [if_pos hr, ← detectProtocol_append c rest hc, ← hb, hdetect]
  simp only [receive, hprot]

include hparse hdetect in
/-- The bytes of one frame, cut in any way: they are gathered up to the size guard. -/
theorem receiveAll_gathers (chunks : List Bytes) (hne : ∀ c ∈ chunks, c ≠ []) (r : Receiver)
    (hr : r.Gathers p) (hb : b = r.recvBuffer ++ chunks.flatten) (hrest : chunks ≠ []) :
    r.receiveAll chunks = if b.length ≤ maxRecvBuffer then some ([item], ⟨p, []⟩) else none := by
  induction chunks generalizing r with
  | nil => exact absurd rfl hrest
  | cons c chunks ih =>
    rw [List.flatten_cons, ← List.append_assoc] at hb
    have hlen : b.length = r.recvBuffer.length + c.length + chunks.flatten.length := by
      rw [hb, List.length_append, List.length_append]
    rw [receiveAll, receive_gathers p b item hparse hdetect r c _ (hne c List.mem_cons_self) hr hb]
    -- the guard looks at the bytes gathered so far, which are at most those of the frame
    by_cases hbig : r.recvBuffer.length + c.length > maxRecvBuffer
    · rw [if_pos hbig, if_neg (by omega)]
    · rw [if_neg hbig]
      cases chunks with
      | nil =>
        -- the last chunk completes the frame
        rw [List.flatten_nil, List.append_nil] at hb
        rw [List.flatten_nil, List.length_nil] at hlen
        simp only [← hb, drainAll_whole p b item hparse, if_pos (show b.length ≤ maxRecvBuffer by omega)]
        rfl
      | cons c' chunks =>
        have hflat : (c' :: chunks).flatten ≠ [] := by
          intro h
          exact hne c' (by simp) (List.flatten_eq_nil_iff.mp h c' List.mem_cons_self)
        have hidle := parseFor_beginning p b item hparse _ _ hb hflat
        have hrec := ih (fun d hd => hne d (List.mem_cons_of_mem c hd)) ⟨p, r.recvBuffer ++ c⟩
          (Or.inl rfl) hb (List.cons_ne_nil _ _)
        simp only [drainAll_idle ⟨p, _⟩ hidle, hrec]
        split_ifs <;> rfl

include hparse hdetect in
theorem receiveAll_whole_iff (chunks : List Bytes) (hne : ∀ c ∈ chunks, 1 ≤ c.length) (r : Receiver)
    (hr : r.protocol = p ∨ r.protocol = .unknown) (hempty : r.recvBuffer = [])
    (hb : chunks.flatten = b) :
    r.receiveAll chunks = some ([item], ⟨p, []⟩) ↔ b.length ≤ maxRecvBuffer := by
  have hpos : 0 < b.length := by
    rw [← dispatcher_parse] at hparse
    exact ((dispatcher p).progress b item b.length hparse).1
  have hrest : chunks ≠ [] := by
    rintro rfl
    rw [← hb] at hpos
    exact absurd hpos (Nat.lt_irrefl 0)
  rw [receiveAll_gathers p b item hparse hdetect chunks
    (fun c hc => List.ne_nil_of_length_pos (hne c hc)) r (hr.imp_right fun h => ⟨h, hempty⟩)
    (by rw [hempty, hb, List.nil_append]) hrest]
  split_ifs with hle
  · exact iff_of_true rfl hle
  · exact iff_of_false (by simp) hle

end Receiver

theorem detectProtocol_serialize (f : BinaryFrame) (hf : FrameWellFormed f) :
    detectProtocol (serialize f) = .binary := by
  rw [serialize_eq, hf.version]
  rfl

/-- What the RESP parser takes begins with one of the type bytes of the detection. -/
theorem detectProtocol_of_parse (b : Bytes) (v : RespValue) (n : ℕ)
    (h : RespParser.parse b = some (v, n)) : detectProtocol b = .resp := by
  obtain ⟨t, rest, type, i, rfl, ht, -⟩ := RespParser.parseAux_eq_ok_some _ b _
    (RespParser.parseAux_of_parse b (v, n) h)
  rw [RespParser.ofByte_eq_some t type ht]
  cases type <;> rfl

section Cuts

variable (r : Receiver) (hempty : r.recvBuffer = []) (chunks : List Bytes)
  (hsize : ∀ c ∈ chunks, 1 ≤ c.length ∧ c.length ≤ 4096)

include hempty hsize

theorem receives_frame_iff (f : BinaryFrame) (hf : FrameWellFormed f)
    (hr : r.protocol = .binary ∨ r.protocol = .unknown) (hcut : chunks.flatten = serialize f) :
    r.receiveAll chunks = some ([.frame f], ⟨.binary, []⟩) ↔
      minFrameSize + f.topic.length + f.payload.length + trailerSize f.command ≤ maxRecvBuffer := by
  have hparse := parse_serialize_append f hf []
  rw [List.append_nil] at hparse
  rw [← length_serialize f hf.signed]
  apply Receiver.receiveAll_whole_iff .binary (serialize f) (.frame f) _
    (detectProtocol_serialize f hf) chunks (fun c hc => (hsize c hc).1) r hr hempty hcut
  rw [parseFor, hparse]
  rfl

theorem receives_command_iff (b : Bytes) (v : RespValue) (hv : RespParser.parse b = some (v, b.length))
    (hr : r.protocol = .resp ∨ r.protocol = .unknown) (hcut : chunks.flatten = b) :
    r.receiveAll chunks = some ([.command v], ⟨.resp, []⟩) ↔ b.length ≤ maxRecvBuffer := by
  apply Receiver.receiveAll_whole_iff .resp b (.command v) _ (detectProtocol_of_parse b v _ hv) chunks
    (fun c hc => (hsize c hc).1) r hr hempty hcut
  rw [parseFor, hv]
  rfl

/-- A frame or a command within the limits of its parser is dispatched, however it is cut,
exactly when all of its bytes fit the receive buffer: the limits on topic and payload leave out
the header, the trailer and the length lines. -/
theorem limits_agree_iff :
    (∀ f, FrameWellFormed f → (r.protocol = .binary ∨ r.protocol = .unknown) →
      chunks.flatten = serialize f →
      (r.receiveAll chunks = some ([.frame f], ⟨.binary, []⟩) ↔
        minFrameSize + f.topic.length + f.payload.length + trailerSize f.command ≤ maxRecvBuffer)) ∧
    (∀ topic payload, topic.length ≤ maxTopicLen.toNat → payload.length ≤ maxBulkLen.toInt.toNat →
      (r.protocol = .resp ∨ r.protocol = .unknown) → chunks.flatten = Publisher.send topic payload →
      (r.receiveAll chunks = some ([.command (RespParser.makeArray [lit "PUBLISH", topic, payload])],
          ⟨.resp, []⟩) ↔ (Publisher.send topic payload).length ≤ maxRecvBuffer)) ∧
    -- the same for every other spelling of a command that the parser reads
    ∀ b v, RespParser.parse b = some (v, b.length) →
      (r.protocol = .resp ∨ r.protocol = .unknown) → chunks.flatten = b →
      (r.receiveAll chunks = some ([.command v], ⟨.resp, []⟩) ↔ b.length ≤ maxRecvBuffer) := by
  refine ⟨receives_frame_iff r hempty chunks hsize, ?_, receives_command_iff r hempty chunks hsize⟩
  intro topic payload ht hp
  apply receives_command_iff r hempty chunks hsize
  have htopic : topic.length ≤ maxBulkLen.toInt.toNat := Nat.le_trans ht (by decide)
  have hw : RespParser.WellFormed (RespParser.makeArray [lit "PUBLISH", topic, payload]) :=
    wellFormed_three (lit "PUBLISH") topic (.bulkString payload) (by decide) htopic hp
  exact RespParser.parse_serialize _ hw

end Cuts

/-- A small frame cut into three chunks is dispatched. -/
theorem limits_agree_small :
    ({} : Receiver).receiveAll [[1, 3, 0, 0, 0], [0, 0, 0, 0, 7, 0, 1, 0, 0, 0], [1, 116, 112]] =
      some ([.frame (.publish (lit "t") (lit "p") 7)], ⟨.binary, []⟩) :=
  ((limits_agree_iff {} rfl [[1, 3, 0, 0, 0], [0, 0, 0, 0, 7, 0, 1, 0, 0, 0], [1, 116, 112]]
    (by decide)).1 (.publish (lit "t") (lit "p") 7) ⟨rfl, by decide, by decide, rfl, fun _ => ⟨rfl, rfl⟩⟩
    (Or.inr rfl) (by decide)).mpr (by decide)

/-- A payload of the largest size allowed is not dispatched: header and topic come on top of what
the buffer takes. -/
theorem largest_payload_dropped :
    let f : BinaryFrame := .publish (lit "t") (List.replicate 16777216 0) 1
    FrameWellFormed f ∧ ({} : Receiver).receiveAll ((serialize f).map fun c => [c]) ≠
      some ([.frame f], ⟨.binary, []⟩) := by
  intro f
  have hlen : f.payload.length = 16777216 := List.length_replicate
  have hf : FrameWellFormed f := ⟨rfl, by decide, by rw [hlen]; decide, rfl, fun _ => ⟨rfl, rfl⟩⟩
  refine ⟨hf, fun h => ?_⟩
  have hsize : ∀ c ∈ (serialize f).map (fun c => [c]), 1 ≤ c.length ∧ c.length ≤ 4096 := by
    intro c hc
    obtain ⟨x, -, rfl⟩ := List.mem_map.mp hc
    simp
  have hcut : ((serialize f).map fun c => [c]).flatten = serialize f := by
    rw [← List.flatMap_def, List.flatMap_singleton']
  have hle := (receives_frame_iff {} rfl _ hsize f hf (Or.inr rfl) hcut).mp h
  rw [hlen, maxRecvBuffer, minFrameSize] at hle
  omega

end ReceiveLimit

section ClientIds

open BinaryProtocol BinarySubscriber

/-- The bytes a subscriber writes before its loop. -/
def BinarySubscriber.request : List Event → Bytes
  | .send data :: _ => data
  | _ => []

variable (verify : Verify) (keys : KeyLookups) (s : Session)

/-- The session after the bytes `data` on an empty buffer, and all the calls it makes. -/
def handleBytes (data : Bytes) : Session × List Call :=
  Machine.run (handleBinaryFrame verify keys) s (drain BinaryProtocol.parse data).1

theorem handleBytes_whole (data : Bytes) (f : BinaryFrame)
    (h : BinaryProtocol.parse data = some (f, data.length)) :
    handleBytes verify keys s data = handleBinaryFrame verify keys s f := by
  rw [handleBytes, drain_whole data f h]
  simp only [Machine.run, List.append_nil]

theorem handleBytes_refused (data : Bytes) (h : BinaryProtocol.parse data = none) :
    handleBytes verify keys s data = (s, []) := by
  have hd : drain BinaryProtocol.parse data = ([], data) := drain_none BinaryProtocol.parser data h
  rw [handleBytes, hd, Machine.run]

/-- The calls of the first frame come first, whatever is read behind it. -/
theorem handleBytes_first (data : Bytes) (f : BinaryFrame) (n : ℕ)
    (h : BinaryProtocol.parse data = some (f, n)) :
    ∃ calls, (handleBytes verify keys s data).2 = (handleBinaryFrame verify keys s f).2 ++ calls := by
  have hd := drain_some BinaryProtocol.parser data f n h
  change drain BinaryProtocol.parse data = _ at hd
  rw [handleBytes, hd]
  exact ⟨_, rfl⟩

theorem length_identified (id topic : Bytes) :
    (id ++ [0] ++ topic).length = id.length + 1 + topic.length := by
  rw [List.length_append, List.length_append, List.length_singleton]

theorem handle_identified (id topic : Bytes) (seq : UInt64) (hid : 0 ∉ id) :
    handleBinaryFrame verify keys s (.subscribe (id ++ [0] ++ topic) seq) =
      ({ s with clientId := id }, [.registerClient id, .subscribe topic,
        .replayMessagesForClient topic id, sendBinary (.ack seq)]) := by
  have hfind : find (id ++ [0] ++ topic) 0 = some id.length := by
    rw [List.append_assoc, List.singleton_append]
    exact find_append_cons id topic 0 hid
  have htake : (id ++ [0] ++ topic).take id.length = id := by
    rw [List.append_assoc, List.take_left]
  have hdrop : (id ++ [0] ++ topic).drop (id.length + 1) = topic := by
    rw [show id.length + 1 = (id ++ [0]).length by simp, List.drop_left]
  simp only [handleBinaryFrame, BinaryFrame.subscribe, handleSubscribe, hfind, htake, hdrop]

theorem handle_anonymous (topic : Bytes) (seq : UInt64) (ht : 0 ∉ topic) :
    handleBinaryFrame verify keys s (.subscribe topic seq) =
      (s, [.subscribe topic, sendBinary (.ack seq)]) := by
  simp only [handleBinaryFrame, BinaryFrame.subscribe, handleSubscribe,
    (find_eq_none_iff topic 0).mpr ht]

theorem parse_subscribe (field : Bytes) (seq : UInt64) (h : field.length ≤ maxTopicLen.toNat) :
    BinaryProtocol.parse (serialize (.subscribe field seq)) =
      some (.subscribe field seq, (serialize (.subscribe field seq)).length) := by
  have hp := parse_serialize_append (.subscribe field seq)
    ⟨rfl, h, Nat.zero_le _, rfl, fun _ => ⟨rfl, rfl⟩⟩ []
  rwa [List.append_nil] at hp

/-- A request as the broker reads it, whatever the length of its field. -/
theorem narrowed_subscribe (field : Bytes) (seq : UInt64) :
    narrowed .subscribe field [] seq = .subscribe (field.take (field.length % 2 ^ 16)) seq := by
  rw [narrowed, List.append_nil, substr, List.length_nil, Nat.zero_mod, List.take_zero]
  rfl

/-- A field that is too long does not identify the client: it is refused, or the header shows a
length that ends within the id. -/
theorem not_registered_of_long (id topic : Bytes) (seq : UInt64) (hid : 0 ∉ id)
    (ht : topic.length ≤ maxTopicLen.toNat) (hlong : maxTopicLen.toNat < id.length + 1 + topic.length) :
    (handleBytes verify keys s (serialize (.subscribe (id ++ [0] ++ topic) seq))).2.head? ≠
      some (.registerClient id) := by
  have hparse : BinaryProtocol.parse (serialize (.subscribe (id ++ [0] ++ topic) seq)) = _ :=
    parse_serialize_plain .subscribe (id ++ [0] ++ topic) [] seq rfl
  have hmax : maxTopicLen.toNat = 256 := rfl
  by_cases hacc : HeaderAccepted (id ++ [0] ++ topic) []
  · rw [if_pos hacc, narrowed_subscribe] at hparse
    have hwrap := hacc.1
    -- the length wrapped around: what the header shows is less than the id
    have hshort : (id ++ [0] ++ topic).length % 2 ^ 16 ≤ id.length := by
      rw [length_identified] at hwrap ⊢
      omega
    have hnul : 0 ∉ (id ++ [0] ++ topic).take ((id ++ [0] ++ topic).length % 2 ^ 16) := by
      generalize (id ++ [0] ++ topic).length % 2 ^ 16 = n at hshort ⊢
      rw [List.append_assoc, List.take_append_of_le_length hshort]
      exact fun hz => hid (List.mem_of_mem_take hz)
    obtain ⟨calls, hcalls⟩ := handleBytes_first verify keys s _ _ _ hparse
    rw [hcalls, handle_anonymous verify keys s _ seq hnul]
    simp
  · rw [if_neg hacc] at hparse
    rw [handleBytes_refused verify keys s _ hparse]
    simp

/-- A client id is taken over from the request of either subscriber exactly when it fits the
topic field together with the topic; without an id the topic alone does. -/
theorem client_id_embedding_iff (autoAck : Bool) (topic : Bytes) (seq : UInt64) (chunks : List Bytes)
    (hz : 0 ∉ topic) (ht : topic.length ≤ maxTopicLen.toNat)
    (loop : Bytes → Bytes → UInt64 → List Bytes → List Event × Bytes)
    (hloop : loop = subscribe autoAck ∨ loop = subscribeSigned autoAck) :
    (∀ id, id ≠ [] → 0 ∉ id →
      (handleBytes verify keys s (request (loop id topic seq chunks).1) =
          ({ s with clientId := id }, [.registerClient id, .subscribe topic,
            .replayMessagesForClient topic id, sendBinary (.ack (seq + 1))]) ↔
        id.length + 1 + topic.length ≤ maxTopicLen.toNat)) ∧
    handleBytes verify keys s (request (loop [] topic seq chunks).1) =
      (s, [.subscribe topic, sendBinary (.ack (seq + 1))]) := by
  have hrequest : ∀ id, request (loop id topic seq chunks).1 =
      serialize (.subscribe (subscribeTopic id topic) (seq + 1)) := by
    intro id
    rcases hloop with rfl | rfl <;> rfl
  constructor
  · intro id hne hid
    rw [hrequest, subscribeTopic, if_neg hne]
    constructor
    · intro h
      by_contra hlong
      apply not_registered_of_long verify keys s id topic (seq + 1) hid ht (Nat.not_le.mp hlong)
      rw [h]
      rfl
    · intro hfit
      rw [← length_identified] at hfit
      rw [handleBytes_whole verify keys s _ _ (parse_subscribe _ _ hfit),
        handle_identified verify keys s id topic (seq + 1) hid]
  · rw [hrequest, subscribeTopic, if_pos rfl, handleBytes_whole verify keys s _ _ (parse_subscribe _ _ ht),
      handle_anonymous verify keys s topic (seq + 1) hz]

/-- A short id and topic, read back. -/
theorem client_id_embedding_short :
    handleBytes (fun _ _ _ => false) {} {} (request (subscribe true (lit "c") (lit "t") 0 []).1) =
      ({ clientId := lit "c" }, [.registerClient (lit "c"), .subscribe (lit "t"),
        .replayMessagesForClient (lit "t") (lit "c"), sendBinary (.ack 1)]) :=
  ((client_id_embedding_iff (fun _ _ _ => false) {} {} true (lit "t") 0 [] (by decide) (by decide)
    (subscribe true) (Or.inl rfl)).1 (lit "c") (by decide) (by decide)).mpr (by decide)

/-- An id of 256 bytes leaves no room for a topic: nothing is registered. -/
theorem long_client_id_lost :
    handleBytes (fun _ _ _ => false) {} {}
        (request (subscribe true (List.replicate 256 97) (lit "t") 0 []).1) ≠
      ({ clientId := List.replicate 256 97 }, [.registerClient (List.replicate 256 97),
        .subscribe (lit "t"), .replayMessagesForClient (lit "t") (List.replicate 256 97),
        sendBinary (.ack 1)]) := by
  have hid : (0 : UInt8) ∉ List.replicate 256 97 := by
    rw [List.mem_replicate]
    exact fun h => absurd h.2 (by decide)
  intro h
  apply not_registered_of_long (fun _ _ _ => false) {} {} (List.replicate 256 97) (lit "t") 1 hid
    (by decide) (by rw [List.length_replicate]; decide)
  exact congrArg (fun r => r.2.head?) h

end ClientIds

end MetricMQ
