import MetricMQ.Session

/-! What the two handlers ask for: where publish calls come from, and that every string they
write is one well-formed frame or value, with one exception in the RESP error replies. -/
namespace MetricMQ

open ByteString

/-- The scope of a key covers a topic; an empty scope is no restriction. -/
def ScopeCovers (allowed topic : Bytes) : Prop := allowed = [] ∨ topicAllowed allowed topic = true

instance decidableScopeCovers (allowed topic : Bytes) : Decidable (ScopeCovers allowed topic) :=
  inferInstanceAs (Decidable (_ ∨ _))

/-- The signature of a frame verifies under a registered, enabled key whose scope covers the
topic. -/
def Authorized (verify : Verify) (keys : TrustedKeyStore) (f : BinaryFrame) : Prop :=
  ∃ key, keys.keys[f.keyId]? = some key ∧ key.enabled = true ∧
    verify (f.topic ++ f.payload) f.signature key.publicKey = true ∧
    ScopeCovers key.allowedTopics f.topic

theorem authorized_iff_checks (verify : Verify) (keys : TrustedKeyStore) (f : BinaryFrame) :
    Authorized verify keys f ↔
      keys.verifyWithKey verify f.keyId (f.topic ++ f.payload) f.signature = true ∧
        Session.topicAuthorized keys f = true := by
  rw [Authorized, TrustedKeyStore.verifyWithKey, Session.topicAuthorized, TrustedKeyStore.getKeyInfo]
  cases keys.keys[f.keyId]? with
  | none => simp
  | some key => cases he : key.enabled <;> simp [ScopeCovers, he]

/-- A signed frame passes the checks of its handler: its key is registered and enabled at the first
lookup and verifies the signature, and a record that the second lookup finds covers the topic. -/
def PassesChecks (verify : Verify) (keys : KeyLookups) (f : BinaryFrame) : Prop :=
  (∃ key, keys.verifying.keys[f.keyId]? = some key ∧ key.enabled = true ∧
    verify (f.topic ++ f.payload) f.signature key.publicKey = true) ∧
  ∀ key, keys.authorizing.keys[f.keyId]? = some key → ScopeCovers key.allowedTopics f.topic

/-- With no change of the key store in between, the two lookups authorize the frame. -/
theorem passesChecks_same (verify : Verify) (keys : TrustedKeyStore) (f : BinaryFrame) :
    PassesChecks verify keys f ↔ Authorized verify keys f := by
  constructor
  · rintro ⟨⟨key, hk, he, hv⟩, hs⟩
    exact ⟨key, hk, he, hv, hs key hk⟩
  · rintro ⟨key, hk, he, hv, hs⟩
    refine ⟨⟨key, hk, he, hv⟩, fun key' hk' => ?_⟩
    rw [hk, Option.some_inj] at hk'
    exact hk' ▸ hs

/-- A call of the receive loop, in a session with this client id. -/
def Call.InLoop (clientId : Bytes) : Call → Prop
  | .registerClient id => id = clientId
  | .unregisterClient _ | .removeSession => False
  | _ => True

namespace Session

variable (verify : Verify) (keys : KeyLookups) (s : Session) (f : BinaryFrame)

theorem scopeCovers_of_topicAuthorized (ks : TrustedKeyStore) (h : topicAuthorized ks f = true)
    (key : TrustedKey) (hk : ks.keys[f.keyId]? = some key) : ScopeCovers key.allowedTopics f.topic := by
  rw [topicAuthorized, TrustedKeyStore.getKeyInfo, hk] at h
  dsimp only at h
  split_ifs at h with ha
  · exact Or.inl ha
  · exact Or.inr h

theorem topicAuthorized_of_scopeCovers (ks : TrustedKeyStore)
    (h : ∀ key, ks.keys[f.keyId]? = some key → ScopeCovers key.allowedTopics f.topic) :
    topicAuthorized ks f = true := by
  rw [topicAuthorized, TrustedKeyStore.getKeyInfo]
  cases hk : ks.keys[f.keyId]? with
  | none => rfl
  | some key =>
    dsimp only
    split_ifs with ha
    · rfl
    · exact (h key hk).resolve_left ha

theorem passesChecks_of_checks
    (hv : keys.verifying.verifyWithKey verify f.keyId (f.topic ++ f.payload) f.signature = true)
    (ht : topicAuthorized keys.authorizing f = true) : PassesChecks verify keys f := by
  refine ⟨?_, scopeCovers_of_topicAuthorized f keys.authorizing ht⟩
  rw [TrustedKeyStore.verifyWithKey] at hv
  cases hk : keys.verifying.keys[f.keyId]? with
  | none => simp only [hk, Bool.false_eq_true] at hv
  | some key =>
    simp only [hk] at hv
    split_ifs at hv with he
    exact ⟨key, rfl, by simpa using he, hv⟩

theorem not_publish_exitCalls (topic data : Bytes) : .publish topic data ∉ s.exitCalls := by
  rw [exitCalls]
  split_ifs <;> simp

theorem not_publish_overflowCalls (topic data : Bytes) : .publish topic data ∉ s.overflowCalls := by
  rw [overflowCalls, List.mem_cons, not_or, sendBinary]
  exact ⟨by simp, s.not_publish_exitCalls topic data⟩

/-- The three outcomes of an unsigned or signed publish, as one case analysis. -/
theorem handlePublish_cases :
    (isSecure f.topic = true ∧ (handlePublish s f).1 = s ∧ ∃ text, (handlePublish s f).2 =
      [sendBinary (.error (lit "Topic '" ++ f.topic ++ text))] ∧ text.length ≤ 100) ∨
    (isSecure f.topic = false ∧ handlePublish s f = ({ s with sequence := s.sequence + 1 },
      publishCalls f (.message f.topic f.payload (s.sequence + 1)))) := by
  rw [handlePublish]
  by_cases h : isSecure f.topic = true
  · rw [if_pos h]
    refine Or.inl ⟨h, rfl, _, rfl, by decide⟩
  · rw [if_neg h]
    exact Or.inr ⟨by simpa using h, rfl⟩

theorem handleSignedPublish_cases :
    (∃ text, text.length ≤ f.topic.length + 100 ∧
      handleSignedPublish verify keys s f = (s, [sendBinary (.error text)])) ∨
    (PassesChecks verify keys f ∧ handleSignedPublish verify keys s f =
      ({ s with sequence := s.sequence + 1 },
        publishCalls f (.signedMessage f.topic f.payload f.signature f.keyId (s.sequence + 1)))) := by
  rw [handleSignedPublish]
  split_ifs with hv ht
  · exact Or.inl ⟨_, Nat.le_trans (by decide) (Nat.le_add_left 100 _), rfl⟩
  · refine Or.inl ⟨_, ?_, rfl⟩
    have h1 : (lit "Key not authorized for topic '").length = 30 := by decide
    have h2 : (lit "'").length = 1 := by decide
    rw [List.length_append, List.length_append, h1, h2]
    omega
  · exact Or.inr ⟨passesChecks_of_checks verify keys f (by simpa using hv) (by simpa using ht), rfl⟩

/-- The broker takes a frame as a publish: unsigned on an open topic, or signed with both
checks passed. -/
def acceptsPublish (verify : Verify) (keys : KeyLookups) (f : BinaryFrame) : Bool :=
  match f.command with
  | .publish => !isSecure f.topic
  | .signedPublish =>
    keys.verifying.verifyWithKey verify f.keyId (f.topic ++ f.payload) f.signature &&
      topicAuthorized keys.authorizing f
  | _ => false

/-- The frame for the subscribers of an accepted publish. -/
def relayFrame (f : BinaryFrame) (seq : UInt64) : BinaryFrame :=
  if f.command = .signedPublish then .signedMessage f.topic f.payload f.signature f.keyId seq
  else .message f.topic f.payload seq

theorem handleBinaryFrame_accepted (h : acceptsPublish verify keys f = true) :
    handleBinaryFrame verify keys s f =
      ({ s with sequence := s.sequence + 1 }, publishCalls f (relayFrame f (s.sequence + 1))) := by
  rw [handleBinaryFrame]
  rw [acceptsPublish] at h
  cases hc : f.command with
  | publish =>
    simp only [hc, Bool.not_eq_true'] at h
    simp only [handlePublish, h, relayFrame, hc, Bool.false_eq_true, ↓reduceIte, reduceCtorEq]
  | signedPublish =>
    simp only [hc, Bool.and_eq_true] at h
    simp only [handleSignedPublish, h.1, h.2, relayFrame, hc, Bool.not_true, Bool.false_eq_true,
      ↓reduceIte]
  | subscribe | unsubscribe | message | ack | ping | pong | error | signedMessage | unnamed =>
    simp only [hc, Bool.false_eq_true] at h

/-- A frame registers the session under the client id it leaves it with, and no frame makes the
calls behind the receive loop. -/
theorem inLoop_handleBinaryFrame :
    ∀ call ∈ (handleBinaryFrame verify keys s f).2,
      call.InLoop (handleBinaryFrame verify keys s f).1.clientId := by
  rw [handleBinaryFrame]
  cases f.command with
  | publish =>
    dsimp only
    rcases handlePublish_cases s f with ⟨-, -, text, he, -⟩ | ⟨-, he⟩ <;>
      simp [he, publishCalls, sendBinary, Call.InLoop]
  | signedPublish =>
    dsimp only
    rcases handleSignedPublish_cases verify keys s f with ⟨text, -, he⟩ | ⟨-, he⟩ <;>
      simp [he, publishCalls, sendBinary, Call.InLoop]
  | subscribe =>
    dsimp only
    rw [handleSubscribe]
    cases find f.topic 0 <;> simp [sendBinary, Call.InLoop]
  | ack =>
    dsimp only
    split_ifs <;> simp [Call.InLoop]
  | unsubscribe | ping | signedMessage | message | pong | error | unnamed =>
    simp [sendBinary, Call.InLoop]

/-- A connection is only removed behind its receive loop. -/
theorem not_removeSession_handleBinaryFrame :
    .removeSession ∉ (handleBinaryFrame verify keys s f).2 :=
  fun h => inLoop_handleBinaryFrame verify keys s f _ h

theorem inLoop_respSubscribe (clientId : Bytes) (args : List RespValue) (i : ℕ) :
    ∀ call ∈ respSubscribe i args, call.InLoop clientId := by
  induction args generalizing i with
  | nil => simp [respSubscribe]
  | cons arg args ih =>
    simp only [respSubscribe, List.forall_mem_cons]
    exact ⟨trivial, trivial, ih (i + 1)⟩

theorem inLoop_respUnsubscribe (clientId : Bytes) (args : List RespValue) :
    ∀ call ∈ respUnsubscribe args, call.InLoop clientId := by
  intro call hcall
  obtain ⟨arg, -, hcall⟩ := List.mem_flatMap.mp hcall
  rw [List.mem_pair] at hcall
  rcases hcall with rfl | rfl
  · trivial
  · trivial

theorem inLoop_handleCommand (clientId : Bytes) (v : RespValue) :
    ∀ call ∈ handleCommand s v, call.InLoop clientId := by
  rw [handleCommand]
  split_ifs
  · simp [Call.InLoop, sendResp]
  · cases v.asArray with
    | nil => simp [Call.InLoop, sendResp]
    | cons head args =>
      dsimp only
      split_ifs
      · exact inLoop_respSubscribe clientId args 1
      · exact inLoop_respUnsubscribe clientId args
      · unfold respPublish
        split <;> simp [Call.InLoop, sendResp]
      · unfold respPing
        split <;> simp [Call.InLoop, sendResp]
      · unfold respAck
        split
        · split_ifs <;> simp [Call.InLoop, sendResp]
        · simp [Call.InLoop, sendResp]
      · simp [Call.InLoop, sendResp]

/-- A frame reaches `Broker::publish` unsigned on an open topic, or signed and with both checks
passed. -/
theorem publish_mem_handleBinaryFrame (topic data : Bytes)
    (h : .publish topic data ∈ (handleBinaryFrame verify keys s f).2) :
    topic = f.topic ∧ (handleBinaryFrame verify keys s f).1 = { s with sequence := s.sequence + 1 } ∧
      ((isSecure f.topic = false ∧
          data = BinaryProtocol.serialize (.message f.topic f.payload (s.sequence + 1))) ∨
        (f.command = .signedPublish ∧ PassesChecks verify keys f ∧ data = BinaryProtocol.serialize
          (.signedMessage f.topic f.payload f.signature f.keyId (s.sequence + 1)))) := by
  rw [handleBinaryFrame] at h ⊢
  cases hc : f.command with
  | publish =>
    simp only [hc] at h ⊢
    rcases handlePublish_cases s f with ⟨-, -, text, he, -⟩ | ⟨hs, he⟩
    · rw [he] at h
      simp [sendBinary] at h
    · rw [he] at h
      obtain ⟨rfl, rfl⟩ : topic = f.topic ∧ data = _ := by simpa [publishCalls, sendBinary] using h
      exact ⟨rfl, by rw [he], Or.inl ⟨hs, rfl⟩⟩
  | signedPublish =>
    simp only [hc] at h ⊢
    rcases handleSignedPublish_cases verify keys s f with ⟨text, -, he⟩ | ⟨ha, he⟩
    · rw [he] at h
      simp [sendBinary] at h
    · rw [he] at h
      obtain ⟨rfl, rfl⟩ : topic = f.topic ∧ data = _ := by simpa [publishCalls, sendBinary] using h
      exact ⟨rfl, by rw [he], Or.inr ⟨trivial, ha, rfl⟩⟩
  | subscribe =>
    simp only [hc, handleSubscribe] at h
    split at h <;> simp [sendBinary] at h
  | ack =>
    simp only [hc] at h
    split_ifs at h <;> simp at h
  | unsubscribe | ping | signedMessage | message | pong | error | unnamed =>
    simp [hc, sendBinary] at h

theorem not_publish_respSubscribe (topic data : Bytes) (args : List RespValue) (i : ℕ) :
    Call.publish topic data ∉ respSubscribe i args := by
  induction args generalizing i with
  | nil => simp [respSubscribe]
  | cons arg args ih => simp [respSubscribe, sendResp, ih]

/-- A RESP command reaches `Broker::publish` only as PUBLISH with two arguments. -/
theorem publish_mem_handleCommand (v : RespValue) (topic data : Bytes)
    (h : .publish topic data ∈ handleCommand s v) :
    ∃ head arg payload, v = .array [head, arg, payload] ∧ toUpper head.asString = lit "PUBLISH" ∧
      topic = arg.asString ∧
      data = RespParser.serialize (respMessage arg.asString payload.asString) := by
  rw [handleCommand] at h
  cases v with
  | array arr =>
    simp only [RespValue.isArray, Bool.not_true, Bool.false_eq_true, ↓reduceIte,
      RespValue.asArray] at h
    cases arr with
    | nil => simp [sendResp] at h
    | cons head args =>
      dsimp only at h
      split_ifs at h with h1 h2 h3 h4 h5
      · exact absurd h (not_publish_respSubscribe topic data args 1)
      · simp [respUnsubscribe, sendResp] at h
      · unfold respPublish at h
        split at h
        · rename_i arg payload
          obtain ⟨rfl, rfl⟩ : topic = arg.asString ∧ data = _ := by simpa [sendResp] using h
          exact ⟨head, arg, payload, rfl, h3, rfl, rfl⟩
        · simp [sendResp] at h
      · unfold respPing at h
        split at h <;> simp [sendResp] at h
      · unfold respAck at h
        split at h
        · split_ifs at h <;> simp [sendResp] at h
        · simp [sendResp] at h
      · simp [sendResp] at h
  | _ => simp [RespValue.isArray, sendResp] at h

/-- A string that a session of the protocol reads as exactly one frame or value. -/
def SendOK : ProtocolType → Bytes → Prop
  | .unknown, _ => True
  | .resp, data => ∃ v, RespParser.parse data = some (v, data.length)
  | .binary, data => ∃ g, BinaryProtocol.parse data = some (g, data.length)

def CallOK (p : ProtocolType) : Call → Prop
  | .send data | .publish _ data => SendOK p data
  | _ => True

section Binary

theorem sendOK_binary (g : BinaryFrame) (hg : BinaryProtocol.FrameWellFormed g) :
    SendOK .binary (BinaryProtocol.serialize g) := by
  refine ⟨g, ?_⟩
  have h := BinaryProtocol.parse_serialize_append g hg []
  rwa [List.append_nil] at h

theorem wellFormed_ack (seq : UInt64) : BinaryProtocol.FrameWellFormed (.ack seq) :=
  ⟨rfl, Nat.zero_le _, Nat.zero_le _, rfl, fun _ => ⟨rfl, rfl⟩⟩

theorem wellFormed_pong : BinaryProtocol.FrameWellFormed .pong :=
  ⟨rfl, Nat.zero_le _, Nat.zero_le _, rfl, fun _ => ⟨rfl, rfl⟩⟩

theorem wellFormed_error (text : Bytes) (h : text.length ≤ maxPayloadLen.toNat) :
    BinaryProtocol.FrameWellFormed (.error text) :=
  ⟨rfl, Nat.zero_le _, h, rfl, fun _ => ⟨rfl, rfl⟩⟩

theorem wellFormed_message (seq : UInt64) (hf : BinaryProtocol.FrameWellFormed f) :
    BinaryProtocol.FrameWellFormed (.message f.topic f.payload seq) :=
  ⟨rfl, hf.topic, hf.payload, rfl, fun _ => ⟨rfl, rfl⟩⟩

theorem wellFormed_signedMessage (seq : UInt64) (hf : BinaryProtocol.FrameWellFormed f) :
    BinaryProtocol.FrameWellFormed (.signedMessage f.topic f.payload f.signature f.keyId seq) :=
  ⟨rfl, hf.topic, hf.payload, rfl, fun h => Bool.noConfusion h⟩

theorem callOK_ack (seq : UInt64) : CallOK .binary (sendBinary (.ack seq)) :=
  sendOK_binary _ (wellFormed_ack seq)

theorem callOK_error (text : Bytes) (h : text.length ≤ maxTopicLen.toNat + 200) :
    CallOK .binary (sendBinary (.error text)) := by
  have hm : maxTopicLen.toNat + 200 ≤ maxPayloadLen.toNat := by decide
  exact sendOK_binary _ (wellFormed_error text (Nat.le_trans h hm))

theorem callOK_publishCalls (g : BinaryFrame) (hg : BinaryProtocol.FrameWellFormed g) :
    ∀ call ∈ publishCalls f g, CallOK .binary call := by
  intro call hc
  simp only [publishCalls, List.mem_cons, List.not_mem_nil, or_false] at hc
  rcases hc with rfl | rfl
  · exact sendOK_binary g hg
  · exact callOK_ack _

/-- A binary session writes well-formed frames only. -/
theorem callOK_handleBinaryFrame (hf : BinaryProtocol.FrameWellFormed f) :
    ∀ call ∈ (handleBinaryFrame verify keys s f).2, CallOK .binary call := by
  intro call hm
  have ht := hf.topic
  rw [handleBinaryFrame] at hm
  cases hc : f.command with
  | publish =>
    simp only [hc] at hm
    rcases handlePublish_cases s f with ⟨-, -, text, he, hlen⟩ | ⟨-, he⟩
    · rw [he, List.mem_singleton] at hm
      rw [hm]
      apply callOK_error
      have h1 : (lit "Topic '").length = 7 := by decide
      rw [List.length_append, List.length_append, h1]
      omega
    · rw [he] at hm
      exact callOK_publishCalls f _ (wellFormed_message f _ hf) call hm
  | signedPublish =>
    simp only [hc] at hm
    rcases handleSignedPublish_cases verify keys s f with ⟨text, hlen, he⟩ | ⟨-, he⟩
    · rw [he, List.mem_singleton] at hm
      rw [hm]
      exact callOK_error text (by omega)
    · rw [he] at hm
      exact callOK_publishCalls f _ (wellFormed_signedMessage f _ hf) call hm
  | subscribe =>
    simp only [hc, handleSubscribe] at hm
    split at hm
    · simp only [List.mem_cons, List.not_mem_nil, or_false] at hm
      rcases hm with rfl | rfl | rfl | rfl
      · trivial
      · trivial
      · trivial
      · exact callOK_ack _
    · simp only [List.mem_cons, List.not_mem_nil, or_false] at hm
      rcases hm with rfl | rfl
      · trivial
      · exact callOK_ack _
  | ack =>
    simp only [hc] at hm
    split_ifs at hm
    · cases hm
    · rw [List.mem_singleton.mp hm]
      trivial
  | unsubscribe =>
    simp only [hc, List.mem_cons, List.not_mem_nil, or_false] at hm
    rcases hm with rfl | rfl
    · trivial
    · exact callOK_ack _
  | ping =>
    simp only [hc, List.mem_singleton] at hm
    rw [hm]
    exact sendOK_binary _ wellFormed_pong
  | signedMessage => simp [hc] at hm
  | message | pong | error | unnamed =>
    simp only [hc, List.mem_singleton] at hm
    rw [hm]
    exact callOK_error _ (Nat.le_trans (by decide) (Nat.le_add_left 200 _))

end Binary

section Resp

open RespParser (findCRLFIn WellFormed)

def knownCommands : List Bytes :=
  [lit "SUBSCRIBE", lit "UNSUBSCRIBE", lit "PUBLISH", lit "PING", lit "ACK"]

/-- The command whose error reply repeats a CRLF of its name. -/
def echoesCRLF : RespValue → Bool
  | .array (head :: _) =>
    !knownCommands.contains (toUpper head.asString) && (findCRLFIn (toUpper head.asString)).isSome
  | _ => false

theorem sendOK_resp (v : RespValue) (hv : RespParser.WellFormed v) :
    SendOK .resp (RespParser.serialize v) := ⟨v, RespParser.parse_serialize v hv⟩

theorem wellFormed_three (a b : Bytes) (v : RespValue) (ha : a.length ≤ maxBulkLen.toInt.toNat)
    (hb : b.length ≤ maxBulkLen.toInt.toNat) (hv : RespParser.WellFormed v) :
    RespParser.WellFormed (.array [.bulkString a, .bulkString b, v]) := by
  simp only [RespParser.WellFormed, RespParser.WellFormedAll, List.length_cons, List.length_nil]
  exact ⟨by decide, ha, hb, hv, trivial⟩

/-- The texts of the arguments are within the limits of the parser. -/
def ArgsFit (args : List RespValue) : Prop :=
  ∀ e ∈ args, e.asString.length ≤ maxBulkLen.toInt.toNat

/-- The texts of a command were cut from a buffer that the guard keeps within the bulk limit. -/
theorem argsFit_of_parse (b : Bytes) (v : RespValue) (n : ℕ) (hb : b.length ≤ maxRecvBuffer)
    (h : RespParser.parse b = some (v, n)) : ArgsFit v.asArray := by
  have hmax : maxRecvBuffer = maxBulkLen.toInt.toNat := by decide
  cases v with
  | array arr =>
    have harr := (RespParser.parse_array_asString b arr n h).2
    exact fun e he => Nat.le_trans (harr e he) (hmax ▸ hb)
  | simpleString | error | integer | bulkString | null =>
    intro e he
    cases he

/-- The values `handleCommand` gives to `sendResp`, in order. -/
def replies (command : RespValue) : List RespValue :=
  if !command.isArray then [.error (lit "ERR Protocol error: expected array")]
  else
    match command.asArray with
    | [] => [.error (lit "ERR empty command")]
    | head :: args =>
      let cmd := toUpper head.asString
      if cmd = lit "SUBSCRIBE" then
        (args.zipIdx 1).map fun arg => .array [.bulkString (lit "subscribe"), .bulkString arg.1.asString,
          .integer (Int64.ofNat arg.2)]
      else if cmd = lit "UNSUBSCRIBE" then
        args.map fun arg =>
          .array [.bulkString (lit "unsubscribe"), .bulkString arg.asString, .integer 0]
      else if cmd = lit "PUBLISH" then
        if args.length = 2 then [.integer 1]
        else [.error (lit "ERR wrong number of arguments for PUBLISH")]
      else if cmd = lit "PING" then
        match args with
        | [] => [.simpleString (lit "PONG")]
        | arg :: _ => [.bulkString arg.asString]
      else if cmd = lit "ACK" then
        if args.length = 1 then [.simpleString (lit "OK")]
        else [.error (lit "ERR wrong number of arguments for ACK")]
      else [unknownCommand cmd]

/-- What a list of calls writes to the session's own socket. -/
def written (calls : List Call) : List Bytes :=
  calls.filterMap fun call => match call with
    | .send data => some data
    | _ => none

theorem mem_written (calls : List Call) (data : Bytes) :
    data ∈ written calls ↔ .send data ∈ calls := by
  rw [written, List.mem_filterMap]
  constructor
  · rintro ⟨call, hm, hd⟩
    cases call with
    | send d => exact Option.some_inj.mp hd ▸ hm
    | registerClient | subscribe | replayMessagesForClient | unsubscribe | publish | handleAck
    | unregisterClient | removeSession => cases hd
  · exact fun hm => ⟨_, hm, rfl⟩

theorem written_respSubscribe (i : ℕ) (args : List RespValue) :
    written (respSubscribe i args) = ((args.zipIdx i).map fun arg => .array [.bulkString (lit "subscribe"),
      .bulkString arg.1.asString, .integer (Int64.ofNat arg.2)]).map RespParser.serialize := by
  induction args generalizing i with
  | nil => rfl
  | cons arg args ih =>
    rw [List.zipIdx_cons, List.map_cons, List.map_cons, ← ih (i + 1)]
    rfl

theorem written_respUnsubscribe (args : List RespValue) :
    written (respUnsubscribe args) = (args.map fun arg => .array [.bulkString (lit "unsubscribe"),
      .bulkString arg.asString, .integer 0]).map RespParser.serialize := by
  induction args with
  | nil => rfl
  | cons arg args ih =>
    rw [List.map_cons, List.map_cons, ← ih]
    rfl

theorem respPublish_wrong (args : List RespValue) (h : args.length ≠ 2) :
    respPublish args = [sendResp (.error (lit "ERR wrong number of arguments for PUBLISH"))] := by
  match args with
  | [] | [_] | _ :: _ :: _ :: _ => rfl
  | [_, _] => exact absurd rfl h

theorem respAck_wrong (args : List RespValue) (h : args.length ≠ 1) :
    respAck s args = [sendResp (.error (lit "ERR wrong number of arguments for ACK"))] := by
  match args with
  | [] | _ :: _ :: _ => rfl
  | [_] => exact absurd rfl h

/-- Every reply is written as the bytes `serialize` gives it, and nothing else is written. -/
theorem written_handleCommand (v : RespValue) :
    written (handleCommand s v) = (replies v).map RespParser.serialize := by
  rw [handleCommand, replies]
  cases v with
  | array arr =>
    simp only [RespValue.isArray, RespValue.asArray, Bool.not_true, Bool.false_eq_true, ↓reduceIte]
    cases arr with
    | nil => rfl
    | cons head args =>
      dsimp only
      split_ifs with h1 h2 h3 hp h4 h5 ha
      · exact written_respSubscribe 1 args
      · exact written_respUnsubscribe args
      · obtain ⟨topic, payload, rfl⟩ := List.length_eq_two.mp hp
        rfl
      · rw [respPublish_wrong args hp]
        rfl
      · cases args <;> rfl
      · obtain ⟨arg, rfl⟩ := List.length_eq_one_iff.mp ha
        rw [respAck]
        split_ifs <;> rfl
      · rw [respAck_wrong s args ha]
        rfl
      · rfl
  | _ => rfl

theorem findCRLFIn_suffix (a b : Bytes) (h : findCRLFIn (a ++ b) = none) : findCRLFIn b = none := by
  induction a with
  | nil => exact h
  | cons c a ih =>
    rw [List.cons_append, findCRLFIn] at h
    split_ifs at h
    exact ih (Option.map_eq_none_iff.mp h)

/-- The error reply is one line exactly when the name in it is. -/
theorem wellFormed_unknownCommand_iff (cmd : Bytes) :
    WellFormed (unknownCommand cmd) ↔ findCRLFIn cmd = none := by
  change findCRLFIn (lit "ERR unknown command '" ++ cmd ++ lit "'") = none ↔ _
  rw [List.append_assoc]
  constructor
  · intro h
    have hname := findCRLFIn_suffix _ _ h
    cases hc : findCRLFIn cmd with
    | none => rfl
    | some i =>
      rw [RespParser.findCRLFIn_append cmd _ i hc] at hname
      cases hname
  · intro h
    exact RespParser.findCRLFIn_text_append _ _ (by decide)
      (RespParser.findCRLFIn_append_text cmd _ h (by decide) (by decide))

theorem wellFormed_errorReply (text : Bytes) (h : findCRLFIn text = none) :
    ∀ w ∈ [RespValue.error text], WellFormed w := by
  intro w hw
  rw [List.mem_singleton.mp hw]
  exact h

/-- The replies to a known command repeat arguments in bulk strings only. -/
theorem wellFormed_known (head : RespValue) (args : List RespValue) (hargs : ArgsFit args)
    (hk : toUpper head.asString ∈ knownCommands) :
    ∀ w ∈ replies (.array (head :: args)), WellFormed w := by
  simp only [replies, RespValue.isArray, RespValue.asArray, Bool.not_true, Bool.false_eq_true,
    ↓reduceIte]
  intro w hw
  split_ifs at hw with h1 h2 h3 hp h4 h5 ha
  · obtain ⟨⟨arg, i⟩, harg, rfl⟩ := List.mem_map.mp hw
    exact wellFormed_three _ _ _ (by decide) (hargs arg (List.fst_mem_of_mem_zipIdx harg)) trivial
  · obtain ⟨arg, harg, rfl⟩ := List.mem_map.mp hw
    exact wellFormed_three _ _ _ (by decide) (hargs arg harg) trivial
  · rw [List.mem_singleton.mp hw]
    trivial
  · exact wellFormed_errorReply _ (by decide) w hw
  · cases args with
    | nil =>
      rw [List.mem_singleton.mp hw]
      exact (by decide : findCRLFIn (lit "PONG") = none)
    | cons arg args =>
      rw [List.mem_singleton.mp hw]
      exact hargs arg List.mem_cons_self
  · rw [List.mem_singleton.mp hw]
    exact (by decide : findCRLFIn (lit "OK") = none)
  · exact wellFormed_errorReply _ (by decide) w hw
  · exact absurd hk (by simp [knownCommands, h1, h2, h3, h4, h5])

theorem replies_unknown (head : RespValue) (args : List RespValue)
    (hk : toUpper head.asString ∉ knownCommands) :
    replies (.array (head :: args)) = [unknownCommand (toUpper head.asString)] := by
  simp only [knownCommands, List.mem_cons, List.not_mem_nil, or_false, not_or] at hk
  obtain ⟨h1, h2, h3, h4, h5⟩ := hk
  simp only [replies, RespValue.isArray, RespValue.asArray, Bool.not_true, Bool.false_eq_true, h1, h2,
    h3, h4, h5, ↓reduceIte]

/-- All replies but that to an unknown command are within the limits of the parser. -/
theorem wellFormed_replies_iff (v : RespValue) (hv : ArgsFit v.asArray) :
    (∀ w ∈ replies v, WellFormed w) ↔ echoesCRLF v = false := by
  cases v with
  | array arr =>
    cases arr with
    | nil => exact iff_of_true (wellFormed_errorReply (lit "ERR empty command") (by decide)) rfl
    | cons head args =>
      by_cases hk : toUpper head.asString ∈ knownCommands
      · have hargs : ArgsFit args := fun e he => hv e (List.mem_cons_of_mem head he)
        refine iff_of_true (wellFormed_known head args hargs hk) ?_
        rw [echoesCRLF, List.contains_iff_mem.mpr hk]
        rfl
      · rw [replies_unknown head args hk, List.forall_mem_singleton, wellFormed_unknownCommand_iff,
          echoesCRLF, Bool.and_eq_false_iff, Option.isSome_eq_false_iff, Option.isNone_iff_eq_none]
        have hknown : knownCommands.contains (toUpper head.asString) = false := by simpa using hk
        simp only [hknown, Bool.not_false, Bool.true_eq_false, false_or]
  | _ =>
    exact iff_of_true (wellFormed_errorReply (lit "ERR Protocol error: expected array") (by decide)) rfl

/-- A RESP session writes well-formed values only, except for an error that repeats a CRLF. -/
theorem callOK_handleCommand (v : RespValue) (hv : ArgsFit v.asArray)
    (he : echoesCRLF v = false) : ∀ call ∈ handleCommand s v, CallOK .resp call := by
  intro call hc
  cases call with
  | send data =>
    rw [← mem_written, written_handleCommand] at hc
    obtain ⟨w, hw, rfl⟩ := List.mem_map.mp hc
    exact sendOK_resp w ((wellFormed_replies_iff v hv).mpr he w hw)
  | publish topic data =>
    obtain ⟨head, arg, payload, rfl, -, -, rfl⟩ := publish_mem_handleCommand s v topic data hc
    have harg := hv arg (List.mem_cons_of_mem _ List.mem_cons_self)
    have hpayload := hv payload (List.mem_cons_of_mem _ (List.mem_cons_of_mem _ List.mem_cons_self))
    exact sendOK_resp _ (wellFormed_three _ _ _ (by decide) harg hpayload)
  | registerClient | subscribe | replayMessagesForClient | unsubscribe | handleAck
  | unregisterClient | removeSession => trivial

end Resp

end Session

end MetricMQ
