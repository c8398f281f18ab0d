import MetricMQ.Routing

/-! Requests that are answered with an error. A handler decides before it does anything, so an
error reply is all that such a request leaves behind. -/
namespace MetricMQ

open ByteString Std

/-- A string that is an error reply of one of the two protocols. -/
def IsErrorReply (data : Bytes) : Prop :=
  (∃ text, data = BinaryProtocol.serialize (.error text)) ∨
    ∃ text, data = RespParser.serialize (.error text)

/-- Among the calls of a handler there is an error reply. -/
def RepliesError (calls : List Call) : Prop := ∃ data, .send data ∈ calls ∧ IsErrorReply data

theorem BinaryProtocol.serialize_header (f : BinaryFrame) :
    ∃ rest, BinaryProtocol.serialize f = f.version :: f.command.toByte :: rest := by
  rw [BinaryProtocol.serialize]
  split_ifs
  · exact ⟨_, rfl⟩
  · exact ⟨_, rfl⟩

/-- The command byte tells an error frame from every other one. -/
theorem not_isErrorReply_binary (f : BinaryFrame) (hv : f.version = binaryProtocolVersion)
    (hc : f.command.toByte ≠ BinaryCommand.error.toByte) : ¬ IsErrorReply (BinaryProtocol.serialize f) := by
  obtain ⟨rest, hf⟩ := BinaryProtocol.serialize_header f
  rw [hf]
  rintro (⟨text, h⟩ | ⟨text, h⟩)
  · obtain ⟨rest', he⟩ := BinaryProtocol.serialize_header (.error text)
    rw [he, List.cons.injEq, List.cons.injEq] at h
    exact hc h.2.1
  · -- a RESP value does not begin with the version byte
    rw [RespParser.serialize, hv] at h
    exact absurd (List.cons.inj h).1 (by decide)

/-- The type byte tells a RESP error from every other value. -/
theorem not_isErrorReply_resp (v : RespValue) (b : UInt8) (rest : Bytes)
    (hv : RespParser.serialize v = b :: rest) (hb : b ≠ 45 ∧ b ≠ 1) :
    ¬ IsErrorReply (RespParser.serialize v) := by
  rw [hv]
  rintro (⟨text, h⟩ | ⟨text, h⟩)
  · obtain ⟨rest', he⟩ := BinaryProtocol.serialize_header (.error text)
    rw [he] at h
    exact hb.2 (List.cons.inj h).1
  · rw [RespParser.serialize] at h
    exact hb.1 (List.cons.inj h).1

namespace Session

theorem not_isErrorReply_ack (seq : UInt64) : ¬ IsErrorReply (BinaryProtocol.serialize (.ack seq)) :=
  not_isErrorReply_binary _ rfl (show BinaryCommand.ack.toByte ≠ BinaryCommand.error.toByte by decide)

/-- What a handler does for a request that it rejects. -/
def Rejects (s : Session) (r : Session × List Call) : Prop :=
  ∃ data, IsErrorReply data ∧ r = (s, [.send data])

theorem rejects_binary (s : Session) (text : Bytes) : Rejects s (s, [sendBinary (.error text)]) :=
  ⟨_, Or.inl ⟨text, rfl⟩, rfl⟩

theorem rejects_resp (s : Session) (text : Bytes) : Rejects s (s, [sendResp (.error text)]) :=
  ⟨_, Or.inr ⟨text, rfl⟩, rfl⟩

/-- Calls whose replies are no errors. -/
theorem not_repliesError (calls : List Call)
    (h : ∀ data, .send data ∈ calls → ¬ IsErrorReply data) : ¬ RepliesError calls := by
  rintro ⟨data, hm, he⟩
  exact h data hm he

variable (verify : Verify) (keys : KeyLookups) (s : Session)

theorem not_repliesError_publishCalls (f g : BinaryFrame) : ¬ RepliesError (publishCalls f g) := by
  apply not_repliesError
  intro data hm
  simp only [publishCalls, sendBinary, List.mem_cons, reduceCtorEq, Call.send.injEq, List.not_mem_nil,
    or_false, false_or] at hm
  rw [hm]
  exact not_isErrorReply_ack _

theorem rejects_handlePublish (f : BinaryFrame) (h : RepliesError (handlePublish s f).2) :
    Rejects s (handlePublish s f) := by
  rcases handlePublish_cases s f with ⟨-, hs, text, he, -⟩ | ⟨-, he⟩
  · exact ⟨_, Or.inl ⟨_, rfl⟩, Prod.ext hs he⟩
  · rw [he] at h
    exact absurd h (not_repliesError_publishCalls _ _)

theorem rejects_handleSignedPublish (f : BinaryFrame)
    (h : RepliesError (handleSignedPublish verify keys s f).2) :
    Rejects s (handleSignedPublish verify keys s f) := by
  rcases handleSignedPublish_cases verify keys s f with ⟨text, -, he⟩ | ⟨-, he⟩
  · rw [he]
    exact rejects_binary s text
  · rw [he] at h
    exact absurd h (not_repliesError_publishCalls _ _)

theorem rejects_handleBinaryFrame (f : BinaryFrame)
    (h : RepliesError (handleBinaryFrame verify keys s f).2) :
    Rejects s (handleBinaryFrame verify keys s f) := by
  rw [handleBinaryFrame] at h ⊢
  cases hc : f.command with
  | publish =>
    simp only [hc] at h ⊢
    exact rejects_handlePublish s f h
  | signedPublish =>
    simp only [hc] at h ⊢
    exact rejects_handleSignedPublish verify keys s f h
  | message | pong | error | unnamed =>
    simp only [hc] at h ⊢
    exact rejects_binary s _
  | subscribe =>
    -- the only reply is the acknowledgement
    simp only [hc] at h
    refine absurd h (not_repliesError _ fun data hm => ?_)
    rw [handleSubscribe] at hm
    split at hm <;>
      · simp only [sendBinary, List.mem_cons, reduceCtorEq, Call.send.injEq, List.not_mem_nil, or_false,
          false_or] at hm
        rw [hm]
        exact not_isErrorReply_ack _
  | unsubscribe =>
    simp only [hc] at h
    refine absurd h (not_repliesError _ fun data hm => ?_)
    simp only [sendBinary, List.mem_cons, reduceCtorEq, Call.send.injEq, List.not_mem_nil, or_false,
      false_or] at hm
    rw [hm]
    exact not_isErrorReply_ack _
  | ping =>
    simp only [hc] at h
    refine absurd h (not_repliesError _ fun data hm => ?_)
    simp only [sendBinary, List.mem_singleton, Call.send.injEq] at hm
    rw [hm]
    exact not_isErrorReply_binary _ rfl (by decide)
  | ack =>
    simp only [hc] at h
    refine absurd h (not_repliesError _ fun data hm => ?_)
    split_ifs at hm <;> simp at hm
  | signedMessage =>
    simp only [hc] at h
    exact absurd h (not_repliesError _ (by simp))

theorem not_repliesError_respSubscribe (i : ℕ) (args : List RespValue) :
    ¬ RepliesError (respSubscribe i args) := by
  apply not_repliesError
  intro data hm
  rw [← mem_written, written_respSubscribe] at hm
  obtain ⟨w, hw, rfl⟩ := List.mem_map.mp hm
  obtain ⟨arg, -, rfl⟩ := List.mem_map.mp hw
  exact not_isErrorReply_resp _ 42 _ rfl (by decide)

theorem not_repliesError_respUnsubscribe (args : List RespValue) :
    ¬ RepliesError (respUnsubscribe args) := by
  apply not_repliesError
  intro data hm
  rw [← mem_written, written_respUnsubscribe] at hm
  obtain ⟨w, hw, rfl⟩ := List.mem_map.mp hm
  obtain ⟨arg, -, rfl⟩ := List.mem_map.mp hw
  exact not_isErrorReply_resp _ 42 _ rfl (by decide)

theorem rejects_respPublish (args : List RespValue) (h : RepliesError (respPublish args)) :
    Rejects s (s, respPublish args) := by
  by_cases hlen : args.length = 2
  · obtain ⟨topic, payload, rfl⟩ := List.length_eq_two.mp hlen
    refine absurd h (not_repliesError _ fun data hm => ?_)
    simp only [respPublish, sendResp, List.mem_cons, reduceCtorEq, Call.send.injEq, List.not_mem_nil,
      or_false, false_or] at hm
    rw [hm]
    exact not_isErrorReply_resp _ 58 _ rfl (by decide)
  · rw [respPublish_wrong args hlen]
    exact rejects_resp s _

theorem not_repliesError_respPing (args : List RespValue) : ¬ RepliesError (respPing args) := by
  apply not_repliesError
  intro data hm
  cases args with
  | nil =>
    simp only [respPing, sendResp, List.mem_singleton, Call.send.injEq] at hm
    rw [hm]
    exact not_isErrorReply_resp _ 43 _ rfl (by decide)
  | cons arg args =>
    simp only [respPing, sendResp, List.mem_singleton, Call.send.injEq] at hm
    rw [hm]
    exact not_isErrorReply_resp _ 36 _ rfl (by decide)

theorem rejects_respAck (args : List RespValue) (h : RepliesError (respAck s args)) :
    Rejects s (s, respAck s args) := by
  by_cases hlen : args.length = 1
  · obtain ⟨arg, rfl⟩ := List.length_eq_one_iff.mp hlen
    refine absurd h (not_repliesError _ fun data hm => ?_)
    -- a session without a client id only replies
    have hdata : data = RespParser.serialize (.simpleString (lit "OK")) := by
      rw [respAck] at hm
      split_ifs at hm <;> simpa [sendResp] using hm
    rw [hdata]
    exact not_isErrorReply_resp _ 43 _ rfl (by decide)
  · rw [respAck_wrong s args hlen]
    exact rejects_resp s _

theorem rejects_handleCommand (v : RespValue) (h : RepliesError (handleCommand s v)) :
    Rejects s (s, handleCommand s v) := by
  rw [handleCommand] at h ⊢
  by_cases ha : (!v.isArray) = true
  · rw [if_pos ha]
    exact rejects_resp s _
  · rw [if_neg ha] at h ⊢
    cases hv : v.asArray with
    | nil => exact rejects_resp s _
    | cons head args =>
      rw [hv] at h
      dsimp only at h ⊢
      split_ifs at h ⊢
      · exact absurd h (not_repliesError_respSubscribe 1 args)
      · exact absurd h (not_repliesError_respUnsubscribe args)
      · exact rejects_respPublish s args h
      · exact absurd h (not_repliesError_respPing args)
      · exact rejects_respAck s args h
      · exact rejects_resp s _

/-- A handler that answers with an error has done nothing else. -/
theorem rejects_of_repliesError (item : Dispatch) (h : RepliesError (handle verify keys s item).2) :
    Rejects s (handle verify keys s item) := by
  cases item with
  | frame f => exact rejects_handleBinaryFrame verify keys s f h
  | command v => exact rejects_handleCommand s v h

end Session

section Steps

variable {σ ε : Type} [Storage σ ε] (verify : Verify) (hash : HashOrder)

/-- A request that is answered with an error: the step that handles it changes nothing but what
is left in the receive buffer, and ends what the thread has looked up for it, and the step that sends the reply, whatever other threads have
done in between, writes it to this session and changes nothing at all. -/
theorem rejected_request_changes_nothing (w : World σ) (session : SessionId) (conn : Connection)
    (item : Dispatch) (r : Receiver) (faults : Faults ε) (hconn : w.connections[session]? = some conn)
    (hpending : conn.pending = []) (hopen : conn.closing = false) (hnext : conn.next = some (item, r))
    (herr : RepliesError
      (Session.handle verify (w.lookups session) { conn.toSession with toReceiver := r } item).2) :
    ∃ data, IsErrorReply data ∧
      (w.threadStep verify hash session faults).1 =
        { w.set session { conn with toReceiver := r, pending := [.call (.send data)] } with
          looked := w.looked.erase session } ∧
      sends (w.threadStep verify hash session faults).2 = [] ∧
      ∀ (w' : World σ) (faults' : Faults ε), w'.connections[session]? =
          some { conn with toReceiver := r, pending := [.call (.send data)] } →
        (w'.threadStep verify hash session faults').1 = w'.set session { conn with toReceiver := r } ∧
        sends (w'.threadStep verify hash session faults').2 = [(session, data)] := by
  obtain ⟨data, hdata, hh⟩ := Session.rejects_of_repliesError verify _ _ item herr
  refine ⟨data, hdata, ?_, ?_, ?_⟩
  · rw [w.threadStep_of_next verify hash session faults conn item r hconn hpending hopen hnext,
      World.dispatchStep, hh]
    rfl
  · rw [w.threadStep_of_next verify hash session faults conn item r hconn hpending hopen hnext]
    rfl
  · -- the pending reply is the same whatever the others did to the broker
    intro w' faults' hconn'
    rw [w'.threadStep_of_task verify hash session faults' _ _ _ hconn' rfl]
    refine ⟨?_, rfl⟩
    rw [World.set, hpending]
    rfl

/-- A client has sent an unsigned publish on a secure topic. -/
def secureClient : Connection :=
  { protocol := .binary,
    recvBuffer := BinaryProtocol.serialize (.publish (lit "secure/x") (lit "a") 1) }

theorem rejected_request_changes_nothing_secure :
    ∃ data, IsErrorReply data ∧
      (({ World.start LmdbFile.empty with
          connections := (∅ : TreeMap SessionId Connection).insert 0 secureClient } : World _).threadStep
        (fun _ _ _ => true) World.insertionOrder 0 World.allCommit).1 =
      { ({ World.start LmdbFile.empty with
            connections := (∅ : TreeMap SessionId Connection).insert 0 secureClient } : World _).set 0
          { secureClient with toReceiver := ⟨.binary, []⟩, pending := [.call (.send data)] } with
        looked := (∅ : TreeMap SessionId TrustedKeyStore).erase 0 } := by
  obtain ⟨data, hdata, hstep, -⟩ := rejected_request_changes_nothing (fun _ _ _ => true)
    World.insertionOrder { World.start LmdbFile.empty with
      connections := (∅ : TreeMap SessionId Connection).insert 0 secureClient } 0 secureClient
    (.frame (.publish (lit "secure/x") (lit "a") 1)) ⟨.binary, []⟩ World.allCommit
    TreeMap.getElem?_insert_self rfl rfl (by rfl)
    ⟨_, List.mem_singleton.mpr rfl, Or.inl ⟨_, rfl⟩⟩
  exact ⟨data, hdata, hstep⟩

end Steps

end MetricMQ
