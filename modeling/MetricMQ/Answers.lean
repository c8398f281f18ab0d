import MetricMQ.StoredReplay
import MetricMQ.RejectedRequests
import MetricMQ.TaskOrder
import MetricMQ.Durability

/-! Requests and replies of one connection. A session answers what it dispatches in order, each
request as its own handler says and nothing else, however the threads of the other connections
run in between; the one reply that answers no request is that of the size guard. -/
namespace MetricMQ

open ByteString Std Machine

/-- The frame `handleBinaryFrame` answers with. Acknowledgements get no answer. -/
def Session.answerFrame (verify : Verify) (keys : KeyLookups) (f : BinaryFrame) :
    Option BinaryFrame :=
  match f.command with
  | .subscribe | .unsubscribe => some (.ack f.sequence)
  | .publish =>
    some (if isSecure f.topic then .error (lit "Topic '" ++ f.topic ++
        lit "' requires signed publish (CMD_SIGNED_PUBLISH)")
      else .ack f.sequence)
  | .signedPublish =>
    some (if !keys.verifying.verifyWithKey verify f.keyId (f.topic ++ f.payload) f.signature then
        .error (lit "Invalid signature or unknown key")
      else if !topicAuthorized keys.authorizing f then
        .error (lit "Key not authorized for topic '" ++ f.topic ++ lit "'")
      else .ack f.sequence)
  | .ping => some .pong
  | .ack | .signedMessage => none
  | .message | .pong | .error | .unnamed _ _ => some (.error (lit "Unknown command"))

/-- The strings a session answers an item with, after what its thread finds at the key lookups. -/
def Dispatch.answers (verify : Verify) (keys : KeyLookups) : Dispatch → List Bytes
  | .frame f => (Session.answerFrame verify keys f).toList.map BinaryProtocol.serialize
  | .command v => (Session.replies v).map RespParser.serialize

theorem Session.written_handle (verify : Verify) (keys : KeyLookups) (s : Session)
    (item : Dispatch) : written (handle verify keys s item).2 = item.answers verify keys := by
  cases item with
  | command v => exact written_handleCommand s v
  | frame f =>
    rw [handle, handleBinaryFrame, Dispatch.answers, answerFrame]
    cases f.command with
    | subscribe =>
      dsimp only
      rw [handleSubscribe]
      cases find f.topic 0 <;> rfl
    | publish =>
      dsimp only
      rw [handlePublish]
      split_ifs <;> rfl
    | signedPublish =>
      dsimp only
      rw [handleSignedPublish]
      split_ifs <;> rfl
    | ack =>
      dsimp only
      split_ifs <;> rfl
    | unsubscribe | ping | signedMessage | message | pong | error | unnamed => rfl

/-- The reply of the size guard, after which the connection ends. -/
def goodbye : Bytes :=
  BinaryProtocol.serialize (.error (lit "Message too large — connection closed"))

theorem serialize_error_inj (a b : Bytes)
    (h : BinaryProtocol.serialize (.error a) = BinaryProtocol.serialize (.error b)) : a = b := by
  -- the payload is what stands behind the header
  have hd : ∀ text, (BinaryProtocol.serialize (.error text)).drop 16 = text := by
    intro text
    simp [BinaryProtocol.serialize_eq, BinaryProtocol.signedTrailer, BinaryFrame.error,
      BigEndian.bytes64, BigEndian.bytes32, BigEndian.bytes16]
  calc a = (BinaryProtocol.serialize (.error a)).drop 16 := (hd a).symm
    _ = (BinaryProtocol.serialize (.error b)).drop 16 := by rw [h]
    _ = b := hd b

theorem serialize_ne_of_head (v : RespValue) (f : BinaryFrame) (hv : f.version = 1) :
    RespParser.serialize v ≠ BinaryProtocol.serialize f := by
  intro h
  have hh := congrArg List.head? h
  rw [BinaryProtocol.serialize_eq, hv] at hh
  -- a frame begins with its version, a value with its type
  cases v <;> exact absurd (Option.some_inj.mp hh) (by decide)

/-- No answer to a request is taken for the reply of the size guard. -/
theorem goodbye_not_mem_answers (verify : Verify) (keys : KeyLookups) (item : Dispatch) :
    goodbye ∉ item.answers verify keys := by
  intro h
  cases item with
  | command v =>
    obtain ⟨w, -, hw⟩ := List.mem_map.mp h
    exact serialize_ne_of_head w _ rfl hw
  | frame f =>
    rw [Dispatch.answers, List.mem_map] at h
    obtain ⟨g, hg, he⟩ := h
    rw [Option.mem_toList] at hg
    have hack : ∀ seq, BinaryProtocol.serialize (.ack seq) ≠ goodbye := fun seq =>
      Durability.serialize_ne (.ack seq) (.error _) (by decide : (5 : UInt8) ≠ 8)
    have hpong : BinaryProtocol.serialize .pong ≠ goodbye :=
      Durability.serialize_ne .pong (.error _) (by decide : (7 : UInt8) ≠ 8)
    -- the texts differ in their first byte
    have herror : ∀ (b : UInt8) (text : Bytes), b ≠ 77 →
        BinaryProtocol.serialize (.error (b :: text)) ≠ goodbye := by
      intro b text hb h
      exact hb (List.cons.inj (serialize_error_inj _ _ h)).1
    rw [Session.answerFrame] at hg
    cases hc : f.command with
    | subscribe | unsubscribe =>
      rw [hc] at hg
      rw [← Option.some_inj.mp hg] at he
      exact hack _ he
    | publish =>
      simp only [hc] at hg
      split_ifs at hg <;> rw [← Option.some_inj.mp hg] at he
      · exact herror 84 _ (by decide) he
      · exact hack _ he
    | signedPublish =>
      simp only [hc] at hg
      split_ifs at hg <;> rw [← Option.some_inj.mp hg] at he
      · exact herror 73 _ (by decide) he
      · exact herror 75 _ (by decide) he
      · exact hack _ he
    | ping =>
      rw [hc] at hg
      rw [← Option.some_inj.mp hg] at he
      exact hpong he
    | ack | signedMessage =>
      rw [hc] at hg
      cases hg
    | message | pong | error | unnamed =>
      rw [hc] at hg
      rw [← Option.some_inj.mp hg] at he
      exact herror 85 _ (by decide) he

/-- Replies as an effect of tasks: what a session sends itself answers what it has dispatched. The
reply of the size guard is left out, it answers nothing. -/
def answering (verify : Verify) : Effect Bytes Bytes where
  ofCall
    | .send data => if data = goodbye then [] else [data]
    | _ => []
  shown session
    | .sent s _ data none => if s = session ∧ data ≠ goodbye then [data] else []
    | _ => []
  asked keys item := item.answers verify keys
  Matches := Eq

theorem answering_ofCall (verify : Verify) (calls : List Call) :
    calls.flatMap (answering verify).ofCall = (Session.written calls).filter (· ≠ goodbye) := by
  induction calls with
  | nil => rfl
  | cons call calls ih =>
    rw [List.flatMap_cons, ih]
    cases call with
    | send data =>
      have hw : Session.written (.send data :: calls) = data :: Session.written calls := rfl
      rw [hw, List.filter_cons]
      by_cases hd : data = goodbye <;> simp [answering, hd]
    | registerClient | subscribe | unsubscribe | publish | handleAck | unregisterClient
    | removeSession | replayMessagesForClient => rfl

/-- A handler answers its item and sends nothing else. -/
theorem answering_handle (verify : Verify) (keys : KeyLookups) (s : Session) (item : Dispatch) :
    (Session.handle verify keys s item).2.flatMap (answering verify).ofCall =
      item.answers verify keys := by
  rw [answering_ofCall, Session.written_handle, List.filter_eq_self]
  intro data hm
  rw [decide_eq_true_eq]
  rintro rfl
  exact goodbye_not_mem_answers verify keys item hm

/-- The way out of the receive loop answers nothing. -/
theorem answering_leaving (verify : Verify) (s : Session) :
    s.overflowCalls.flatMap (answering verify).ofCall = [] := by
  rw [answering_ofCall, Session.overflowCalls, Session.exitCalls]
  -- the one string that is sent is the reply of the size guard
  have hone : ∀ calls : List Call, Session.written calls = [] →
      (Session.written (Session.sendBinary (.error
        (lit "Message too large — connection closed")) :: calls)).filter (· ≠ goodbye) = [] := by
    intro calls h
    have hw : Session.written (Session.sendBinary (.error
        (lit "Message too large — connection closed")) :: calls) =
        goodbye :: Session.written calls := rfl
    rw [hw, h, List.filter_cons, if_neg (by simp)]
    rfl
  apply hone
  split_ifs <;> rfl

section Runs

variable {σ ε : Type} [Storage σ ε] (verify : Verify) (hash : HashOrder) (session : SessionId)

theorem answering_exec (w : World σ) (faults : Faults ε) (s : SessionId) (task : Task) :
    (answering verify).done session (w.exec hash faults s task).2 =
      if s = session then (answering verify).ofTask task else [] := by
  have hshown := w.shown_exec hash faults s task
  generalize (w.exec hash faults s task).2 = outs at hshown
  cases hshown with
  | nothing _ hpublish hsend =>
    have hnone : (answering verify).ofTask task = [] := by
      cases task with
      | call call =>
        cases call with
        | send data => exact absurd rfl (hsend data)
        | publish | registerClient | subscribe | unsubscribe | handleAck | unregisterClient
        | removeSession | replayMessagesForClient => rfl
      | replayMessages | loadUnacked | sendStored | sendUnacked => rfl
    rw [hnone, ite_self]
    rfl
  | published topic data =>
    -- what goes to the subscribers has a number, so it is no reply
    have hnone : (answering verify).ofTask (.call (.publish topic data)) = [] := rfl
    rw [hnone, ite_self]
    simp [Effect.done, answering, List.flatMap_map]
  | replied data =>
    simp only [Effect.done, List.flatMap_singleton, Effect.ofTask, answering]
    by_cases hs : s = session <;> by_cases hd : data = goodbye <;> simp [hs, hd]
  | replayed _ m htask => rcases htask with rfl | ⟨c, rfl⟩ <;> exact (ite_self _).symm

theorem answering_lawful : (answering verify).Lawful session σ ε verify where
  exec := fun w hash faults s task => answering_exec verify hash session w faults s task
  dispatched := fun _ _ _ => rfl
  leaving := answering_leaving verify
  handled := fun keys _ _ item _ => List.forall₂_eq_eq_eq ▸ answering_handle verify keys _ item

/-- In a run of one process every session is answered in order: the replies it was sent, followed
by those its thread has still to send, are the answers to the items it has dispatched. -/
theorem answered_in_order (db : σ) (is : List (Input ε))
    (h : Meets (World.step verify hash) NoRestart (World.start db) is) :
    (answering verify).done session (run (World.step verify hash) (World.start db) is).2 ++
        (answering verify).pending session (run (World.step verify hash) (World.start db) is).1 =
      (answering verify).requested session (run (World.step verify hash) (World.start db) is).2 :=
  List.forall₂_eq_eq_eq ▸
    ((answering_lawful verify session).inOrder_run verify hash session db is h).order

end Runs

open World in
/-- A binary client that pings twice. -/
theorem answered_in_order_pings :
    (answering fun _ _ _ => true).done 1
      (run (World.step (fun _ _ _ => true) insertionOrder) (World.start LmdbFile.empty)
        [.accept 1, .recv 1 (BinaryProtocol.serialize .ping ++ BinaryProtocol.serialize .ping),
          .thread 1 allCommit, .thread 1 allCommit, .thread 1 allCommit, .thread 1 allCommit]).2 =
    [BinaryProtocol.serialize .pong, BinaryProtocol.serialize .pong] := by
  have h := answered_in_order (fun _ _ _ => true) insertionOrder 1 LmdbFile.empty
    [.accept 1, .recv 1 (BinaryProtocol.serialize .ping ++ BinaryProtocol.serialize .ping),
      .thread 1 allCommit, .thread 1 allCommit, .thread 1 allCommit, .thread 1 allCommit]
    ⟨trivial, trivial, trivial, trivial, trivial, trivial, trivial⟩
  have hpending : (answering fun _ _ _ => true).pending 1
      (run (World.step (fun _ _ _ => true) insertionOrder) (World.start LmdbFile.empty)
        [.accept 1, .recv 1 (BinaryProtocol.serialize .ping ++ BinaryProtocol.serialize .ping),
          .thread 1 allCommit, .thread 1 allCommit, .thread 1 allCommit, .thread 1 allCommit]).1 = [] := by
    decide
  rw [hpending, List.append_nil] at h
  rw [h]
  decide

end MetricMQ
