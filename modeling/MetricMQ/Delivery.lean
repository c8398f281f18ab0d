import MetricMQ.Handlers
import MetricMQ.Segmentation
import MetricMQ.World

/-! Delivery in the subscriber's protocol. A payload is serialized in the publisher's protocol
and written unchanged to every subscriber; what a replay sends is cut out of a stored value;
the size guard answers in binary; an unknown RESP command is repeated in the error. -/
namespace MetricMQ

open ByteString Std Machine StreamFraming LmdbStorage

/-- The strings of a trace that went to a session while it had detected the protocol. -/
def sentStrings (tr : List Output) (session : SessionId) (p : ProtocolType) : List Bytes :=
  tr.filterMap fun o =>
    match o with
    | .sent s q data _ => if s = session ∧ q = p then some data else none
    | _ => none

/-- Every string sent is one frame or value of the receiver's protocol, and a receiver that
parses greedily is never left with a rest. -/
structure DeliversInProtocol (tr : List Output) : Prop where
  each : ∀ s p data seq, .sent s p data seq ∈ tr → Session.SendOK p data
  stream : ∀ s p, p ≠ .unknown → (drain (parseFor p) (sentStrings tr s p).flatten).2 = []

theorem parseFor_of_sendOK (p : ProtocolType) (data : Bytes) (hp : p ≠ .unknown)
    (h : Session.SendOK p data) : ∃ d, (dispatcher p).parse data = some (d, data.length) := by
  rw [dispatcher_parse]
  cases p with
  | unknown => exact absurd rfl hp
  | resp =>
    obtain ⟨v, hv⟩ := h
    exact ⟨.command v, by rw [parseFor, hv]; rfl⟩
  | binary =>
    obtain ⟨g, hg⟩ := h
    exact ⟨.frame g, by rw [parseFor, hg]; rfl⟩

theorem DeliversInProtocol.of_each (tr : List Output)
    (h : ∀ s p data seq, .sent s p data seq ∈ tr → Session.SendOK p data) :
    DeliversInProtocol tr := by
  refine ⟨h, ?_⟩
  intro s p hp
  rw [← dispatcher_parse]
  apply drain_flatten_frames
  intro data hd
  obtain ⟨o, ho, he⟩ := List.mem_filterMap.mp hd
  cases o with
  | sent s' q d seq =>
    dsimp only at he
    split_ifs at he with hc
    obtain ⟨rfl, rfl⟩ := hc
    obtain rfl := Option.some_inj.mp he
    exact parseFor_of_sendOK q d hp (h s' q d seq ho)
  | dispatched | published => cases he

/-- A stored value that a replay on `topic` would take for a record of that topic. -/
def hasRecordFor (store : Store) (topic : Bytes) : Bool :=
  store.toList.any fun e => List.isPrefixOf msgTag e.1 && List.isPrefixOf (topic ++ [0]) e.2

def World.pendingTask {σ : Type} (w : World σ) (session : SessionId) : Option Task :=
  match w.connections[session]? with
  | none => none
  | some conn => conn.pending.head?

theorem World.pendingTask_eq {σ : Type} (w : World σ) (session : SessionId) (conn : Connection)
    (task : Task) (rest : List Task) (hconn : w.connections[session]? = some conn)
    (hp : conn.pending = task :: rest) : w.pendingTask session = some task := by
  rw [pendingTask, hconn]
  dsimp only
  rw [hp, List.head?_cons]

def Task.publishedTopic : Task → Option Bytes
  | .call (.publish topic _) => some topic
  | _ => none

/-- The topic a replay is about to load messages of. -/
def Task.loadedTopic : Task → Option Bytes
  | .replayMessages topic _ | .loadUnacked topic _ _ => some topic
  | _ => none

/-- If the task is a load, the store has no record for its topic. -/
def LoadsNothing (w : World LmdbFile) (task : Task) : Prop :=
  task.loadedTopic.elim True fun topic => hasRecordFor w.broker.db.store topic = false

/-- A publish only meets subscribers of the publisher's protocol, and no replay loads anything. -/
def TaskInProtocol (w : World LmdbFile) (session : SessionId) (task : Task) : Prop :=
  (task.publishedTopic.elim True fun topic =>
    ∀ s ∈ w.broker.recipients topic, w.protocolOf s = w.protocolOf session) ∧ LoadsNothing w task

def ItemInProtocol : Dispatch → Prop
  | .command v => Session.echoesCRLF v = false
  | .frame _ => True

/-- The size guard does not drop a RESP connection. -/
def NoRespOverflow (w : World LmdbFile) (session : SessionId) (chunk : Bytes) : Prop :=
  (w.connections[session]?).elim True fun conn =>
    (conn.receive chunk).isSome = true ∨ conn.protocol ≠ .resp

/-- None of the four ways out of the receiver's protocol is taken in this step. -/
def StaysInProtocol (w : World LmdbFile) : Input (Option MdbError) → Prop
  | .recv session chunk => NoRespOverflow w session chunk
  | .thread session _ =>
    (w.pendingTask session).elim True (TaskInProtocol w session) ∧
      (w.nextItem session).elim True ItemInProtocol
  | _ => True

section Decide

instance decidableElim {α : Type} (P : α → Prop) [DecidablePred P] :
    (o : Option α) → Decidable (o.elim True P)
  | none => isTrue trivial
  | some a => inferInstanceAs (Decidable (P a))

instance (w : World LmdbFile) : DecidablePred (LoadsNothing w) :=
  fun task => inferInstanceAs (Decidable (task.loadedTopic.elim True _))

instance (w : World LmdbFile) (session : SessionId) : DecidablePred (TaskInProtocol w session) :=
  fun task => inferInstanceAs (Decidable ((task.publishedTopic.elim True _) ∧ LoadsNothing w task))

instance : DecidablePred ItemInProtocol
  | .command v => inferInstanceAs (Decidable (Session.echoesCRLF v = false))
  | .frame _ => isTrue trivial

instance (w : World LmdbFile) (session : SessionId) (chunk : Bytes) :
    Decidable (NoRespOverflow w session chunk) :=
  inferInstanceAs (Decidable ((w.connections[session]?).elim True _))

instance (w : World LmdbFile) : DecidablePred (StaysInProtocol w)
  | .recv session chunk => inferInstanceAs (Decidable (NoRespOverflow w session chunk))
  | .thread session _ =>
    inferInstanceAs (Decidable ((w.pendingTask session).elim True (TaskInProtocol w session) ∧
      (w.nextItem session).elim True ItemInProtocol))
  | .accept _ | .hangup _ | .keyStore _ | .stop | .restart => isTrue trivial

end Decide

section Invariant

variable (verify : Verify) (hash : HashOrder)

def TaskOK (p : ProtocolType) : Task → Prop
  | .call call => Session.CallOK p call
  | .sendStored m | .sendUnacked _ m => Session.SendOK p m.payload
  | .replayMessages _ _ | .loadUnacked _ _ _ => True

/-- What a thread has still to write is in its own protocol, and its buffer is bounded. -/
def ConnectionOK (_ : List Output) (_ : SessionId) (conn : Connection) : Prop :=
  conn.recvBuffer.length ≤ maxRecvBuffer ∧ ∀ task ∈ conn.pending, TaskOK conn.protocol task

theorem taskOK_map_call (p : ProtocolType) (calls : List Call)
    (h : ∀ call ∈ calls, Session.CallOK p call) : ∀ task ∈ calls.map .call, TaskOK p task := by
  intro task ht
  obtain ⟨call, hc, rfl⟩ := List.mem_map.mp ht
  exact h call hc

theorem handle_toReceiver (keys : KeyLookups) (s : Session) (item : Dispatch) :
    (Session.handle verify keys s item).1.toReceiver = s.toReceiver := by
  cases item with
  | command v => rfl
  | frame f =>
    rw [Session.handle, Session.handleBinaryFrame]
    cases f.command with
    | publish =>
      rcases Session.handlePublish_cases s f with ⟨-, he, -⟩ | ⟨-, he⟩
      · exact congrArg Session.toReceiver he
      · dsimp only
        rw [he]
    | signedPublish =>
      rcases Session.handleSignedPublish_cases verify keys s f with ⟨text, -, he⟩ | ⟨-, he⟩
      · dsimp only
        rw [he]
      · dsimp only
        rw [he]
    | subscribe =>
      dsimp only
      unfold Session.handleSubscribe
      split <;> rfl
    | unsubscribe | ping | ack | signedMessage | message | pong | error | unnamed => rfl

/-- The calls of a dispatched item are in the protocol it came in. -/
theorem callOK_handle (keys : KeyLookups) (s s' : Session) (item : Dispatch) (r : Receiver)
    (hbuf : s.recvBuffer.length ≤ maxRecvBuffer) (hnext : s.next = some (item, r))
    (hitem : ItemInProtocol item) :
    ∀ call ∈ (Session.handle verify keys s' item).2, Session.CallOK s.protocol call := by
  obtain ⟨n, hp, -⟩ := s.toReceiver.next_eq_some r item hnext
  obtain ⟨v, hproto, rfl, hv⟩ | ⟨f, hproto, rfl, hf⟩ := parseFor_eq_some _ _ _ n hp
  · rw [hproto]
    exact Session.callOK_handleCommand s' v (Session.argsFit_of_parse s.recvBuffer v n hbuf hv) hitem
  · rw [hproto]
    exact Session.callOK_handleBinaryFrame verify keys s' f (BinaryProtocol.parse_sound _ f n hf).1

theorem connectionOK_exitCalls (s : Session) (p : ProtocolType) :
    ∀ call ∈ s.exitCalls, Session.CallOK p call := by
  intro call hc
  rw [Session.exitCalls] at hc
  rcases List.mem_append.mp hc with hc | hc
  · split_ifs at hc
    · cases hc
    · rw [List.mem_singleton.mp hc]
      trivial
  · rw [List.mem_singleton.mp hc]
    trivial

/-- Without a record for the topic no replay loads anything. -/
theorem topic_ne_of_no_record (file : LmdbFile) (topic : Bytes) (fromSeq toSeq : UInt64)
    (h : hasRecordFor file.store topic = false) (m : StoredMessage)
    (hm : m ∈ Storage.loadRange file fromSeq toSeq) : m.topic ≠ topic := by
  rintro rfl
  have hl : loadRange file.store fromSeq toSeq = some (Storage.loadRange file fromSeq toSeq) :=
    (Option.some_get _).symm
  obtain ⟨-, -, hv⟩ := (mem_loadRange file.store fromSeq toSeq _ m file.schema hl).mp hm
  have hn := List.any_eq_false.mp h (msgKey m.seq, m.topic ++ 0 :: m.payload)
    (TreeMap.mem_toList_iff_getElem?_eq_some.mpr hv)
  apply hn
  rw [Bool.and_eq_true, List.isPrefixOf_iff_prefix, List.isPrefixOf_iff_prefix]
  exact ⟨msgTag_msgKey m.seq, m.payload, by simp⟩

theorem replayMessages_nil (b : Broker LmdbFile) (topic : Bytes) (fromSeq : UInt64)
    (h : hasRecordFor b.db.store topic = false) : b.replayMessages topic fromSeq = [] := by
  rw [Broker.replayMessages]
  split_ifs
  · rw [List.filter_eq_nil_iff]
    intro m hm
    simpa using topic_ne_of_no_record b.db topic _ _ h m hm
  · rfl

theorem loadUnacked_nil (b : Broker LmdbFile) (topic : Bytes) (lastAck : UInt64)
    (h : hasRecordFor b.db.store topic = false) : b.loadUnacked topic lastAck = [] := by
  rw [Broker.loadUnacked]
  split_ifs
  · rw [List.filter_eq_nil_iff]
    intro m hm
    simpa using topic_ne_of_no_record b.db topic _ _ h m hm
  · rfl

/-- Then a step leaves no message to send, only a load. -/
theorem isSome_loadedTopic_of_mem_followUp (w : World LmdbFile) (task task' : Task)
    (hC : LoadsNothing w task) (hm : task' ∈ w.followUp task) : task'.loadedTopic.isSome = true := by
  cases task with
  | call call =>
    cases call with
    | subscribe | replayMessagesForClient =>
      rw [List.mem_singleton.mp hm]
      rfl
    | registerClient | unsubscribe | publish | handleAck | send | unregisterClient
    | removeSession => cases hm
  | replayMessages topic fromSeq =>
    rw [World.followUp, replayMessages_nil w.broker topic fromSeq hC] at hm
    cases hm
  | loadUnacked topic clientId lastAck =>
    rw [World.followUp, loadUnacked_nil w.broker topic lastAck hC] at hm
    cases hm
  | sendStored | sendUnacked => cases hm

theorem taskOK_of_load (p : ProtocolType) (task : Task) (h : task.loadedTopic.isSome = true) :
    TaskOK p task := by
  cases task with
  | replayMessages | loadUnacked => trivial
  | call | sendStored | sendUnacked => cases h

/-- The guard of the buffer answers with a binary frame whatever the protocol is. -/
theorem callOK_overflowCalls (s : Session) (hnr : s.protocol ≠ .resp) :
    ∀ call ∈ s.overflowCalls, Session.CallOK s.protocol call := by
  intro call hc
  rw [Session.overflowCalls] at hc
  rcases List.mem_cons.mp hc with rfl | hc
  · have hok : Session.SendOK .binary (BinaryProtocol.serialize
        (.error (lit "Message too large — connection closed"))) :=
      Session.sendOK_binary _ (Session.wellFormed_error _ (by decide))
    change Session.SendOK s.protocol _
    cases hp : s.protocol with
    | unknown => trivial
    | resp => exact absurd hp hnr
    | binary => exact hok
  · exact connectionOK_exitCalls s s.protocol call hc

/-- A dispatch leaves the session in its protocol, with calls in that protocol to make. -/
theorem connectionOK_handle (keys : KeyLookups) (s : Session) (item : Dispatch) (r : Receiver)
    (hbuf : s.recvBuffer.length ≤ maxRecvBuffer) (hnext : s.next = some (item, r))
    (hitem : ItemInProtocol item) :
    (Session.handle verify keys { s with toReceiver := r } item).1.recvBuffer.length ≤ maxRecvBuffer ∧
    ∀ task ∈ (Session.handle verify keys { s with toReceiver := r } item).2.map .call,
      TaskOK (Session.handle verify keys { s with toReceiver := r } item).1.protocol task := by
  have hcalls := callOK_handle verify keys s { s with toReceiver := r } item r hbuf hnext hitem
  have hr : r.protocol = s.protocol ∧ r.recvBuffer.length ≤ s.recvBuffer.length := by
    obtain ⟨n, -, rfl⟩ := s.toReceiver.next_eq_some r item hnext
    exact ⟨rfl, by rw [List.length_drop]; omega⟩
  rw [handle_toReceiver verify keys { s with toReceiver := r } item]
  refine ⟨Nat.le_trans hr.2 hbuf, ?_⟩
  change ∀ task ∈ _, TaskOK r.protocol task
  rw [hr.1]
  exact taskOK_map_call s.protocol _ hcalls

theorem connectionOK_invariant :
    World.ConnectionInvariant verify StaysInProtocol ConnectionOK where
  mono := fun tr outs s c h => h
  fresh := fun tr s => ⟨Nat.zero_le _, by simp⟩
  received := by
    intro tr s c chunk r h hp hr
    rw [Receiver.receive] at hr
    split_ifs at hr with hg
    all_goals obtain rfl := Option.some_inj.mp hr
    all_goals
      refine ⟨?_, by simp [hp]⟩
      rw [List.length_append]
      omega
  overflowed := by
    intro w tr s c chunk hC hconn hr h
    have hnr : c.protocol ≠ .resp := by
      rw [StaysInProtocol, NoRespOverflow, hconn, Option.elim_some, hr] at hC
      exact hC.resolve_left (by simp)
    exact ⟨h.1, taskOK_map_call c.protocol _ (callOK_overflowCalls c.toSession hnr)⟩
  hungUp := fun tr s c h =>
    ⟨h.1, taskOK_map_call c.protocol _ (connectionOK_exitCalls c.toSession c.protocol)⟩
  worked := by
    intro w tr s c faults task rest hC hconn hp h
    refine ⟨h.1, ?_⟩
    intro task' ht
    rcases List.mem_append.mp ht with ht | ht
    · have hin := hC.1
      rw [w.pendingTask_eq s c task rest hconn hp] at hin
      exact taskOK_of_load c.protocol task' (isSome_loadedTopic_of_mem_followUp w task task' hin.2 ht)
    · exact h.2 task' (hp ▸ List.mem_cons_of_mem task ht)
  dispatched := by
    intro w tr s c faults item r hC hconn hp hnext h
    -- the item that is taken is the one the condition speaks of
    have hitem : ItemInProtocol item := by
      have hn : w.nextItem s = some item := by
        simp only [World.nextItem, hconn, hp, List.isEmpty_nil, ↓reduceIte, hnext, Option.map_some]
      have hi := hC.2
      rw [hn] at hi
      exact hi
    exact connectionOK_handle verify (w.lookups s) c.toSession item r h.1 hnext hitem

/-- What one step sends is in the protocol of whoever receives it. -/
theorem sendOK_exec (w : World LmdbFile) (faults : Faults (Option MdbError)) (session : SessionId)
    (task : Task) (hok : TaskOK (w.protocolOf session) task) (hC : TaskInProtocol w session task)
    (s : SessionId) (p : ProtocolType) (data : Bytes) (seq : Option UInt64)
    (hm : .sent s p data seq ∈ (w.exec hash faults session task).2) : Session.SendOK p data := by
  cases task with
  | call call =>
    cases call with
    | publish topic d =>
      simp only [World.exec, World.execCall, List.mem_cons, reduceCtorEq, List.mem_map,
        Output.sent.injEq, false_or] at hm
      obtain ⟨t, ht, rfl, rfl, rfl, -⟩ := hm
      -- the handler built the string for its own session, and all recipients speak like it
      have hrec : t ∈ w.broker.recipients topic := by
        simpa only [Broker.publish, Broker.recipients, Broker.subscribersOf,
          Broker.persist_topicSubscribers] using ht
      rw [hC.1 t hrec]
      exact hok
    | send d =>
      simp only [World.exec, World.execCall, List.mem_singleton, Output.sent.injEq] at hm
      obtain ⟨rfl, rfl, rfl, -⟩ := hm
      exact hok
    | registerClient | subscribe | replayMessagesForClient | unsubscribe | handleAck
    | unregisterClient | removeSession => simp [World.exec, World.execCall] at hm
  | sendStored m =>
    simp only [World.exec, List.mem_singleton, Output.sent.injEq] at hm
    obtain ⟨rfl, rfl, rfl, -⟩ := hm
    exact hok
  | sendUnacked clientId m =>
    simp only [World.exec] at hm
    split_ifs at hm
    · cases hm
    · simp only [List.mem_singleton, Output.sent.injEq] at hm
      obtain ⟨rfl, rfl, rfl, -⟩ := hm
      exact hok
  | replayMessages | loadUnacked => simp [World.exec] at hm

theorem protocolOf_eq (w : World LmdbFile) (session : SessionId) (conn : Connection)
    (h : w.connections[session]? = some conn) : w.protocolOf session = conn.protocol := by
  rw [World.protocolOf, h]

/-- In every run whose steps stay in protocol, everything is delivered in protocol. -/
theorem delivers_in_protocol (db : LmdbFile) (is : List (Input (Option MdbError)))
    (h : Meets (World.step verify hash) StaysInProtocol (World.start db) is) :
    DeliversInProtocol (run (World.step verify hash) (World.start db) is).2 := by
  let I : World LmdbFile → List Output → Prop := fun w tr =>
    (∀ s c, w.connections[s]? = some c → ConnectionOK tr s c) ∧
      ∀ s p data seq, .sent s p data seq ∈ tr → Session.SendOK p data
  have hstep : ∀ w tr (i : Input (Option MdbError)), I w tr → StaysInProtocol w i →
      I (w.step verify hash i).1 (tr ++ (w.step verify hash i).2) := by
    intro w tr i hI hC
    refine ⟨(connectionOK_invariant verify).step w tr i hC hI.1, ?_⟩
    intro s p data seq hm
    rcases List.mem_append.mp hm with hm | hm
    · exact hI.2 s p data seq hm
    rcases w.step_outputs verify hash i with he | ⟨t, item, he⟩ |
      ⟨t, faults, conn, task, rest, rfl, hconn, hp, he, -⟩
    · rw [he] at hm
      cases hm
    · rw [he] at hm
      simp at hm
    · rw [he] at hm
      have hin := hC.1
      rw [w.pendingTask_eq t conn task rest hconn hp] at hin
      refine sendOK_exec hash w faults t task ?_ hin s p data seq hm
      rw [protocolOf_eq w t conn hconn]
      exact (hI.1 t conn hconn).2 task (hp ▸ List.mem_cons_self)
  have hinit : I (World.start db) [] := by
    refine ⟨?_, by simp⟩
    intro s c hc
    simp [World.start] at hc
  exact .of_each _ (run_invariant I hstep (World.start db) [] is hinit h).2

end Invariant

section Runs

open World

/-- Connect, send one binary frame and let the thread run for `n` steps. -/
def binaryClient (session : SessionId) (f : BinaryFrame) (n : ℕ) : List (Input (Option MdbError)) :=
  [.accept session, .recv session (BinaryProtocol.serialize f)] ++
    List.replicate n (.thread session allCommit)

def respClient (session : SessionId) (command : List Bytes) (n : ℕ) :
    List (Input (Option MdbError)) :=
  [.accept session, .recv session (RespParser.serialize (RespParser.makeArray command))] ++
    List.replicate n (.thread session allCommit)

/-- A binary pair on one topic beside a RESP pair on another. -/
theorem delivers_in_protocol_pairs :
    (sentStrings (run (World.step (fun _ _ _ => true) insertionOrder) (World.start LmdbFile.empty)
      (binaryClient 0 (.subscribe (lit "t") 1) 4 ++ respClient 1 [lit "subscribe", lit "u"] 4 ++
        binaryClient 2 (.publish (lit "t") (lit "a") 1) 3 ++
        respClient 3 [lit "PUBLISH", lit "u", lit "b"] 3)).2 0 .binary).length = 2 ∧
    DeliversInProtocol (run (World.step (fun _ _ _ => true) insertionOrder)
      (World.start LmdbFile.empty)
      (binaryClient 0 (.subscribe (lit "t") 1) 4 ++ respClient 1 [lit "subscribe", lit "u"] 4 ++
        binaryClient 2 (.publish (lit "t") (lit "a") 1) 3 ++
        respClient 3 [lit "PUBLISH", lit "u", lit "b"] 3)).2 :=
  ⟨by decide, delivers_in_protocol _ _ _ _ (by decide)⟩

def badBinarySend : Output → Bool
  | .sent _ .binary data _ => (BinaryProtocol.parse data).isNone
  | _ => false

/-- The documented mixed pair: a RESP publisher and a binary subscriber. -/
theorem mixed_delivery_fails :
    ¬ DeliversInProtocol (run (World.step (fun _ _ _ => true) insertionOrder)
      (World.start LmdbFile.empty)
      (binaryClient 0 (.subscribe (lit "t") 1) 4 ++
        respClient 1 [lit "PUBLISH", lit "t", lit "a"] 2)).2 := by
  intro h
  have hbad : (run (World.step (fun _ _ _ => true) insertionOrder) (World.start LmdbFile.empty)
      (binaryClient 0 (.subscribe (lit "t") 1) 4 ++
        respClient 1 [lit "PUBLISH", lit "t", lit "a"] 2)).2.any badBinarySend = true := by decide
  obtain ⟨o, ho, hb⟩ := List.any_eq_true.mp hbad
  cases o with
  | sent s p data seq =>
    cases p with
    | binary =>
      obtain ⟨g, hg⟩ := h.each s .binary data seq ho
      rw [badBinarySend, hg] at hb
      cases hb
    | unknown | resp => cases hb
  | dispatched | published => cases hb

end Runs

end MetricMQ
