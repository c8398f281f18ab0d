import MetricMQ.Delivery

/-! The number a MESSAGE frame carries. It is the publishing session's own counter; the number
the broker assigns and the number the store files the message under come from two other
counters. An ACK names the right message where the three agree. -/
namespace MetricMQ

open ByteString Std Machine LmdbStorage

/-- The sequence field of a MESSAGE or SIGNED_MESSAGE frame. -/
def frameNumber (data : Bytes) : Option UInt64 :=
  match BinaryProtocol.parse data with
  | none => none
  | some (f, _) =>
    if f.command = .message ∨ f.command = .signedMessage then some f.sequence else none

/-- An acknowledgement of `c` for `n` marks `n` for `c`, and nothing else for anyone. -/
structure MarksExactly {σ : Type} (b b' : Broker σ) (c : Bytes) (n : UInt64) : Prop where
  marked : b'.isAcked c n = true
  only : ∀ d s, b'.isAcked d s = true → (d = c ∧ s = n) ∨ b.isAcked d s = true

theorem handleAck_marksExactly {σ ε : Type} [Storage σ ε] (err : ε) (b : Broker σ) (c : Bytes)
    (n : UInt64) : MarksExactly b (b.handleAck err c n) c n := by
  have hlook : ∀ d, (b.handleAck err c n).clientAcks[d]? =
      if c = d then some ((b.clientAcks.getD c .empty).insert n) else b.clientAcks[d]? := by
    intro d
    rw [Broker.handleAck]
    dsimp only
    rw [TreeMap.getElem?_insert]
    simp only [LawfulEqCmp.compare_eq_iff_eq]
  constructor
  · rw [Broker.isAcked, hlook, if_pos rfl]
    simpa using BoundedAckSet.mem_insert_self _ n
  · intro d s h
    rw [Broker.isAcked, hlook] at h
    by_cases hd : c = d
    · subst hd
      rw [if_pos rfl] at h
      -- the insertion may evict, and what is left was there before
      have hm : s ∈ ((b.clientAcks.getD c .empty).insert n).order := by simpa using h
      rcases BoundedAckSet.mem_of_mem_insert _ n s hm with rfl | hm
      · exact Or.inl ⟨rfl, rfl⟩
      · right
        rw [TreeMap.getD_eq_getD_getElem?] at hm
        rw [Broker.isAcked]
        cases ha : b.clientAcks[c]? with
        | none =>
          rw [ha] at hm
          cases hm
        | some acks =>
          rw [ha] at hm
          simpa using hm
    · rw [if_neg hd] at h
      exact Or.inr h

def World.sequenceOf {σ : Type} (w : World σ) (session : SessionId) : UInt64 :=
  match w.connections[session]? with
  | none => 0
  | some conn => conn.sequence

/-- The three counters agree at the publish of a binary session, whose save commits. -/
structure CountersAgree (w : World LmdbFile) (session : SessionId)
    (faults : Faults (Option MdbError)) : Prop where
  session : w.sequenceOf session = w.broker.currentSequence + 1
  stored : getLastSeq w.broker.db.store = w.broker.currentSequence
  isOpen : w.broker.persistence = true
  commits : faults.publish.save = none

/-- A publish of a binary session finds agreeing counters, and no replay loads anything. -/
def TaskNumbered (w : World LmdbFile) (session : SessionId) (faults : Faults (Option MdbError))
    (task : Task) : Prop :=
  (task.publishedTopic.elim True fun _ =>
    w.protocolOf session ≠ .binary ∨ CountersAgree w session faults) ∧ LoadsNothing w task

/-- The step publishes with agreeing counters, and replays nothing. -/
def NumbersAgree (w : World LmdbFile) : Input (Option MdbError) → Prop
  | .thread session faults =>
    (w.pendingTask session).elim True (TaskNumbered w session faults)
  | _ => True

section Invariant

variable (verify : Verify) (hash : HashOrder)

/-- What a task would send: a frame with the session's counter, or RESP text; and there is no
stored message to send. -/
def NumberedTask (session : Session) : Task → Prop
  | .call (.publish _ data) =>
    (session.protocol = .binary ∧ ∃ g, BinaryProtocol.FrameWellFormed g ∧
      data = BinaryProtocol.serialize g ∧ g.sequence = session.sequence) ∨
    frameNumber data = none
  | .sendStored _ | .sendUnacked _ _ => False
  | _ => True

def PendingNumbered (_ : List Output) (_ : SessionId) (conn : Connection) : Prop :=
  ∀ task ∈ conn.pending, NumberedTask conn.toSession task

/-- For calls of a handler, only the publishes matter. -/
theorem numberedTask_map_call (session : Session) (calls : List Call)
    (h : ∀ topic data, .publish topic data ∈ calls →
      NumberedTask session (.call (.publish topic data))) :
    ∀ task ∈ calls.map .call, NumberedTask session task := by
  intro task ht
  obtain ⟨call, hc, rfl⟩ := List.mem_map.mp ht
  cases call with
  | publish topic data => exact h topic data hc
  | registerClient | subscribe | replayMessagesForClient | unsubscribe | handleAck | send
  | unregisterClient | removeSession => trivial

/-- RESP text is no binary frame: its first byte is not the version. -/
theorem frameNumber_resp (arr : List RespValue) :
    frameNumber (RespParser.serialize (.array arr)) = none := by
  have hp : BinaryProtocol.parse (RespParser.serialize (.array arr)) = none := by
    cases hp : BinaryProtocol.parse (RespParser.serialize (.array arr)) with
    | none => rfl
    | some r =>
      obtain ⟨f, n⟩ := r
      obtain ⟨hwf, -, r, hr⟩ := BinaryProtocol.parse_sound _ f n hp
      have hh := congrArg List.head? hr
      rw [RespParser.serialize, BinaryProtocol.serialize_eq, hwf.version] at hh
      exact absurd hh (by simp [binaryProtocolVersion])
  rw [frameNumber, hp]

theorem frameNumber_serialize (g : BinaryFrame) (hg : BinaryProtocol.FrameWellFormed g) (n : UInt64)
    (h : frameNumber (BinaryProtocol.serialize g) = some n) : n = g.sequence := by
  have hp := BinaryProtocol.parse_serialize_append g hg []
  rw [List.append_nil] at hp
  rw [frameNumber, hp] at h
  dsimp only at h
  split_ifs at h
  exact (Option.some_inj.mp h).symm

theorem pendingNumbered_dispatch (keys : KeyLookups) (c : Connection) (item : Dispatch)
    (r : Receiver) (hnext : c.next = some (item, r)) (topic data : Bytes)
    (hm : .publish topic data ∈
      (Session.handle verify keys { c.toSession with toReceiver := r } item).2) :
    ((Session.handle verify keys { c.toSession with toReceiver := r } item).1.protocol = .binary ∧
      ∃ g, BinaryProtocol.FrameWellFormed g ∧ data = BinaryProtocol.serialize g ∧ g.sequence =
        (Session.handle verify keys { c.toSession with toReceiver := r } item).1.sequence) ∨
    frameNumber data = none := by
  cases item with
  | command v =>
    obtain ⟨head, arg, payload, -, -, -, rfl⟩ := Session.publish_mem_handleCommand _ v topic data hm
    exact Or.inr (frameNumber_resp _)
  | frame f =>
    left
    obtain ⟨n, hp, rfl⟩ := c.toReceiver.next_eq_some r _ hnext
    obtain ⟨v, -, he, -⟩ | ⟨g, hc, he, hg⟩ := parseFor_eq_some _ _ _ n hp
    · cases he
    obtain rfl := Dispatch.frame.inj he
    have hwf := (BinaryProtocol.parse_sound _ f n hg).1
    obtain ⟨-, hs, hdata⟩ := Session.publish_mem_handleBinaryFrame verify keys _ f topic data hm
    rw [Session.handle, hs]
    refine ⟨hc, ?_⟩
    rcases hdata with ⟨-, rfl⟩ | ⟨-, -, rfl⟩
    · exact ⟨_, Session.wellFormed_message f _ hwf, rfl, rfl⟩
    · exact ⟨_, Session.wellFormed_signedMessage f _ hwf, rfl, rfl⟩

theorem pendingNumbered_invariant :
    World.ConnectionInvariant verify NumbersAgree PendingNumbered where
  mono := fun tr outs s c h => h
  fresh := by
    intro tr s task hm
    cases hm
  received := by
    intro tr s c chunk r _ hp _ task hm
    rw [hp] at hm
    cases hm
  overflowed := fun w tr s c chunk _ _ _ _ => numberedTask_map_call _ _ fun topic data hm =>
    absurd hm (c.toSession.not_publish_overflowCalls topic data)
  hungUp := fun tr s c _ => numberedTask_map_call _ _ fun topic data hm =>
    absurd hm (c.toSession.not_publish_exitCalls topic data)
  worked := by
    intro w tr s c faults task rest hC hconn hp h task' hm
    rcases List.mem_append.mp hm with hm | hm
    · have hin := hC
      rw [NumbersAgree, w.pendingTask_eq s c task rest hconn hp] at hin
      have hload := isSome_loadedTopic_of_mem_followUp w task task' hin.2 hm
      cases task' with
      | replayMessages | loadUnacked => trivial
      | call | sendStored | sendUnacked => cases hload
    · exact h task' (hp ▸ List.mem_cons_of_mem task hm)
  dispatched := fun w tr s c faults item r _ _ _ hnext _ =>
    numberedTask_map_call _ _ fun topic data hm =>
      pendingNumbered_dispatch verify (w.lookups s) c item r hnext topic data hm

/-- A publish with agreeing counters files the message under the number it returns. -/
theorem stored_of_countersAgree (w : World LmdbFile) (session : SessionId)
    (faults : Faults (Option MdbError)) (topic data : Bytes) (h : CountersAgree w session faults) :
    (w.broker.publish faults.publish topic data).1.db.store[msgKey (w.broker.currentSequence + 1)]? =
      some (msgData topic data) := by
  rw [Broker.publish_db]
  rcases w.broker.persist_msgKey faults.publish topic data (w.broker.currentSequence + 1) with
    hkey | hfar
  · rw [hkey, Broker.savedDb, h.isOpen]
    change (save faults.publish.save w.broker.db.store (w.broker.currentSequence + 1) topic data)[_]? = _
    rw [h.commits, getElem?_save, if_neg (msgKey_ne_lastSeqKey _).symm, nextSeq_eq, h.stored,
      if_pos rfl]
  · have hmax : maxStoredMessages.toNat = 100000 := by decide
    omega

/-- What one step sends with a number is numbered so, and its message is filed so. -/
theorem numbered_exec (w : World LmdbFile) (faults : Faults (Option MdbError)) (session : SessionId)
    (conn : Connection) (task : Task) (hconn : w.connections[session]? = some conn)
    (hpend : NumberedTask conn.toSession task) (hC : TaskNumbered w session faults task) :
    (∀ s p data seq n, .sent s p data (some seq) ∈ (w.exec hash faults session task).2 →
      frameNumber data = some n → n = seq) ∧
    ∀ s topic data seq n, .published s topic data seq ∈ (w.exec hash faults session task).2 →
      frameNumber data = some n →
      (w.exec hash faults session task).1.db.store[msgKey seq]? = some (msgData topic data) := by
  -- a publish of a frame: the frame has the session's counter, which agrees with the others
  have hpub : ∀ topic data n, task = .call (.publish topic data) → frameNumber data = some n →
      CountersAgree w session faults ∧ n = w.broker.currentSequence + 1 := by
    rintro topic data n rfl hn
    rcases hpend with ⟨hbin, g, hg, rfl, hseq⟩ | hnone
    · have hag := hC.1.resolve_left fun hne => hne ((protocolOf_eq w session conn hconn).trans hbin)
      refine ⟨hag, ?_⟩
      have hs := hag.session
      rw [World.sequenceOf, hconn] at hs
      rw [frameNumber_serialize g hg n hn, hseq]
      exact hs
    · rw [hnone] at hn
      cases hn
  constructor
  · intro s p data seq n hm hn
    cases task with
    | call call =>
      cases call with
      | publish topic d =>
        simp only [World.exec, World.execCall, List.mem_cons, reduceCtorEq, List.mem_map,
          Output.sent.injEq, Option.some_inj, false_or, Broker.publish_seq] at hm
        obtain ⟨t, -, -, -, rfl, rfl⟩ := hm
        exact (hpub topic d n rfl hn).2
      | registerClient | subscribe | replayMessagesForClient | unsubscribe | handleAck
      | unregisterClient | removeSession | send => simp [World.exec, World.execCall] at hm
    | sendStored m => exact absurd hpend id
    | sendUnacked clientId m => exact absurd hpend id
    | replayMessages | loadUnacked => simp [World.exec] at hm
  · intro s topic data seq n hm hn
    obtain ⟨rfl, rfl, rfl⟩ := w.published_mem_exec hash faults session s task topic data seq hm
    exact stored_of_countersAgree w s faults topic data (hpub topic data n rfl hn).1

/-- A message delivered as a frame by this step is filed in the store under its number. -/
def FilesNumbered (w : World LmdbFile) (i : Input (Option MdbError)) : Prop :=
  ∀ s topic data seq n, .published s topic data seq ∈ (w.step verify hash i).2 →
    frameNumber data = some n →
    (w.step verify hash i).1.broker.db.store[msgKey seq]? = some (msgData topic data)

/-- Frames carry the broker's number, messages are filed under it, and an ACK marks it. -/
structure AcksNameMessages (db : LmdbFile) (is : List (Input (Option MdbError))) : Prop where
  numbered : ∀ s p data seq n,
    .sent s p data (some seq) ∈ (run (World.step verify hash) (World.start db) is).2 →
    frameNumber data = some n → n = seq
  filed : Meets (World.step verify hash) (FilesNumbered verify hash) (World.start db) is
  marks : ∀ err c n, MarksExactly (run (World.step verify hash) (World.start db) is).1.broker
    ((run (World.step verify hash) (World.start db) is).1.broker.handleAck err c n) c n

theorem numbered_step (w : World LmdbFile) (tr : List Output) (i : Input (Option MdbError))
    (hpend : ∀ s c, w.connections[s]? = some c → PendingNumbered tr s c) (hC : NumbersAgree w i) :
    (∀ s p data seq n, .sent s p data (some seq) ∈ (w.step verify hash i).2 →
      frameNumber data = some n → n = seq) ∧ FilesNumbered verify hash w i := by
  rw [FilesNumbered]
  rcases w.step_outputs verify hash i with he | ⟨t, item, he⟩ |
    ⟨t, faults, conn, task, rest, rfl, hconn, hp, he, hb⟩
  · simp [he]
  · simp [he]
  · have hin : TaskNumbered w t faults task := by
      rw [NumbersAgree, w.pendingTask_eq t conn task rest hconn hp] at hC
      exact hC
    rw [he, hb]
    exact numbered_exec hash w faults t conn task hconn
      (hpend t conn hconn task (hp ▸ List.mem_cons_self)) hin

/-- In every run whose binary publishes meet agreeing counters and whose subscriptions replay
nothing, acknowledgements name the messages they acknowledge. -/
theorem acks_name_messages (db : LmdbFile) (is : List (Input (Option MdbError)))
    (h : Meets (World.step verify hash) NumbersAgree (World.start db) is) :
    AcksNameMessages verify hash db is := by
  have hinit : ∀ s c, (World.start db).connections[s]? = some c → PendingNumbered [] s c := by
    intro s c hc
    simp [World.start] at hc
  refine ⟨?_, ?_, fun err c n => handleAck_marksExactly err _ c n⟩
  · let I : World LmdbFile → List Output → Prop := fun w tr =>
      (∀ s c, w.connections[s]? = some c → PendingNumbered tr s c) ∧
        ∀ s p data seq n, .sent s p data (some seq) ∈ tr → frameNumber data = some n → n = seq
    have hstep : ∀ w tr (i : Input (Option MdbError)), I w tr → NumbersAgree w i →
        I (w.step verify hash i).1 (tr ++ (w.step verify hash i).2) := by
      intro w tr i hI hC
      refine ⟨(pendingNumbered_invariant verify).step w tr i hC hI.1, ?_⟩
      intro s p data seq n hm hn
      rcases List.mem_append.mp hm with hm | hm
      · exact hI.2 s p data seq n hm hn
      · exact (numbered_step verify hash w tr i hI.1 hC).1 s p data seq n hm hn
    exact (run_invariant I hstep (World.start db) [] is ⟨hinit, by simp⟩ h).2
  · apply meets_of_invariant (fun w => ∀ s c, w.connections[s]? = some c → PendingNumbered [] s c)
      _ (World.start db) is hinit h
    intro w i hI hC
    exact ⟨(numbered_step verify hash w [] i hI hC).2,
      (pendingNumbered_invariant verify).step w [] i hC hI⟩

end Invariant

section Runs

open World

instance (w : World LmdbFile) (session : SessionId) (faults : Faults (Option MdbError)) :
    Decidable (CountersAgree w session faults) :=
  decidable_of_iff (w.sequenceOf session = w.broker.currentSequence + 1 ∧
    getLastSeq w.broker.db.store = w.broker.currentSequence ∧ w.broker.persistence = true ∧
    faults.publish.save = none)
    ⟨fun h => ⟨h.1, h.2.1, h.2.2.1, h.2.2.2⟩, fun h => ⟨h.session, h.stored, h.isOpen, h.commits⟩⟩

instance (w : World LmdbFile) (session : SessionId) (faults : Faults (Option MdbError)) :
    DecidablePred (TaskNumbered w session faults) :=
  fun task => inferInstanceAs (Decidable ((task.publishedTopic.elim True _) ∧ LoadsNothing w task))

instance (w : World LmdbFile) : DecidablePred (NumbersAgree w)
  | .thread session faults =>
    inferInstanceAs (Decidable ((w.pendingTask session).elim True (TaskNumbered w session faults)))
  | .accept _ | .recv _ _ | .hangup _ | .keyStore _ | .stop | .restart => isTrue trivial

/-- One publisher connection on a fresh database. -/
theorem acks_name_messages_one_publisher :
    AcksNameMessages (fun _ _ _ => true) insertionOrder LmdbFile.empty
      (binaryClient 0 (.subscribe (lit "c" ++ 0 :: lit "t") 1) 7 ++
        binaryClient 1 (.publish (lit "t") (lit "a") 1) 3 ++
        .recv 1 (BinaryProtocol.serialize (.publish (lit "t") (lit "b") 2)) ::
        List.replicate 3 (.thread 1 allCommit) ++
        .recv 0 (BinaryProtocol.serialize (.ack 2)) :: List.replicate 2 (.thread 0 allCommit)) :=
  acks_name_messages _ _ _ _ (by decide)

def misnumbered : Output → Bool
  | .sent _ _ data (some seq) => (frameNumber data).any (· != seq)
  | _ => false

/-- With two publisher connections the second message is delivered under the first number. -/
theorem acks_misname_second_publisher :
    ¬ AcksNameMessages (fun _ _ _ => true) insertionOrder LmdbFile.empty
      (binaryClient 0 (.subscribe (lit "t") 1) 4 ++
        binaryClient 1 (.publish (lit "t") (lit "a") 1) 2 ++
        binaryClient 2 (.publish (lit "t") (lit "b") 1) 2) := by
  intro h
  have hbad : (run (World.step (fun _ _ _ => true) insertionOrder) (World.start LmdbFile.empty)
      (binaryClient 0 (.subscribe (lit "t") 1) 4 ++
        binaryClient 1 (.publish (lit "t") (lit "a") 1) 2 ++
        binaryClient 2 (.publish (lit "t") (lit "b") 1) 2)).2.any misnumbered = true := by decide
  obtain ⟨o, ho, hb⟩ := List.any_eq_true.mp hbad
  cases o with
  | sent s p data seq =>
    cases seq with
    | none => cases hb
    | some seq =>
      rw [misnumbered] at hb
      cases hn : frameNumber data with
      | none =>
        rw [hn] at hb
        cases hb
      | some n =>
        rw [hn, h.numbered s p data seq n ho hn] at hb
        simp at hb
  | dispatched | published => cases hb

end Runs

end MetricMQ
