import MetricMQ.AckMarks
import MetricMQ.AckNumbers
import MetricMQ.Uninterrupted

/-! Replay over a storage that keeps its documented contract. Subscribing replays everything
from the start of the numbering, and a registered client is then replayed what lies above
its highest acknowledgement. -/
namespace MetricMQ

open ByteString Std Machine

/-- The methods of the broker, and the two ways a process ends or begins. -/
inductive BrokerOp
  | accept (session : SessionId)
  | subscribe (session : SessionId) (topic : Bytes)
  | unsubscribe (session : SessionId) (topic : Bytes)
  | publish (topic payload : Bytes)
  | handleAck (clientId : Bytes) (sequence : UInt64)
  | registerClient (clientId : Bytes) (session : SessionId)
  | unregisterClient (clientId : Bytes)
  | removeSession (session : SessionId)
  | stop
  | restart

namespace BrokerOp

/-- One call; the output is what was acknowledged, by whom. -/
def step (hash : HashOrder) (b : Broker ContractStore) :
    BrokerOp → Broker ContractStore × List (Bytes × UInt64)
  | .accept session => ((b.acceptSession session).getD b, [])
  | .subscribe session topic => ((b.subscribe session topic).1, [])
  | .unsubscribe session topic => (b.unsubscribe session topic, [])
  | .publish topic payload => ((b.publish ⟨(), (), ()⟩ topic payload).1, [])
  | .handleAck clientId sequence => (b.handleAck () clientId sequence, [(clientId, sequence)])
  | .registerClient clientId session => (b.registerClient hash clientId session, [])
  | .unregisterClient clientId => (b.unregisterClient clientId, [])
  | .removeSession session => (b.removeSession session, [])
  | .stop => (b.stop, [])
  | .restart => (Broker.start b.db, [])

/-- The broker after a run of calls on an empty store, and all acknowledgements of the run. -/
def reach (hash : HashOrder) (ops : List BrokerOp) : Broker ContractStore × List (Bytes × UInt64) :=
  run (step hash) (Broker.start ContractStore.empty) ops

/-- The broker knows of no acknowledgement that was not made, and the mark of a client is the
highest one its set has seen. -/
structure AckInv (b : Broker ContractStore) (acked : List (Bytes × UInt64)) : Prop where
  memory : ∀ c s, b.isAcked c s = true → (c, s) ∈ acked
  stored : ∀ c s, (c, s) ∈ b.db.acks → (c, s) ∈ acked
  mark : ∀ c, b.getLastAck c = (b.clientAcks.getD c .empty).maxSeq

variable {hash : HashOrder} {b : Broker ContractStore} {acked : List (Bytes × UInt64)}

/-- The acknowledgement that a method makes. -/
def made : Method Unit → List (Bytes × UInt64)
  | .handleAck _ clientId sequence => [(clientId, sequence)]
  | _ => []

/-- What comes to the broker was made just now or is in the store. -/
theorem mem_made_or_stored (m : Method Unit) (a : Bytes × UInt64) (ha : a ∈ b.acksIn m) :
    a ∈ made m ∨ a ∈ b.db.acks := by
  cases m with
  | handleAck err c n => exact Or.inl ha
  | registerClient c session =>
    rw [Broker.acksIn] at ha
    split_ifs at ha
    · obtain ⟨n, hn, rfl⟩ := List.mem_map.mp ha
      exact Or.inr ((ContractStore.mem_loadAcks b.db c n).mp hn)
    · cases ha
  | accept | subscribe | unsubscribe | publish | unregisterClient | removeSession | stop => cases ha

/-- What gets into the store was made just now; a compaction only drops acknowledgements. -/
theorem mem_acks_perform (m : Method Unit) (a : Bytes × UInt64)
    (ha : a ∈ (b.perform hash m).db.acks) : a ∈ made m ∨ a ∈ b.db.acks := by
  have hother : m.touchesStore = false → a ∈ b.db.acks := by
    intro hm
    rwa [(b.perform_store hash m hm).1] at ha
  cases m with
  | handleAck err c n =>
    rw [Broker.perform, Broker.handleAck] at ha
    dsimp only at ha
    split_ifs at ha
    · exact (List.mem_cons.mp ha).imp_left List.mem_singleton.mpr
    · exact Or.inr ha
  | publish f topic payload =>
    right
    have hsaved : (b.savedDb f topic payload).acks = b.db.acks := by
      rw [Broker.savedDb]
      split_ifs <;> rfl
    rw [Broker.perform, Broker.publish_db] at ha
    obtain ⟨db, hp, rfl | ⟨-, -, rfl⟩⟩ := b.persist_cases f topic payload
    · rwa [hp, hsaved] at ha
    · rw [hp] at ha
      have hm := (List.mem_filter.mp ha).1
      change a ∈ (b.savedDb f topic payload).acks at hm
      rwa [hsaved] at hm
  | accept | subscribe | unsubscribe | registerClient | unregisterClient | removeSession | stop =>
    exact Or.inr (hother rfl)

theorem ackInv_perform (hash : HashOrder) (m : Method Unit) (h : AckInv b acked) :
    AckInv (b.perform hash m) (acked ++ made m) := by
  have hnew : ∀ a, a ∈ made m ∨ a ∈ b.db.acks → a ∈ acked ++ made m := by
    rintro a (ha | ha)
    · exact List.mem_append_right _ ha
    · exact List.mem_append_left _ (h.stored a.1 a.2 ha)
  refine ⟨?_, fun c s hs => hnew _ (mem_acks_perform m _ hs), b.marksAgree_perform hash m h.mark⟩
  intro c s hs
  obtain ⟨l, hl, hset⟩ := b.acksOf_perform hash c m
  rw [Broker.isAcked_eq, hset, BoundedAckSet.contains_eq, decide_eq_true_iff] at hs
  rcases BoundedAckSet.mem_of_mem_insertAll _ _ s hs with hs | hs
  · exact hnew _ (mem_made_or_stored m _ ((hl s).mp hs))
  · apply List.mem_append_left _ (h.memory c s _)
    rw [Broker.isAcked_eq, BoundedAckSet.contains_eq]
    exact decide_eq_true hs

/-- The set of a client once its stored acknowledgements are loaded. -/
def loadedSet (hash : HashOrder) (b : Broker ContractStore) (c : Bytes) : BoundedAckSet :=
  (b.clientAcks.getD c .empty).insertAll (hash.iterate (b.db.loadAcks c))

theorem acksOf_registerClient_self (c : Bytes) (session : SessionId) (ho : b.persistence = true) :
    (b.registerClient hash c session).acksOf c = loadedSet hash b c := by
  rw [Broker.acksOf_registerClient, if_pos ⟨ho, rfl⟩]
  rfl

theorem mem_acked_of_mem_loadedSet (c : Bytes) (n : UInt64) (h : AckInv b acked)
    (hn : n ∈ (loadedSet hash b c).order) : (c, n) ∈ acked := by
  rcases BoundedAckSet.mem_of_mem_insertAll _ _ n hn with hn | hn
  · rw [hash.mem_iterate, ContractStore.mem_loadAcks] at hn
    exact h.stored c n hn
  · apply h.memory c n
    rw [Broker.isAcked_eq, BoundedAckSet.contains_eq]
    exact decide_eq_true hn

/-- After registering, the mark of the client is that of the loaded set. -/
theorem getLastAck_registerClient (c : Bytes) (session : SessionId) (ho : b.persistence = true)
    (h : AckInv b acked) :
    (b.registerClient hash c session).getLastAck c = (loadedSet hash b c).maxSeq := by
  rw [b.marksAgree_registerClient hash c session h.mark c, acksOf_registerClient_self c session ho]

theorem ackInv_step (op : BrokerOp) (h : AckInv b acked) :
    AckInv (step hash b op).1 (acked ++ (step hash b op).2) := by
  cases op with
  | accept session => exact ackInv_perform hash (.accept session) h
  | subscribe session topic => exact ackInv_perform hash (.subscribe session topic) h
  | unsubscribe session topic => exact ackInv_perform hash (.unsubscribe session topic) h
  | publish topic payload => exact ackInv_perform hash (.publish ⟨(), (), ()⟩ topic payload) h
  | handleAck c n => exact ackInv_perform hash (.handleAck () c n) h
  | registerClient c session => exact ackInv_perform hash (.registerClient c session) h
  | unregisterClient c => exact ackInv_perform hash (.unregisterClient c) h
  | removeSession session => exact ackInv_perform hash (.removeSession session) h
  | stop => exact ackInv_perform hash .stop h
  | restart =>
    -- the memory of the old process is gone
    simp only [step, List.append_nil]
    refine ⟨?_, h.stored, fun c => rfl⟩
    intro c s hs
    simp [Broker.start, Broker.isAcked] at hs

theorem ackInv_reach (hash : HashOrder) (ops : List BrokerOp) :
    AckInv (reach hash ops).1 (reach hash ops).2 := by
  have hinit : AckInv (Broker.start ContractStore.empty) [] := by
    refine ⟨?_, ?_, fun c => rfl⟩
    · intro c s hs
      simp [Broker.start, Broker.isAcked] at hs
    · intro c s hs
      cases hs
  exact run_invariant AckInv (fun b tr op h _ => ackInv_step op h) _ [] ops hinit
    (meets_true _ ops)

/-- The highest acknowledgement of a client that the broker or its storage knows. -/
def highWater (b : Broker ContractStore) (c : Bytes) : UInt64 :=
  (b.db.loadAcks c).foldl max (b.getLastAck c)

theorem foldl_max_le_iff (l : List UInt64) (a n : UInt64) :
    l.foldl max a ≤ n ↔ a ≤ n ∧ ∀ s ∈ l, s ≤ n := by
  induction l generalizing a with
  | nil => simp
  | cons s l ih =>
    have hmax : max a s ≤ n ↔ a ≤ n ∧ s ≤ n := by
      change (if a ≤ s then s else a) ≤ n ↔ _
      split_ifs with has
      · exact ⟨fun h => ⟨Std.le_trans has h, h⟩, fun h => h.2⟩
      · exact ⟨fun h => ⟨h, Std.le_trans (Std.le_of_lt (Std.not_le.mp has)) h⟩, fun h => h.1⟩
    rw [List.foldl_cons, ih, hmax, List.forall_mem_cons, and_assoc]

/-- Whatever the order the stored acknowledgements are walked in, the mark is the same. -/
theorem maxSeq_loadedSet (c : Bytes) (h : AckInv b acked) :
    (loadedSet hash b c).maxSeq = highWater b c := by
  have hiff : ∀ n, (loadedSet hash b c).maxSeq ≤ n ↔ highWater b c ≤ n := by
    intro n
    rw [loadedSet, BoundedAckSet.maxSeq_insertAll_le_iff, highWater, foldl_max_le_iff, h.mark c]
    simp only [hash.mem_iterate]
  exact UInt64.le_antisymm ((hiff _).mpr (Std.le_refl _)) ((hiff _).mp (Std.le_refl _))

end BrokerOp

open BrokerOp

/-- The range a client is replayed: `MAX_STORED_MESSAGES` numbers from its mark on, in 64 bits. -/
def InWindow (mark seq : UInt64) : Prop := mark + 1 ≤ seq ∧ seq ≤ mark + maxStoredMessages

instance (mark seq : UInt64) : Decidable (InWindow mark seq) := inferInstanceAs (Decidable (_ ∧ _))

theorem mem_replayMessages (b : Broker ContractStore) (topic : Bytes) (m : StoredMessage) :
    m ∈ b.replayMessages topic 0 ↔ b.persistence = true ∧ b.db.Holds m ∧ m.topic = topic ∧
      m.seq ≤ maxStoredMessages := by
  rw [Broker.replayMessages]
  split_ifs with ho
  · rw [List.mem_filter, decide_eq_true_eq, UInt64.zero_add]
    change m ∈ b.db.loadRange 0 maxStoredMessages ∧ _ ↔ _
    rw [ContractStore.mem_loadRange]
    exact ⟨fun h => ⟨ho, h.1.1, h.2, h.1.2.2⟩,
      fun h => ⟨⟨h.2.1, UInt64.zero_le, h.2.2.2⟩, h.2.2.1⟩⟩
  · simp [ho]

theorem mem_replayMessagesForClient (b : Broker ContractStore) (topic c : Bytes) (m : StoredMessage) :
    m ∈ b.replayMessagesForClient topic c ↔ b.persistence = true ∧ b.db.Holds m ∧
      m.topic = topic ∧ InWindow (b.getLastAck c) m.seq ∧ b.isAcked c m.seq = false := by
  rw [Broker.replayMessagesForClient, List.mem_filter, Bool.not_eq_true', Broker.loadUnacked]
  split_ifs with ho
  · rw [List.mem_filter, decide_eq_true_eq]
    change (m ∈ b.db.loadRange _ _ ∧ _) ∧ _ ↔ _
    rw [ContractStore.mem_loadRange, InWindow]
    exact ⟨fun h => ⟨ho, h.1.1.1, h.1.2, h.1.1.2, h.2⟩,
      fun h => ⟨⟨⟨h.2.1, h.2.2.2.1⟩, h.2.2.1⟩, h.2.2.2.2⟩⟩
  · simp [ho]

theorem nodup_replayMessages (b : Broker ContractStore) (topic : Bytes) (fromSeq : UInt64) :
    ((b.replayMessages topic fromSeq).map StoredMessage.seq).Nodup := by
  rw [Broker.replayMessages]
  split_ifs
  · exact (b.db.loadRange_nodup _ _).sublist (List.filter_sublist.map _)
  · exact List.nodup_nil

theorem nodup_replayMessagesForClient (b : Broker ContractStore) (topic c : Bytes) :
    ((b.replayMessagesForClient topic c).map StoredMessage.seq).Nodup := by
  rw [Broker.replayMessagesForClient, Broker.loadUnacked]
  split_ifs
  · exact (b.db.loadRange_nodup _ _).sublist ((List.filter_sublist.trans List.filter_sublist).map _)
  · exact List.nodup_nil

section Redelivery

def Output.messageNumber : Output → Option UInt64
  | .sent _ _ _ seq => seq
  | _ => none

/-- What is sent while one frame is handled, over a storage that keeps its contract. -/
def World.handleFrame (verify : Verify) (hash : HashOrder) (w : World ContractStore)
    (session : SessionId) (s : Session) (frame : BinaryFrame) : List Output :=
  (w.performAll hash ⟨⟨(), (), ()⟩, ()⟩ session
    (Session.handle verify (w.lookups session) s (.frame frame)).2).2

/-- A thread that handles the frame alone, whatever the other threads are about to do, sends
exactly that. -/
theorem World.handleFrame_run (verify : Verify) (hash : HashOrder) (w : World ContractStore)
    (session : SessionId) (s : Session) (frame : BinaryFrame) (conn : Connection)
    (hconn : w.connections[session]? = some conn)
    (hp : conn.pending = (Session.handle verify (w.lookups session) s (.frame frame)).2.map .call) :
    ∃ n, (w.threadRun verify hash ⟨⟨(), (), ()⟩, ()⟩ session n).2 =
        w.handleFrame verify hash session s frame ∧
      (w.threadRun verify hash ⟨⟨(), (), ()⟩, ()⟩ session n).1.connections[session]? =
        some { conn with pending := [] } := by
  obtain ⟨n, h⟩ := arrives_all verify hash ⟨⟨(), (), ()⟩, ()⟩ session
    (Session.handle verify (w.lookups session) s (.frame frame)).2 []
    (Session.not_removeSession_handleBinaryFrame verify _ s frame) hconn
    (by rw [hp, List.append_nil])
  exact ⟨n, h.outputs, h.own⟩

/-- Only unacknowledged messages of the topic are sent, and none of them twice. -/
structure NoRedelivery (b : Broker ContractStore) (acked : List (Bytes × UInt64))
    (session : SessionId) (c topic : Bytes) (outs : List Output) : Prop where
  each : ∀ s p data seq, .sent s p data (some seq) ∈ outs →
    s = session ∧ b.db.Holds ⟨seq, topic, data⟩ ∧ (c, seq) ∉ acked
  once : (outs.filterMap Output.messageNumber).Nodup

/-- No stored message of the topic lies in the range of both replays, and one that the client
acknowledged lies in neither. -/
def ReplaysApart (b : Broker ContractStore) (acked : List (Bytes × UInt64)) (c topic : Bytes) : Prop :=
  b.persistence = true → ∀ m, b.db.Holds m → m.topic = topic →
    ¬ (m.seq ≤ maxStoredMessages ∧ InWindow (highWater b c) m.seq) ∧
    ((c, m.seq) ∈ acked → ¬ m.seq ≤ maxStoredMessages ∧ ¬ InWindow (highWater b c) m.seq)

/-- The four calls of a subscription with a client id. The storage is left abstract: nothing
here depends on what it returns. -/
theorem performAll_subscribe {σ ε : Type} [Storage σ ε] (hash : HashOrder) (faults : Faults ε)
    (w : World σ) (session : SessionId) (c topic data : Bytes) :
    (w.performAll hash faults session [.registerClient c, .subscribe topic,
        .replayMessagesForClient topic c, .send data]).2 =
      replayed session (w.protocolOf session)
          ((w.broker.registerClient hash c session).replayMessages topic 0) ++
        (replayed session (w.protocolOf session)
          ((w.broker.registerClient hash c session).replayMessagesForClient topic c) ++
        [.sent session (w.protocolOf session) data none]) := rfl

theorem replayMessages_registerClient (hash : HashOrder) (b : Broker ContractStore)
    (session : SessionId) (c topic : Bytes) :
    (b.registerClient hash c session).replayMessages topic 0 = b.replayMessages topic 0 := by
  obtain ⟨acks, marks, h⟩ := b.registerClient_frame hash c session
  rw [h]
  rfl

variable (verify : Verify) (hash : HashOrder) (w : World ContractStore) (session : SessionId)
  (s : Session) (frame : BinaryFrame) (c topic : Bytes)

/-- The two replays of a subscription with a client id. -/
def doubleReplay : List StoredMessage :=
  w.broker.replayMessages topic 0 ++
    (w.broker.registerClient hash c session).replayMessagesForClient topic c

theorem handleFrame_eq (hcommand : frame.command = .subscribe) (htopic : frame.topic = c ++ 0 :: topic)
    (hc : 0 ∉ c) :
    w.handleFrame verify hash session s frame =
      replayed session (w.protocolOf session) (doubleReplay hash w session c topic) ++
        [.sent session (w.protocolOf session) (BinaryProtocol.serialize (.ack frame.sequence)) none] := by
  have hcalls : (Session.handle verify (w.lookups session) s (.frame frame)).2 =
      [.registerClient c, .subscribe topic, .replayMessagesForClient topic c,
        .send (BinaryProtocol.serialize (.ack frame.sequence))] := by
    rw [Session.handle, Session.handleBinaryFrame, hcommand]
    dsimp only
    rw [Session.handleSubscribe, htopic, find_append_cons c topic 0 hc]
    simp [Session.sendBinary]
  rw [World.handleFrame, hcalls, performAll_subscribe, replayMessages_registerClient, doubleReplay,
    replayed, replayed, replayed, List.map_append, List.append_assoc]

theorem noRedelivery_replayed_iff (b : Broker ContractStore) (acked : List (Bytes × UInt64))
    (p : ProtocolType) (msgs : List StoredMessage) (reply : Bytes) :
    NoRedelivery b acked session c topic (replayed session p msgs ++ [.sent session p reply none]) ↔
      (∀ m ∈ msgs, b.db.Holds ⟨m.seq, topic, m.payload⟩ ∧ (c, m.seq) ∉ acked) ∧
        (msgs.map StoredMessage.seq).Nodup := by
  have hnumbers : (replayed session p msgs ++ [Output.sent session p reply none]).filterMap
      Output.messageNumber = msgs.map StoredMessage.seq := by
    rw [List.filterMap_append, replayed, List.filterMap_map]
    change msgs.filterMap (fun m => some m.seq) ++ [] = _
    rw [List.append_nil, List.filterMap_eq_map']
  constructor
  · rintro ⟨heach, honce⟩
    rw [hnumbers] at honce
    refine ⟨fun m hm => ?_, honce⟩
    exact (heach session p m.payload m.seq
      (List.mem_append_left _ (List.mem_map_of_mem hm))).2
  · rintro ⟨heach, honce⟩
    refine ⟨?_, hnumbers ▸ honce⟩
    intro s' p' data seq hmem
    rcases List.mem_append.mp hmem with hmem | hmem
    · obtain ⟨m, hm, he⟩ := List.mem_map.mp hmem
      cases he
      exact ⟨rfl, heach m hm⟩
    · cases List.mem_singleton.mp hmem

/-- Above the mark of a client nothing is in its set, unless the range starts over at zero. -/
theorem le_of_inWindow_of_le (mark seq : UInt64) (hw : InWindow mark seq) (hle : seq ≤ mark) :
    seq ≤ maxStoredMessages := by
  obtain ⟨h1, h2⟩ := hw
  rw [UInt64.le_iff_toNat_le] at h1 h2 hle ⊢
  rw [UInt64.toNat_add] at h1 h2
  have hmax : maxStoredMessages.toNat = 100000 := by decide
  have hone : (1 : UInt64).toNat = 1 := by decide
  have hlt := mark.toNat_lt
  omega

theorem mem_secondReplay (acked : List (Bytes × UInt64)) (h : AckInv w.broker acked)
    (m : StoredMessage) :
    m ∈ (w.broker.registerClient hash c session).replayMessagesForClient topic c ↔
      w.broker.persistence = true ∧ w.broker.db.Holds m ∧ m.topic = topic ∧
        InWindow (highWater w.broker c) m.seq ∧ m.seq ∉ (loadedSet hash w.broker c).order := by
  obtain ⟨acks, marks, hframe⟩ := w.broker.registerClient_frame hash c session
  have hopen : (w.broker.registerClient hash c session).persistence = w.broker.persistence := by
    rw [hframe]
  have hdb : (w.broker.registerClient hash c session).db = w.broker.db := by
    rw [hframe]
  rw [mem_replayMessagesForClient, hopen, hdb]
  refine and_congr_right fun ho => ?_
  rw [getLastAck_registerClient c session ho h, maxSeq_loadedSet c h, Broker.isAcked_eq,
    acksOf_registerClient_self c session ho, BoundedAckSet.contains_eq, decide_eq_false_iff_not]

theorem replaysApart_of_sent (acked : List (Bytes × UInt64)) (h : AckInv w.broker acked)
    (heach : ∀ m ∈ doubleReplay hash w session c topic, (c, m.seq) ∉ acked)
    (honce : ((doubleReplay hash w session c topic).map StoredMessage.seq).Nodup) :
    ReplaysApart w.broker acked c topic := by
  rintro ho m hm rfl
  have hfirst : m.seq ≤ maxStoredMessages → m ∈ w.broker.replayMessages m.topic 0 :=
    fun hle => (mem_replayMessages _ _ m).mpr ⟨ho, hm, rfl, hle⟩
  -- what the client's own replay leaves out is acknowledged, so the first one must not reach it
  have hsecond : InWindow (highWater w.broker c) m.seq →
      m ∈ (w.broker.registerClient hash c session).replayMessagesForClient m.topic c := by
    intro hwin
    refine (mem_secondReplay hash w session c m.topic _ h m).mpr ⟨ho, hm, rfl, hwin, ?_⟩
    intro hn
    have hle := (loadedSet hash w.broker c).le_maxSeq m.seq hn
    rw [maxSeq_loadedSet c h] at hle
    exact heach m (List.mem_append_left _ (hfirst (le_of_inWindow_of_le _ _ hwin hle)))
      (mem_acked_of_mem_loadedSet c m.seq h hn)
  refine ⟨?_, fun hacked => ⟨fun hle => ?_, fun hwin => ?_⟩⟩
  · rintro ⟨hle, hwin⟩
    rw [doubleReplay, List.map_append] at honce
    exact (List.nodup_append.mp honce).2.2 m.seq (List.mem_map_of_mem (hfirst hle)) m.seq
      (List.mem_map_of_mem (hsecond hwin)) rfl
  · exact heach m (List.mem_append_left _ (hfirst hle)) hacked
  · exact heach m (List.mem_append_right _ (hsecond hwin)) hacked

theorem sent_of_replaysApart (acked : List (Bytes × UInt64)) (h : AckInv w.broker acked)
    (hapart : ReplaysApart w.broker acked c topic) :
    (∀ m ∈ doubleReplay hash w session c topic,
      w.broker.db.Holds ⟨m.seq, topic, m.payload⟩ ∧ (c, m.seq) ∉ acked) ∧
    ((doubleReplay hash w session c topic).map StoredMessage.seq).Nodup := by
  constructor
  · intro m hm
    rcases List.mem_append.mp hm with hm | hm
    · obtain ⟨ho, hs, rfl, hle⟩ := (mem_replayMessages _ _ m).mp hm
      exact ⟨hs, fun hacked => ((hapart ho m hs rfl).2 hacked).1 hle⟩
    · obtain ⟨ho, hs, rfl, hwin, -⟩ := (mem_secondReplay hash w session c _ _ h m).mp hm
      exact ⟨hs, fun hacked => ((hapart ho m hs rfl).2 hacked).2 hwin⟩
  · rw [doubleReplay, List.map_append]
    apply List.nodup_append.mpr
    refine ⟨nodup_replayMessages _ _ _, nodup_replayMessagesForClient _ _ _, ?_⟩
    -- a number sent by both replays would be that of one stored message in both ranges
    intro n hn n' hn' he
    subst he
    obtain ⟨m, hm, rfl⟩ := List.mem_map.mp hn
    obtain ⟨m', hm', he⟩ := List.mem_map.mp hn'
    obtain ⟨ho, hs, rfl, hle⟩ := (mem_replayMessages _ _ m).mp hm
    obtain ⟨-, -, -, hwin, -⟩ := (mem_secondReplay hash w session c _ _ h m').mp hm'
    exact (hapart ho m hs rfl).1 ⟨hle, he ▸ hwin⟩

/-- In every state the broker can be in, a subscription with a client id redelivers nothing
exactly when the two replays are apart. -/
theorem no_redelivery_iff (ops : List BrokerOp) (hw : w.broker = (reach hash ops).1)
    (hcommand : frame.command = .subscribe) (htopic : frame.topic = c ++ 0 :: topic) (hc : 0 ∉ c) :
    NoRedelivery w.broker (reach hash ops).2 session c topic
        (w.handleFrame verify hash session s frame) ↔
      ReplaysApart w.broker (reach hash ops).2 c topic := by
  have hinv := ackInv_reach hash ops
  rw [← hw] at hinv
  rw [handleFrame_eq verify hash w session s frame c topic hcommand htopic hc,
    noRedelivery_replayed_iff]
  constructor
  · rintro ⟨heach, honce⟩
    exact replaysApart_of_sent hash w session c topic _ hinv (fun m hm => (heach m hm).2) honce
  · exact sent_of_replaysApart hash w session c topic _ hinv

instance (b : Broker ContractStore) (acked : List (Bytes × UInt64)) (c topic : Bytes) :
    Decidable (ReplaysApart b acked c topic) :=
  decidable_of_iff (b.persistence = false ∨ ∀ e ∈ b.db.messages.toList, e.2.1 ≠ topic ∨
      ¬ (e.1 ≤ maxStoredMessages ∧ InWindow (highWater b c) e.1) ∧
      ((c, e.1) ∉ acked ∨ ¬ e.1 ≤ maxStoredMessages ∧ ¬ InWindow (highWater b c) e.1)) <| by
    simp only [← Bool.not_eq_true, ← Decidable.imp_iff_not_or, ne_eq, ReplaysApart]
    constructor
    · intro h ho m hm
      exact h ho (m.seq, m.topic, m.payload) (TreeMap.mem_toList_iff_getElem?_eq_some.mpr hm)
    · intro h ho e he
      exact h ho ⟨e.1, e.2.1, e.2.2⟩ (TreeMap.mem_toList_iff_getElem?_eq_some.mp he)

/-- A client with a gap below its mark is sent the message in the gap once. -/
theorem no_redelivery_of_gap :
    NoRedelivery
      (reach World.insertionOrder [.publish (lit "t") (lit "a"), .publish (lit "u") (lit "b"),
        .handleAck (lit "c") 2]).1
      (reach World.insertionOrder [.publish (lit "t") (lit "a"), .publish (lit "u") (lit "b"),
        .handleAck (lit "c") 2]).2
      0 (lit "c") (lit "t")
      (World.handleFrame (fun _ _ _ => true) World.insertionOrder
        { broker := (reach World.insertionOrder [.publish (lit "t") (lit "a"),
            .publish (lit "u") (lit "b"), .handleAck (lit "c") 2]).1 }
        0 {} (.subscribe (lit "c" ++ 0 :: lit "t") 1)) :=
  (no_redelivery_iff _ _ { broker := (reach World.insertionOrder [.publish (lit "t") (lit "a"),
      .publish (lit "u") (lit "b"), .handleAck (lit "c") 2]).1 } _ _ _ _ _ _ rfl rfl rfl
    (by decide)).mpr (by decide)

/-- One message, acknowledged: the next subscription sends it again. -/
theorem acknowledged_message_redelivered :
    ¬ NoRedelivery
      (reach World.insertionOrder [.publish (lit "t") (lit "a"), .handleAck (lit "c") 1]).1
      (reach World.insertionOrder [.publish (lit "t") (lit "a"), .handleAck (lit "c") 1]).2
      0 (lit "c") (lit "t")
      (World.handleFrame (fun _ _ _ => true) World.insertionOrder
        { broker := (reach World.insertionOrder [.publish (lit "t") (lit "a"),
            .handleAck (lit "c") 1]).1 }
        0 {} (.subscribe (lit "c" ++ 0 :: lit "t") 1)) := by
  rintro ⟨heach, -⟩
  have hsent : (World.handleFrame (fun _ _ _ => true) World.insertionOrder
      { broker := (reach World.insertionOrder [.publish (lit "t") (lit "a"),
          .handleAck (lit "c") 1]).1 }
      0 {} (.subscribe (lit "c" ++ 0 :: lit "t") 1)).any
        (fun o => decide (o.messageNumber = some 1)) = true := by decide
  obtain ⟨o, ho, hn⟩ := List.any_eq_true.mp hsent
  rw [decide_eq_true_eq] at hn
  cases o with
  | sent s p data seq =>
    cases hn
    exact (heach s p data 1 ho).2.2 (by decide)
  | dispatched | published => cases hn

end Redelivery

section Skipped

/-- A stored message of the topic, within `MAX_STORED_MESSAGES` of the newest, that the client
has not acknowledged. -/
structure Owed (b : Broker ContractStore) (acked : List (Bytes × UInt64)) (c topic : Bytes)
    (m : StoredMessage) : Prop where
  stored : b.db.Holds m
  onTopic : m.topic = topic
  recent : b.db.lastSeq.toNat ≤ m.seq.toNat + maxStoredMessages.toNat
  unacked : (c, m.seq) ∉ acked

/-- In every state the broker can be in, a client's replay sends all that is owed exactly when
all of it lies in the range above the client's mark and the storage is open. -/
theorem no_owed_skipped_iff (hash : HashOrder) (ops : List BrokerOp) (c topic : Bytes) :
    (∀ m, Owed (reach hash ops).1 (reach hash ops).2 c topic m →
      m ∈ (reach hash ops).1.replayMessagesForClient topic c) ↔
    ∀ m, Owed (reach hash ops).1 (reach hash ops).2 c topic m →
      (reach hash ops).1.persistence = true ∧ InWindow ((reach hash ops).1.getLastAck c) m.seq := by
  have hinv := ackInv_reach hash ops
  revert hinv
  generalize (reach hash ops).1 = b
  generalize (reach hash ops).2 = acked
  intro hinv
  constructor
  · intro h m hm
    obtain ⟨ho, -, -, hwin, -⟩ := (mem_replayMessagesForClient b topic c m).mp (h m hm)
    exact ⟨ho, hwin⟩
  · intro h m hm
    obtain ⟨ho, hwin⟩ := h m hm
    -- the filter by the set drops nothing that is owed: the set holds made acknowledgements only
    have hfalse : b.isAcked c m.seq = false := by
      rw [← Bool.not_eq_true]
      exact fun ht => hm.unacked (hinv.memory c m.seq ht)
    exact (mem_replayMessagesForClient b topic c m).mpr ⟨ho, hm.stored, hm.onTopic, hwin, hfalse⟩

/-- Two messages, the second one acknowledged first: the first one is never replayed. -/
theorem out_of_order_ack_skips_message :
    ¬ ∀ m, Owed
        (reach World.insertionOrder [.publish (lit "t") (lit "a"), .publish (lit "t") (lit "b"),
          .handleAck (lit "c") 2]).1
        (reach World.insertionOrder [.publish (lit "t") (lit "a"), .publish (lit "t") (lit "b"),
          .handleAck (lit "c") 2]).2 (lit "c") (lit "t") m →
      m ∈ (reach World.insertionOrder [.publish (lit "t") (lit "a"), .publish (lit "t") (lit "b"),
        .handleAck (lit "c") 2]).1.replayMessagesForClient (lit "t") (lit "c") := by
  intro h
  have hm := h ⟨1, lit "t", lit "a"⟩ ⟨by rw [ContractStore.Holds]; decide, rfl, by decide, by decide⟩
  exact absurd hm (by decide)

end Skipped

end MetricMQ
