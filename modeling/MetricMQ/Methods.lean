import MetricMQ.Publishing

/-! The methods of a running broker as the steps of a machine, over any storage and with any
errors of its write transactions. -/
namespace MetricMQ

open ByteString Std Machine

/-- A call of a method with how its transactions end, or a turn of the accept loop. -/
inductive Method (ε : Type)
  | accept (session : SessionId)
  | subscribe (session : SessionId) (topic : Bytes)
  | unsubscribe (session : SessionId) (topic : Bytes)
  | publish (faults : PublishFaults ε) (topic payload : Bytes)
  | handleAck (err : ε) (clientId : Bytes) (sequence : UInt64)
  | registerClient (clientId : Bytes) (session : SessionId)
  | unregisterClient (clientId : Bytes)
  | removeSession (session : SessionId)
  | stop

def Method.touchesTable {ε : Type} : Method ε → Bool
  | .subscribe _ _ | .unsubscribe _ _ | .removeSession _ => true
  | _ => false

def Method.touchesStore {ε : Type} : Method ε → Bool
  | .publish _ _ _ | .handleAck _ _ _ => true
  | _ => false

namespace Broker

variable {σ ε : Type} [Storage σ ε]

def perform (hash : HashOrder) (b : Broker σ) : Method ε → Broker σ
  | .accept session => (b.acceptSession session).getD b
  | .subscribe session topic => (b.subscribe session topic).1
  | .unsubscribe session topic => b.unsubscribe session topic
  | .publish faults topic payload => (b.publish faults topic payload).1
  | .handleAck err clientId sequence => b.handleAck err clientId sequence
  | .registerClient clientId session => b.registerClient hash clientId session
  | .unregisterClient clientId => b.unregisterClient clientId
  | .removeSession session => b.removeSession session
  | .stop => b.stop

/-- The acknowledgements that come to the broker in a call, made now or read back. -/
def acksIn (b : Broker σ) : Method ε → List (Bytes × UInt64)
  | .handleAck _ clientId sequence => [(clientId, sequence)]
  | .registerClient clientId _ =>
    if b.persistence then (Storage.loadAcks b.db clientId).map (Prod.mk clientId) else []
  | _ => []

def methodStep (hash : HashOrder) (b : Broker σ) (m : Method ε) :
    Broker σ × List (Bytes × UInt64) :=
  (b.perform hash m, b.acksIn m)

/-- The broker after a run of calls. -/
def after (hash : HashOrder) (b : Broker σ) (ms : List (Method ε)) : Broker σ :=
  (run (methodStep hash) b ms).1

section Frames

variable (hash : HashOrder) (b : Broker σ)

theorem after_nil : b.after hash ([] : List (Method ε)) = b := rfl

theorem after_snoc (ms : List (Method ε)) (m : Method ε) :
    b.after hash (ms ++ [m]) = (b.after hash ms).perform hash m := run_snoc b ms m

/-- What a publish does not touch. -/
theorem publish_frame (f : PublishFaults ε) (topic payload : Bytes) :
    ∃ db, (b.publish f topic payload).1 = { b with
      currentSequence := b.currentSequence + 1
      publishCount := b.publishCount + 1
      db := db
      metrics := ((b.metrics.incrementPublished).incrementTopicMessages topic).incrementDelivered } := by
  obtain ⟨db, h, -⟩ := persist_cases f b topic payload
  exact ⟨db, by rw [publish, h]⟩

/-- What the registration of a client does not touch. -/
theorem registerClient_frame (c : Bytes) (session : SessionId) :
    ∃ acks marks, b.registerClient hash c session = { b with
      clientSessions := b.clientSessions.insert c session
      clientAcks := acks
      lastAckSeq := marks } := by
  rw [registerClient]
  dsimp only
  by_cases ho : b.persistence = true
  · rw [if_pos ho]
    exact ⟨_, _, rfl⟩
  · rw [if_neg ho]
    exact ⟨_, _, rfl⟩

/-- A turn of the accept loop only adds the session, if it does anything. -/
theorem accept_frame (session : SessionId) :
    b.perform hash (.accept session : Method ε) = b ∨
      b.perform hash (.accept session : Method ε) = { b with
        sessions := b.sessions ++ [session]
        activeConnections := b.activeConnections + 1
        metrics := b.metrics.incrementConnections.setActiveConnections
          (b.sessions ++ [session]).length } := by
  rw [perform, acceptSession]
  split_ifs
  · exact Or.inl rfl
  · exact Or.inr rfl

/-- A disconnect does not know of the per-topic maps. -/
theorem removeSession_topicMaps (session : SessionId) :
    (b.removeSession session).metrics.topicMessages = b.metrics.topicMessages ∧
      (b.removeSession session).metrics.topicSubscribers = b.metrics.topicSubscribers := by
  simp only [removeSession, Metrics.setTopicCount, Metrics.setActiveSubscribers,
    Metrics.setActiveConnections, Metrics.incrementDisconnections, and_self]

theorem unsubscribe_topicMaps (session : SessionId) (topic : Bytes) (set : TreeSet SessionId)
    (h : b.topicSubscribers[topic]? = some set) :
    (b.unsubscribe session topic).metrics.topicMessages =
        (b.metrics.incrementUnsubscriptions.decrementTopicSubscribers topic).topicMessages ∧
      (b.unsubscribe session topic).metrics.topicSubscribers =
        (b.metrics.incrementUnsubscriptions.decrementTopicSubscribers topic).topicSubscribers := by
  rw [unsubscribe, h]
  dsimp only
  split_ifs
  · simp only [Metrics.setTopicCount, Metrics.setActiveSubscribers, and_self]
  · simp only [Metrics.setActiveSubscribers, and_self]

/-- The other methods leave the subscription table and its gauges alone. -/
theorem perform_topicSubscribers (m : Method ε) (h : m.touchesTable = false) :
    (b.perform hash m).topicSubscribers = b.topicSubscribers ∧
      (b.perform hash m).metrics.activeSubscribers = b.metrics.activeSubscribers ∧
      (b.perform hash m).metrics.topicCount = b.metrics.topicCount ∧
      (b.perform hash m).metrics.topicSubscribers = b.metrics.topicSubscribers := by
  cases m with
  | subscribe | unsubscribe | removeSession => cases h
  | accept session =>
    rcases b.accept_frame (ε := ε) hash session with h | h
    · rw [h]
      exact ⟨rfl, rfl, rfl, rfl⟩
    · rw [h]
      exact ⟨rfl, rfl, rfl, rfl⟩
  | publish f topic payload =>
    obtain ⟨db, h⟩ := b.publish_frame f topic payload
    rw [perform, h]
    exact ⟨rfl, rfl, rfl, rfl⟩
  | registerClient c session =>
    obtain ⟨acks, marks, h⟩ := b.registerClient_frame hash c session
    rw [perform, h]
    exact ⟨rfl, rfl, rfl, rfl⟩
  | handleAck | unregisterClient | stop => exact ⟨rfl, rfl, rfl, rfl⟩

/-- The other methods leave the store and the numbering alone. -/
theorem perform_store (m : Method ε) (h : m.touchesStore = false) :
    (b.perform hash m).db = b.db ∧ (b.perform hash m).currentSequence = b.currentSequence := by
  cases m with
  | publish | handleAck => cases h
  | accept session =>
    rcases b.accept_frame (ε := ε) hash session with h | h
    · rw [h]
      exact ⟨rfl, rfl⟩
    · rw [h]
      exact ⟨rfl, rfl⟩
  | unsubscribe session topic =>
    rw [perform, unsubscribe]
    cases b.topicSubscribers[topic]? with
    | none => exact ⟨rfl, rfl⟩
    | some set => exact ⟨rfl, rfl⟩
  | registerClient c session =>
    obtain ⟨acks, marks, h⟩ := b.registerClient_frame hash c session
    rw [perform, h]
    exact ⟨rfl, rfl⟩
  | subscribe | unregisterClient | removeSession | stop => exact ⟨rfl, rfl⟩

end Frames

end Broker

end MetricMQ
