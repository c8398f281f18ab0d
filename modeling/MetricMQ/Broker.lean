import MetricMQ.Storage
import MetricMQ.BoundedAckSet

/-! The broker: subscriptions, sequence numbers, acknowledgement state and metrics. Each
function is one method of `Broker`; a method that writes to sessions returns what it sends
beside the new state. Every method body runs under the broker mutex or reads a snapshot. -/
namespace MetricMQ

open ByteString Std

def maxStoredMessages : UInt64 := 100000
def compactEvery : UInt64 := 1000
def maxConnections : UInt64 := 1000

abbrev SessionId := ℕ

/-- The order in which the standard library's hash set is walked, given what was inserted. -/
structure HashOrder where
  iterate : List UInt64 → List UInt64
  mem_iterate : ∀ l s, s ∈ iterate l ↔ s ∈ l

structure Metrics where
  messagesPublishedTotal : UInt64 := 0
  messagesDeliveredTotal : UInt64 := 0
  subscriptionsTotal : UInt64 := 0
  unsubscriptionsTotal : UInt64 := 0
  connectionsTotal : UInt64 := 0
  disconnectionsTotal : UInt64 := 0
  acksTotal : UInt64 := 0
  activeConnections : Int64 := 0
  activeSubscribers : Int64 := 0
  topicCount : Int64 := 0
  topicMessages : TreeMap Bytes UInt64 := ∅
  topicSubscribers : TreeMap Bytes Int64 := ∅

namespace Metrics

def incrementPublished (m : Metrics) : Metrics :=
  { m with messagesPublishedTotal := m.messagesPublishedTotal + 1 }

def incrementDelivered (m : Metrics) : Metrics :=
  { m with messagesDeliveredTotal := m.messagesDeliveredTotal + 1 }

def incrementSubscriptions (m : Metrics) : Metrics :=
  { m with subscriptionsTotal := m.subscriptionsTotal + 1 }

def incrementUnsubscriptions (m : Metrics) : Metrics :=
  { m with unsubscriptionsTotal := m.unsubscriptionsTotal + 1 }

def incrementConnections (m : Metrics) : Metrics :=
  { m with connectionsTotal := m.connectionsTotal + 1 }

def incrementDisconnections (m : Metrics) : Metrics :=
  { m with disconnectionsTotal := m.disconnectionsTotal + 1 }

def incrementAcks (m : Metrics) : Metrics := { m with acksTotal := m.acksTotal + 1 }

def setActiveConnections (m : Metrics) (count : ℕ) : Metrics :=
  { m with activeConnections := Int64.ofNat count }

def setActiveSubscribers (m : Metrics) (count : Int32) : Metrics :=
  { m with activeSubscribers := count.toInt64 }

def setTopicCount (m : Metrics) (count : ℕ) : Metrics := { m with topicCount := Int64.ofNat count }

def incrementTopicMessages (m : Metrics) (topic : Bytes) : Metrics :=
  { m with topicMessages := m.topicMessages.insert topic (m.topicMessages.getD topic 0 + 1) }

def incrementTopicSubscribers (m : Metrics) (topic : Bytes) : Metrics :=
  { m with topicSubscribers := m.topicSubscribers.insert topic (m.topicSubscribers.getD topic 0 + 1) }

def decrementTopicSubscribers (m : Metrics) (topic : Bytes) : Metrics :=
  match m.topicSubscribers[topic]? with
  | none => m
  | some n =>
    if n - 1 ≤ 0 then { m with topicSubscribers := m.topicSubscribers.erase topic }
    else { m with topicSubscribers := m.topicSubscribers.insert topic (n - 1) }

end Metrics

abbrev Subscriptions := TreeMap Bytes (TreeSet SessionId)

/-- `persistence` says whether the storage is open; `db` is what the file holds. -/
structure Broker (σ : Type) where
  sessions : List SessionId := []
  topicSubscribers : Subscriptions := ∅
  persistence : Bool := true
  db : σ
  clientAcks : TreeMap Bytes BoundedAckSet := ∅
  lastAckSeq : TreeMap Bytes UInt64 := ∅
  clientSessions : TreeMap Bytes SessionId := ∅
  currentSequence : UInt64
  publishCount : UInt64 := 0
  activeConnections : UInt64 := 0
  shutdownRequested : Bool := false
  metrics : Metrics := {}

/-- How the three write transactions of one `publish` end. -/
structure PublishFaults (ε : Type) where
  save : ε
  compact : ε
  purge : ε

namespace Broker

variable {σ ε : Type} [Storage σ ε]

/-- The constructor: a new process on the file `db`. -/
def start (db : σ) : Broker σ := { db := db, currentSequence := Storage.getLastSeq db }

/-- The sum is kept in an `int`, unlike the gauge it is for. -/
def countTotalSubscribers (subs : Subscriptions) : Int32 :=
  Int32.ofNat (subs.values.map TreeSet.size).sum

def subscribersOf (b : Broker σ) (topic : Bytes) : List SessionId :=
  match b.topicSubscribers[topic]? with
  | none => []
  | some s => s.toList

def replayMessages (b : Broker σ) (topic : Bytes) (fromSeq : UInt64) : List StoredMessage :=
  if b.persistence then
    -- at most a window of messages, whatever the highest number is
    (Storage.loadRange b.db fromSeq (fromSeq + maxStoredMessages)).filter
      fun m => decide (m.topic = topic)
  else []

/-- The locked part of `subscribe`. -/
def addSubscriber (b : Broker σ) (session : SessionId) (topic : Bytes) : Broker σ :=
  let subs := b.topicSubscribers.insert topic ((b.topicSubscribers.getD topic ∅).insert session)
  { b with
    topicSubscribers := subs
    metrics := (((b.metrics.incrementSubscriptions).incrementTopicSubscribers topic).setActiveSubscribers
      (countTotalSubscribers subs)).setTopicCount subs.size }

def subscribe (b : Broker σ) (session : SessionId) (topic : Bytes) : Broker σ × List StoredMessage :=
  let b := b.addSubscriber session topic
  (b, b.replayMessages topic 0)

def dropSubscriber (session : SessionId) (subs : Subscriptions) (topic : Bytes) : Subscriptions :=
  match subs[topic]? with
  | none => subs
  | some s => subs.insert topic (s.erase session)

def dropIfEmpty (subs : Subscriptions) (topic : Bytes) : Subscriptions :=
  match subs[topic]? with
  | none => subs
  | some s => if s.isEmpty then subs.erase topic else subs

/-- The topic count gauge is only set when the topic disappears. -/
def unsubscribe (b : Broker σ) (session : SessionId) (topic : Bytes) : Broker σ :=
  match b.topicSubscribers[topic]? with
  | none => b
  | some s =>
    let subs := dropSubscriber session b.topicSubscribers topic
    let metrics := ((b.metrics.incrementUnsubscriptions).decrementTopicSubscribers topic).setActiveSubscribers
      (countTotalSubscribers subs)
    let subs' := dropIfEmpty subs topic
    { b with
      topicSubscribers := subs'
      metrics := if (s.erase session).isEmpty then metrics.setTopicCount subs'.size else metrics }

def runCompactionIfDue (f : PublishFaults ε) (b : Broker σ) : Broker σ :=
  if !b.persistence || decide (b.currentSequence ≤ maxStoredMessages) then b
  else
    -- messages and acknowledgements are cut at the same number
    let threshold := b.currentSequence - maxStoredMessages
    { b with db := Storage.purgeOldAcks f.purge (Storage.compact f.compact b.db threshold) threshold }

/-- The state changes of `publish` up to the fan-out. -/
def persist (f : PublishFaults ε) (b : Broker σ) (topic payload : Bytes) : Broker σ :=
  let seq := b.currentSequence + 1
  let b := { b with
    currentSequence := seq
    -- a failing save is reported on stderr only: the number is used up all the same
    db := if b.persistence then Storage.save f.save b.db seq topic payload else b.db
    publishCount := b.publishCount + 1 }
  if b.publishCount % compactEvery = 0 then runCompactionIfDue f b else b

/-- The sessions a message on `topic` is written to, one entry for each `send`. -/
def recipients (b : Broker σ) (topic : Bytes) : List SessionId :=
  b.subscribersOf topic ++ b.subscribersOf (lit "#")

/-- Returns the assigned sequence and the sessions that are sent the payload. -/
def publish (f : PublishFaults ε) (b : Broker σ) (topic payload : Bytes) :
    Broker σ × UInt64 × List SessionId :=
  let b' := persist f b topic payload
  ({ b' with metrics :=
      ((b'.metrics.incrementPublished).incrementTopicMessages topic).incrementDelivered },
    b'.currentSequence, b'.recipients topic)

def removeSession (b : Broker σ) (session : SessionId) : Broker σ :=
  let subs := b.topicSubscribers.keys.foldl (dropSubscriber session) b.topicSubscribers
  let subs := subs.keys.foldl dropIfEmpty subs
  let sessions := b.sessions.filter (· != session)
  { b with
    topicSubscribers := subs
    sessions := sessions
    -- unsigned, and not guarded against zero
    activeConnections := b.activeConnections - 1
    metrics := (((b.metrics.incrementDisconnections).setActiveConnections sessions.length).setActiveSubscribers
      (countTotalSubscribers subs)).setTopicCount subs.size }

/-- The steps of the accept loop for one connection; above the cap it is closed at once. -/
def acceptSession (b : Broker σ) (session : SessionId) : Option (Broker σ) :=
  if b.activeConnections ≥ maxConnections then none
  else
    let sessions := b.sessions ++ [session]
    some { b with
      sessions := sessions
      activeConnections := b.activeConnections + 1
      metrics := b.metrics.incrementConnections.setActiveConnections sessions.length }

def stop (b : Broker σ) : Broker σ := { b with shutdownRequested := true, persistence := false }

def handleAck (err : ε) (b : Broker σ) (clientId : Bytes) (sequence : UInt64) : Broker σ :=
  let last := b.lastAckSeq.getD clientId 0
  { b with
    clientAcks := b.clientAcks.insert clientId
      ((b.clientAcks.getD clientId .empty).insert sequence)
    lastAckSeq := b.lastAckSeq.insert clientId (if sequence > last then sequence else last)
    db := if b.persistence then Storage.saveAck err b.db clientId sequence else b.db
    metrics := b.metrics.incrementAcks }

def getLastSequence (b : Broker σ) : UInt64 := b.currentSequence

def getLastAck (b : Broker σ) (clientId : Bytes) : UInt64 := b.lastAckSeq.getD clientId 0

def isAcked (b : Broker σ) (clientId : Bytes) (sequence : UInt64) : Bool :=
  match b.clientAcks[clientId]? with
  | none => false
  | some acks => acks.contains sequence

def registerClient (hash : HashOrder) (b : Broker σ) (clientId : Bytes) (session : SessionId) :
    Broker σ :=
  let b := { b with clientSessions := b.clientSessions.insert clientId session }
  if b.persistence then
    -- what is in memory stays, the stored acknowledgements are added
    let bounded := (b.clientAcks.getD clientId .empty).insertAll
      (hash.iterate (Storage.loadAcks b.db clientId))
    { b with
      clientAcks := b.clientAcks.insert clientId bounded
      lastAckSeq := if bounded.isEmpty then b.lastAckSeq
        else b.lastAckSeq.insert clientId bounded.maxSeq }
  else b

def unregisterClient (b : Broker σ) (clientId : Bytes) : Broker σ :=
  { b with clientSessions := b.clientSessions.erase clientId }

/-- What `replayMessagesForClient` loads, once it has read the mark of the client. -/
def loadUnacked (b : Broker σ) (topic : Bytes) (lastAck : UInt64) : List StoredMessage :=
  if b.persistence then
    -- the mark is shared by all topics of the client
    (Storage.loadRange b.db (lastAck + 1) (lastAck + maxStoredMessages)).filter
      fun m => decide (m.topic = topic)
  else []

def replayMessagesForClient (b : Broker σ) (topic clientId : Bytes) : List StoredMessage :=
  (b.loadUnacked topic (b.getLastAck clientId)).filter fun m => !b.isAcked clientId m.seq

end Broker

end MetricMQ
