import MetricMQ.Delivery
import MetricMQ.Subscriptions

/-! The broker inside the whole system: its state moves by calls of its methods, and a session
makes calls only while it is connected. With that, where the messages of a publish go. -/
namespace MetricMQ

open ByteString Std Machine

section Calls

variable {σ ε : Type} [Storage σ ε]

/-- The method of the broker that a task of a session runs, if any. -/
def Task.method (session : SessionId) (faults : Faults ε) : Task → List (Method ε)
  | .call (.registerClient clientId) => [.registerClient clientId session]
  | .call (.subscribe topic) => [.subscribe session topic]
  | .call (.unsubscribe topic) => [.unsubscribe session topic]
  | .call (.publish topic data) => [.publish faults.publish topic data]
  | .call (.handleAck clientId sequence) => [.handleAck faults.ack clientId sequence]
  | .call (.unregisterClient clientId) => [.unregisterClient clientId]
  | .call .removeSession => [.removeSession session]
  | _ => []

/-- The methods that a step of the system runs. -/
def World.methods (w : World σ) : Input ε → List (Method ε)
  | .accept session => if w.connections.contains session then [] else [.accept session]
  | .thread session faults => (w.pendingTask session).elim [] (Task.method session faults)
  | .stop => [.stop]
  | _ => []

def NoRestart (_ : World σ) : Input ε → Prop
  | .restart => False
  | _ => True

/-- Who has a connection is in `sessions_`. -/
def World.ConnectedLive (w : World σ) : Prop :=
  ∀ session conn, w.connections[session]? = some conn → session ∈ w.broker.sessions

variable (verify : Verify) (hash : HashOrder)

theorem World.exec_broker (w : World σ) (faults : Faults ε) (session : SessionId) (task : Task) :
    (w.exec hash faults session task).1 = w.broker.after hash (task.method session faults) := by
  cases task with
  | call call => cases call <;> rfl
  | replayMessages | loadUnacked | sendStored | sendUnacked => rfl

/-- A session is removed by its own thread only. -/
theorem Task.eq_of_removeSession_mem (session s : SessionId) (faults : Faults ε) (task : Task)
    (h : .removeSession s ∈ task.method session faults) :
    s = session ∧ task = .call .removeSession := by
  cases task with
  | call call =>
    cases call with
    | removeSession => exact ⟨Method.removeSession.inj (List.mem_singleton.mp h), rfl⟩
    | registerClient | subscribe | unsubscribe | publish | handleAck | unregisterClient
    | replayMessagesForClient | send => simp [method] at h
  | replayMessages | loadUnacked | sendStored | sendUnacked => cases h

namespace World

theorem connectedLive_set (w : World σ) (session : SessionId) (conn conn' : Connection)
    (hw : w.ConnectedLive) (hconn : w.connections[session]? = some conn) :
    (w.set session conn').ConnectedLive :=
  forall_insert _ _ _ (fun s _ => s ∈ w.broker.sessions) (fun s c _ hc => hw s c hc)
    (hw session conn hconn)

/-- A task leaves a session in `sessions_`, unless it is the last one of that session. -/
theorem connectedLive_taskStep (w : World σ) (faults : Faults ε) (session : SessionId)
    (conn : Connection) (task : Task) (rest : List Task) (hw : w.ConnectedLive)
    (hconn : w.connections[session]? = some conn) :
    (w.taskStep hash faults session conn task rest).1.ConnectedLive := by
  have hbroker : (w.taskStep hash faults session conn task rest).1.broker =
      w.broker.after hash (task.method session faults) := w.exec_broker hash faults session task
  -- only its own last task takes a session out of the list
  have hstay : ∀ s, s ∈ w.broker.sessions → (s = session → task ≠ .call .removeSession) →
      s ∈ (w.broker.after hash (task.method session faults)).sessions := by
    intro s hs hne
    apply w.broker.mem_sessions_after hash _ s hs
    intro hm
    obtain ⟨he, htask⟩ := task.eq_of_removeSession_mem session s faults hm
    exact hne he htask
  rw [ConnectedLive, hbroker]
  exact forall_taskStep hash faults w session conn task rest
    (fun s _ => s ∈ (w.broker.after hash (task.method session faults)).sessions)
    (fun s c hne hc => hstay s (hw s c hc) fun he => absurd he hne)
    (fun htask => hstay session (hw session conn hconn) fun _ => htask)

theorem pendingTask_eq_none (w : World σ) (session : SessionId)
    (h : ∀ conn, w.connections[session]? = some conn → conn.pending = []) :
    w.pendingTask session = none := by
  rw [pendingTask]
  cases hconn : w.connections[session]? with
  | none => rfl
  | some conn =>
    dsimp only
    rw [h conn hconn, List.head?_nil]

/-- The thread of a session: its task is a call of a method, and it subscribes while connected. -/
theorem threadStep_methods (w : World σ) (session : SessionId) (faults : Faults ε)
    (hw : w.ConnectedLive) :
    (w.threadStep verify hash session faults).1.ConnectedLive ∧
    (w.threadStep verify hash session faults).1.broker =
      w.broker.after hash (w.methods (.thread session faults)) ∧
    Meets (Broker.methodStep hash) Broker.SubscribesLive w.broker
      (w.methods (.thread session faults)) := by
  rw [methods, threadStep]
  cases hconn : w.connections[session]? with
  | none =>
    rw [pendingTask_eq_none w session (by simp [hconn])]
    exact ⟨hw, rfl, trivial⟩
  | some conn =>
    dsimp only
    cases hp : conn.pending with
    | cons task rest =>
      rw [w.pendingTask_eq session conn task rest hconn hp]
      refine ⟨connectedLive_taskStep hash w faults session conn task rest hw hconn,
        w.exec_broker hash faults session task, ?_⟩
      cases task with
      | call call =>
        cases call with
        | subscribe topic => exact ⟨hw session conn hconn, trivial⟩
        | registerClient | unsubscribe | publish | handleAck | unregisterClient | removeSession =>
          exact ⟨trivial, trivial⟩
        | replayMessagesForClient | send => trivial
      | replayMessages | loadUnacked | sendStored | sendUnacked => trivial
    | nil =>
      rw [pendingTask_eq_none w session (by simp [hconn, hp])]
      dsimp only
      split_ifs
      · exact ⟨hw, rfl, trivial⟩
      · cases conn.next with
        | none => exact ⟨hw, rfl, trivial⟩
        | some p => exact ⟨connectedLive_set w session conn _ hw hconn, rfl, trivial⟩

/-- A step of the system, seen from the broker. -/
theorem step_methods (w : World σ) (i : Input ε) (hw : w.ConnectedLive) (hi : NoRestart w i) :
    (w.step verify hash i).1.ConnectedLive ∧
    (w.step verify hash i).1.broker = w.broker.after hash (w.methods i) ∧
    Meets (Broker.methodStep hash) Broker.SubscribesLive w.broker (w.methods i) := by
  cases i with
  | thread session faults => exact threadStep_methods verify hash w session faults hw
  | accept session =>
    rw [step, acceptStep, methods, TreeMap.contains_eq_isSome_getElem?]
    cases hconn : w.connections[session]? with
    | some conn => exact ⟨hw, rfl, trivial⟩
    | none =>
      cases hb : w.broker.acceptSession session with
      | none => exact ⟨hw, (congrArg (Option.getD · w.broker) hb).symm, ⟨trivial, trivial⟩⟩
      | some b =>
        have hperform : w.broker.after hash [(.accept session : Method ε)] = b :=
          congrArg (Option.getD · w.broker) hb
        refine ⟨?_, hperform.symm, ⟨trivial, trivial⟩⟩
        have hsub : ∀ s ∈ w.broker.sessions, s ∈ b.sessions := by
          intro s hs
          rw [← hperform]
          exact w.broker.mem_sessions_after hash _ s hs (by simp)
        have hself : session ∈ b.sessions := by
          rw [Broker.acceptSession] at hb
          split_ifs at hb
          rw [← Option.some_inj.mp hb]
          exact List.mem_append_right _ (List.mem_singleton.mpr rfl)
        exact forall_insert _ _ _ (fun s _ => s ∈ b.sessions)
          (fun s c _ hc => hsub s (hw s c hc)) hself
  | recv session chunk =>
    have hcase := stepCase_recv (ε := ε) verify hash w session chunk
    rw [step]
    generalize w.recvStep session chunk = w' at hcase ⊢
    cases hcase with
    | nothing => exact ⟨hw, rfl, trivial⟩
    | received _ _ conn r hconn => exact ⟨connectedLive_set w session conn _ hw hconn, rfl, trivial⟩
    | overflowed _ _ conn hconn => exact ⟨connectedLive_set w session conn _ hw hconn, rfl, trivial⟩
  | hangup session =>
    rw [step, hangupStep]
    cases hconn : w.connections[session]? with
    | none => exact ⟨hw, rfl, trivial⟩
    | some conn =>
      dsimp only
      split_ifs
      · exact ⟨connectedLive_set w session conn _ hw hconn, rfl, trivial⟩
      · exact ⟨hw, rfl, trivial⟩
  | keyStore op => exact ⟨hw, rfl, trivial⟩
  | stop => exact ⟨hw, rfl, ⟨trivial, trivial⟩⟩
  | restart => exact hi.elim

theorem connectedLive_step (w : World σ) (i : Input ε) (hw : w.ConnectedLive) :
    (w.step verify hash i).1.ConnectedLive := by
  cases i with
  | restart =>
    intro s c hc
    simp [step] at hc
  | accept | recv | hangup | thread | keyStore | stop =>
    apply (step_methods verify hash w _ hw _).1
    trivial

theorem connectedLive_start (db : σ) : (World.start db).ConnectedLive := by
  intro s c hc
  simp [World.start] at hc

/-- A run of one process of the system is a run of the broker's methods, in which sessions
subscribe only between their entry into `sessions_` and their removal. -/
theorem run_methods (db : σ) (is : List (Input ε))
    (h : Meets (World.step verify hash) NoRestart (World.start db) is) :
    (run (World.step verify hash) (World.start db) is).1.broker =
      (Broker.start db).after hash (movesOf (World.step verify hash) methods (World.start db) is) ∧
    Meets (Broker.methodStep hash) Broker.SubscribesLive (Broker.start db)
      (movesOf (World.step verify hash) methods (World.start db) is) := by
  exact (run_simulates broker methods ConnectedLive
    (fun w i hw hi => step_methods verify hash w i hw hi) (World.start db) is
    (connectedLive_start db) h).2

/-- In every state of one process no publish reaches a session that was removed. -/
theorem recipients_live (db : σ) (is : List (Input ε))
    (h : Meets (World.step verify hash) NoRestart (World.start db) is) (topic : Bytes) :
    ∀ s ∈ (run (World.step verify hash) (World.start db) is).1.broker.recipients topic,
      s ∈ (run (World.step verify hash) (World.start db) is).1.broker.sessions := by
  obtain ⟨hbroker, hmeets⟩ := run_methods verify hash db is h
  have hlive := Broker.subscribersLive_after hash db _ hmeets
  rw [hbroker]
  intro s hs
  rcases List.mem_append.mp hs with hs | hs
  · exact hlive s topic ((Broker.mem_subscribersOf _ s topic).mp hs)
  · exact hlive s (lit "#") ((Broker.mem_subscribersOf _ s _).mp hs)

end World

end Calls

section FanOut

variable {σ ε : Type} [Storage σ ε]

/-- What is written to whom. -/
def sends (outs : List Output) : List (SessionId × Bytes) :=
  outs.filterMap fun o =>
    match o with
    | .sent session _ data _ => some (session, data)
    | _ => none

/-- Whoever is subscribed to the topic or to `#` is sent the payload once, and nothing else is
sent to anyone. -/
structure FanOutOnce (b : Broker σ) (topic payload : Bytes) (outs : List Output) : Prop where
  once : ∀ s, b.Subscribed s topic ∨ b.Subscribed s (lit "#") →
    (sends outs).count (s, payload) = 1
  only : ∀ s data, (s, data) ∈ sends outs →
    data = payload ∧ (b.Subscribed s topic ∨ b.Subscribed s (lit "#"))

/-- What a publish writes: one entry for each of the two lookups that finds the session. -/
theorem sends_publish (hash : HashOrder) (w : World σ) (faults : Faults ε) (session : SessionId)
    (topic payload : Bytes) :
    sends (w.exec hash faults session (.call (.publish topic payload))).2 =
      (w.broker.recipients topic).map fun s => (s, payload) := by
  simp only [World.exec, World.execCall, sends, List.filterMap_cons, List.filterMap_map,
    (w.broker.publish_recipients faults.publish topic payload).1]
  change (w.broker.recipients topic).filterMap (fun s => some (s, payload)) = _
  rw [List.filterMap_eq_map']

theorem Broker.count_subscribersOf (b : Broker σ) (s : SessionId) (topic : Bytes)
    [Decidable (b.Subscribed s topic)] :
    (b.subscribersOf topic).count s = if b.Subscribed s topic then 1 else 0 := by
  split_ifs with h
  · have hnodup : (b.subscribersOf topic).Nodup := by
      rw [subscribersOf]
      cases b.topicSubscribers[topic]? with
      | none => exact List.nodup_nil
      | some subs => exact SetTable.nodup_toList subs
    exact List.count_eq_one_of_mem hnodup ((b.mem_subscribersOf s topic).mpr h)
  · exact List.count_eq_zero_of_not_mem fun hm => h ((b.mem_subscribersOf s topic).mp hm)

/-- The two lookups of a publish are independent: a session that both find is sent the payload
twice, as is every session on `#` when the topic itself is `#`. -/
theorem fan_out_once_iff (hash : HashOrder) (w : World σ) (faults : Faults ε) (session : SessionId)
    (topic payload : Bytes) :
    FanOutOnce w.broker topic payload
        (w.exec hash faults session (.call (.publish topic payload))).2 ↔
      ∀ s, ¬ (w.broker.Subscribed s topic ∧ w.broker.Subscribed s (lit "#")) := by
  classical
  -- one for each of the two sets that the session is in
  have hcount : ∀ s, ((w.broker.recipients topic).map fun s => (s, payload)).count (s, payload) =
      (if w.broker.Subscribed s topic then 1 else 0) +
        if w.broker.Subscribed s (lit "#") then 1 else 0 := by
    intro s
    rw [List.count_map_of_injective _ _ fun _ _ h => (Prod.mk.inj h).1, Broker.recipients,
      List.count_append, Broker.count_subscribersOf, Broker.count_subscribersOf]
  constructor
  · rintro ⟨honce, -⟩ s ⟨ht, hw⟩
    have h := honce s (Or.inl ht)
    rw [sends_publish, hcount, if_pos ht, if_pos hw] at h
    cases h
  · intro h
    constructor
    · intro s hs
      rw [sends_publish, hcount]
      rcases hs with ht | hw
      · rw [if_pos ht, if_neg fun hw => h s ⟨ht, hw⟩]
      · rw [if_pos hw, if_neg fun ht => h s ⟨ht, hw⟩]
    · intro s data hs
      rw [sends_publish] at hs
      obtain ⟨s', hs', he⟩ := List.mem_map.mp hs
      obtain ⟨rfl, rfl⟩ := Prod.mk.inj he
      refine ⟨rfl, ?_⟩
      rw [← w.broker.mem_subscribersOf, ← w.broker.mem_subscribersOf]
      exact List.mem_append.mp hs'

/-- A client has subscribed to a topic and to `#`. -/
def onTopicAndWildcard : World LmdbFile :=
  (run (World.step (fun _ _ _ => true) World.insertionOrder) (World.start LmdbFile.empty)
    (binaryClient 0 (.subscribe (lit "t") 1) 4 ++
      .recv 0 (BinaryProtocol.serialize (.subscribe (lit "#") 2)) ::
      List.replicate 4 (.thread 0 World.allCommit))).1

/-- It gets a message on the topic twice, and one on `#` too. -/
theorem fan_out_twice :
    ¬ FanOutOnce onTopicAndWildcard.broker (lit "t") (lit "x")
      (onTopicAndWildcard.exec World.insertionOrder World.allCommit 1
        (.call (.publish (lit "t") (lit "x")))).2 ∧
    ¬ FanOutOnce onTopicAndWildcard.broker (lit "#") (lit "x")
      (onTopicAndWildcard.exec World.insertionOrder World.allCommit 1
        (.call (.publish (lit "#") (lit "x")))).2 := by
  have hmem : 0 ∈ onTopicAndWildcard.broker.subscribersOf (lit "#") := by decide
  have hsub := (Broker.mem_subscribersOf _ 0 _).mp hmem
  constructor
  · intro h
    have honce := h.once 0 (Or.inr hsub)
    revert honce
    decide
  · intro h
    have honce := h.once 0 (Or.inr hsub)
    revert honce
    decide

end FanOut

end MetricMQ
