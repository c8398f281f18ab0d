import MetricMQ.PubSub
import MetricMQ.LiveDelivery

/-! The system against the abstract machine of publish and subscribe. Each step of any thread is one
step of the abstract machine or none, and what a session is sent live is what the abstract machine
delivers to it, so all sessions see the messages in one order. -/
namespace MetricMQ

open ByteString Std Machine

/-- What a call of the broker is to the abstract machine. -/
def Method.op {ε : Type} : Method ε → List (PubSub.Op SessionId Bytes Bytes)
  | .subscribe session topic => [.subscribe session topic]
  | .unsubscribe session topic => [.unsubscribe session topic]
  | .removeSession session => [.leave session]
  | .publish _ topic data => [.publish topic data]
  | .accept _ | .handleAck _ _ _ | .registerClient _ _ | .unregisterClient _ | .stop => []

/-- What the outputs of a step show `session` of the publish that the step makes, if any. What a
replay sends goes with no publish. -/
def liveView (session : SessionId) : List Output → List (PubSub.Event Bytes Bytes UInt64)
  | .published _ topic data n :: sends =>
    .published topic data n :: sends.filterMap fun o => match o with
      | .sent s _ d (some k) => if s = session then some (.delivered d k) else none
      | _ => none
  | _ => []

/-- The messages published, with their numbers. -/
def publishedIn (tr : List Output) : List (Bytes × UInt64) :=
  tr.filterMap fun o => match o with
    | .published _ _ data n => some (data, n)
    | _ => none

theorem filterMap_eq_replicate {α β : Type} [DecidableEq α] (l : List α) (a : α) (x : β) :
    l.filterMap (fun b => if b = a then some x else none) = List.replicate (l.count a) x := by
  induction l with
  | nil => rfl
  | cons b l ih =>
    rw [List.filterMap_cons, List.count_cons, ih]
    by_cases hb : b = a
    · rw [if_pos hb, if_pos (by simpa using hb), List.replicate_succ]
    · rw [if_neg hb, if_neg (by simpa using hb)]
      rfl

section Steps

variable {σ ε : Type} [Storage σ ε] (verify : Verify) (hash : HashOrder) (w : World σ)
  (session : SessionId)

/-- What the abstract machine is told of a step. -/
def World.ops (i : Input ε) : List (PubSub.Op SessionId Bytes Bytes) := (w.methods i).flatMap Method.op

/-- The number of the `k`-th message of a process on the file `db`. -/
def numberFrom (db : σ) (k : ℕ) : UInt64 := Storage.getLastSeq db + UInt64.ofNat k

/-- The abstract machine, as `session` sees it. -/
noncomputable def abstractStep (db : σ) :
    PubSub.State SessionId Bytes → PubSub.Op SessionId Bytes Bytes →
      PubSub.State SessionId Bytes × List (PubSub.Event Bytes Bytes UInt64) :=
  PubSub.step (lit "#") (numberFrom db) session

/-- The table holds the subscriptions, and the counter the number of the last message. -/
structure Abstracts (db : σ) (s : PubSub.State SessionId Bytes) : Prop where
  live : w.ConnectedLive
  subscribed : ∀ client topic, s.subscribed client topic ↔ w.broker.Subscribed client topic
  numbered : w.broker.currentSequence = numberFrom db s.published

theorem numberFrom_succ (db : σ) (k : ℕ) : numberFrom db (k + 1) = numberFrom db k + 1 := by
  rw [numberFrom, numberFrom, UInt64.ofNat_add, ← UInt64.add_assoc]
  rfl

/-- What a task shows: a publish, and what it sends to the session. -/
theorem liveView_exec (faults : Faults ε) (s : SessionId) (task : Task) :
    liveView session (w.exec hash faults s task).2 = match task with
      | .call (.publish topic data) =>
        .published topic data (w.broker.currentSequence + 1) ::
          List.replicate ((w.broker.recipients topic).count session)
            (.delivered data (w.broker.currentSequence + 1))
      | _ => [] := by
  have hshown := w.shown_exec hash faults s task
  generalize (w.exec hash faults s task).2 = outs at hshown
  cases hshown with
  | nothing _ hpublish hsend =>
    split
    · exact absurd rfl (hpublish _ _)
    · rfl
  | published topic data =>
    simp only [liveView, List.filterMap_map]
    rw [← filterMap_eq_replicate]
    rfl
  | replied => rfl
  | replayed _ m htask => rcases htask with rfl | ⟨c, rfl⟩ <;> rfl

/-- What a step shows goes with the call of the broker that it makes. -/
theorem liveView_step (i : Input ε) :
    liveView session (w.step verify hash i).2 = match w.methods i with
      | [.publish _ topic data] =>
        .published topic data (w.broker.currentSequence + 1) ::
          List.replicate ((w.broker.recipients topic).count session)
            (.delivered data (w.broker.currentSequence + 1))
      | _ => [] := by
  cases i with
  | thread s faults =>
    rw [World.step, World.methods]
    cases hconn : w.connections[s]? with
    | none =>
      rw [w.pendingTask_eq_none s (by simp [hconn]), World.threadStep, hconn]
      rfl
    | some conn =>
      cases hp : conn.pending with
      | cons task rest =>
        rw [w.threadStep_of_task verify hash s faults conn task rest hconn hp,
          w.pendingTask_eq s conn task rest hconn hp, World.taskStep, liveView_exec]
        cases task with
        | call call => cases call <;> rfl
        | replayMessages | loadUnacked | sendStored | sendUnacked => rfl
      | nil =>
        rw [w.pendingTask_eq_none s (by simp [hconn, hp]), World.threadStep, hconn]
        dsimp only
        rw [hp]
        dsimp only
        split_ifs
        · rfl
        · cases conn.next <;> rfl
  | accept s =>
    rw [World.methods]
    split_ifs <;> rfl
  | recv | hangup | keyStore | stop | restart => rfl

theorem count_recipients (db : σ) (s : PubSub.State SessionId Bytes) (topic : Bytes)
    (h : Abstracts w db s) :
    (w.broker.recipients topic).count session = PubSub.copies (lit "#") s session topic := by
  classical
  rw [Broker.recipients, List.count_append, Broker.count_subscribersOf, Broker.count_subscribersOf,
    PubSub.copies]
  simp only [h.subscribed]

/-- One call of the broker is the step of the abstract machine that goes with it. -/
theorem abstracts_perform (db : σ) (s : PubSub.State SessionId Bytes) (m : Method ε)
    (hsub : ∀ client topic, s.subscribed client topic ↔ w.broker.Subscribed client topic)
    (hnum : w.broker.currentSequence = numberFrom db s.published) :
    (∀ client topic, (run (abstractStep session db) s m.op).1.subscribed client topic ↔
      (w.broker.perform hash m).Subscribed client topic) ∧
    (w.broker.perform hash m).currentSequence =
      numberFrom db (run (abstractStep session db) s m.op).1.published := by
  have hstays : m.touchesStore = false → (w.broker.perform hash m).currentSequence =
      numberFrom db s.published := fun h => ((w.broker.perform_store hash m h).2).trans hnum
  constructor
  -- who is subscribed behind a call is known from the calls alone
  · intro client topic
    rw [w.broker.subscribed_perform hash m client topic]
    cases m with
    | subscribe c t =>
      simp [Method.op, run, abstractStep, PubSub.step, hsub, eq_comm]
    | unsubscribe c t =>
      simp [Method.op, run, abstractStep, PubSub.step, hsub, eq_comm]
    | removeSession c =>
      simp [Method.op, run, abstractStep, PubSub.step, hsub, eq_comm]
    | publish | accept | handleAck | registerClient | unregisterClient | stop =>
      simp [Method.op, run, abstractStep, PubSub.step, hsub]
  · cases m with
    | publish f topic data =>
      change (w.broker.publish f topic data).1.currentSequence = numberFrom db (s.published + 1)
      rw [Broker.publish_currentSequence, numberFrom_succ, hnum]
    | handleAck => exact hnum
    | accept | subscribe | unsubscribe | registerClient | unregisterClient | removeSession | stop =>
      exact hstays rfl

/-- One step of the system. -/
theorem abstracts_step (db : σ) (s : PubSub.State SessionId Bytes) (i : Input ε)
    (h : Abstracts w db s) (hi : NoRestart w i) :
    Abstracts (w.step verify hash i).1 db (run (abstractStep session db) s (w.ops i)).1 ∧
      liveView session (w.step verify hash i).2 = (run (abstractStep session db) s (w.ops i)).2 := by
  obtain ⟨hlive, hbroker, -⟩ := World.step_methods verify hash w i h.live hi
  rw [liveView_step, World.ops]
  rcases w.methods_cases i with he | ⟨m, he⟩
  · rw [he] at hbroker ⊢
    rw [Broker.after_nil] at hbroker
    exact ⟨⟨hlive, fun c t => hbroker ▸ h.subscribed c t, hbroker ▸ h.numbered⟩, rfl⟩
  · rw [he] at hbroker ⊢
    rw [List.flatMap_singleton]
    have hperform := abstracts_perform hash w session db s m h.subscribed h.numbered
    refine ⟨⟨hlive, fun c t => ?_, ?_⟩, ?_⟩
    · rw [hbroker]
      exact hperform.1 c t
    · rw [hbroker]
      exact hperform.2
    -- only a publish is seen, with as many copies as there are subscriptions that it meets
    · cases m with
      | publish f topic data =>
        dsimp only
        rw [count_recipients w session db s topic h, h.numbered, ← numberFrom_succ]
        simp [Method.op, run, abstractStep, PubSub.step]
      | accept | subscribe | unsubscribe | handleAck | registerClient | unregisterClient
      | removeSession | stop => rfl

end Steps

section Runs

variable {σ ε : Type} [Storage σ ε] (verify : Verify) (hash : HashOrder) (session : SessionId)

theorem abstracts_start (db : σ) : Abstracts (World.start db) db PubSub.State.empty where
  live := World.connectedLive_start db
  subscribed := fun c t => iff_of_false (fun h => h) (Broker.not_subscribed_start db c t)
  numbered := (UInt64.add_zero _).symm

/-- What a session sees live of a run. -/
def liveTrace (w : World σ) (is : List (Input ε)) : List (PubSub.Event Bytes Bytes UInt64) :=
  movesOf (World.step verify hash) (fun w i => liveView session (w.step verify hash i).2) w is

/-- A run of one process is a run of the abstract machine of publish and subscribe: it ends with the
same subscriptions, and every session has seen the same messages published, with the same numbers,
and has been sent live exactly what the abstract machine delivers to it. -/
theorem refines_pubsub (db : σ) (is : List (Input ε))
    (h : Meets (World.step verify hash) NoRestart (World.start db) is) :
    Abstracts (run (World.step verify hash) (World.start db) is).1 db
        (run (abstractStep session db) PubSub.State.empty
          (movesOf (World.step verify hash) World.ops (World.start db) is)).1 ∧
      liveTrace verify hash session (World.start db) is =
        (run (abstractStep session db) PubSub.State.empty
          (movesOf (World.step verify hash) World.ops (World.start db) is)).2 :=
  run_refines (fun w s => Abstracts w db s) World.ops
    (fun w i => liveView session (w.step verify hash i).2)
    (fun w i s hr hi => abstracts_step verify hash w session db s i hr hi) (World.start db)
    PubSub.State.empty is (abstracts_start db) h

theorem logOf_liveView (w : World σ) (i : Input ε) :
    PubSub.logOf (liveView session (w.step verify hash i).2) = publishedIn (w.step verify hash i).2 := by
  rcases w.step_outputs verify hash i with he | ⟨s, item, he⟩ |
    ⟨s, faults, conn, task, rest, -, -, -, he, -⟩
  · rw [he]
    rfl
  · rw [he]
    rfl
  · have hshown := w.shown_exec hash faults s task
    rw [he]
    generalize (w.exec hash faults s task).2 = outs at hshown
    cases hshown with
    | published topic data =>
      simp [liveView, PubSub.logOf, publishedIn, List.filterMap_map, List.filterMap_filterMap]
    | nothing | replied | replayed => rfl

theorem logOf_liveTrace (w : World σ) (is : List (Input ε)) :
    PubSub.logOf (liveTrace verify hash session w is) =
      publishedIn (run (World.step verify hash) w is).2 := by
  induction is generalizing w with
  | nil => rfl
  | cons i is ih =>
    rw [liveTrace, movesOf, PubSub.logOf, List.filterMap_append, run, publishedIn,
      List.filterMap_append]
    exact congrArg₂ _ (logOf_liveView verify hash session w i) (ih _)

/-- All sessions see one order: in a run of one process what any session is sent live are the
messages of the one log of all that was published, in the order of the log, each of them not at
all, once or twice. -/
theorem one_order (db : σ) (is : List (Input ε))
    (h : Meets (World.step verify hash) NoRestart (World.start db) is) :
    PubSub.Repeats (publishedIn (run (World.step verify hash) (World.start db) is).2)
      (PubSub.inboxOf (liveTrace verify hash session (World.start db) is)) := by
  have hview := (run_refines (fun w s => Abstracts w db s) World.ops
    (fun w i => liveView session (w.step verify hash i).2)
    (fun w i s hr hi => abstracts_step verify hash w session db s i hr hi) (World.start db)
    PubSub.State.empty is (abstracts_start db) h).2
  rw [← logOf_liveTrace verify hash session, liveTrace, hview]
  exact PubSub.repeats_run (lit "#") (numberFrom db) session PubSub.State.empty _

end Runs

section Example

open World

/-- A client subscribes to "t" and to "#", another one publishes on "t". -/
def wildcardAndTopic : List (Input (Option MdbError)) :=
  binaryClient 0 (.subscribe (lit "t") 1) 4 ++
    .recv 0 (BinaryProtocol.serialize (.subscribe (lit "#") 2)) :: List.replicate 4 (.thread 0 allCommit) ++
    binaryClient 2 (.publish (lit "t") (lit "a") 1) 3

/-- The abstract machine delivers the message twice, as the broker does. -/
theorem refines_pubsub_twice :
    (run (abstractStep 0 LmdbFile.empty) PubSub.State.empty
      (movesOf (World.step (fun _ _ _ => true) insertionOrder) World.ops (World.start LmdbFile.empty)
        wildcardAndTopic)).2 =
    [.published (lit "t") (BinaryProtocol.serialize (.message (lit "t") (lit "a") 1)) 1,
      .delivered (BinaryProtocol.serialize (.message (lit "t") (lit "a") 1)) 1,
      .delivered (BinaryProtocol.serialize (.message (lit "t") (lit "a") 1)) 1] := by
  rw [← (refines_pubsub (fun _ _ _ => true) insertionOrder 0 LmdbFile.empty wildcardAndTopic
    (by decide)).2]
  decide

theorem one_order_twice : PubSub.Repeats
    [(BinaryProtocol.serialize (.message (lit "t") (lit "a") 1), (1 : UInt64))]
    [(BinaryProtocol.serialize (.message (lit "t") (lit "a") 1), 1),
      (BinaryProtocol.serialize (.message (lit "t") (lit "a") 1), 1)] := by
  have h := one_order (fun _ _ _ => true) insertionOrder 0 LmdbFile.empty wildcardAndTopic (by decide)
  have hlog : publishedIn (run (World.step (fun _ _ _ => true) insertionOrder)
      (World.start LmdbFile.empty) wildcardAndTopic).2 =
      [(BinaryProtocol.serialize (.message (lit "t") (lit "a") 1), 1)] := by decide
  have hinbox : PubSub.inboxOf (liveTrace (fun _ _ _ => true) insertionOrder 0
      (World.start LmdbFile.empty) wildcardAndTopic) =
      [(BinaryProtocol.serialize (.message (lit "t") (lit "a") 1), 1),
        (BinaryProtocol.serialize (.message (lit "t") (lit "a") 1), 1)] := by decide
  rw [hlog, hinbox] at h
  exact h

end Example

end MetricMQ
