import MetricMQ.Answers

/-! What becomes of the publish requests of a session: each one that is accepted is published once,
with what it carries, in the order in which the session sent them, and nothing else is published in
its name. -/
namespace MetricMQ

open ByteString Std Machine

/-- The item is a publish that the handler accepts. -/
def Dispatch.isPublish (verify : Verify) (keys : KeyLookups) : Dispatch → Bool
  | .frame f => Session.acceptsPublish verify keys f
  | .command (.array [head, _, _]) => Session.toUpper head.asString = lit "PUBLISH"
  | .command _ => false

/-- Publishes as an effect of tasks: a topic and the string for the subscribers go with the request
they were made for, and the keys it was checked against. -/
def publishing (verify : Verify) : Effect (Bytes × Bytes) (KeyLookups × Dispatch) where
  ofCall
    | .publish topic data => [(topic, data)]
    | _ => []
  shown session
    | .published s topic data _ => if s = session then [(topic, data)] else []
    | _ => []
  asked keys item := if item.isPublish verify keys then [(keys, item)] else []
  Matches message request := request.2.Publishes verify request.1 message.1 message.2

section Handlers

variable (verify : Verify) (keys : KeyLookups) (s : Session)

theorem isPublish_of_publishes (item : Dispatch) (topic data : Bytes)
    (h : item.Publishes verify keys topic data) : item.isPublish verify keys = true := by
  cases item with
  | frame f => exact h.2.1
  | command v =>
    obtain ⟨head, arg, payload, rfl, hcmd, -⟩ := h
    exact decide_eq_true hcmd

theorem command_of_isPublish (v : RespValue)
    (h : (Dispatch.command v).isPublish verify keys = true) : ∃ head arg payload,
      v = .array [head, arg, payload] ∧ Session.toUpper head.asString = lit "PUBLISH" := by
  unfold Dispatch.isPublish at h
  split at h
  case h_1 f he => cases he
  case h_2 head arg payload he =>
    cases he
    exact ⟨head, arg, payload, rfl, of_decide_eq_true h⟩
  case h_3 => cases h

theorem publishing_nil_iff (calls : List Call) :
    calls.flatMap (publishing verify).ofCall = [] ↔ ∀ topic data, .publish topic data ∉ calls := by
  rw [List.flatMap_eq_nil_iff]
  constructor
  · intro h topic data hm
    exact List.cons_ne_nil _ _ (h _ hm)
  · intro h call hm
    cases call with
    | publish topic data => exact absurd hm (h topic data)
    | registerClient | subscribe | unsubscribe | handleAck | unregisterClient | removeSession
    | replayMessagesForClient | send => rfl

/-- An accepted request makes one call. -/
theorem publishing_handle_isPublish (item : Dispatch) (h : item.isPublish verify keys = true) :
    ∃ topic data, (Session.handle verify keys s item).2.flatMap (publishing verify).ofCall =
      [(topic, data)] ∧ .publish topic data ∈ (Session.handle verify keys s item).2 := by
  cases item with
  | frame f =>
    rw [Session.handle, Session.handleBinaryFrame_accepted verify keys s f h]
    exact ⟨_, _, rfl, List.mem_cons_self⟩
  | command v =>
    obtain ⟨head, arg, payload, rfl, hcmd⟩ := command_of_isPublish verify keys v h
    -- the name is none of those that are tried before
    have hcalls : Session.handleCommand s (.array [head, arg, payload]) =
        Session.respPublish [arg, payload] := by
      simp only [Session.handleCommand, RespValue.isArray, RespValue.asArray, hcmd]
      rfl
    rw [Session.handle, hcalls]
    exact ⟨_, _, rfl, List.mem_cons_self⟩

/-- A handler publishes what an accepted request carries, and nothing for any other item. -/
theorem publishing_handle (item : Dispatch)
    (hw : ∀ f, item = .frame f → BinaryProtocol.FrameWellFormed f) :
    List.Forall₂ (publishing verify).Matches
      ((Session.handle verify keys s item).2.flatMap (publishing verify).ofCall)
      ((publishing verify).asked keys item) := by
  by_cases hp : item.isPublish verify keys = true
  · obtain ⟨topic, data, he, hm⟩ := publishing_handle_isPublish verify keys s item hp
    have hasked : (publishing verify).asked keys item = [(keys, item)] := if_pos hp
    rw [he, hasked]
    apply List.Forall₂.cons _ List.Forall₂.nil
    exact Session.publishes_of_publish_mem verify keys s item topic data hw hm
  · have hasked : (publishing verify).asked keys item = [] := if_neg hp
    have hnone : (Session.handle verify keys s item).2.flatMap (publishing verify).ofCall = [] := by
      rw [publishing_nil_iff]
      intro topic data hm
      apply hp
      apply isPublish_of_publishes verify keys item topic data
      exact Session.publishes_of_publish_mem verify keys s item topic data hw hm
    rw [hnone, hasked]
    exact List.Forall₂.nil

end Handlers

section Runs

variable {σ ε : Type} [Storage σ ε] (verify : Verify) (hash : HashOrder) (session : SessionId)

theorem publishing_exec (w : World σ) (faults : Faults ε) (s : SessionId) (task : Task) :
    (publishing verify).done session (w.exec hash faults s task).2 =
      if s = session then (publishing verify).ofTask task else [] := by
  have hshown := w.shown_exec hash faults s task
  generalize (w.exec hash faults s task).2 = outs at hshown
  cases hshown with
  | nothing _ hpublish hsend =>
    have hnone : (publishing verify).ofTask task = [] := by
      cases task with
      | call call =>
        cases call with
        | publish topic data => exact absurd rfl (hpublish topic data)
        | send | registerClient | subscribe | unsubscribe | handleAck | unregisterClient
        | removeSession | replayMessagesForClient => rfl
      | replayMessages | loadUnacked | sendStored | sendUnacked => rfl
    rw [hnone, ite_self]
    rfl
  | published topic data =>
    simp only [Effect.done, List.flatMap_cons, List.flatMap_map, Effect.ofTask, publishing]
    simp
  | replied => exact (ite_self _).symm
  | replayed _ m htask => rcases htask with rfl | ⟨c, rfl⟩ <;> exact (ite_self _).symm

theorem publishing_lawful : (publishing verify).Lawful session σ ε verify where
  exec := fun w hash faults s task => publishing_exec verify hash session w faults s task
  dispatched := fun _ _ _ => rfl
  leaving := fun s => (publishing_nil_iff verify _).mpr s.not_publish_overflowCalls
  handled := fun keys s r item hnext =>
    publishing_handle verify keys _ item (wellFormed_of_next s.toReceiver r item hnext)

/-- No update is lost, doubled or reordered on its way to the broker: in every run of one process,
what was published for a session, followed by what its thread has still to publish, are its
accepted publish requests one for one, each with its topic and its payload. -/
theorem published_in_order (db : σ) (is : List (Input ε))
    (h : Meets (World.step verify hash) NoRestart (World.start db) is) :
    List.Forall₂ (publishing verify).Matches
      ((publishing verify).done session (run (World.step verify hash) (World.start db) is).2 ++
        (publishing verify).pending session (run (World.step verify hash) (World.start db) is).1)
      ((publishing verify).requested session (run (World.step verify hash) (World.start db) is).2) :=
  ((publishing_lawful verify session).inOrder_run verify hash session db is h).order

end Runs

section Example

open World

/-- A binary client that connects and publishes twice in one packet. -/
def publishTwice : List (Input (Option MdbError)) :=
  [.accept 0, .recv 0 (BinaryProtocol.serialize (.publish (lit "t") (lit "a") 1) ++
      BinaryProtocol.serialize (.publish (lit "t") (lit "b") 2))] ++ List.replicate 6 (.thread 0 allCommit)

theorem published_in_order_twice :
    List.Forall₂ (publishing fun _ _ _ => true).Matches
      [(lit "t", BinaryProtocol.serialize (.message (lit "t") (lit "a") 1)),
        (lit "t", BinaryProtocol.serialize (.message (lit "t") (lit "b") 2))]
      ((publishing fun _ _ _ => true).requested 0
        (run (World.step (fun _ _ _ => true) insertionOrder) (World.start LmdbFile.empty)
          publishTwice).2) := by
  have h := published_in_order (fun _ _ _ => true) insertionOrder 0 LmdbFile.empty publishTwice
    ⟨trivial, trivial, trivial, trivial, trivial, trivial, trivial, trivial, trivial⟩
  have hdone : (publishing fun _ _ _ => true).done 0
      (run (World.step (fun _ _ _ => true) insertionOrder) (World.start LmdbFile.empty)
        publishTwice).2 ++ (publishing fun _ _ _ => true).pending 0
      (run (World.step (fun _ _ _ => true) insertionOrder) (World.start LmdbFile.empty)
        publishTwice).1 =
      [(lit "t", BinaryProtocol.serialize (.message (lit "t") (lit "a") 1)),
        (lit "t", BinaryProtocol.serialize (.message (lit "t") (lit "b") 2))] := by
    decide
  rw [hdone] at h
  exact h

end Example

end MetricMQ
