import MetricMQ.Delivery

/-! Acknowledged publishes and the store. The run of the system is observed together with the
transactions of `save` that commit: a session answers a publish in any case, and only if
every save commits is the answer a promise. -/
namespace MetricMQ

open ByteString Std Machine LmdbStorage

/-- What a step shows, with the commits of saved messages in their place. -/
inductive StoreEvent
  | committed (session : SessionId) (topic data : Bytes)
  | output (o : Output)

namespace Durability

/-- `store'` has a record of the message under the number that was next in `store`. -/
def Saved (store store' : Store) (topic data : Bytes) : Prop :=
  store'[msgKey (nextSeq store)]? = some (msgData topic data) ∧ getLastSeq store' = nextSeq store

instance decidableSaved (store store' : Store) (topic data : Bytes) :
    Decidable (Saved store store' topic data) :=
  inferInstanceAs (Decidable (_ ∧ _))

/-- The save of a publish leaves a record exactly if the storage is open and it commits. -/
theorem saved_iff (f : PublishFaults (Option MdbError)) (b : Broker LmdbFile) (topic data : Bytes) :
    Saved b.db.store (b.savedDb f topic data).store topic data ↔
      b.persistence = true ∧ f.save = none := by
  have hne : getLastSeq b.db.store ≠ nextSeq b.db.store := by
    -- a save that fails leaves the counter where it was
    rw [nextSeq_eq]
    intro he
    have h := congrArg UInt64.toNat he
    rw [UInt64.toNat_add] at h
    change _ = (_ + 1) % 2 ^ 64 at h
    have := (getLastSeq b.db.store).toNat_lt
    omega
  constructor
  · rintro ⟨-, hl⟩
    cases hp : b.persistence with
    | false =>
      rw [Broker.savedDb, hp] at hl
      exact absurd hl hne
    | true =>
      cases hf : f.save with
      | none => exact ⟨rfl, rfl⟩
      | some e =>
        rw [Broker.savedDb, hp, hf] at hl
        exact absurd hl hne
  · rintro ⟨hp, hf⟩
    have hdb : (b.savedDb f topic data).store =
        save none b.db.store (b.currentSequence + 1) topic data := by
      rw [Broker.savedDb, hp, hf]
      rfl
    rw [hdb]
    refine ⟨?_, Broker.getLastSeq_save _ _ _ _⟩
    rw [getElem?_save, if_neg (msgKey_ne_lastSeqKey _).symm, if_pos rfl]

/-- The save that a step commits, if its task is a publish. -/
def commits (w : World LmdbFile) : Input (Option MdbError) → List StoreEvent
  | .thread session faults =>
    match w.pendingTask session with
    | some (.call (.publish topic data)) =>
      if Saved w.broker.db.store (w.broker.savedDb faults.publish topic data).store topic data then
        [.committed session topic data]
      else []
    | _ => []
  | _ => []

/-- A step of the system; a publish saves before it reports and before it writes to anyone. -/
def step (verify : Verify) (hash : HashOrder) (w : World LmdbFile) (i : Input (Option MdbError)) :
    World LmdbFile × List StoreEvent :=
  let r := w.step verify hash i
  (r.1, commits w i ++ r.2.map .output)

/-- The reply that tells a client its publish was accepted. -/
def successReply : Dispatch → Option Bytes
  | .frame f =>
    match f.command with
    | .publish | .signedPublish => some (BinaryProtocol.serialize (.ack f.sequence))
    | _ => none
  | .command (.array [head, _, _]) =>
    if Session.toUpper head.asString = lit "PUBLISH" then some (RespParser.serialize (.integer 1))
    else none
  | .command _ => none

/-- The topic and the string a publish is handed on as; the number in a frame is the session's. -/
def IsMessageOf (item : Dispatch) (topic data : Bytes) : Prop :=
  match item with
  | .frame f => topic = f.topic ∧ ∃ seq, data = BinaryProtocol.serialize (Session.relayFrame f seq)
  | .command (.array [_, arg, payload]) => topic = arg.asString ∧
      data = RespParser.serialize (Session.respMessage arg.asString payload.asString)
  | .command _ => False

/-- What the session dispatched last, and everything seen since. -/
def lastItem (session : SessionId) (tr : List StoreEvent) : Option (Dispatch × List StoreEvent) :=
  tr.foldl (fun acc e =>
    match e with
    | .output (.dispatched s item _) =>
      if s = session then some (item, []) else acc.map fun p => (p.1, p.2 ++ [e])
    | _ => acc.map fun p => (p.1, p.2 ++ [e])) none

/-- Behind the dispatch of the item its message was committed, and only then published; the
writes to subscribers follow the report of the publish. -/
def CommittedFirst (session : SessionId) (item : Dispatch) (since : List StoreEvent) : Prop :=
  ∃ topic data seq a b, IsMessageOf item topic data ∧
    since = a ++ .committed session topic data :: .output (.published session topic data seq) :: b ∧
    ∀ t d n, .output (.published session t d n) ∉ a

/-- Every success reply to a publish comes behind the commit of the message. -/
def RepliesDurable (tr : List StoreEvent) : Prop :=
  ∀ pre session p reply, pre ++ [.output (.sent session p reply none)] <+: tr →
    ∀ item since, lastItem session pre = some (item, since) → successReply item = some reply →
      CommittedFirst session item since

section Trace

variable (session : SessionId) (tr outs : List StoreEvent)

theorem lastItem_dispatched (item : Dispatch) (keys : KeyLookups) :
    lastItem session (tr ++ [.output (.dispatched session item keys)]) = some (item, []) := by
  rw [lastItem, List.foldl_append, List.foldl_cons, List.foldl_nil]
  exact if_pos rfl

/-- Events that are no dispatch of the session come on top of what was seen. -/
theorem lastItem_append
    (h : ∀ item keys, .output (.dispatched session item keys) ∉ outs) :
    lastItem session (tr ++ outs) = (lastItem session tr).map fun p => (p.1, p.2 ++ outs) := by
  induction outs generalizing tr with
  | nil =>
    rw [List.append_nil]
    cases lastItem session tr <;> simp
  | cons e outs ih =>
    have he : lastItem session (tr ++ [e]) = (lastItem session tr).map fun p => (p.1, p.2 ++ [e]) := by
      rw [lastItem, List.foldl_append, List.foldl_cons, List.foldl_nil]
      cases e with
      | committed => rfl
      | output o =>
        cases o with
        | dispatched s item keys =>
          have hs : s ≠ session := by
            rintro rfl
            exact h item keys List.mem_cons_self
          exact if_neg hs
        | published | sent => rfl
    rw [List.append_cons, ih (tr ++ [e]) fun item keys hm => h item keys (List.mem_cons_of_mem e hm),
      he, Option.map_map]
    congr 1
    funext p
    simp

theorem CommittedFirst.append {item : Dispatch} {since : List StoreEvent}
    (h : CommittedFirst session item since) (outs : List StoreEvent) :
    CommittedFirst session item (since ++ outs) := by
  obtain ⟨topic, data, seq, a, b, hm, rfl, ha⟩ := h
  exact ⟨topic, data, seq, a, b ++ outs, hm, by simp, ha⟩

end Trace

section Replies

/-- The command byte tells two frames apart. -/
theorem serialize_ne (f g : BinaryFrame) (h : f.command.toByte ≠ g.command.toByte) :
    BinaryProtocol.serialize f ≠ BinaryProtocol.serialize g := by
  intro he
  rw [BinaryProtocol.serialize_eq, BinaryProtocol.serialize_eq] at he
  simp only [List.cons_append, List.cons.injEq] at he
  exact h he.2.1

theorem error_ne_successReply (text : Bytes) (item : Dispatch) :
    successReply item ≠ some (BinaryProtocol.serialize (.error text)) := by
  intro h
  cases item with
  | frame f =>
    simp only [successReply] at h
    split at h
    · exact serialize_ne (.ack f.sequence) (.error text) (by decide : (5 : UInt8) ≠ 8)
        (Option.some_inj.mp h)
    · exact serialize_ne (.ack f.sequence) (.error text) (by decide : (5 : UInt8) ≠ 8)
        (Option.some_inj.mp h)
    · cases h
  | command v =>
    unfold successReply at h
    split at h
    · rename_i he
      cases he
    · split_ifs at h
      have hr := congrArg List.head? (Option.some_inj.mp h)
      rw [BinaryProtocol.serialize_eq] at hr
      exact absurd (Option.some_inj.mp hr) (by decide : (58 : UInt8) ≠ 1)
    · cases h

/-- A handler that answers a publish with success publishes its message first. -/
theorem calls_of_successReply (verify : Verify) (keys : KeyLookups) (s : Session)
    (item : Dispatch) (reply : Bytes) (hr : successReply item = some reply)
    (hm : .send reply ∈ (Session.handle verify keys s item).2) :
    ∃ topic data, IsMessageOf item topic data ∧
      (Session.handle verify keys s item).2 = [.publish topic data, .send reply] := by
  cases item with
  | frame f =>
    rw [Session.handle, Session.handleBinaryFrame] at hm ⊢
    have herr (text : Bytes) : reply ≠ BinaryProtocol.serialize (.error text) := by
      rintro rfl
      exact error_ne_successReply text (.frame f) hr
    cases hc : f.command with
    | publish =>
      simp only [successReply, hc, Option.some_inj] at hr
      simp only [hc] at hm ⊢
      -- a refused publish is answered with an error frame
      rcases Session.handlePublish_cases s f with ⟨-, -, text, he, -⟩ | ⟨-, he⟩
      · rw [he, List.mem_singleton, Session.sendBinary, Call.send.injEq] at hm
        exact absurd hm (herr _)
      · refine ⟨f.topic, _, ⟨rfl, s.sequence + 1, rfl⟩, ?_⟩
        rw [he, Session.publishCalls, Session.sendBinary, hr, Session.relayFrame, hc, if_neg (by decide)]
    | signedPublish =>
      simp only [successReply, hc, Option.some_inj] at hr
      simp only [hc] at hm ⊢
      rcases Session.handleSignedPublish_cases verify keys s f with ⟨text, -, he⟩ | ⟨-, he⟩
      · rw [he, List.mem_singleton, Session.sendBinary, Call.send.injEq] at hm
        exact absurd hm (herr _)
      · refine ⟨f.topic, _, ⟨rfl, s.sequence + 1, rfl⟩, ?_⟩
        rw [he, Session.publishCalls, Session.sendBinary, hr, Session.relayFrame, if_pos hc]
    | subscribe | unsubscribe | message | ack | ping | pong | error | signedMessage | unnamed =>
      simp [successReply, hc] at hr
  | command v =>
    unfold successReply at hr
    split at hr
    · rename_i he
      cases he
    · rename_i head arg payload he
      cases he
      split_ifs at hr with hp
      refine ⟨arg.asString, _, ⟨rfl, rfl⟩, ?_⟩
      rw [← Option.some_inj.mp hr]
      simp only [Session.handle, Session.handleCommand, RespValue.isArray, RespValue.asArray, hp]
      rfl
    · cases hr

theorem not_send_exitCalls (s : Session) (reply : Bytes) : .send reply ∉ s.exitCalls := by
  rw [Session.exitCalls]
  split_ifs <;> simp

end Replies

section Steps

variable (verify : Verify) (hash : HashOrder)

/-- If the task of the step is a publish, the storage is open and its save commits. -/
def SavesCommit (w : World LmdbFile) : Input (Option MdbError) → Prop
  | .thread session faults => (w.pendingTask session).elim True fun task =>
      task.publishedTopic = none ∨ w.broker.persistence = true ∧ faults.publish.save = none
  | _ => True

instance decidableSavesCommit (w : World LmdbFile) : DecidablePred (SavesCommit w)
  | .thread session _ => inferInstanceAs (Decidable ((w.pendingTask session).elim True _))
  | .accept _ | .recv _ _ | .hangup _ | .keyStore _ | .stop | .restart => isTrue trivial

theorem not_dispatched_exec (w : World LmdbFile) (faults : Faults (Option MdbError))
    (session s : SessionId) (task : Task) (item : Dispatch) (keys : KeyLookups) :
    .dispatched s item keys ∉ (w.exec hash faults session task).2 := by
  cases task with
  | call call => cases call <;> simp [World.exec, World.execCall]
  | sendUnacked clientId m =>
    simp only [World.exec]
    split_ifs <;> simp
  | replayMessages | loadUnacked | sendStored => simp [World.exec]

/-- A string without a number is a reply of the thread itself. -/
theorem reply_mem_exec (w : World LmdbFile) (faults : Faults (Option MdbError))
    (session s : SessionId) (task : Task) (p : ProtocolType) (reply : Bytes)
    (h : .sent s p reply none ∈ (w.exec hash faults session task).2) :
    s = session ∧ task = .call (.send reply) ∧
      (w.exec hash faults session task).2 = [.sent s p reply none] := by
  cases task with
  | call call =>
    cases call with
    | send data =>
      simp only [World.exec, World.execCall, List.mem_singleton, Output.sent.injEq, and_true] at h
      obtain ⟨rfl, rfl, rfl⟩ := h
      exact ⟨rfl, rfl, rfl⟩
    | publish | registerClient | subscribe | replayMessagesForClient | unsubscribe | handleAck
    | unregisterClient | removeSession => simp [World.exec, World.execCall] at h
  | sendUnacked clientId m =>
    simp only [World.exec] at h
    split_ifs at h <;> simp at h
  | replayMessages | loadUnacked | sendStored => simp [World.exec] at h

theorem output_not_mem_commits (w : World LmdbFile) (i : Input (Option MdbError)) (o : Output) :
    .output o ∉ commits w i := by
  unfold commits
  split
  · split
    · split_ifs <;> simp
    · simp
  · simp

theorem output_mem_events (w : World LmdbFile) (i : Input (Option MdbError)) (outs : List Output)
    (o : Output) : .output o ∈ commits w i ++ outs.map .output ↔ o ∈ outs := by
  rw [List.mem_append, List.mem_map]
  constructor
  · rintro (h | ⟨o', ho, he⟩)
    · exact absurd h (output_not_mem_commits w i o)
    · rw [← StoreEvent.output.inj he]
      exact ho
  · exact fun h => Or.inr ⟨o, h, rfl⟩

/-- A pending success reply answers the item dispatched last: its message is committed, or the
publish stands right before the reply. -/
def Answering (tr : List StoreEvent) (session : SessionId) (conn : Connection) : Prop :=
  ∀ item since reply, lastItem session tr = some (item, since) → successReply item = some reply →
    .call (.send reply) ∈ conn.pending →
    CommittedFirst session item since ∨ ∃ topic data, IsMessageOf item topic data ∧
      conn.pending = [.call (.publish topic data), .call (.send reply)] ∧
      ∀ t d n, .output (.published session t d n) ∉ since

theorem Answering.append {tr : List StoreEvent} {session : SessionId} {conn : Connection}
    (h : Answering tr session conn) (outs : List StoreEvent)
    (hd : ∀ item keys, .output (.dispatched session item keys) ∉ outs)
    (hp : ∀ t d n, .output (.published session t d n) ∉ outs) :
    Answering (tr ++ outs) session conn := by
  intro item since reply hl hr hm
  rw [lastItem_append session tr outs hd] at hl
  obtain ⟨⟨item', since'⟩, hl', he⟩ := Option.map_eq_some_iff.mp hl
  obtain ⟨rfl, rfl⟩ := Prod.mk.inj he
  rcases h item' since' reply hl' hr hm with hc | ⟨topic, data, hmsg, hpend, hnone⟩
  · exact Or.inl (hc.append session outs)
  · refine Or.inr ⟨topic, data, hmsg, hpend, ?_⟩
    intro t d n hmem
    rcases List.mem_append.mp hmem with hmem | hmem
    · exact hnone t d n hmem
    · exact hp t d n hmem

theorem answering_of_not_send (tr : List StoreEvent) (session : SessionId) (conn : Connection)
    (h : ∀ item reply, successReply item = some reply → .call (.send reply) ∉ conn.pending) :
    Answering tr session conn :=
  fun item _ reply _ hr hm => absurd hm (h item reply hr)

theorem commits_publish (w : World LmdbFile) (session : SessionId)
    (faults : Faults (Option MdbError)) (topic data : Bytes)
    (ht : w.pendingTask session = some (.call (.publish topic data)))
    (hC : SavesCommit w (.thread session faults)) :
    commits w (.thread session faults) = [.committed session topic data] := by
  rw [SavesCommit, ht, Option.elim_some] at hC
  have hs := (saved_iff faults.publish w.broker topic data).mpr (hC.resolve_left (by simp [Task.publishedTopic]))
  rw [commits, ht]
  exact if_pos hs

/-- The thread's own task: a reply left over has its publish behind it. -/
theorem answering_worked (w : World LmdbFile) (tr : List StoreEvent) (session : SessionId)
    (faults : Faults (Option MdbError)) (conn : Connection) (task : Task) (rest : List Task)
    (hC : SavesCommit w (.thread session faults)) (hconn : w.connections[session]? = some conn)
    (hpending : conn.pending = task :: rest) (h : Answering tr session conn) :
    Answering (tr ++ (commits w (.thread session faults) ++
        ((w.exec hash faults session task).2.map .output))) session
      { conn with pending := w.followUp task ++ rest } := by
  intro item since reply hl hr hm
  have hrest : .call (.send reply) ∈ rest := by
    rcases List.mem_append.mp hm with hm | hm
    · exact absurd hm (w.not_call_followUp task _)
    · exact hm
  have hd : ∀ item keys, .output (.dispatched session item keys) ∉
      commits w (.thread session faults) ++ (w.exec hash faults session task).2.map .output := by
    intro item keys hmem
    exact not_dispatched_exec hash w faults session session task item keys
      ((output_mem_events w _ _ _).mp hmem)
  -- whatever the task was, with it done the message of the reply is committed
  rw [lastItem_append session tr _ hd] at hl
  obtain ⟨⟨item', since'⟩, hl', he⟩ := Option.map_eq_some_iff.mp hl
  obtain ⟨rfl, rfl⟩ := Prod.mk.inj he
  left
  rcases h item' since' reply hl' hr (hpending ▸ List.mem_cons_of_mem task hrest) with
    hc | ⟨topic, data, hmsg, hpend, hnone⟩
  · exact hc.append session _
  · rw [hpending] at hpend
    obtain ⟨rfl, rfl⟩ := List.cons.inj hpend
    -- the task is the publish itself, and its commit comes before its report
    rw [commits_publish w session faults topic data (w.pendingTask_eq _ _ _ _ hconn hpending) hC]
    exact ⟨topic, data, _, since', _, hmsg, rfl, hnone⟩

/-- A new item: the handler's calls are pending, and nothing was published for it yet. -/
theorem answering_dispatched (w : World LmdbFile) (tr : List StoreEvent) (session : SessionId)
    (s : Session) (item : Dispatch) (conn : Connection)
    (hpending : conn.pending = (Session.handle verify (w.lookups session) s item).2.map .call) :
    Answering (tr ++ [.output (.dispatched session item (w.lookups session))]) session conn := by
  intro item' since reply hl hr hm
  rw [lastItem_dispatched] at hl
  obtain ⟨rfl, rfl⟩ := Prod.mk.inj (Option.some_inj.mp hl)
  rw [hpending] at hm ⊢
  obtain ⟨topic, data, hmsg, hcalls⟩ := calls_of_successReply verify _ s item reply hr
    (World.mem_map_call.mp hm)
  refine Or.inr ⟨topic, data, hmsg, ?_, by simp⟩
  rw [hcalls]
  rfl

theorem answering_step (w : World LmdbFile) (tr : List StoreEvent) (i : Input (Option MdbError))
    (hC : SavesCommit w i) (hw : ∀ s c, w.connections[s]? = some c → Answering tr s c) :
    ∀ s c, (step verify hash w i).1.connections[s]? = some c →
      Answering (tr ++ (step verify hash w i).2) s c := by
  have hcase := World.stepCase_step verify hash w i
  rw [step]
  dsimp only
  revert hcase
  generalize (w.step verify hash i).1 = w'
  generalize (w.step verify hash i).2 = outs
  intro hcase
  -- what another thread does is neither a dispatch nor a publish of this one
  have hother : ∀ s c, w.connections[s]? = some c → (∀ item keys, .dispatched s item keys ∉ outs) →
      (∀ t d n, .published s t d n ∉ outs) → Answering (tr ++ (commits w i ++ outs.map .output)) s c := by
    intro s c hc hd hp
    refine (hw s c hc).append _ ?_ ?_
    · exact fun item keys hm => hd item keys ((output_mem_events w i outs _).mp hm)
    · exact fun t d n hm => hp t d n ((output_mem_events w i outs _).mp hm)
  cases hcase with
  | nothing => exact fun s c hc => hother s c hc (by simp) (by simp)
  | accepted session b hfree hb =>
    exact World.forall_insert _ _ _ _ (fun s c _ hc => hother s c hc (by simp) (by simp))
      (answering_of_not_send _ _ _ (by simp))
  | received session chunk conn r hconn hpending hr =>
    refine World.forall_insert _ _ _ _ (fun s c _ hc => hother s c hc (by simp) (by simp))
      (answering_of_not_send _ _ _ ?_)
    simp [hpending]
  | overflowed session chunk conn hconn hr =>
    refine World.forall_insert _ _ _ _ (fun s c _ hc => hother s c hc (by simp) (by simp))
      (answering_of_not_send _ _ _ ?_)
    intro item reply hreply hm
    rw [World.mem_map_call, Session.overflowCalls, Session.sendBinary, List.mem_cons,
      Call.send.injEq] at hm
    rcases hm with rfl | hm
    · exact error_ne_successReply _ item hreply
    · exact not_send_exitCalls _ reply hm
  | hungUp session conn hconn =>
    refine World.forall_insert _ _ _ _ (fun s c _ hc => hother s c hc (by simp) (by simp))
      (answering_of_not_send _ _ _ ?_)
    intro item reply _ hm
    exact not_send_exitCalls _ reply (World.mem_map_call.mp hm)
  | worked session faults conn task rest hconn hpending =>
    apply World.forall_taskStep
    · intro s c hs hc
      refine hother s c hc (not_dispatched_exec hash w faults session s task) ?_
      intro t d n hm
      exact hs (w.published_mem_exec hash faults session s task t d n hm).1
    · intro _
      exact answering_worked hash w tr session faults conn task rest hC hconn hpending
        (hw session conn hconn)
  | dispatched session faults conn item r hconn hpending hnext =>
    apply World.forall_insert
    · intro s c hs hc
      refine hother s c hc (fun item' keys hm => ?_) (fun t d n hm => ?_)
      · obtain ⟨he, -⟩ := Output.dispatched.inj (List.mem_singleton.mp hm)
        exact hs he
      · exact Output.noConfusion (List.mem_singleton.mp hm)
    · rw [World.dispatchStep, List.map_singleton, ← List.append_assoc]
      apply answering_dispatched verify w _ session { conn.toSession with toReceiver := r } item
      rfl
  | keyed | stopped => exact fun s c hc => hother s c hc (by simp) (by simp)
  -- a new process has no connections
  | restarted =>
    intro s c hc
    rw [TreeMap.getElem?_emptyc] at hc
    cases hc

theorem repliesDurable_step (w : World LmdbFile) (tr : List StoreEvent)
    (i : Input (Option MdbError)) (hw : ∀ s c, w.connections[s]? = some c → Answering tr s c)
    (h : RepliesDurable tr) : RepliesDurable (tr ++ (step verify hash w i).2) := by
  intro pre session p reply hpre item since hl hr
  rcases snoc_prefix_append _ _ _ _ hpre with hold | ⟨pre', rfl, hnew⟩
  · exact h pre session p reply hold item since hl hr
  · have hm : .sent session p reply none ∈ (w.step verify hash i).2 :=
      (output_mem_events w i _ _).mp
        (hnew.subset (List.mem_append_right _ (List.mem_singleton.mpr rfl)))
    rcases w.step_outputs verify hash i with he | ⟨s, item', he⟩ |
      ⟨s, faults, conn, task, rest, rfl, hconn, hp, he, -⟩
    · rw [he] at hm
      cases hm
    · rw [he] at hm
      simp at hm
    · rw [he] at hm
      obtain ⟨rfl, rfl, hout⟩ := reply_mem_exec hash w faults s session task p reply hm
      -- a reply is the only event of its step
      have hc : commits w (.thread session faults) = [] := by
        rw [commits, w.pendingTask_eq session conn _ rest hconn hp]
      rw [step] at hnew
      dsimp only at hnew
      rw [hc, he, hout, List.nil_append, List.map_singleton] at hnew
      obtain rfl : pre' = [] := by
        have hlen := hnew.length_le
        simp only [List.length_append, List.length_singleton] at hlen
        exact List.length_eq_zero_iff.mp (by omega)
      rw [List.append_nil] at hl
      rcases hw session conn hconn item since reply hl hr (hp ▸ List.mem_cons_self) with
        hdone | ⟨topic, data, -, hpend, -⟩
      · exact hdone
      · rw [hp] at hpend
        cases hpend

/-- In every run in which each publish finds the storage open and its save commits, whatever
else fails, every success reply comes behind the commit of its message. -/
theorem replies_durable (db : LmdbFile) (is : List (Input (Option MdbError)))
    (h : Meets (step verify hash) SavesCommit (World.start db) is) :
    RepliesDurable (run (step verify hash) (World.start db) is).2 := by
  let I : World LmdbFile → List StoreEvent → Prop := fun w tr =>
    (∀ s c, w.connections[s]? = some c → Answering tr s c) ∧ RepliesDurable tr
  have hstep : ∀ w tr (i : Input (Option MdbError)), I w tr → SavesCommit w i →
      I (step verify hash w i).1 (tr ++ (step verify hash w i).2) := by
    intro w tr i hI hC
    exact ⟨answering_step verify hash w tr i hC hI.1, repliesDurable_step verify hash w tr i hI.1 hI.2⟩
  have hinit : I (World.start db) [] := by
    constructor
    · intro s c hc
      simp [World.start] at hc
    · intro pre session p reply hpre
      simp at hpre
  exact (run_invariant I hstep (World.start db) [] is hinit h).2

end Steps

section Runs

open World

/-- One client publishes a frame; `faults` is how the transactions of the publish end. -/
def publishRun (faults : Faults (Option MdbError)) : List (Input (Option MdbError)) :=
  [.accept 0, .recv 0 (BinaryProtocol.serialize (.publish (lit "t") (lit "a") 7)),
    .thread 0 allCommit, .thread 0 faults, .thread 0 allCommit]

/-- The same publish while the broker shuts down. -/
def publishAfterStop : List (Input (Option MdbError)) :=
  [.accept 0, .recv 0 (BinaryProtocol.serialize (.publish (lit "t") (lit "a") 7)), .stop,
    .thread 0 allCommit, .thread 0 allCommit, .thread 0 allCommit]

def failedCommit : Faults (Option MdbError) := ⟨⟨some .commit, none, none⟩, none⟩

theorem replies_durable_publish :
    (run (step (fun _ _ _ => true) insertionOrder) (World.start LmdbFile.empty)
      (publishRun allCommit)).2.length = 4 ∧
    RepliesDurable (run (step (fun _ _ _ => true) insertionOrder) (World.start LmdbFile.empty)
      (publishRun allCommit)).2 :=
  ⟨by decide, replies_durable _ _ _ _ (by decide)⟩

/-- The client is told success in a run of dispatch, publish and reply without a commit. -/
theorem not_repliesDurable (f : BinaryFrame) (keys : KeyLookups) (data : Bytes) (seq : UInt64)
    (p : ProtocolType) (hf : f.command = .publish) :
    ¬ RepliesDurable [.output (.dispatched 0 (.frame f) keys), .output (.published 0 f.topic data seq),
      .output (.sent 0 p (BinaryProtocol.serialize (.ack f.sequence)) none)] := by
  intro h
  obtain ⟨topic, d, n, a, b, -, hs, -⟩ := h
    [.output (.dispatched 0 (.frame f) keys), .output (.published 0 f.topic data seq)] 0 p _
    List.prefix_rfl (.frame f) [.output (.published 0 f.topic data seq)] rfl
    (by rw [successReply, hf])
  have hm : .committed 0 topic d ∈ [StoreEvent.output (.published 0 f.topic data seq)] := by
    rw [hs]
    simp
  simp at hm

/-- Neither a failed commit nor a stopped broker keeps the client from its acknowledgement. -/
theorem acknowledged_without_commit :
    ¬ RepliesDurable (run (step (fun _ _ _ => true) insertionOrder) (World.start LmdbFile.empty)
      (publishRun failedCommit)).2 ∧
    ¬ RepliesDurable (run (step (fun _ _ _ => true) insertionOrder) (World.start LmdbFile.empty)
      publishAfterStop).2 :=
  ⟨not_repliesDurable (.publish (lit "t") (lit "a") 7) {} _ _ _ rfl,
    not_repliesDurable (.publish (lit "t") (lit "a") 7) {} _ _ _ rfl⟩

end Runs

end Durability

end MetricMQ
