import MetricMQ.Clients
import MetricMQ.ReplayRange

/-! Where the messages come from that a session is sent: each was published before, on a topic
the session has asked for, and a signed one was signed with a key the broker trusted then. The
storage may be any that hands back nothing but what was saved in it. -/
namespace MetricMQ

open ByteString Std Machine

/-- The topics an item subscribes its session to. -/
def Dispatch.topics : Dispatch → List Bytes
  | .frame f =>
    if f.command = .subscribe then
      match find f.topic 0 with
      | some sep => [f.topic.drop (sep + 1)]
      | none => [f.topic]
    else []
  | .command (.array (head :: args)) =>
    if Session.toUpper head.asString = lit "SUBSCRIBE" then args.map RespValue.asString else []
  | .command _ => []

/-- The item is a publish that the broker accepts, and hands on as `data`. -/
def Dispatch.Publishes (verify : Verify) (keys : KeyLookups) (topic data : Bytes) :
    Dispatch → Prop
  | .frame f => BinaryProtocol.FrameWellFormed f ∧ Session.acceptsPublish verify keys f = true ∧
      f.topic = topic ∧ ∃ seq, data = BinaryProtocol.serialize (Session.relayFrame f seq)
  | .command v => ∃ head arg payload, v = .array [head, arg, payload] ∧
      Session.toUpper head.asString = lit "PUBLISH" ∧ arg.asString = topic ∧
      data = RespParser.serialize (Session.respMessage topic payload.asString)

/-- The calls that lead to a replay, with its topic. -/
def Call.replayedTopic : Call → Option Bytes
  | .subscribe topic | .replayMessagesForClient topic _ => some topic
  | _ => none

namespace Session

variable (verify : Verify) (keys : KeyLookups) (s : Session)

theorem acceptsPublish_of_publish_mem (f : BinaryFrame) (topic data : Bytes)
    (h : .publish topic data ∈ (handleBinaryFrame verify keys s f).2) :
    acceptsPublish verify keys f = true := by
  rw [handleBinaryFrame] at h
  rw [acceptsPublish]
  cases hc : f.command with
  | publish =>
    simp only [hc, handlePublish] at h ⊢
    split_ifs at h with hs
    · simp [sendBinary] at h
    · simpa using hs
  | signedPublish =>
    simp only [hc, handleSignedPublish] at h ⊢
    split_ifs at h with hv ht
    · simp [sendBinary] at h
    · simp [sendBinary] at h
    · rw [Bool.and_eq_true]
      exact ⟨by simpa using hv, by simpa using ht⟩
  | subscribe =>
    simp only [hc, handleSubscribe] at h
    split at h <;> simp [sendBinary] at h
  | ack =>
    simp only [hc] at h
    split_ifs at h <;> simp at h
  | unsubscribe | ping | signedMessage | message | pong | error | unnamed =>
    simp [hc, sendBinary] at h

/-- A handler publishes what its item asks for. -/
theorem publishes_of_publish_mem (item : Dispatch) (topic data : Bytes)
    (hw : ∀ f, item = .frame f → BinaryProtocol.FrameWellFormed f)
    (h : .publish topic data ∈ (handle verify keys s item).2) :
    item.Publishes verify keys topic data := by
  cases item with
  | frame f =>
    have ha := acceptsPublish_of_publish_mem verify keys s f topic data h
    rw [handle, handleBinaryFrame_accepted verify keys s f ha, publishCalls] at h
    obtain ⟨rfl, rfl⟩ : topic = f.topic ∧ data = _ := by simpa [sendBinary] using h
    exact ⟨hw f rfl, ha, rfl, _, rfl⟩
  | command v =>
    obtain ⟨head, arg, payload, rfl, hcmd, rfl, rfl⟩ := publish_mem_handleCommand s v topic data h
    exact ⟨head, arg, payload, rfl, hcmd, rfl, rfl⟩

theorem topic_of_respSubscribe (args : List RespValue) (i : ℕ) (call : Call) (topic : Bytes)
    (h : call ∈ respSubscribe i args) (ht : call.replayedTopic = some topic) :
    topic ∈ args.map RespValue.asString := by
  induction args generalizing i with
  | nil => cases h
  | cons arg args ih =>
    simp only [respSubscribe, List.mem_cons] at h
    rw [List.map_cons, List.mem_cons]
    rcases h with rfl | rfl | h
    · exact Or.inl (Option.some_inj.mp ht).symm
    · cases ht
    · exact Or.inr (ih (i + 1) h)

theorem topic_of_handleBinaryFrame (f : BinaryFrame) :
    ∀ call ∈ (handleBinaryFrame verify keys s f).2, ∀ topic, call.replayedTopic = some topic →
      topic ∈ (Dispatch.frame f).topics := by
  rw [handleBinaryFrame, Dispatch.topics]
  cases f.command with
  | subscribe =>
    dsimp only
    rw [if_pos rfl, handleSubscribe]
    cases find f.topic 0 <;> simp [sendBinary, Call.replayedTopic]
  | publish =>
    dsimp only
    rcases handlePublish_cases s f with ⟨-, -, text, he, -⟩ | ⟨-, he⟩ <;>
      simp [he, publishCalls, sendBinary, Call.replayedTopic]
  | signedPublish =>
    dsimp only
    rcases handleSignedPublish_cases verify keys s f with ⟨text, -, he⟩ | ⟨-, he⟩ <;>
      simp [he, publishCalls, sendBinary, Call.replayedTopic]
  | ack =>
    dsimp only
    split_ifs <;> simp [Call.replayedTopic]
  | unsubscribe | ping | signedMessage | message | pong | error | unnamed =>
    simp [sendBinary, Call.replayedTopic]

theorem topic_of_handleCommand (v : RespValue) :
    ∀ call ∈ handleCommand s v, ∀ topic, call.replayedTopic = some topic →
      topic ∈ (Dispatch.command v).topics := by
  rw [handleCommand]
  cases v with
  | array arr =>
    cases arr with
    | nil => simp [RespValue.isArray, RespValue.asArray, sendResp, Call.replayedTopic]
    | cons head args =>
      simp only [RespValue.isArray, Bool.not_true, Bool.false_eq_true, ↓reduceIte,
        RespValue.asArray, Dispatch.topics]
      split_ifs with h1
      · exact fun call hcall topic ht => topic_of_respSubscribe args 1 call topic hcall ht
      · intro call hcall topic ht
        obtain ⟨arg, -, hcall⟩ := List.mem_flatMap.mp hcall
        rcases List.mem_pair.mp hcall with rfl | rfl <;> cases ht
      · unfold respPublish
        split <;> simp [sendResp, Call.replayedTopic]
      · unfold respPing
        split <;> simp [sendResp, Call.replayedTopic]
      · unfold respAck
        split
        · split_ifs <;> simp [sendResp, Call.replayedTopic]
        · simp [sendResp, Call.replayedTopic]
      · simp [sendResp, Call.replayedTopic]
  | _ => simp [RespValue.isArray, sendResp, Call.replayedTopic]

/-- A handler subscribes and replays what its item asks for. -/
theorem topic_of_replayed (item : Dispatch) (call : Call) (topic : Bytes)
    (h : call ∈ (handle verify keys s item).2) (ht : call.replayedTopic = some topic) :
    topic ∈ item.topics := by
  cases item with
  | frame f => exact topic_of_handleBinaryFrame verify keys s f call h topic ht
  | command v => exact topic_of_handleCommand s v call h topic ht

theorem exitCalls_known (call : Call) (h : call ∈ s.exitCalls) :
    call.replayedTopic = none ∧ ∀ topic data, call ≠ .publish topic data := by
  rw [exitCalls] at h
  split_ifs at h
  · rw [List.nil_append, List.mem_singleton] at h
    rw [h]
    exact ⟨rfl, fun _ _ h => Call.noConfusion h⟩
  · rcases List.mem_pair.mp h with rfl | rfl
    · exact ⟨rfl, fun _ _ h => Call.noConfusion h⟩
    · exact ⟨rfl, fun _ _ h => Call.noConfusion h⟩

theorem overflowCalls_known (call : Call) (h : call ∈ s.overflowCalls) :
    call.replayedTopic = none ∧ ∀ topic data, call ≠ .publish topic data := by
  rcases List.mem_cons.mp h with rfl | h
  · exact ⟨rfl, fun _ _ h => Call.noConfusion h⟩
  · exact s.exitCalls_known call h

end Session

section Asked

variable {σ ε : Type} [Storage σ ε] (verify : Verify) (hash : HashOrder)

/-- In this step the session's thread takes an item that subscribes it to the topic. -/
def Asks (session : SessionId) (topic : Bytes) (w : World σ) (i : Input ε) : Prop :=
  ∃ item keys, .dispatched session item keys ∈ (w.step verify hash i).2 ∧ topic ∈ item.topics

/-- The session has its connection behind the step. -/
def StaysConnected (session : SessionId) (w : World σ) (i : Input ε) : Prop :=
  ∃ conn, (w.step verify hash i).1.connections[session]? = some conn

/-- The session has asked for the topic over the connection it has now. An earlier connection may
have had the same number; what was asked for over that one does not count. -/
def Asked (db : σ) (is : List (Input ε)) (session : SessionId) (topic : Bytes) : Prop :=
  Since (World.step verify hash) (Asks verify hash session topic) (StaysConnected verify hash session)
    (World.start db) is

end Asked

/-- The session has asked for this publish, and the broker accepted it. -/
def Requested (verify : Verify) (tr : List Output) (session : SessionId) (topic data : Bytes) : Prop :=
  ∃ item keys, .dispatched session item keys ∈ tr ∧ item.Publishes verify keys topic data

section Connected

variable {σ ε : Type} [Storage σ ε] (verify : Verify) (hash : HashOrder) (w : World σ)

omit [Storage σ ε] in
/-- Who makes a call of the broker: the accept loop, `stop`, or the thread of a session with its
first task. -/
theorem mem_methods (i : Input ε) (m : Method ε) (h : m ∈ w.methods i) :
    (∃ session, m = .accept session) ∨ m = .stop ∨
      ∃ session faults conn task rest, i = .thread session faults ∧
        w.connections[session]? = some conn ∧ conn.pending = task :: rest ∧
        m ∈ task.method session faults := by
  cases i with
  | accept session =>
    rw [World.methods] at h
    split_ifs at h
    · cases h
    · exact Or.inl ⟨session, List.mem_singleton.mp h⟩
  | thread session faults =>
    rw [World.methods, World.pendingTask] at h
    cases hconn : w.connections[session]? with
    | none =>
      rw [hconn] at h
      cases h
    | some conn =>
      rw [hconn] at h
      cases hp : conn.pending with
      | nil =>
        simp only [hp, List.head?_nil, Option.elim_none] at h
        cases h
      | cons task rest =>
        simp only [hp, List.head?_cons, Option.elim_some] at h
        exact Or.inr (Or.inr ⟨session, faults, conn, task, rest, rfl, hconn, hp, h⟩)
  | stop => exact Or.inr (Or.inl (List.mem_singleton.mp h))
  | recv | hangup | keyStore | restart => cases h

/-- A call of `publish` is reported by the step that makes it. -/
theorem published_of_method (i : Input ε) (f : PublishFaults ε) (topic data : Bytes)
    (h : .publish f topic data ∈ w.methods i) :
    ∃ session conn, w.connections[session]? = some conn ∧
      .call (.publish topic data) ∈ conn.pending ∧
      .published session topic data (w.broker.currentSequence + 1) ∈ (w.step verify hash i).2 := by
  rcases mem_methods w i _ h with ⟨s, he⟩ | he | ⟨s, faults, conn, task, rest, rfl, hconn, hp, hm⟩
  · cases he
  · cases he
  · have htask : task = .call (.publish topic data) := by
      cases task with
      | call call => cases call <;> simp_all [Task.method]
      | replayMessages | loadUnacked | sendStored | sendUnacked => cases hm
    refine ⟨s, conn, hconn, hp ▸ htask ▸ List.mem_cons_self, ?_⟩
    rw [World.step, w.threadStep_of_task verify hash s faults conn task rest hconn hp, htask]
    simp [World.taskStep, World.exec, World.execCall]

omit [Storage σ ε] in
theorem subscribe_of_method (i : Input ε) (session : SessionId) (topic : Bytes)
    (h : .subscribe session topic ∈ w.methods i) :
    ∃ conn, w.connections[session]? = some conn ∧ .call (.subscribe topic) ∈ conn.pending := by
  rcases mem_methods w i _ h with ⟨s, he⟩ | he | ⟨s, faults, conn, task, rest, rfl, hconn, hp, hm⟩
  · cases he
  · cases he
  · cases task with
    | call call =>
      cases call with
      | subscribe t =>
        obtain ⟨rfl, rfl⟩ := Method.subscribe.inj (List.mem_singleton.mp hm)
        exact ⟨conn, hconn, hp ▸ List.mem_cons_self⟩
      | registerClient | unsubscribe | publish | handleAck | unregisterClient | removeSession
      | replayMessagesForClient | send => simp [Task.method] at hm
    | replayMessages | loadUnacked | sendStored | sendUnacked => cases hm

/-- Whoever is subscribed is connected. -/
def SubscribersConnected (w : World σ) : Prop :=
  ∀ session topic, w.broker.Subscribed session topic → ∃ conn, w.connections[session]? = some conn

/-- A connection goes only with the call that removes its session. -/
theorem connected_step (i : Input ε) (hi : NoRestart w i) (session : SessionId)
    (conn : Connection) (hconn : w.connections[session]? = some conn) :
    (∃ conn', (w.step verify hash i).1.connections[session]? = some conn') ∨
      .removeSession session ∈ w.methods i := by
  have hinsert : ∀ s c, ∃ conn', (w.connections.insert s c)[session]? = some conn' := by
    intro s c
    rw [TreeMap.getElem?_insert]
    split_ifs
    · exact ⟨c, rfl⟩
    · exact ⟨conn, hconn⟩
  have hcase := World.stepCase_step verify hash w i
  revert hcase
  generalize (w.step verify hash i).1 = w'
  generalize (w.step verify hash i).2 = outs
  intro hcase
  cases hcase with
  | nothing | keyed | stopped => exact Or.inl ⟨conn, hconn⟩
  | accepted s => exact Or.inl (hinsert s _)
  | received s | overflowed s | hungUp s | dispatched s => exact Or.inl (hinsert s _)
  | restarted => exact hi.elim
  | worked s faults c task rest hc hp =>
    rw [World.taskStep]
    dsimp only
    split_ifs with htask
    · by_cases hs : s = session
      · right
        rw [World.methods, w.pendingTask_eq s c task rest hc hp, htask, hs]
        exact List.mem_singleton.mpr rfl
      · left
        refine ⟨conn, ?_⟩
        rw [TreeMap.getElem?_erase, if_neg (by simpa [LawfulEqCmp.compare_eq_iff_eq] using hs), hconn]
    · exact Or.inl (hinsert s _)

theorem subscribersConnected_step (i : Input ε) (hlive : w.ConnectedLive)
    (h : SubscribersConnected w) : SubscribersConnected (w.step verify hash i).1 := by
  intro session topic hs
  by_cases hi : NoRestart w i
  · rw [(World.step_methods verify hash w i hlive hi).2.1] at hs
    -- who is subscribed now was subscribed before, or has just made the call
    have hbefore : (∃ conn, w.connections[session]? = some conn) ∧
        .removeSession session ∉ w.methods i := by
      rcases w.methods_cases i with he | ⟨m, he⟩
      · rw [he] at hs ⊢
        exact ⟨h session topic hs, List.not_mem_nil⟩
      · rw [he] at hs
        rcases (w.broker.subscribed_perform hash m session topic).mp hs with rfl | ⟨hold, -, hne⟩
        · obtain ⟨conn, hconn, -⟩ := subscribe_of_method w i session topic (he ▸ List.mem_singleton.mpr rfl)
          rw [he]
          exact ⟨⟨conn, hconn⟩, by simp⟩
        · rw [he]
          exact ⟨h session topic hold, by simpa using Ne.symm hne⟩
    obtain ⟨⟨conn, hconn⟩, hremove⟩ := hbefore
    exact (connected_step verify hash w i hi session conn hconn).resolve_right hremove
  · cases i with
    | restart => exact absurd hs (Broker.not_subscribed_start w.broker.db session topic)
    | accept | recv | hangup | thread | keyStore | stop => exact absurd trivial hi

end Connected

/-- A storage that hands back only what was saved in it; `origin` says what may become of a
topic, a payload and a number. -/
structure HandsBack (σ : Type) {ε : Type} [Storage σ ε] (holds : σ → StoredMessage → Prop)
    (origin : Bytes → Bytes → UInt64 → StoredMessage → Prop) : Prop where
  load : ∀ (db : σ) fromSeq toSeq m, m ∈ Storage.loadRange db fromSeq toSeq → holds db m
  save : ∀ err (db : σ) seq topic data m, holds (Storage.save err db seq topic data) m →
    holds db m ∨ origin topic data seq m
  saveAck : ∀ err (db : σ) clientId seq m, holds (Storage.saveAck err db clientId seq) m → holds db m
  compact : ∀ err (db : σ) maxSeq m, holds (Storage.compact err db maxSeq) m → holds db m
  purgeOldAcks : ∀ err (db : σ) maxSeq m, holds (Storage.purgeOldAcks err db maxSeq) m → holds db m

section Known

variable {σ ε : Type} [Storage σ ε] {holds : σ → StoredMessage → Prop}
  {origin : Bytes → Bytes → UInt64 → StoredMessage → Prop}

/-- A call brings a message into the storage only by publishing it. -/
theorem Broker.holds_perform (hs : HandsBack σ holds origin) (hash : HashOrder) (b : Broker σ)
    (m : Method ε) (msg : StoredMessage) (h : holds (b.perform hash m).db msg) :
    holds b.db msg ∨ ∃ f topic data, m = .publish f topic data ∧
      origin topic data (b.currentSequence + 1) msg := by
  cases m with
  | publish f topic data =>
    rw [perform, publish_db] at h
    have hsaved : holds (savedDb f b topic data) msg →
        holds b.db msg ∨ origin topic data (b.currentSequence + 1) msg := by
      rw [savedDb]
      split_ifs
      · exact hs.save _ _ _ _ _ _
      · exact Or.inl
    obtain ⟨db, he, hdb⟩ := persist_cases f b topic data
    rw [he] at h
    -- a compaction behind the save only takes away
    have hmsg : holds (savedDb f b topic data) msg := by
      rcases hdb with rfl | ⟨-, -, rfl⟩
      · exact h
      · exact hs.compact _ _ _ _ (hs.purgeOldAcks _ _ _ _ h)
    exact (hsaved hmsg).imp_right fun ho => ⟨f, topic, data, rfl, ho⟩
  | handleAck err c n =>
    rw [perform, handleAck] at h
    dsimp only at h
    split_ifs at h
    · exact Or.inl (hs.saveAck _ _ _ _ _ h)
    · exact Or.inl h
  | accept | subscribe | unsubscribe | registerClient | unregisterClient | removeSession | stop =>
    rw [(b.perform_store hash _ rfl).1] at h
    exact Or.inl h

variable (holds origin) in
/-- The message was in the file `db` of the first process, or was published since. -/
def Origin (verify : Verify) (db : σ) (tr : List Output) (m : StoredMessage) : Prop :=
  holds db m ∨ ∃ session topic data seq, .published session topic data seq ∈ tr ∧
    Requested verify tr session topic data ∧ origin topic data seq m

variable (holds origin) in
/-- What a thread is going to do was asked for by its own session, and what it is going to send
of a replay has an origin. -/
def TaskKnown (verify : Verify) (db : σ) (tr : List Output) (session : SessionId)
    (asked : Bytes → Prop) : Task → Prop
  | .call call => (∀ topic, call.replayedTopic = some topic → asked topic) ∧
      ∀ topic data, call = .publish topic data → Requested verify tr session topic data
  | .replayMessages topic _ | .loadUnacked topic _ _ => asked topic
  | .sendStored m | .sendUnacked _ m => asked m.topic ∧ Origin holds origin verify db tr m

variable (holds origin) in
/-- What has come up to a state is known: `asked` says what each session has asked for. -/
structure Known (verify : Verify) (db : σ) (w : World σ) (tr : List Output)
    (asked : SessionId → Bytes → Prop) : Prop where
  live : w.ConnectedLive
  connected : SubscribersConnected w
  stored : ∀ m, holds w.broker.db m → Origin holds origin verify db tr m
  subscribed : ∀ session topic, w.broker.Subscribed session topic → asked session topic
  pending : ∀ session (conn : Connection), w.connections[session]? = some conn →
    ∀ task ∈ conn.pending, TaskKnown holds origin verify db tr session (asked session) task

section Mono

variable {tr : List Output} (outs : List Output)

theorem Requested.append {verify : Verify} {session : SessionId} {topic data : Bytes}
    (h : Requested verify tr session topic data) : Requested verify (tr ++ outs) session topic data := by
  obtain ⟨item, keys, hm, ht⟩ := h
  exact ⟨item, keys, List.mem_append_left outs hm, ht⟩

theorem Origin.append {verify : Verify} {db : σ} {m : StoredMessage} (h : Origin holds origin verify db tr m) :
    Origin holds origin verify db (tr ++ outs) m := by
  rcases h with h | ⟨session, topic, data, seq, hm, hr, ho⟩
  · exact Or.inl h
  · exact Or.inr ⟨session, topic, data, seq, List.mem_append_left outs hm, hr.append outs, ho⟩

theorem TaskKnown.append {verify : Verify} {db : σ} {session : SessionId} {asked asked' : Bytes → Prop}
    {task : Task} (hasked : ∀ topic, asked topic → asked' topic)
    (h : TaskKnown holds origin verify db tr session asked task) :
    TaskKnown holds origin verify db (tr ++ outs) session asked' task := by
  cases task with
  | call call =>
    exact ⟨fun topic ht => hasked topic (h.1 topic ht), fun topic data hc => (h.2 topic data hc).append outs⟩
  | replayMessages | loadUnacked => exact hasked _ h
  | sendStored | sendUnacked => exact ⟨hasked _ h.1, h.2.append outs⟩

end Mono

section Step

variable (verify : Verify) (hash : HashOrder) (db : σ) (w : World σ) (tr : List Output)
  {asked : SessionId → Bytes → Prop}

/-- What a replay selects from a loaded range has an origin, and the topic that was asked for. -/
theorem Known.loaded (hk : Known holds origin verify db w tr asked) (hs : HandsBack σ holds origin)
    (session : SessionId) (topic : Bytes) (ht : asked session topic) (fromSeq toSeq : UInt64)
    (m : StoredMessage)
    (hm : m ∈ (Storage.loadRange w.broker.db fromSeq toSeq).filter fun m => decide (m.topic = topic)) :
    asked session m.topic ∧ Origin holds origin verify db tr m := by
  obtain ⟨hl, htopic⟩ := List.mem_filter.mp hm
  rw [decide_eq_true_eq] at htopic
  rw [htopic]
  exact ⟨ht, hk.stored m (hs.load _ _ _ m hl)⟩

/-- What a replay leaves to do comes out of the storage. -/
theorem taskKnown_followUp (hs : HandsBack σ holds origin) (hk : Known holds origin verify db w tr asked)
    (session : SessionId) (task : Task)
    (ht : TaskKnown holds origin verify db tr session (asked session) task) :
    ∀ next ∈ w.followUp task, TaskKnown holds origin verify db tr session (asked session) next := by
  intro next hn
  cases task with
  | call call =>
    cases call with
    | subscribe topic =>
      rw [List.mem_singleton.mp hn]
      exact ht.1 topic rfl
    | replayMessagesForClient topic clientId =>
      rw [List.mem_singleton.mp hn]
      exact ht.1 topic rfl
    | registerClient | unsubscribe | publish | handleAck | unregisterClient | removeSession | send =>
      cases hn
  | replayMessages topic fromSeq =>
    obtain ⟨m, hm, rfl⟩ := List.mem_map.mp hn
    rw [Broker.replayMessages] at hm
    split_ifs at hm
    · exact hk.loaded verify db w tr hs session topic ht _ _ m hm
    · cases hm
  | loadUnacked topic clientId lastAck =>
    obtain ⟨m, hm, rfl⟩ := List.mem_map.mp hn
    rw [Broker.loadUnacked] at hm
    split_ifs at hm
    · exact hk.loaded verify db w tr hs session topic ht _ _ m hm
    · cases hm
  | sendStored | sendUnacked => cases hn

/-- A frame that a connection dispatches has come from its parser. -/
theorem wellFormed_of_next (r r' : Receiver) (item : Dispatch) (h : r.next = some (item, r')) :
    ∀ f, item = .frame f → BinaryProtocol.FrameWellFormed f := by
  intro f hf
  obtain ⟨n, hp, -⟩ := r.next_eq_some r' item h
  rcases parseFor_eq_some _ _ _ _ hp with ⟨v, -, rfl, -⟩ | ⟨g, -, rfl, hg⟩
  · cases hf
  · rw [← Dispatch.frame.inj hf]
    exact (BinaryProtocol.parse_sound _ _ _ hg).1

omit [Storage σ ε] in
theorem taskKnown_of_plain (session : SessionId) (a : Bytes → Prop) (call : Call)
    (h : call.replayedTopic = none ∧ ∀ topic data, call ≠ .publish topic data) :
    TaskKnown holds origin verify db tr session a (.call call) :=
  ⟨fun topic ht => by simp [h.1] at ht, fun topic data hc => absurd hc (h.2 topic data)⟩

/-- The tasks of a thread behind a step were asked for before, or by the item of the step. -/
theorem pendingKnown_step (hs : HandsBack σ holds origin) (hk : Known holds origin verify db w tr asked) :
    World.ConnectionStep (ε := ε) verify hash w
      (fun s c => ∀ task ∈ c.pending, TaskKnown holds origin verify db tr s (asked s) task)
      (fun outs s c => ∀ task ∈ c.pending, TaskKnown holds origin verify db (tr ++ outs) s
        (fun topic => asked s topic ∨ ∃ item keys, .dispatched s item keys ∈ outs ∧ topic ∈ item.topics)
        task) where
  others := fun i s c _ _ h task ht => (h task ht).append _ fun _ => Or.inl
  idle := fun s c h task ht => (h task ht).append _ fun _ => Or.inl
  fresh := by
    intro s _ task ht
    cases ht
  received := fun s c chunk r _ _ _ h task ht => (h task ht).append _ fun _ => Or.inl
  overflowed := by
    intro s c chunk _ _ _ task ht
    obtain ⟨call, hc, rfl⟩ := List.mem_map.mp ht
    exact taskKnown_of_plain verify db _ s _ call (c.toSession.overflowCalls_known call hc)
  hungUp := by
    intro s c _ _ task ht
    obtain ⟨call, hc, rfl⟩ := List.mem_map.mp ht
    exact taskKnown_of_plain verify db _ s _ call (c.toSession.exitCalls_known call hc)
  worked := by
    intro s c faults task rest _ hp _ h next hn
    have hhead := h task (hp ▸ List.mem_cons_self)
    rcases List.mem_append.mp hn with hn | hn
    · exact (taskKnown_followUp verify db w tr hs hk s task hhead next hn).append _ fun _ => Or.inl
    · exact (h next (hp ▸ List.mem_cons_of_mem task hn)).append _ fun _ => Or.inl
  dispatched := by
    intro s c item r _ _ hnext _ task ht
    obtain ⟨call, hc, rfl⟩ := List.mem_map.mp ht
    -- the step reports the item that asks for what the new calls do
    have hm : Output.dispatched s item (w.lookups s) ∈ [Output.dispatched s item (w.lookups s)] :=
      List.mem_singleton.mpr rfl
    constructor
    · intro topic htopic
      exact Or.inr ⟨item, _, hm, Session.topic_of_replayed verify _ _ item call topic hc htopic⟩
    · rintro topic data rfl
      exact ⟨item, _, List.mem_append_right _ hm,
        Session.publishes_of_publish_mem verify _ _ item topic data
          (wellFormed_of_next c.toReceiver r item hnext) hc⟩

/-- What the storage holds after a step that calls the broker's methods has an origin. -/
theorem stored_known_step (hs : HandsBack σ holds origin) (hk : Known holds origin verify db w tr asked)
    (i : Input ε) (hi : NoRestart w i) (msg : StoredMessage)
    (h : holds (w.step verify hash i).1.broker.db msg) :
    Origin holds origin verify db (tr ++ (w.step verify hash i).2) msg := by
  rw [(World.step_methods verify hash w i hk.live hi).2.1] at h
  rcases w.methods_cases i with he | ⟨m, he⟩
  · rw [he] at h
    exact (hk.stored msg h).append _
  · have hm : m ∈ w.methods i := he ▸ List.mem_singleton.mpr rfl
    rw [he] at h
    -- a message is new because the thread of its publisher has reported it in this step
    rcases w.broker.holds_perform hs hash m msg h with hold | ⟨f, topic, data, rfl, ho⟩
    · exact (hk.stored msg hold).append _
    · obtain ⟨session, conn, hconn, htask, hpub⟩ :=
        published_of_method verify hash w i f topic data hm
      exact Or.inr ⟨session, topic, data, _, List.mem_append_right _ hpub,
        ((hk.pending session conn hconn _ htask).2 topic data rfl).append _, ho⟩

/-- Who is subscribed after a step had asked for the topic before it. -/
theorem subscribed_known_step (hk : Known holds origin verify db w tr asked) (i : Input ε)
    (hi : NoRestart w i) (session : SessionId) (topic : Bytes)
    (h : (w.step verify hash i).1.broker.Subscribed session topic) : asked session topic := by
  rw [(World.step_methods verify hash w i hk.live hi).2.1] at h
  rcases w.methods_cases i with he | ⟨m, he⟩
  · rw [he] at h
    exact hk.subscribed session topic h
  · have hm : m ∈ w.methods i := he ▸ List.mem_singleton.mpr rfl
    rw [he] at h
    -- a subscription is new because its own session had it to do
    rcases (w.broker.subscribed_perform hash m session topic).mp h with rfl | ⟨hold, -⟩
    · obtain ⟨conn, hconn, htask⟩ := subscribe_of_method w i session topic hm
      exact (hk.pending session conn hconn _ htask).1 topic rfl
    · exact hk.subscribed session topic hold

theorem known_step (hs : HandsBack σ holds origin) (hk : Known holds origin verify db w tr asked)
    (i : Input ε) :
    Known holds origin verify db (w.step verify hash i).1 (tr ++ (w.step verify hash i).2)
      (fun session topic => Asks verify hash session topic w i ∨
        asked session topic ∧ StaysConnected verify hash session w i) := by
  have hconnected := subscribersConnected_step verify hash w i hk.live hk.connected
  have hbroker : (∀ m, holds (w.step verify hash i).1.broker.db m →
      Origin holds origin verify db (tr ++ (w.step verify hash i).2) m) ∧
      ∀ session topic, (w.step verify hash i).1.broker.Subscribed session topic →
        asked session topic := by
    cases i with
    | restart =>
      -- the file stays, the subscriptions are gone
      exact ⟨fun m h => (hk.stored m h).append _,
        fun s t h => absurd h (Broker.not_subscribed_start w.broker.db s t)⟩
    | accept | recv | hangup | thread | keyStore | stop =>
      exact ⟨stored_known_step verify hash db w tr hs hk _ trivial,
        subscribed_known_step verify hash db w tr hk _ trivial⟩
  refine ⟨World.connectedLive_step verify hash w i hk.live, hconnected, hbroker.1, ?_, ?_⟩
  · intro session topic h
    exact Or.inr ⟨hbroker.2 session topic h, hconnected session topic h⟩
  · intro session conn hconn task ht
    -- the connection is there behind the step, so what it asked for before it still counts
    have hstays : ∀ topic, (asked session topic ∨ ∃ item keys,
        .dispatched session item keys ∈ (w.step verify hash i).2 ∧ topic ∈ item.topics) →
        Asks verify hash session topic w i ∨ asked session topic ∧ StaysConnected verify hash session w i :=
      fun topic ha => ha.symm.imp_right fun ha => ⟨ha, conn, hconn⟩
    have hknown := ((pendingKnown_step verify hash db w tr hs hk).step hk.pending i session conn hconn task
      ht).append [] hstays
    rwa [List.append_nil] at hknown

variable (holds origin) in
/-- Where a message comes from that is sent to a session under a number: a publish on a topic the
session has asked for, or a replay of one. -/
def Traced (asked : Bytes → Prop) (data : Bytes) (n : UInt64) : Prop :=
  (∃ s topic, .published s topic data n ∈ tr ∧ Requested verify tr s topic data ∧
    (asked topic ∨ asked (lit "#"))) ∨
  ∃ m : StoredMessage, m.payload = data ∧ m.seq = n ∧ asked m.topic ∧
    Origin holds origin verify db tr m

/-- The numbered sends of one task. -/
theorem traced_exec (hk : Known holds origin verify db w tr asked) (faults : Faults ε)
    (s session : SessionId) (conn : Connection) (task : Task) (rest : List Task)
    (hconn : w.connections[s]? = some conn) (hp : conn.pending = task :: rest) (pre : List Output)
    (p : ProtocolType) (data : Bytes) (n : UInt64)
    (h : pre ++ [.sent session p data (some n)] <+: (w.exec hash faults s task).2) :
    Traced holds origin verify db (tr ++ pre) (asked session) data n := by
  have htask := hk.pending s conn hconn task (hp ▸ List.mem_cons_self)
  have hm : .sent session p data (some n) ∈ (w.exec hash faults s task).2 :=
    h.subset (List.mem_append_right _ (List.mem_singleton.mpr rfl))
  obtain ⟨-, ⟨topic, rfl, hr, hn⟩ | ⟨-, -, hn⟩ | ⟨rfl, m, ht, rfl, hn⟩⟩ :=
    w.sent_mem_exec hash faults s session task p data _ hm
  · -- the report of the publish comes before its sends
    have hpub : .published s topic data n ∈ pre := by
      have hshown := w.shown_exec hash faults s (.call (.publish topic data))
      generalize (w.exec hash faults s (.call (.publish topic data))).2 = outs at h hshown
      cases hshown with
      | nothing _ hpublish _ => exact absurd rfl (hpublish topic data)
      | replayed _ m ht => rcases ht with he | ⟨c, he⟩ <;> cases he
      | published =>
        cases pre with
        | nil => simp at h
        | cons o pre =>
          obtain ⟨rfl, -⟩ := List.cons_prefix_cons.mp h
          rw [Option.some_inj.mp hn]
          exact List.mem_cons_self
    refine Or.inl ⟨s, topic, List.mem_append_right _ hpub, (htask.2 topic _ rfl).append _, ?_⟩
    rcases List.mem_append.mp hr with hr | hr
    · exact Or.inl (hk.subscribed _ _ ((w.broker.mem_subscribersOf _ _).mp hr))
    · exact Or.inr (hk.subscribed _ _ ((w.broker.mem_subscribersOf _ _).mp hr))
  · cases hn
  · have hfrom : asked session m.topic ∧ Origin holds origin verify db tr m := by
      rcases ht with rfl | ⟨c, rfl⟩
      · exact htask
      · exact htask
    exact Or.inr ⟨m, rfl, (Option.some_inj.mp hn).symm, hfrom.1, hfrom.2.append _⟩

/-- The numbered sends of one step. -/
theorem traced_step (hk : Known holds origin verify db w tr asked) (i : Input ε) (pre : List Output)
    (session : SessionId) (p : ProtocolType) (data : Bytes) (n : UInt64)
    (h : pre ++ [.sent session p data (some n)] <+: (w.step verify hash i).2) :
    Traced holds origin verify db (tr ++ pre) (asked session) data n := by
  have hm : .sent session p data (some n) ∈ (w.step verify hash i).2 :=
    h.subset (List.mem_append_right _ (List.mem_singleton.mpr rfl))
  rcases w.step_outputs verify hash i with he | ⟨s, item, he⟩ |
    ⟨s, faults, conn, task, rest, -, hconn, hp, he, -⟩
  · rw [he] at hm
    cases hm
  · rw [he] at hm
    simp at hm
  · rw [he] at h
    exact traced_exec verify hash db w tr hk faults s session conn task rest hconn hp pre p data n h

end Step

theorem known_start (verify : Verify) (db : σ) (asked : SessionId → Bytes → Prop) :
    Known holds origin verify db (World.start db) [] asked where
  live := World.connectedLive_start db
  connected := fun s t h => absurd h (Broker.not_subscribed_start db s t)
  stored := fun m h => Or.inl h
  subscribed := fun s t h => absurd h (Broker.not_subscribed_start db s t)
  pending := by
    intro s c hc
    simp [World.start] at hc

/-- Over every run, with any interleaving, any faults and any restarts. -/
theorem known_run (hs : HandsBack σ holds origin) (verify : Verify) (hash : HashOrder) (db : σ)
    (is : List (Input ε)) :
    Known holds origin verify db (run (World.step verify hash) (World.start db) is).1
      (run (World.step verify hash) (World.start db) is).2 (Asked verify hash db is) := by
  induction is using List.reverseRecOn with
  | nil => exact known_start verify db _
  | append_singleton is i ih =>
    have hasked : Asked verify hash db (is ++ [i]) = fun session topic =>
        Asks verify hash session topic (run (World.step verify hash) (World.start db) is).1 i ∨
          Asked verify hash db is session topic ∧
            StaysConnected verify hash session (run (World.step verify hash) (World.start db) is).1 i := by
      funext session topic
      exact propext (since_snoc _ is i)
    have hstep := known_step verify hash db _ _ hs ih i
    rw [run_snoc, run_outputs_snoc, hasked]
    exact hstep

end Known

namespace ContractStore

/-- What the documented storage makes of a message. -/
def Saved (topic data : Bytes) (seq : UInt64) (m : StoredMessage) : Prop := m = ⟨seq, topic, data⟩

theorem handsBack : HandsBack ContractStore Holds Saved where
  load := fun db fromSeq toSeq m hm => ((mem_loadRange db fromSeq toSeq m).mp hm).1
  save := by
    intro _ db seq topic data m hm
    change (db.messages.insert seq (topic, data))[m.seq]? = some (m.topic, m.payload) at hm
    rw [TreeMap.getElem?_insert] at hm
    split_ifs at hm with he
    · rw [LawfulEqCmp.compare_eq_iff_eq] at he
      obtain ⟨ht, hd⟩ := Prod.mk.inj (Option.some_inj.mp hm)
      rw [Saved, he, ht, hd]
      exact Or.inr rfl
    · exact Or.inl hm
  saveAck := fun _ _ _ _ _ hm => hm
  compact := by
    intro _ db maxSeq m hm
    change (SortedCursor.eraseAll db.messages _)[m.seq]? = _ at hm
    rw [SortedCursor.getElem?_eraseAll] at hm
    split_ifs at hm
    exact hm
  purgeOldAcks := fun _ _ _ _ hm => hm

end ContractStore

/-- Over the documented storage, and from the empty one, also what is replayed has been requested
just so. -/
theorem requested_of_traced (verify : Verify) (tr : List Output) {asked : Bytes → Prop} {data : Bytes}
    {n : UInt64} (h : Traced ContractStore.Holds ContractStore.Saved verify ContractStore.empty tr
      asked data n) :
    ∃ s topic, Requested verify tr s topic data ∧ (asked topic ∨ asked (lit "#")) := by
  rcases h with ⟨s, topic, -, hr, ha⟩ |
    ⟨m, rfl, rfl, ha, hold | ⟨s, topic, d, k, -, hr, hsaved⟩⟩
  · exact ⟨s, topic, hr, ha⟩
  · simp [ContractStore.Holds, ContractStore.empty] at hold
  · rw [ContractStore.Saved] at hsaved
    subst hsaved
    exact ⟨s, topic, hr, Or.inl ha⟩

/-- Every message that a run sends under a number was published before with these bytes and this
number, at the request of a session that the broker accepted, on a topic that the receiving
session has asked for over its present connection; or the file `db` held it under such a topic
from the start. -/
def DeliversPublished (verify : Verify) (hash : HashOrder) (db : ContractStore)
    (is : List (Input Unit)) : Prop :=
  ∀ js i, js ++ [i] <+: is → ∀ pre session p data n, pre ++ [.sent session p data (some n)] <+:
      ((run (World.step verify hash) (World.start db) js).1.step verify hash i).2 →
    (∃ s topic,
      .published s topic data n ∈ (run (World.step verify hash) (World.start db) js).2 ++ pre ∧
      Requested verify ((run (World.step verify hash) (World.start db) js).2 ++ pre) s topic data ∧
      (Asked verify hash db js session topic ∨ Asked verify hash db js session (lit "#"))) ∨
    ∃ topic, db.Holds ⟨n, topic, data⟩ ∧ Asked verify hash db js session topic

/-- Nothing is made up on the way, in any run of the system over the documented storage. -/
theorem delivers_published (verify : Verify) (hash : HashOrder) (db : ContractStore)
    (is : List (Input Unit)) : DeliversPublished verify hash db is := by
  intro js i _ pre session p data n hpre
  have hk := known_run ContractStore.handsBack verify hash db js
  rcases traced_step verify hash db _ _ hk i pre session p data n hpre with
    hlive | ⟨m, rfl, rfl, hasked, hold | ⟨s, topic, d, seq, hpub, hr, hsaved⟩⟩
  · exact Or.inl hlive
  · exact Or.inr ⟨m.topic, hold, hasked⟩
  · rw [ContractStore.Saved] at hsaved
    subst hsaved
    exact Or.inl ⟨s, topic, hpub, hr, Or.inl hasked⟩

end MetricMQ
