import MetricMQ.Routing

/-! The table `client_sessions_` while sessions come, take client ids and go. Three steps spoil
it: a session takes a second id, a session erases the entry of another one, and a session whose
id is empty goes without erasing its own. -/
namespace MetricMQ

open ByteString Std Machine

/-- The client id that a subscribe frame brings. -/
def Dispatch.newId : Dispatch → Option Bytes
  | .frame f => if f.command = .subscribe then (find f.topic 0).map fun sep => f.topic.take sep
      else none
  | .command _ => none

section Conditions

variable {σ ε : Type} [Storage σ ε]

namespace World

/-- The session is connected and has not left its receive loop. -/
def isOpen (w : World σ) (s : SessionId) : Bool :=
  (w.connections[s]?).any fun conn => !conn.closing

/-- The session is about to take a new id while the table leads to it under its present one. -/
def leavesId (w : World σ) (session : SessionId) : Bool :=
  (w.connections[session]?).any fun conn =>
    ((w.nextItem session).bind Dispatch.newId).any fun id =>
      decide (id ≠ conn.clientId) &&
        decide (w.broker.clientSessions[conn.clientId]? = some session)

/-- The session is about to erase an entry that leads to another, open one. -/
def erasesOther (w : World σ) (session : SessionId) : Bool :=
  match w.pendingTask session with
  | some (.call (.unregisterClient id)) =>
    (w.broker.clientSessions[id]?).any fun s => decide (s ≠ session) && w.isOpen s
  | _ => false

/-- The session is about to be removed while the table leads to it under the empty id. -/
def leavesEmptyId (w : World σ) (session : SessionId) : Bool :=
  decide (w.pendingTask session = some (.call .removeSession)) &&
    decide (w.broker.clientSessions[([] : Bytes)]? = some session)

/-- The registration that a step makes. -/
def registration (w : World σ) : Input ε → Option (SessionId × Bytes)
  | .thread session _ =>
    match w.pendingTask session with
    | some (.call (.registerClient id)) => some (session, id)
    | _ => none
  | _ => none

end World

/-- None of the three steps that spoil the table. -/
def RegistryKept (w : World σ) : Input ε → Prop
  | .thread session _ =>
    w.leavesId session = false ∧ w.erasesOther session = false ∧ w.leavesEmptyId session = false
  | _ => True

def Registers (s : SessionId) (id : Bytes) (w : World σ) (i : Input ε) : Prop :=
  w.registration i = some (s, id)

instance (s : SessionId) (id : Bytes) (w : World σ) (i : Input ε) :
    Decidable (Registers s id w i) :=
  inferInstanceAs (Decidable (_ = _))

/-- The session does not disconnect, takes no other id, and no other session takes this one. -/
def StaysRegistered (verify : Verify) (hash : HashOrder) (s : SessionId) (id : Bytes) (w : World σ)
    (i : Input ε) : Prop :=
  (w.step verify hash i).1.isOpen s = true ∧
    (w.registration i).all (fun p => decide (p.1 = s ↔ p.2 = id)) = true

instance (verify : Verify) (hash : HashOrder) (s : SessionId) (id : Bytes) (w : World σ)
    (i : Input ε) : Decidable (StaysRegistered verify hash s id w i) :=
  inferInstanceAs (Decidable (_ ∧ _))

/-- After a run of the system every entry leads to a session that was not removed and has this
id, and an open session that registered an id last is found under it. -/
structure RegistryAccurate (verify : Verify) (hash : HashOrder) (db : σ) (is : List (Input ε)) :
    Prop where
  entries : ∀ id s,
    (run (World.step verify hash) (World.start db) is).1.broker.clientSessions[id]? = some s →
      s ∈ (run (World.step verify hash) (World.start db) is).1.broker.sessions ∧
      ∃ conn, (run (World.step verify hash) (World.start db) is).1.connections[s]? = some conn ∧
        conn.clientId = id
  registered : ∀ s id,
    Since (World.step verify hash) (Registers s id) (StaysRegistered verify hash s id)
      (World.start db) is →
    (run (World.step verify hash) (World.start db) is).1.broker.clientSessions[id]? = some s

end Conditions

section Handler

/-- A task of the receive loop, in a session with this client id. -/
def Task.InLoop (clientId : Bytes) : Task → Prop
  | .call c => c.InLoop clientId
  | _ => True

namespace Session

variable (verify : Verify) (keys : KeyLookups) (s : Session)

/-- A handler changes the client id only to the one the frame brings. -/
theorem handle_clientId (item : Dispatch) :
    (handle verify keys s item).1.clientId = item.newId.getD s.clientId := by
  cases item with
  | command v => rfl
  | frame f =>
    rw [handle, handleBinaryFrame, Dispatch.newId]
    cases hc : f.command with
    | subscribe =>
      simp only [↓reduceIte, handleSubscribe]
      cases find f.topic 0 <;> rfl
    | publish =>
      dsimp only
      rcases handlePublish_cases s f with ⟨-, h, -⟩ | ⟨-, h⟩ <;> rw [h] <;> rfl
    | signedPublish =>
      dsimp only
      rcases handleSignedPublish_cases verify keys s f with ⟨text, -, h⟩ | ⟨-, h⟩ <;> rw [h] <;> rfl
    | unsubscribe | ping | ack | signedMessage | message | pong | error | unnamed => rfl

theorem inLoop_handle (item : Dispatch) :
    ∀ task ∈ (handle verify keys s item).2.map Task.call,
      task.InLoop (handle verify keys s item).1.clientId := by
  intro task htask
  obtain ⟨call, hcall, rfl⟩ := List.mem_map.mp htask
  cases item with
  | frame f => exact inLoop_handleBinaryFrame verify keys s f call hcall
  | command v => exact inLoop_handleCommand s _ v call hcall

/-- The way out of the receive loop, read from the task at hand. -/
theorem suffix_overflowCalls (task : Task) (rest : List Task)
    (h : task :: rest <:+ s.overflowCalls.map Task.call) :
    (∃ data, task = .call (.send data) ∧ rest = s.exitCalls.map .call) ∨
    (task = .call (.unregisterClient s.clientId) ∧ rest = [.call .removeSession]) ∨
    (task = .call .removeSession ∧ rest = []) := by
  rw [overflowCalls, List.map_cons, List.suffix_cons_iff, List.cons.injEq] at h
  rcases h with ⟨rfl, rfl⟩ | h
  · exact Or.inl ⟨_, rfl, rfl⟩
  · rw [exitCalls] at h
    split_ifs at h with hid
    · simp [List.suffix_cons_iff] at h
      exact Or.inr (Or.inr h)
    · simp [List.suffix_cons_iff] at h
      exact Or.inr h

end Session

/-- What the thread of a connection has still to do. -/
structure Connection.TasksFit (conn : Connection) : Prop where
  loop : conn.closing = false → ∀ task ∈ conn.pending, task.InLoop conn.clientId
  exit : conn.closing = true →
    conn.pending ≠ [] ∧ conn.pending <:+ conn.overflowCalls.map Task.call

namespace Connection

variable (conn : Connection)

theorem tasksFit_exit (tasks : List Task) (hne : tasks ≠ [])
    (h : tasks <:+ conn.overflowCalls.map Task.call) :
    TasksFit { conn with pending := tasks, closing := true } :=
  ⟨fun h => Bool.noConfusion h, fun _ => ⟨hne, h⟩⟩

theorem tasksFit_hungUp :
    TasksFit { conn with pending := conn.exitCalls.map .call, closing := true } := by
  apply tasksFit_exit
  · rw [Session.exitCalls, List.map_append]
    exact List.append_ne_nil_of_right_ne_nil _ (List.cons_ne_nil _ _)
  · rw [Session.overflowCalls, List.map_cons]
    exact List.suffix_cons _ _

/-- A task that is not the last one leaves the connection with tasks that fit. -/
theorem tasksFit_worked {σ ε : Type} [Storage σ ε] (w : World σ) (task : Task) (rest : List Task)
    (hconn : conn.TasksFit) (hp : conn.pending = task :: rest) (htask : task ≠ .call .removeSession) :
    TasksFit { conn with pending := w.followUp task ++ rest } := by
  cases hc : conn.closing with
  | false =>
    -- what a task leaves to do are parts of a replay
    refine ⟨fun _ => ?_, fun h => Bool.noConfusion h⟩
    have hloop := hconn.loop hc
    rw [hp] at hloop
    intro t ht
    rcases List.mem_append.mp ht with ht | ht
    · cases t with
      | call c => exact absurd ht (w.not_call_followUp task c)
      | replayMessages | loadUnacked | sendStored | sendUnacked => trivial
    · exact hloop t (List.mem_cons_of_mem task ht)
  | true =>
    obtain ⟨-, hsuffix⟩ := hconn.exit hc
    rw [hp] at hsuffix
    have hrest : rest <:+ conn.overflowCalls.map Task.call :=
      (List.suffix_cons task rest).trans hsuffix
    rcases conn.suffix_overflowCalls task rest hsuffix with ⟨data, rfl, rfl⟩ | ⟨rfl, rfl⟩ | ⟨rfl, -⟩
    · exact tasksFit_hungUp conn
    · exact tasksFit_exit conn _ (List.cons_ne_nil _ _) hrest
    · exact absurd rfl htask

variable {conn} in
/-- Who registers is in the receive loop, and registers under its client id. -/
theorem TasksFit.of_registerClient (hfit : conn.TasksFit) (id : Bytes) (rest : List Task)
    (hp : conn.pending = .call (.registerClient id) :: rest) :
    conn.closing = false ∧ id = conn.clientId := by
  have hopen : conn.closing = false := by
    rw [← Bool.not_eq_true]
    intro hc
    have hsuffix := (hfit.exit hc).2
    rw [hp] at hsuffix
    rcases conn.suffix_overflowCalls _ rest hsuffix with ⟨_, he, -⟩ | ⟨he, -⟩ | ⟨he, -⟩ <;> cases he
  have hmem : .call (.registerClient id) ∈ conn.pending := by
    rw [hp]
    exact List.mem_cons_self
  exact ⟨hopen, hfit.loop hopen _ hmem⟩

variable {conn} in
/-- Who makes a call of the way out has left the receive loop, and erases its client id. -/
theorem TasksFit.of_exit (hfit : conn.TasksFit) (task : Task) (rest : List Task)
    (hp : conn.pending = task :: rest) (htask : ¬ task.InLoop conn.clientId) :
    conn.closing = true ∧
      (task = .call (.unregisterClient conn.clientId) ∨ task = .call .removeSession ∧ rest = []) := by
  have hclosing : conn.closing = true := by
    rw [← Bool.not_eq_false]
    intro hc
    refine htask (hfit.loop hc task ?_)
    rw [hp]
    exact List.mem_cons_self
  have hsuffix := (hfit.exit hclosing).2
  rw [hp] at hsuffix
  refine ⟨hclosing, ?_⟩
  rcases conn.suffix_overflowCalls _ rest hsuffix with ⟨_, rfl, -⟩ | ⟨rfl, -⟩ | h
  · exact absurd trivial htask
  · exact Or.inl rfl
  · exact Or.inr h

end Connection

end Handler

section Entries

/-- The connection has this id, and before it goes it will erase the entry of the id. -/
def Connection.Holds (conn : Connection) (id : Bytes) : Prop :=
  conn.clientId = id ∧
    (conn.closing = true → id ≠ [] → .call (.unregisterClient id) ∈ conn.pending)

/-- Every entry leads to a connection that holds the id. -/
def EntriesHeld (registry : TreeMap Bytes SessionId) (connections : TreeMap SessionId Connection) :
    Prop :=
  ∀ (id : Bytes) (s : SessionId), registry[id]? = some s →
    ∃ conn : Connection, connections[s]? = some conn ∧ conn.Holds id

/-- What a task of a session does to `client_sessions_`. -/
def Task.onRegistry (session : SessionId) (registry : TreeMap Bytes SessionId) :
    Task → TreeMap Bytes SessionId
  | .call (.registerClient id) => registry.insert id session
  | .call (.unregisterClient id) => registry.erase id
  | _ => registry

variable (registry : TreeMap Bytes SessionId) (connections : TreeMap SessionId Connection)
  (session : SessionId)

variable {registry connections session} in
theorem EntriesHeld.holds (h : EntriesHeld registry connections) {conn : Connection}
    (hconn : connections[session]? = some conn) {id : Bytes} (hid : registry[id]? = some session) :
    conn.Holds id := by
  obtain ⟨conn', hconn', hholds⟩ := h id session hid
  obtain rfl := Option.some_inj.mp (hconn.symm.trans hconn')
  exact hholds

theorem entriesHeld_insert (conn : Connection) (h : EntriesHeld registry connections)
    (hc : ∀ id : Bytes, registry[id]? = some session → conn.Holds id) :
    EntriesHeld registry (connections.insert session conn) := by
  intro id s hs
  rw [TreeMap.getElem?_insert]
  split_ifs with he <;> rw [LawfulEqCmp.compare_eq_iff_eq] at he
  · subst he
    exact ⟨conn, rfl, hc id hs⟩
  · exact h id s hs

theorem entriesHeld_erase (h : EntriesHeld registry connections)
    (hno : ∀ id : Bytes, registry[id]? ≠ some session) :
    EntriesHeld registry (connections.erase session) := by
  intro id s hs
  rw [TreeMap.getElem?_erase]
  split_ifs with he
  · rw [LawfulEqCmp.compare_eq_iff_eq] at he
    subst he
    exact absurd hs (hno id)
  · exact h id s hs

/-- A session enters itself under the id it has, and an entry may be erased at any time. -/
theorem entriesHeld_onRegistry (conn : Connection) (task : Task) (rest : List Task)
    (h : EntriesHeld registry connections) (hconn : connections[session]? = some conn)
    (hfit : conn.TasksFit) (hp : conn.pending = task :: rest) :
    EntriesHeld (task.onRegistry session registry) connections := by
  cases task with
  | call c =>
    cases c with
    | registerClient id =>
      obtain ⟨hopen, hid⟩ := hfit.of_registerClient id rest hp
      intro id' s hs
      rw [Task.onRegistry, TreeMap.getElem?_insert] at hs
      split_ifs at hs with he
      · rw [LawfulEqCmp.compare_eq_iff_eq] at he
        rw [← Option.some_inj.mp hs, ← he]
        exact ⟨conn, hconn, hid.symm, fun hc => Bool.noConfusion (hopen.symm.trans hc)⟩
      · exact h id' s hs
    | unregisterClient id =>
      intro id' s hs
      rw [Task.onRegistry, TreeMap.getElem?_erase] at hs
      split_ifs at hs
      exact h id' s hs
    | subscribe | replayMessagesForClient | unsubscribe | publish | handleAck | send
    | removeSession => exact h
  | replayMessages | loadUnacked | sendStored | sendUnacked => exact h

end Entries

section Runs

variable {σ ε : Type} [Storage σ ε]

/-- The invariant: connected sessions are in `sessions_`, do what they have to do, and are all
that the table leads to. -/
structure World.RegistryFit (w : World σ) : Prop where
  live : w.ConnectedLive
  tasks : ∀ (s : SessionId) (conn : Connection), w.connections[s]? = some conn → conn.TasksFit
  entries : EntriesHeld w.broker.clientSessions w.connections

variable (verify : Verify) (hash : HashOrder)

namespace World

theorem exec_clientSessions (w : World σ) (faults : Faults ε) (session : SessionId) (task : Task) :
    (w.exec hash faults session task).1.clientSessions =
      task.onRegistry session w.broker.clientSessions := by
  cases task with
  | call c =>
    cases c with
    | registerClient id =>
      obtain ⟨acks, marks, h⟩ := w.broker.registerClient_frame hash id session
      rw [exec, execCall, h]
      rfl
    | publish topic data =>
      obtain ⟨db, h⟩ := w.broker.publish_frame faults.publish topic data
      simp only [exec, execCall, h]
      rfl
    | unsubscribe topic =>
      simp only [exec, execCall, Broker.unsubscribe]
      cases w.broker.topicSubscribers[topic]? <;> rfl
    | subscribe | replayMessagesForClient | handleAck | send | unregisterClient | removeSession => rfl
  | replayMessages | loadUnacked | sendStored | sendUnacked => rfl

theorem acceptSession_clientSessions (b b' : Broker σ) (session : SessionId)
    (h : b.acceptSession session = some b') : b'.clientSessions = b.clientSessions := by
  rw [Broker.acceptSession] at h
  split_ifs at h
  rw [← Option.some_inj.mp h]

/-- The entries after a task of a session whose id is not left behind. -/
theorem entriesHeld_taskStep (w : World σ) (faults : Faults ε) (session : SessionId)
    (conn : Connection) (task : Task) (rest : List Task) (hw : w.RegistryFit)
    (hconn : w.connections[session]? = some conn) (hp : conn.pending = task :: rest)
    (hempty : w.leavesEmptyId session = false) :
    EntriesHeld (w.taskStep hash faults session conn task rest).1.broker.clientSessions
      (w.taskStep hash faults session conn task rest).1.connections := by
  have hfit := hw.tasks session conn hconn
  have hentries := entriesHeld_onRegistry _ _ session conn task rest hw.entries hconn hfit hp
  simp only [taskStep, exec_clientSessions]
  split_ifs with htask
  · apply entriesHeld_erase _ _ _ hentries
    subst htask
    intro id hid
    obtain ⟨hclosing, he | ⟨-, rfl⟩⟩ := hfit.of_exit _ rest hp (fun h => h)
    · cases he
    have hholds := hw.entries.holds hconn hid
    -- behind the call that erases the entry only an empty id is left
    have hnil : id = [] := by
      by_contra hne
      have hmem := hholds.2 hclosing hne
      rw [hp] at hmem
      simp at hmem
    rw [hnil] at hid
    rw [leavesEmptyId, w.pendingTask_eq session conn _ _ hconn hp, decide_eq_true rfl,
      Bool.true_and] at hempty
    exact of_decide_eq_false hempty hid
  · apply entriesHeld_insert _ _ _ _ hentries
    intro id hid
    have hholds := hentries.holds hconn hid
    refine ⟨hholds.1, fun hclosing hne => ?_⟩
    have hmem := hholds.2 hclosing hne
    rw [hp, List.mem_cons] at hmem
    rcases hmem with rfl | hmem
    · -- this task has just erased the entry
      rw [Task.onRegistry, TreeMap.getElem?_erase_self] at hid
      cases hid
    · exact List.mem_append_right _ hmem

/-- The entries after a frame that brings no new id to a session the table leads to. -/
theorem entriesHeld_dispatchStep (w : World σ) (session : SessionId) (conn : Connection)
    (item : Dispatch) (r : Receiver) (hw : w.RegistryFit)
    (hconn : w.connections[session]? = some conn) (hp : conn.pending = [])
    (hnext : conn.next = some (item, r)) (hleaves : w.leavesId session = false) :
    EntriesHeld (w.dispatchStep verify session conn item r).1.broker.clientSessions
      (w.dispatchStep verify session conn item r).1.connections := by
  have hopen : conn.closing = false := by
    rw [← Bool.not_eq_true]
    exact fun hc => ((hw.tasks session conn hconn).exit hc).1 hp
  apply entriesHeld_insert _ _ _ _ hw.entries
  intro id hid
  have hholds := hw.entries.holds hconn hid
  refine ⟨?_, fun hc => Bool.noConfusion (hopen.symm.trans hc)⟩
  have hitem : w.nextItem session = some item := by
    simp only [nextItem, hconn, hp, List.isEmpty_nil, ↓reduceIte, hnext, Option.map_some]
  change (Session.handle verify (w.lookups _) { conn.toSession with toReceiver := r } item).1.clientId = id
  rw [Session.handle_clientId]
  cases hnew : item.newId with
  | none => exact hholds.1
  | some new =>
    rw [leavesId, hconn, hitem] at hleaves
    simp only [Option.any_some, Option.bind_some, hnew, hholds.1, hid, decide_true, Bool.and_true,
      decide_eq_false_iff_not, not_not] at hleaves
    exact hleaves

/-- A session on its way out still has to erase its entry, unless its id is empty. -/
theorem entriesHeld_leaving (w : World σ) (session : SessionId) (conn : Connection)
    (tasks : List Task) (hw : w.RegistryFit) (hconn : w.connections[session]? = some conn)
    (htasks : ∀ task ∈ conn.exitCalls.map Task.call, task ∈ tasks) :
    EntriesHeld w.broker.clientSessions
      (w.set session { conn with pending := tasks, closing := true }).connections := by
  apply entriesHeld_insert _ _ _ _ hw.entries
  intro id hid
  have hholds := hw.entries.holds hconn hid
  refine ⟨hholds.1, fun _ hne => htasks _ ?_⟩
  rw [mem_map_call, Session.exitCalls, hholds.1, if_neg hne]
  exact List.mem_cons_self

/-- The invariant survives a step that does not spoil the table. -/
theorem registryFit_step (w : World σ) (i : Input ε) (hw : w.RegistryFit) (hi : RegistryKept w i) :
    (w.step verify hash i).1.RegistryFit := by
  have hlive := connectedLive_step verify hash w i hw.live
  have hothers : ∀ (session s : SessionId) (conn : Connection), s ≠ session →
      w.connections[s]? = some conn → conn.TasksFit := fun _ s conn _ h => hw.tasks s conn h
  have hcase := stepCase_step verify hash w i
  revert hlive hcase
  generalize (w.step verify hash i).1 = w'
  generalize (w.step verify hash i).2 = outs
  intro hlive hcase
  cases hcase with
  | nothing => exact hw
  | accepted session b hfree hb =>
    have hfresh : ({} : Connection).TasksFit := ⟨fun _ => by simp, fun h => Bool.noConfusion h⟩
    refine ⟨hlive, forall_insert _ _ _ _ (hothers session) hfresh, ?_⟩
    rw [acceptSession_clientSessions _ _ _ hb]
    apply entriesHeld_insert _ _ _ _ hw.entries
    -- the table leads to connected sessions, and this one is new
    intro id hid
    obtain ⟨conn, hconn, -⟩ := hw.entries id session hid
    rw [hfree] at hconn
    cases hconn
  | received session chunk conn r hconn hpending hr =>
    have hfit := hw.tasks session conn hconn
    refine ⟨hlive, forall_insert _ _ _ _ (hothers session) ⟨hfit.loop, hfit.exit⟩, ?_⟩
    exact entriesHeld_insert _ _ _ _ hw.entries fun id hid => hw.entries.holds hconn hid
  | overflowed session chunk conn hconn hr =>
    refine ⟨hlive, forall_insert _ _ _ _ (hothers session) ?_, ?_⟩
    · exact conn.tasksFit_exit _ (List.cons_ne_nil _ _) List.suffix_rfl
    · exact entriesHeld_leaving w session conn _ hw hconn fun task ht => List.mem_cons_of_mem _ ht
  | hungUp session conn hconn =>
    refine ⟨hlive, forall_insert _ _ _ _ (hothers session) conn.tasksFit_hungUp, ?_⟩
    exact entriesHeld_leaving w session conn _ hw hconn fun task ht => ht
  | worked session faults conn task rest hconn hpending =>
    refine ⟨hlive, ?_,
      entriesHeld_taskStep hash w faults session conn task rest hw hconn hpending hi.2.2⟩
    exact forall_taskStep _ _ _ _ _ _ _ _ (hothers session)
      (conn.tasksFit_worked w task rest (hw.tasks session conn hconn) hpending)
  | dispatched session faults conn item r hconn hpending hnext =>
    refine ⟨hlive, forall_insert _ _ _ _ (hothers session) ⟨fun _ => ?_, fun hc => ?_⟩,
      entriesHeld_dispatchStep verify w session conn item r hw hconn hpending hnext hi.1⟩
    · exact Session.inLoop_handle verify _ _ item
    · exact absurd hpending ((hw.tasks session conn hconn).exit hc).1
  | keyed op => exact ⟨hlive, hw.tasks, hw.entries⟩
  | stopped => exact ⟨hlive, hw.tasks, hw.entries⟩
  | restarted =>
    refine ⟨hlive, fun s conn h => ?_, fun id s h => ?_⟩
    · simp at h
    · simp [Broker.start] at h

theorem isOpen_iff (w : World σ) (s : SessionId) :
    w.isOpen s = true ↔ ∃ conn : Connection, w.connections[s]? = some conn ∧ conn.closing = false := by
  rw [isOpen, Option.any_eq_true]
  simp only [Bool.not_eq_true']

/-- A session that left its receive loop does not come back to it. -/
theorem isOpen_of_step (w : World σ) (i : Input ε) (s : SessionId) (conn : Connection)
    (hconn : w.connections[s]? = some conn) (h : (w.step verify hash i).1.isOpen s = true) :
    w.isOpen s = true := by
  -- what an open connection was before the step; a new one was none
  let P : SessionId → Connection → Prop := fun s c =>
    c.closing = false → w.connections[s]? = none ∨ w.isOpen s = true
  have hw : ∀ s c, w.connections[s]? = some c → P s c :=
    fun s c hc hopen => Or.inr ((w.isOpen_iff s).mpr ⟨c, hc, hopen⟩)
  have hothers : ∀ (session s : SessionId) (c : Connection), s ≠ session →
      w.connections[s]? = some c → P s c := fun _ s c _ hc => hw s c hc
  have hafter : ∀ s c, (w.step verify hash i).1.connections[s]? = some c → P s c := by
    have hcase := stepCase_step verify hash w i
    revert hcase
    generalize (w.step verify hash i).1 = w'
    generalize (w.step verify hash i).2 = outs
    intro hcase
    cases hcase with
    | nothing | keyed | stopped => exact hw
    | accepted session b hfree hb =>
      exact forall_insert _ _ _ _ (hothers session) fun _ => Or.inl hfree
    | received session chunk c r hc hpending hr =>
      exact forall_insert _ _ _ _ (hothers session) (hw session c hc)
    | overflowed session chunk c hc hr =>
      exact forall_insert _ _ _ _ (hothers session) fun hopen => Bool.noConfusion hopen
    | hungUp session c hc =>
      exact forall_insert _ _ _ _ (hothers session) fun hopen => Bool.noConfusion hopen
    | worked session faults c task rest hc hpending =>
      exact forall_taskStep _ _ _ _ _ _ _ _ (hothers session) fun _ => hw session c hc
    | dispatched session faults c item r hc hpending hnext =>
      exact forall_insert _ _ _ _ (hothers session) (hw session c hc)
    | restarted =>
      intro s c hc
      simp at hc
  obtain ⟨c, hc, hopen⟩ := ((w.step verify hash i).1.isOpen_iff s).mp h
  rcases hafter s c hc hopen with hnone | hopen
  · rw [hconn] at hnone
    cases hnone
  · exact hopen

/-- The table leads from the id to the session, which is open. -/
def Found (s : SessionId) (id : Bytes) (w : World σ) : Prop :=
  w.broker.clientSessions[id]? = some s ∧ w.isOpen s = true

/-- Who is found under an id after a step: who registers it in the step, or was found there
and stays. -/
def FoundRule (s : SessionId) (id : Bytes) (w : World σ) (i : Input ε) : Prop :=
  Found s id (w.step verify hash i).1 ↔
    Registers s id w i ∨ Found s id w ∧ StaysRegistered verify hash s id w i

/-- A step that leaves the table alone and registers no one. -/
theorem found_of_same (w : World σ) (i : Input ε) (s : SessionId) (id : Bytes) (hw : w.RegistryFit)
    (hreg : (w.step verify hash i).1.broker.clientSessions[id]? = w.broker.clientSessions[id]?)
    (hnone : w.registration i = none) : FoundRule verify hash s id w i := by
  rw [FoundRule, Found, hreg, Registers, StaysRegistered, hnone]
  constructor
  · rintro ⟨hid, hopen⟩
    obtain ⟨conn, hconn, -⟩ := hw.entries id s hid
    exact Or.inr ⟨⟨hid, isOpen_of_step verify hash w i s conn hconn hopen⟩, hopen, rfl⟩
  · rintro (h | ⟨⟨hid, -⟩, hopen, -⟩)
    · cases h
    · exact ⟨hid, hopen⟩

/-- A session enters itself under an id: it is found there, and whoever was is not. -/
theorem found_of_register (w : World σ) (faults : Faults ε) (s session : SessionId) (id new : Bytes)
    (conn : Connection) (rest : List Task) (hw : w.RegistryFit)
    (hconn : w.connections[session]? = some conn)
    (hp : conn.pending = .call (.registerClient new) :: rest) :
    FoundRule verify hash s id w (.thread session faults) := by
  obtain ⟨hclosing, hnew⟩ := (hw.tasks session conn hconn).of_registerClient new rest hp
  have hstep : w.step verify hash (.thread session faults) = _ :=
    threadStep_of_task verify hash w session faults conn _ rest hconn hp
  have hself : (w.step verify hash (.thread session faults)).1.isOpen session = true := by
    rw [isOpen_iff, hstep, taskStep, if_neg (by simp)]
    exact ⟨_, TreeMap.getElem?_insert_self, hclosing⟩
  have hregistration : w.registration (.thread session faults) = some (session, new) := by
    rw [registration, w.pendingTask_eq session conn _ rest hconn hp]
  have hreg : (w.step verify hash (.thread session faults)).1.broker.clientSessions[id]? =
      if new = id then some session else w.broker.clientSessions[id]? := by
    rw [hstep, taskStep]
    dsimp only
    rw [exec_clientSessions, Task.onRegistry, TreeMap.getElem?_insert]
    simp only [LawfulEqCmp.compare_eq_iff_eq]
  rw [FoundRule, Found, hreg, Registers, StaysRegistered, hregistration, Option.all_some, decide_eq_true_iff,
    Option.some_inj, Prod.mk.injEq]
  constructor
  · rintro ⟨hid, hopen⟩
    split_ifs at hid with he
    · exact Or.inl ⟨Option.some_inj.mp hid, he⟩
    · obtain ⟨c, hc, -⟩ := hw.entries id s hid
      refine Or.inr ⟨⟨hid, isOpen_of_step verify hash w _ s c hc hopen⟩, hopen,
        iff_of_false ?_ he⟩
      -- a session that is found under its id registers under it again
      rintro rfl
      exact he (hnew.trans (hw.entries.holds hconn hid).1)
  · rintro (⟨rfl, rfl⟩ | ⟨⟨hid, -⟩, hopen, hiff⟩)
    · rw [if_pos rfl]
      exact ⟨rfl, hself⟩
    · refine ⟨?_, hopen⟩
      split_ifs with he
      · exact congrArg some (hiff.mpr he)
      · exact hid

/-- An open session loses its entry only to another one. -/
theorem found_of_unregister (w : World σ) (faults : Faults ε) (s session : SessionId)
    (id old : Bytes) (conn : Connection) (rest : List Task) (hw : w.RegistryFit)
    (hconn : w.connections[session]? = some conn)
    (hp : conn.pending = .call (.unregisterClient old) :: rest)
    (hkept : w.erasesOther session = false) :
    FoundRule verify hash s id w (.thread session faults) := by
  have htask := w.pendingTask_eq session conn _ rest hconn hp
  have hregistration : w.registration (.thread session faults) = none := by
    rw [registration, htask]
  have hreg : (w.step verify hash (.thread session faults)).1.broker.clientSessions[id]? =
      if old = id then none else w.broker.clientSessions[id]? := by
    rw [step, threadStep_of_task verify hash w session faults conn _ rest hconn hp, taskStep]
    dsimp only
    rw [exec_clientSessions, Task.onRegistry, TreeMap.getElem?_erase]
    simp only [LawfulEqCmp.compare_eq_iff_eq]
  by_cases he : old = id
  · rw [if_pos he] at hreg
    rw [FoundRule, Found, hreg, Registers, hregistration]
    refine iff_of_false (by simp) ?_
    rintro (h | ⟨⟨hid, hopen⟩, -⟩)
    · cases h
    · obtain ⟨hclosing, -⟩ := (hw.tasks session conn hconn).of_exit _ rest hp fun h => h
      -- the session that erases has left its loop, the one that is found has not
      have hne : s ≠ session := by
        rintro rfl
        obtain ⟨c, hc, hcopen⟩ := (w.isOpen_iff s).mp hopen
        obtain rfl := Option.some_inj.mp (hconn.symm.trans hc)
        exact Bool.noConfusion (hcopen.symm.trans hclosing)
      rw [erasesOther, htask] at hkept
      simp only [he, hid, Option.any_some, hne, hopen, ne_eq, not_false_eq_true, decide_true,
        Bool.and_self, reduceCtorEq] at hkept
  · rw [if_neg he] at hreg
    exact found_of_same verify hash w _ s id hw hreg hregistration

theorem found_of_thread (w : World σ) (faults : Faults ε) (s session : SessionId) (id : Bytes)
    (hw : w.RegistryFit) (hkept : w.erasesOther session = false) :
    FoundRule verify hash s id w (.thread session faults) := by
  -- without a task the step runs no method
  have hidle : w.pendingTask session = none →
      FoundRule verify hash s id w (.thread session faults) := by
    intro hnone
    apply found_of_same verify hash w _ s id hw
    · rw [step, (threadStep_methods verify hash w session faults hw.live).2.1, methods, hnone]
      rfl
    · rw [registration, hnone]
  cases hconn : w.connections[session]? with
  | none => exact hidle (pendingTask_eq_none w session (by simp [hconn]))
  | some conn =>
    cases hp : conn.pending with
    | nil => exact hidle (pendingTask_eq_none w session (by simp [hconn, hp]))
    | cons task rest =>
      have htask := w.pendingTask_eq session conn task rest hconn hp
      have hreg : (w.step verify hash (.thread session faults)).1.broker.clientSessions =
          task.onRegistry session w.broker.clientSessions := by
        rw [step, threadStep_of_task verify hash w session faults conn task rest hconn hp]
        exact exec_clientSessions hash w faults session task
      have hother : task.onRegistry session w.broker.clientSessions = w.broker.clientSessions →
          w.registration (.thread session faults) = none →
          FoundRule verify hash s id w (.thread session faults) :=
        fun he hnone => found_of_same verify hash w _ s id hw (by rw [hreg, he]) hnone
      cases task with
      | call c =>
        cases c with
        | registerClient new =>
          exact found_of_register verify hash w faults s session id new conn rest hw hconn hp
        | unregisterClient old =>
          exact found_of_unregister verify hash w faults s session id old conn rest hw hconn hp hkept
        | subscribe | replayMessagesForClient | unsubscribe | publish | handleAck | send
        | removeSession => exact hother rfl (by rw [registration, htask])
      | replayMessages | loadUnacked | sendStored | sendUnacked =>
        exact hother rfl (by rw [registration, htask])

theorem foundRule_step (w : World σ) (i : Input ε) (s : SessionId) (id : Bytes)
    (hw : w.RegistryFit) (hi : RegistryKept w i) : FoundRule verify hash s id w i := by
  cases i with
  | thread session faults => exact found_of_thread verify hash w faults s session id hw hi.2.1
  | accept session =>
    apply found_of_same verify hash w _ s id hw _ rfl
    rw [step, acceptStep]
    cases w.connections[session]? with
    | some conn => rfl
    | none =>
      cases hb : w.broker.acceptSession session with
      | none => rfl
      | some b => exact congrArg (·[id]?) (acceptSession_clientSessions _ _ _ hb)
  | recv | hangup | keyStore | stop =>
    apply found_of_same verify hash w _ s id hw _ rfl
    rw [(step_methods verify hash w _ hw.live (by trivial)).2.1]
    rfl
  | restart =>
    refine iff_of_false ?_ ?_
    · rintro ⟨hid, -⟩
      simp [step, Broker.start] at hid
    · rintro (h | ⟨-, hopen, -⟩)
      · cases h
      · simp [isOpen, step] at hopen

section Spoiling

variable (w : World σ) (faults : Faults ε) (session : SessionId)

/-- The old entry of the session stays behind. -/
theorem entry_of_leavesId (hw : w.RegistryFit) (h : w.leavesId session = true) :
    ∃ (id : Bytes) (conn : Connection),
      (w.step verify hash (.thread session faults)).1.broker.clientSessions[id]? = some session ∧
      (w.step verify hash (.thread session faults)).1.connections[session]? = some conn ∧
      conn.clientId ≠ id := by
  rw [leavesId, Option.any_eq_true] at h
  obtain ⟨conn, hconn, h⟩ := h
  rw [Option.any_eq_true] at h
  obtain ⟨new, hnew, h⟩ := h
  rw [Bool.and_eq_true, decide_eq_true_iff, decide_eq_true_iff] at h
  obtain ⟨item, hitem, hnew⟩ := Option.bind_eq_some_iff.mp hnew
  rw [nextItem, hconn] at hitem
  dsimp only at hitem
  split_ifs at hitem with hempty
  obtain ⟨⟨item, r⟩, hnext, rfl⟩ := Option.map_eq_some_iff.mp hitem
  have hp : conn.pending = [] := List.isEmpty_iff.mp hempty
  have hopen : conn.closing = false := by
    rw [← Bool.not_eq_true]
    exact fun hc => ((hw.tasks session conn hconn).exit hc).1 hp
  rw [step, threadStep_of_next verify hash w session faults conn item r hconn hp hopen hnext]
  refine ⟨conn.clientId, _, h.2, TreeMap.getElem?_insert_self, ?_⟩
  change (Session.handle verify (w.lookups _) { conn.toSession with toReceiver := r } item).1.clientId ≠ _
  rw [Session.handle_clientId, hnew]
  exact h.1

theorem exists_of_pendingTask (task : Task) (h : w.pendingTask session = some task) :
    ∃ (conn : Connection) (rest : List Task),
      w.connections[session]? = some conn ∧ conn.pending = task :: rest := by
  rw [pendingTask] at h
  cases hconn : w.connections[session]? with
  | none =>
    rw [hconn] at h
    cases h
  | some conn =>
    rw [hconn] at h
    obtain ⟨rest, hp⟩ := List.head?_eq_some_iff.mp h
    exact ⟨conn, rest, rfl, hp⟩

/-- The other session stays open and is no longer found. -/
theorem lost_of_erasesOther (h : w.erasesOther session = true) :
    ∃ (s : SessionId) (id : Bytes), Found s id w ∧
      StaysRegistered verify hash s id w (.thread session faults) ∧
      (w.step verify hash (.thread session faults)).1.broker.clientSessions[id]? ≠ some s := by
  rw [erasesOther] at h
  split at h
  · rename_i id htask
    rw [Option.any_eq_true] at h
    obtain ⟨s, hid, h⟩ := h
    rw [Bool.and_eq_true, decide_eq_true_iff] at h
    obtain ⟨conn, rest, hconn, hp⟩ := exists_of_pendingTask w session _ htask
    have hstep : w.step verify hash (.thread session faults) = _ :=
      threadStep_of_task verify hash w session faults conn _ rest hconn hp
    refine ⟨s, id, ⟨hid, h.2⟩, ⟨?_, ?_⟩, ?_⟩
    · rw [isOpen, hstep, taskStep, if_neg (by simp)]
      dsimp only
      rw [TreeMap.getElem?_insert, if_neg]
      · exact h.2
      · rw [LawfulEqCmp.compare_eq_iff_eq]
        exact Ne.symm h.1
    · rw [registration, htask]
      rfl
    · rw [hstep, taskStep]
      dsimp only
      rw [exec_clientSessions, Task.onRegistry, TreeMap.getElem?_erase_self]
      exact (Option.some_ne_none s).symm
  · cases h

/-- The entry of the removed session stays behind. -/
theorem entry_of_leavesEmptyId (h : w.leavesEmptyId session = true) :
    (w.step verify hash (.thread session faults)).1.broker.clientSessions[([] : Bytes)]? = some session ∧
      (w.step verify hash (.thread session faults)).1.connections[session]? = none := by
  rw [leavesEmptyId, Bool.and_eq_true, decide_eq_true_iff, decide_eq_true_iff] at h
  obtain ⟨conn, rest, hconn, hp⟩ := exists_of_pendingTask w session _ h.1
  rw [step, threadStep_of_task verify hash w session faults conn _ rest hconn hp, taskStep]
  dsimp only
  rw [if_pos rfl, exec_clientSessions]
  exact ⟨h.2, TreeMap.getElem?_erase_self⟩

end Spoiling

end World

section Accurate

variable (db : σ) (is : List (Input ε))
  (h : Meets (World.step verify hash) RegistryKept (World.start db) is)

include h

theorem registryFit_run : (run (World.step verify hash) (World.start db) is).1.RegistryFit := by
  refine run_invariant (fun w _ => w.RegistryFit)
    (fun w _ i hw hi => World.registryFit_step verify hash w i hw hi) (World.start db) [] is ?_ h
  refine ⟨fun s c hc => ?_, fun s c hc => ?_, fun id s hs => ?_⟩
  · simp [World.start] at hc
  · simp [World.start] at hc
  · simp [World.start, Broker.start] at hs

theorem found_iff_since (s : SessionId) (id : Bytes) :
    World.Found s id (run (World.step verify hash) (World.start db) is).1 ↔
      Since (World.step verify hash) (Registers s id) (StaysRegistered verify hash s id)
        (World.start db) is := by
  refine iff_since_of_invariant World.RegistryFit (World.Found s id)
    (fun w i hw hi => World.registryFit_step verify hash w i hw hi)
    (fun w i hw hi => World.foundRule_step verify hash w i s id hw hi) _ is
    (registryFit_run verify hash db [] trivial) ?_ h
  rintro ⟨hid, -⟩
  simp [World.start, Broker.start] at hid

theorem registryAccurate_of_kept : RegistryAccurate verify hash db is := by
  have hfit := registryFit_run verify hash db is h
  constructor
  · intro id s hs
    obtain ⟨conn, hconn, hholds⟩ := hfit.entries id s hs
    exact ⟨hfit.live s conn hconn, conn, hconn, hholds.1⟩
  · intro s id hsince
    exact ((found_iff_since verify hash db is h s id).mpr hsince).1

/-- A step that spoils the table shows in the next state. -/
theorem kept_of_registryAccurate (i : Input ε)
    (hacc : RegistryAccurate verify hash db (is ++ [i])) :
    RegistryKept (run (World.step verify hash) (World.start db) is).1 i := by
  have hfit := registryFit_run verify hash db is h
  have hfound := found_iff_since verify hash db is h
  obtain ⟨hentries, hregistered⟩ := hacc
  simp only [since_snoc] at hregistered
  rw [run_snoc] at hentries hregistered
  generalize (run (World.step verify hash) (World.start db) is).1 = w at *
  cases i with
  | thread session faults =>
    refine ⟨?_, ?_, ?_⟩
    · rw [← Bool.not_eq_true]
      intro hleaves
      obtain ⟨id, conn, hid, hconn, hne⟩ :=
        World.entry_of_leavesId verify hash w faults session hfit hleaves
      obtain ⟨-, conn', hconn', he⟩ := hentries id session hid
      rw [hconn, Option.some_inj] at hconn'
      exact hne (hconn' ▸ he)
    · rw [← Bool.not_eq_true]
      intro herases
      obtain ⟨s, id, hold, hstays, hlost⟩ :=
        World.lost_of_erasesOther verify hash w faults session herases
      exact hlost (hregistered s id (Or.inr ⟨(hfound s id).mp hold, hstays⟩))
    · rw [← Bool.not_eq_true]
      intro hempty
      obtain ⟨hid, hnone⟩ := World.entry_of_leavesEmptyId verify hash w faults session hempty
      obtain ⟨-, conn, hconn, -⟩ := hentries [] session hid
      rw [hnone] at hconn
      cases hconn
  | accept | recv | hangup | keyStore | stop | restart => trivial

end Accurate

/-- The table is accurate in every state of a run exactly if none of the three steps occurs
in it. -/
theorem registry_accurate_iff (db : σ) (is : List (Input ε)) :
    (∀ pre, pre <+: is → RegistryAccurate verify hash db pre) ↔
      Meets (World.step verify hash) RegistryKept (World.start db) is := by
  apply forall_prefix_iff_meets_of_runs
  · exact registryAccurate_of_kept verify hash db [] trivial
  · intro is i h _
    refine ⟨kept_of_registryAccurate verify hash db is h i, fun hi => ?_⟩
    apply registryAccurate_of_kept
    rw [meets_append]
    exact ⟨h, hi, trivial⟩

end Runs

section Spoiled

open World

def subscribeAs (session : SessionId) (id : Bytes) : List (Input (Option MdbError)) :=
  binaryClient session (.subscribe (id ++ 0 :: lit "t") 1) 7

/-- Two sessions use one id and the first hangs up: the second is lost. A session takes a second
id, or has the empty id and hangs up: its entry stays. -/
theorem registry_spoiled :
    ¬ RegistryAccurate (fun _ _ _ => true) insertionOrder LmdbFile.empty
      (subscribeAs 0 (lit "c") ++ subscribeAs 1 (lit "c") ++ [.hangup 0, .thread 0 allCommit]) ∧
    ¬ RegistryAccurate (fun _ _ _ => true) insertionOrder LmdbFile.empty
      (subscribeAs 0 (lit "c") ++
        [.recv 0 (BinaryProtocol.serialize (.subscribe (lit "d" ++ 0 :: lit "t") 2)),
          .thread 0 allCommit]) ∧
    ¬ RegistryAccurate (fun _ _ _ => true) insertionOrder LmdbFile.empty
      (subscribeAs 0 [] ++ [.hangup 0, .thread 0 allCommit]) := by
  refine ⟨fun h => ?_, fun h => ?_, fun h => ?_⟩
  · have hlast : Since (step (fun _ _ _ => true) insertionOrder) (Registers 1 (lit "c"))
        (StaysRegistered (fun _ _ _ => true) insertionOrder 1 (lit "c")) (start LmdbFile.empty)
        (subscribeAs 0 (lit "c") ++ subscribeAs 1 (lit "c") ++ [.hangup 0, .thread 0 allCommit]) :=
      ⟨subscribeAs 0 (lit "c") ++ (subscribeAs 1 (lit "c")).take 3, .thread 1 allCommit,
        List.replicate 5 (.thread 1 allCommit) ++ [.hangup 0, .thread 0 allCommit], rfl, by decide,
        by decide⟩
    have hfound := h.registered 1 (lit "c") hlast
    revert hfound
    decide
  · obtain ⟨-, conn, hconn, hid⟩ := h.entries (lit "c") 0 (by decide)
    have hnow := congrArg (Option.map fun c : Connection => c.clientId) hconn
    rw [Option.map_some, hid] at hnow
    revert hnow
    decide
  · obtain ⟨hlive, -⟩ := h.entries [] 0 (by decide)
    revert hlive
    decide

end Spoiled

end MetricMQ
