import MetricMQ.Publishing
import MetricMQ.Session

/-! The whole system: the broker, the threads of all connections and the key store. A thread
takes one locked section of the broker, one load from the storage, one `send` or one lookup of a key
at a time, so the steps of different connections interleave in every way the two mutexes allow. -/
namespace MetricMQ

open ByteString Std

/-- What a thread does in one step: a call of its handler, or a part of a replay, which runs
outside the broker mutex and carries what it has read so far. -/
inductive Task
  | call (call : Call)
  | replayMessages (topic : Bytes) (fromSeq : UInt64)
  | loadUnacked (topic clientId : Bytes) (lastAck : UInt64)
  | sendStored (message : StoredMessage)
  | sendUnacked (clientId : Bytes) (message : StoredMessage)
deriving DecidableEq

/-- A session, what its thread has still to do for the frame at hand, and whether it has left
its receive loop. -/
structure Connection extends Session where
  pending : List Task := []
  closing : Bool := false

/-- `looked` has what a thread found at its first lookup of a key, up to its second one. -/
structure World (σ : Type) where
  broker : Broker σ
  connections : TreeMap SessionId Connection := ∅
  keys : TrustedKeyStore := {}
  looked : TreeMap SessionId TrustedKeyStore := ∅

/-- How the write transactions of one call end. -/
structure Faults (ε : Type) where
  publish : PublishFaults ε
  ack : ε

/-- What is done under the mutex of the key store: someone changes it, or a thread makes the first
of its two lookups. The second one goes with the step that handles the item; a thread that no
other one interrupts makes both of them there. -/
inductive KeyAccess
  | change (op : TrustedKeyStore.Op)
  | lookup (session : SessionId)

inductive Input (ε : Type)
  | accept (session : SessionId)
  | recv (session : SessionId) (chunk : Bytes)
  | hangup (session : SessionId)
  | thread (session : SessionId) (faults : Faults ε)
  | keyStore (access : KeyAccess)
  | stop
  | restart

/-- Whose connection an input is about. -/
def Input.actor {ε : Type} : Input ε → Option SessionId
  | .accept session | .recv session _ | .hangup session | .thread session _ => some session
  | .keyStore _ | .stop | .restart => none

/-- What can be observed. An item goes with what its thread has found at the two lookups, which only
a signed publish makes. A sent string carries the protocol the receiving session has
detected, and the broker's number of the message unless it is a reply. -/
inductive Output
  | dispatched (session : SessionId) (item : Dispatch) (keys : KeyLookups)
  | published (session : SessionId) (topic data : Bytes) (seq : UInt64)
  | sent (session : SessionId) (protocol : ProtocolType) (data : Bytes) (seq : Option UInt64)

section Calls

variable {σ ε : Type} [Storage σ ε]

def World.protocolOf (w : World σ) (session : SessionId) : ProtocolType :=
  match w.connections[session]? with
  | none => .unknown
  | some conn => conn.protocol

/-- One call of the thread of `session`: the new broker, and what is sent to whom. -/
def World.execCall (hash : HashOrder) (faults : Faults ε) (w : World σ) (session : SessionId) :
    Call → Broker σ × List Output
  | .registerClient clientId => (w.broker.registerClient hash clientId session, [])
  | .subscribe topic => (w.broker.addSubscriber session topic, [])
  | .unsubscribe topic => (w.broker.unsubscribe session topic, [])
  | .publish topic data =>
    let r := w.broker.publish faults.publish topic data
    (r.1, .published session topic data r.2.1 ::
      r.2.2.map fun s => .sent s (w.protocolOf s) data (some r.2.1))
  | .handleAck clientId sequence => (w.broker.handleAck faults.ack clientId sequence, [])
  | .send data => (w.broker, [.sent session (w.protocolOf session) data none])
  | .unregisterClient clientId => (w.broker.unregisterClient clientId, [])
  | .removeSession => (w.broker.removeSession session, [])
  | .replayMessagesForClient _ _ => (w.broker, [])

def World.exec (hash : HashOrder) (faults : Faults ε) (w : World σ) (session : SessionId) :
    Task → Broker σ × List Output
  | .call call => w.execCall hash faults session call
  | .replayMessages _ _ | .loadUnacked _ _ _ => (w.broker, [])
  | .sendStored m => (w.broker, [.sent session (w.protocolOf session) m.payload (some m.seq)])
  | .sendUnacked clientId m =>
    (w.broker, if w.broker.isAcked clientId m.seq then []
      else [.sent session (w.protocolOf session) m.payload (some m.seq)])

/-- What a step leaves to do. Only replays take several steps: the mark of the client or the
list of messages is read once, the acknowledgements at each message. -/
def World.followUp (w : World σ) : Task → List Task
  | .call (.subscribe topic) => [.replayMessages topic 0]
  | .call (.replayMessagesForClient topic clientId) =>
    [.loadUnacked topic clientId (w.broker.getLastAck clientId)]
  | .replayMessages topic fromSeq => (w.broker.replayMessages topic fromSeq).map .sendStored
  | .loadUnacked topic clientId lastAck =>
    (w.broker.loadUnacked topic lastAck).map (.sendUnacked clientId)
  | _ => []

end Calls

namespace World

variable {σ ε : Type} [Storage σ ε]

def set (w : World σ) (session : SessionId) (conn : Connection) : World σ :=
  { w with connections := w.connections.insert session conn }

/-- The thread is in `recv`. -/
def waiting (conn : Connection) : Bool :=
  conn.pending.isEmpty && !conn.closing && conn.next.isNone

/-- What a thread handles next, if it is between two items. -/
def nextItem (w : World σ) (session : SessionId) : Option Dispatch :=
  match w.connections[session]? with
  | none => none
  | some conn => if conn.pending.isEmpty then conn.next.map Prod.fst else none

def keysAfter (w : World σ) : KeyAccess → TrustedKeyStore
  | .change op => w.keys.apply op
  | .lookup _ => w.keys

def lookedAfter (w : World σ) : KeyAccess → TreeMap SessionId TrustedKeyStore
  | .change _ => w.looked
  | .lookup session =>
    -- the thread has taken the item up and not yet handled it
    if (w.nextItem session).isSome then w.looked.insertIfNew session w.keys else w.looked

/-- The key store at the lookups of a thread whose second one is now. -/
def lookups (w : World σ) (session : SessionId) : KeyLookups :=
  ⟨w.looked[session]?.getD w.keys, w.keys⟩

def recvStep (w : World σ) (session : SessionId) (chunk : Bytes) : World σ :=
  match w.connections[session]? with
  | none => w
  | some conn =>
    -- `recv` fills a buffer of 4096 bytes; no bytes at all are a hangup
    if !waiting conn || chunk.isEmpty || decide (chunk.length > 4096) then w
    else
      match conn.receive chunk with
      | none =>
        w.set session { conn with pending := conn.overflowCalls.map .call, closing := true }
      | some r => w.set session { conn with toReceiver := r }

def hangupStep (w : World σ) (session : SessionId) : World σ :=
  match w.connections[session]? with
  | none => w
  | some conn =>
    if waiting conn then
      w.set session { conn with pending := conn.exitCalls.map .call, closing := true }
    else w

/-- The next task of a thread; with its last one a connection is gone. -/
def taskStep (hash : HashOrder) (faults : Faults ε) (w : World σ) (session : SessionId)
    (conn : Connection) (task : Task) (rest : List Task) : World σ × List Output :=
  let r := w.exec hash faults session task
  let connections :=
    if task = .call .removeSession then w.connections.erase session
    else w.connections.insert session { conn with pending := w.followUp task ++ rest }
  ({ w with broker := r.1, connections := connections }, r.2)

/-- The next turn of the drain loop: the handler's calls become pending. -/
def dispatchStep (verify : Verify) (w : World σ) (session : SessionId) (conn : Connection)
    (item : Dispatch) (r : Receiver) : World σ × List Output :=
  let h := Session.handle verify (w.lookups session) { conn.toSession with toReceiver := r } item
  ({ w with
      connections := w.connections.insert session
        { conn with toSession := h.1, pending := h.2.map .call }
      looked := w.looked.erase session },
    [.dispatched session item (w.lookups session)])

def threadStep (verify : Verify) (hash : HashOrder) (w : World σ) (session : SessionId)
    (faults : Faults ε) : World σ × List Output :=
  match w.connections[session]? with
  | none => (w, [])
  | some conn =>
    match conn.pending with
    | task :: rest => w.taskStep hash faults session conn task rest
    | [] =>
      if conn.closing then (w, [])
      else
        match conn.next with
        | none => (w, [])
        | some (item, r) => w.dispatchStep verify session conn item r

def acceptStep (w : World σ) (session : SessionId) : World σ :=
  match w.connections[session]? with
  | some _ => w
  | none =>
    match w.broker.acceptSession session with
    | none => w
    | some b =>
      -- a new thread has looked up nothing yet
      { w with
        broker := b
        connections := w.connections.insert session {}
        looked := w.looked.erase session }

def step (verify : Verify) (hash : HashOrder) (w : World σ) : Input ε → World σ × List Output
  | .accept session => (w.acceptStep session, [])
  | .recv session chunk => (w.recvStep session chunk, [])
  | .hangup session => (w.hangupStep session, [])
  | .thread session faults => w.threadStep verify hash session faults
  | .keyStore access =>
    ({ w with keys := w.keysAfter access, looked := w.lookedAfter access }, [])
  | .stop => ({ w with broker := w.broker.stop }, [])
  -- the connections and the keys of the old process are gone, the file stays
  | .restart => ({ broker := Broker.start w.broker.db }, [])

/-- A thread that has something to do does it. -/
theorem threadStep_of_task (verify : Verify) (hash : HashOrder) (w : World σ) (session : SessionId)
    (faults : Faults ε) (conn : Connection) (task : Task) (rest : List Task)
    (hconn : w.connections[session]? = some conn) (hp : conn.pending = task :: rest) :
    w.threadStep verify hash session faults = w.taskStep hash faults session conn task rest := by
  rw [threadStep, hconn]
  dsimp only
  rw [hp]

/-- A thread in its receive loop that has done everything takes the next item. -/
theorem threadStep_of_next (verify : Verify) (hash : HashOrder) (w : World σ) (session : SessionId)
    (faults : Faults ε) (conn : Connection) (item : Dispatch) (r : Receiver)
    (hconn : w.connections[session]? = some conn) (hp : conn.pending = [])
    (hopen : conn.closing = false) (hnext : conn.next = some (item, r)) :
    w.threadStep verify hash session faults = w.dispatchStep verify session conn item r := by
  rw [threadStep, hconn]
  dsimp only
  rw [hp, hopen, hnext]
  rfl

/-- A hash set that is walked in the order of insertion. -/
def insertionOrder : HashOrder := ⟨id, fun _ _ => Iff.rfl⟩

def allCommit : Faults (Option MdbError) := ⟨⟨none, none, none⟩, none⟩

/-- A fresh process on the file `db`. -/
def start (db : σ) : World σ := { broker := Broker.start db }

/-- Everything a step can do, with what it requires. -/
inductive StepCase (verify : Verify) (hash : HashOrder) (w : World σ) :
    Input ε → World σ → List Output → Prop
  | nothing (i : Input ε) : StepCase verify hash w i w []
  | accepted (session : SessionId) (b : Broker σ) (hfree : w.connections[session]? = none)
      (hb : w.broker.acceptSession session = some b) :
      StepCase verify hash w (.accept session)
        { w with
          broker := b
          connections := w.connections.insert session {}
          looked := w.looked.erase session } []
  | received (session : SessionId) (chunk : Bytes) (conn : Connection) (r : Receiver)
      (hconn : w.connections[session]? = some conn) (hpending : conn.pending = [])
      (hr : conn.receive chunk = some r) :
      StepCase verify hash w (.recv session chunk)
        (w.set session { conn with toReceiver := r }) []
  | overflowed (session : SessionId) (chunk : Bytes) (conn : Connection)
      (hconn : w.connections[session]? = some conn) (hr : conn.receive chunk = none) :
      StepCase verify hash w (.recv session chunk)
        (w.set session { conn with pending := conn.overflowCalls.map .call, closing := true }) []
  | hungUp (session : SessionId) (conn : Connection)
      (hconn : w.connections[session]? = some conn) :
      StepCase verify hash w (.hangup session)
        (w.set session { conn with pending := conn.exitCalls.map .call, closing := true }) []
  | worked (session : SessionId) (faults : Faults ε) (conn : Connection) (task : Task)
      (rest : List Task) (hconn : w.connections[session]? = some conn)
      (hpending : conn.pending = task :: rest) :
      StepCase verify hash w (.thread session faults)
        (w.taskStep hash faults session conn task rest).1
        (w.taskStep hash faults session conn task rest).2
  | dispatched (session : SessionId) (faults : Faults ε) (conn : Connection) (item : Dispatch)
      (r : Receiver) (hconn : w.connections[session]? = some conn) (hpending : conn.pending = [])
      (hnext : conn.next = some (item, r)) :
      StepCase verify hash w (.thread session faults)
        (w.dispatchStep verify session conn item r).1 (w.dispatchStep verify session conn item r).2
  | keyed (access : KeyAccess) :
      StepCase verify hash w (.keyStore access)
        { w with keys := w.keysAfter access, looked := w.lookedAfter access } []
  | stopped : StepCase verify hash w .stop { w with broker := w.broker.stop } []
  | restarted : StepCase verify hash w .restart { broker := Broker.start w.broker.db } []

theorem stepCase_recv (verify : Verify) (hash : HashOrder) (w : World σ) (session : SessionId)
    (chunk : Bytes) :
    StepCase verify hash w (.recv session chunk : Input ε) (w.recvStep session chunk) [] := by
  rw [recvStep]
  cases hconn : w.connections[session]? with
  | none => exact .nothing _
  | some conn =>
    dsimp only
    split_ifs with hw
    · exact .nothing _
    · have hp : conn.pending = [] := by
        rw [Bool.not_eq_true, Bool.or_eq_false_iff, Bool.or_eq_false_iff, Bool.not_eq_false',
          waiting, Bool.and_eq_true, Bool.and_eq_true] at hw
        exact List.isEmpty_iff.mp hw.1.1.1.1
      cases hr : conn.receive chunk with
      | none => exact .overflowed session chunk conn hconn hr
      | some r => exact .received session chunk conn r hconn hp hr

theorem stepCase_thread (verify : Verify) (hash : HashOrder) (w : World σ) (session : SessionId)
    (faults : Faults ε) :
    StepCase verify hash w (.thread session faults) (w.threadStep verify hash session faults).1
      (w.threadStep verify hash session faults).2 := by
  rw [threadStep]
  cases hconn : w.connections[session]? with
  | none => exact .nothing _
  | some conn =>
    dsimp only
    cases hp : conn.pending with
    | cons task rest => exact .worked session faults conn task rest hconn hp
    | nil =>
      dsimp only
      split_ifs
      · exact .nothing _
      · cases hn : conn.next with
        | none => exact .nothing _
        | some p => exact .dispatched session faults conn p.1 p.2 hconn hp hn

/-- The step function takes no step outside the list. -/
theorem stepCase_step (verify : Verify) (hash : HashOrder) (w : World σ) (i : Input ε) :
    StepCase verify hash w i (w.step verify hash i).1 (w.step verify hash i).2 := by
  cases i with
  | accept session =>
    rw [step, acceptStep]
    cases hconn : w.connections[session]? with
    | some conn => exact .nothing _
    | none =>
      dsimp only
      cases hb : w.broker.acceptSession session with
      | none => exact .nothing _
      | some b => exact .accepted session b hconn hb
  | recv session chunk => exact stepCase_recv verify hash w session chunk
  | hangup session =>
    rw [step, hangupStep]
    cases hconn : w.connections[session]? with
    | none => exact .nothing _
    | some conn =>
      dsimp only
      split_ifs
      · exact .hungUp session conn hconn
      · exact .nothing _
  | thread session faults => exact stepCase_thread verify hash w session faults
  | keyStore access => exact .keyed access
  | stop => exact .stopped
  | restart => exact .restarted

/-- A property of all connections holds after one of them was replaced. -/
theorem forall_insert (m : TreeMap SessionId Connection) (session : SessionId) (conn : Connection)
    (P : SessionId → Connection → Prop) (hm : ∀ s c, s ≠ session → m[s]? = some c → P s c)
    (hc : P session conn) : ∀ s c, (m.insert session conn)[s]? = some c → P s c := by
  intro s c h
  rw [TreeMap.getElem?_insert] at h
  split_ifs at h with he <;> rw [LawfulEqCmp.compare_eq_iff_eq] at he
  · rw [← he, ← Option.some_inj.mp h]
    exact hc
  · exact hm s c (Ne.symm he) h

theorem forall_erase (m : TreeMap SessionId Connection) (session : SessionId)
    (P : SessionId → Connection → Prop) (hm : ∀ s c, s ≠ session → m[s]? = some c → P s c) :
    ∀ s c, (m.erase session)[s]? = some c → P s c := by
  intro s c h
  rw [TreeMap.getElem?_erase] at h
  split_ifs at h with he
  rw [LawfulEqCmp.compare_eq_iff_eq] at he
  exact hm s c (Ne.symm he) h

/-- The same after a task: the connection keeps the rest of its tasks, or it is gone. -/
theorem forall_taskStep (hash : HashOrder) (faults : Faults ε) (w : World σ) (session : SessionId)
    (conn : Connection) (task : Task) (rest : List Task) (P : SessionId → Connection → Prop)
    (hm : ∀ s c, s ≠ session → w.connections[s]? = some c → P s c)
    (hc : task ≠ .call .removeSession → P session { conn with pending := w.followUp task ++ rest }) :
    ∀ s c, (w.taskStep hash faults session conn task rest).1.connections[s]? = some c → P s c := by
  rw [taskStep]
  dsimp only
  split_ifs with htask
  · exact forall_erase _ _ _ hm
  · exact forall_insert _ _ _ _ hm (hc htask)

/-- Bytes and hangups change nothing but the connection they come on. -/
theorem recvStep_set (w : World σ) (session : SessionId) (chunk : Bytes) :
    w.recvStep session chunk = w ∨ ∃ conn, w.recvStep session chunk = w.set session conn := by
  rw [recvStep]
  cases w.connections[session]? with
  | none => exact Or.inl rfl
  | some conn =>
    dsimp only
    split_ifs
    · exact Or.inl rfl
    · cases conn.receive chunk with
      | none => exact Or.inr ⟨_, rfl⟩
      | some r => exact Or.inr ⟨_, rfl⟩

theorem hangupStep_set (w : World σ) (session : SessionId) :
    w.hangupStep session = w ∨ ∃ conn, w.hangupStep session = w.set session conn := by
  rw [hangupStep]
  cases w.connections[session]? with
  | none => exact Or.inl rfl
  | some conn =>
    dsimp only
    split_ifs
    · exact Or.inr ⟨_, rfl⟩
    · exact Or.inl rfl

/-- The outputs of a step are those of one task, or one dispatch. -/
theorem step_outputs (verify : Verify) (hash : HashOrder) (w : World σ) (i : Input ε) :
    (w.step verify hash i).2 = [] ∨
    (∃ session item, (w.step verify hash i).2 = [.dispatched session item (w.lookups session)]) ∨
    ∃ session faults conn task rest, i = .thread session faults ∧
      w.connections[session]? = some conn ∧ conn.pending = task :: rest ∧
      (w.step verify hash i).2 = (w.exec hash faults session task).2 ∧
      (w.step verify hash i).1.broker = (w.exec hash faults session task).1 := by
  have hcase := stepCase_step verify hash w i
  revert hcase
  generalize (w.step verify hash i).1 = w'
  generalize (w.step verify hash i).2 = outs
  intro hcase
  cases hcase with
  | worked session faults conn task rest hconn hpending =>
    exact Or.inr (Or.inr ⟨session, faults, conn, task, rest, rfl, hconn, hpending, rfl, rfl⟩)
  | dispatched session faults conn item r hconn hpending hnext =>
    exact Or.inr (Or.inl ⟨session, item, rfl⟩)
  | nothing | accepted | received | overflowed | hungUp | keyed | stopped | restarted =>
    exact Or.inl rfl

/-- What a task puts out: a publish reports its number and sends to the subscribers, all other
sends go to the client of the thread. -/
inductive Shown (w : World σ) (session : SessionId) : Task → List Output → Prop
  | nothing (task : Task) (hpublish : ∀ topic data, task ≠ .call (.publish topic data))
      (hsend : ∀ data, task ≠ .call (.send data)) : Shown w session task []
  | published (topic data : Bytes) : Shown w session (.call (.publish topic data))
      (.published session topic data (w.broker.currentSequence + 1) ::
        (w.broker.recipients topic).map fun s =>
          .sent s (w.protocolOf s) data (some (w.broker.currentSequence + 1)))
  | replied (data : Bytes) : Shown w session (.call (.send data))
      [.sent session (w.protocolOf session) data none]
  | replayed (task : Task) (m : StoredMessage)
      (htask : task = .sendStored m ∨ ∃ clientId, task = .sendUnacked clientId m) :
      Shown w session task [.sent session (w.protocolOf session) m.payload (some m.seq)]

theorem shown_exec (w : World σ) (hash : HashOrder) (faults : Faults ε) (session : SessionId)
    (task : Task) : Shown w session task (w.exec hash faults session task).2 := by
  cases task with
  | call call =>
    cases call with
    | publish topic data =>
      rw [exec, execCall]
      dsimp only
      rw [Broker.publish_seq, (Broker.publish_recipients _ _ _ _).1]
      exact .published topic data
    | send data => exact .replied data
    | registerClient | subscribe | unsubscribe | handleAck | unregisterClient | removeSession
    | replayMessagesForClient => exact .nothing _ (by simp) (by simp)
  | sendStored m => exact .replayed _ m (Or.inl rfl)
  | sendUnacked clientId m =>
    rw [exec]
    dsimp only
    split_ifs
    · exact .nothing _ (by simp) (by simp)
    · exact .replayed _ m (Or.inr ⟨clientId, rfl⟩)
  | replayMessages | loadUnacked => exact .nothing _ (by simp) (by simp)

/-- Who sends a string to a session: a publish to a subscriber, or the own thread of the session,
which replies or replays. -/
theorem sent_mem_exec (w : World σ) (hash : HashOrder) (faults : Faults ε) (session s : SessionId)
    (task : Task) (p : ProtocolType) (data : Bytes) (q : Option UInt64)
    (h : .sent s p data q ∈ (w.exec hash faults session task).2) : p = w.protocolOf s ∧
      ((∃ topic, task = .call (.publish topic data) ∧ s ∈ w.broker.recipients topic ∧
        q = some (w.broker.currentSequence + 1)) ∨
      (s = session ∧ task = .call (.send data) ∧ q = none) ∨
      (s = session ∧ ∃ m, (task = .sendStored m ∨ ∃ clientId, task = .sendUnacked clientId m) ∧
        data = m.payload ∧ q = some m.seq)) := by
  have hshown := w.shown_exec hash faults session task
  generalize (w.exec hash faults session task).2 = outs at h hshown
  cases hshown with
  | nothing => cases h
  | published topic d =>
    simp only [List.mem_cons, reduceCtorEq, List.mem_map, Output.sent.injEq, false_or] at h
    obtain ⟨t, ht, rfl, rfl, rfl, rfl⟩ := h
    exact ⟨rfl, Or.inl ⟨topic, rfl, ht, rfl⟩⟩
  | replied d =>
    obtain ⟨rfl, rfl, rfl, rfl⟩ := Output.sent.inj (List.mem_singleton.mp h)
    exact ⟨rfl, Or.inr (Or.inl ⟨rfl, rfl, rfl⟩)⟩
  | replayed _ m htask =>
    obtain ⟨rfl, rfl, rfl, rfl⟩ := Output.sent.inj (List.mem_singleton.mp h)
    exact ⟨rfl, Or.inr (Or.inr ⟨rfl, m, htask, rfl, rfl⟩)⟩

/-- The same of a whole step. -/
theorem sent_mem_step (verify : Verify) (hash : HashOrder) (w : World σ) (i : Input ε) (s : SessionId)
    (p : ProtocolType) (data : Bytes) (q : Option UInt64)
    (h : .sent s p data q ∈ (w.step verify hash i).2) : ∃ session faults conn task rest,
      w.connections[session]? = some conn ∧ conn.pending = task :: rest ∧
        .sent s p data q ∈ (w.exec hash faults session task).2 := by
  rcases step_outputs verify hash w i with he | ⟨session, item, he⟩ |
    ⟨session, faults, conn, task, rest, -, hconn, hp, he, -⟩
  · rw [he] at h
    cases h
  · rw [he] at h
    cases List.mem_singleton.mp h
  · exact ⟨session, faults, conn, task, rest, hconn, hp, he ▸ h⟩

/-- A publish is reported by the step that makes the call. -/
theorem published_mem_exec (hash : HashOrder) (faults : Faults ε) (w : World σ)
    (session s : SessionId) (task : Task) (topic data : Bytes) (seq : UInt64)
    (h : .published s topic data seq ∈ (w.exec hash faults session task).2) :
    s = session ∧ task = .call (.publish topic data) ∧ seq = w.broker.currentSequence + 1 := by
  cases task with
  | call call =>
    cases call with
    | publish t d =>
      simp only [exec, execCall, List.mem_cons, List.mem_map, reduceCtorEq, and_false, exists_false,
        or_false, Output.published.injEq] at h
      obtain ⟨rfl, rfl, rfl, rfl⟩ := h
      exact ⟨rfl, rfl, Broker.publish_seq _ _ _ _⟩
    | registerClient | subscribe | replayMessagesForClient | unsubscribe | handleAck | send
    | unregisterClient | removeSession => simp [exec, execCall] at h
  | sendUnacked clientId m =>
    simp only [exec] at h
    split_ifs at h <;> simp at h
  | replayMessages | loadUnacked | sendStored => simp [exec] at h

/-- Handlers make calls, replays leave other tasks. -/
theorem not_call_followUp (w : World σ) (task : Task) (call : Call) :
    .call call ∉ w.followUp task := by
  cases task with
  | call c => cases c <;> simp [followUp]
  | replayMessages | loadUnacked | sendStored | sendUnacked => simp [followUp]

theorem mem_map_call {calls : List Call} {call : Call} :
    Task.call call ∈ calls.map .call ↔ call ∈ calls := by
  simp

/-- What has to be checked for a property of every connection, in steps that meet `C`. The
property may speak of the trace so far. -/
structure ConnectionInvariant (verify : Verify) (C : World σ → Input ε → Prop)
    (P : List Output → SessionId → Connection → Prop) : Prop where
  mono : ∀ tr outs s c, P tr s c → P (tr ++ outs) s c
  fresh : ∀ tr s, P tr s {}
  received : ∀ tr s c chunk r, P tr s c → c.pending = [] → c.receive chunk = some r →
    P tr s { c with toReceiver := r }
  overflowed : ∀ (w : World σ) tr s c chunk, C w (.recv s chunk) → w.connections[s]? = some c →
    c.receive chunk = none → P tr s c →
    P tr s { c with pending := c.overflowCalls.map .call, closing := true }
  hungUp : ∀ tr s c, P tr s c →
    P tr s { c with pending := c.exitCalls.map .call, closing := true }
  worked : ∀ (w : World σ) tr s c faults task rest, C w (.thread s faults) →
    w.connections[s]? = some c → c.pending = task :: rest → P tr s c →
    P tr s { c with pending := w.followUp task ++ rest }
  dispatched : ∀ (w : World σ) tr s c faults item r, C w (.thread s faults) →
    w.connections[s]? = some c → c.pending = [] → c.next = some (item, r) → P tr s c →
    P (tr ++ [.dispatched s item (w.lookups s)]) s
      { c with
        toSession := (Session.handle verify (w.lookups s) { c.toSession with toReceiver := r } item).1
        pending := (Session.handle verify (w.lookups s)
          { c.toSession with toReceiver := r } item).2.map .call }

/-- A connection invariant survives every step that meets `C`. -/
theorem ConnectionInvariant.step {verify : Verify} {hash : HashOrder}
    {C : World σ → Input ε → Prop} {P : List Output → SessionId → Connection → Prop}
    (hP : ConnectionInvariant verify C P) (w : World σ) (tr : List Output) (i : Input ε)
    (hC : C w i) (hw : ∀ s c, w.connections[s]? = some c → P tr s c) :
    ∀ s c, (w.step verify hash i).1.connections[s]? = some c →
      P (tr ++ (w.step verify hash i).2) s c := by
  -- a connection that the step does not touch keeps what it had
  have hmono : ∀ outs s c, w.connections[s]? = some c → P (tr ++ outs) s c :=
    fun outs s c h => hP.mono tr outs s c (hw s c h)
  have hothers : ∀ outs session s c, s ≠ session → w.connections[s]? = some c → P (tr ++ outs) s c :=
    fun outs _ s c _ h => hmono outs s c h
  have hcase := stepCase_step verify hash w i
  revert hcase
  generalize (w.step verify hash i).1 = w'
  generalize (w.step verify hash i).2 = outs
  intro hcase
  cases hcase with
  | nothing => exact hmono []
  | accepted session b hfree hb =>
    exact forall_insert _ _ _ _ (hothers [] session) (hP.fresh _ session)
  | received session chunk conn r hconn hpending hr =>
    exact forall_insert _ _ _ _ (hothers [] session)
      (hP.received _ session conn chunk r (hmono [] session conn hconn) hpending hr)
  | overflowed session chunk conn hconn hr =>
    exact forall_insert _ _ _ _ (hothers [] session)
      (hP.overflowed w _ session conn chunk hC hconn hr (hmono [] session conn hconn))
  | hungUp session conn hconn =>
    exact forall_insert _ _ _ _ (hothers [] session)
      (hP.hungUp _ session conn (hmono [] session conn hconn))
  | worked session faults conn task rest hconn hpending =>
    exact forall_taskStep _ _ _ _ _ _ _ _ (hothers _ session)
      fun _ => hP.worked w _ session conn faults task rest hC hconn hpending (hmono _ session conn hconn)
  | dispatched session faults conn item r hconn hpending hnext =>
    exact forall_insert _ _ _ _ (hothers _ session)
      (hP.dispatched w tr session conn faults item r hC hconn hpending hnext (hw session conn hconn))
  | keyed op => exact hmono []
  | stopped => exact hmono []
  | restarted =>
    intro s c h
    rw [TreeMap.getElem?_emptyc] at h
    cases h

/-- What has to be checked of the steps from one state for `Q` to hold of every connection behind
the step, when `P` holds before it. `Q` may speak of what the step puts out. -/
structure ConnectionStep (verify : Verify) (hash : HashOrder) (w : World σ)
    (P : SessionId → Connection → Prop) (Q : List Output → SessionId → Connection → Prop) : Prop where
  others : ∀ (i : Input ε) s c, i.actor ≠ some s → w.connections[s]? = some c → P s c →
    Q (w.step verify hash i).2 s c
  idle : ∀ s c, P s c → Q [] s c
  fresh : ∀ s, w.connections[s]? = none → Q [] s {}
  received : ∀ s c chunk r, w.connections[s]? = some c → c.pending = [] →
    c.receive chunk = some r → P s c → Q [] s { c with toReceiver := r }
  overflowed : ∀ s c chunk, w.connections[s]? = some c → c.receive chunk = none → P s c →
    Q [] s { c with pending := c.overflowCalls.map .call, closing := true }
  hungUp : ∀ s c, w.connections[s]? = some c → P s c →
    Q [] s { c with pending := c.exitCalls.map .call, closing := true }
  worked : ∀ s c (faults : Faults ε) task rest, w.connections[s]? = some c →
    c.pending = task :: rest → task ≠ .call .removeSession → P s c →
    Q (w.exec hash faults s task).2 s { c with pending := w.followUp task ++ rest }
  dispatched : ∀ s c item r, w.connections[s]? = some c → c.pending = [] →
    c.next = some (item, r) → P s c →
    Q [.dispatched s item (w.lookups s)] s
      { c with
        toSession := (Session.handle verify (w.lookups s) { c.toSession with toReceiver := r } item).1
        pending := (Session.handle verify (w.lookups s)
          { c.toSession with toReceiver := r } item).2.map .call }

theorem ConnectionStep.step {verify : Verify} {hash : HashOrder} {w : World σ}
    {P : SessionId → Connection → Prop} {Q : List Output → SessionId → Connection → Prop}
    (h : ConnectionStep (ε := ε) verify hash w P Q)
    (hw : ∀ s c, w.connections[s]? = some c → P s c) (i : Input ε) :
    ∀ s c, (w.step verify hash i).1.connections[s]? = some c → Q (w.step verify hash i).2 s c := by
  -- the connections of other sessions, and all of them where nothing happens
  have hothers : ∀ session, i.actor = some session → ∀ s c, s ≠ session →
      w.connections[s]? = some c → Q (w.step verify hash i).2 s c := by
    intro session hi s c hne hc
    exact h.others i s c (by rw [hi]; exact fun he => hne (Option.some_inj.mp he).symm) hc (hw s c hc)
  have hidle : ∀ s c, w.connections[s]? = some c → Q [] s c := fun s c hc => h.idle s c (hw s c hc)
  have hcase := stepCase_step verify hash w i
  revert hcase hothers
  generalize (w.step verify hash i).1 = w'
  generalize (w.step verify hash i).2 = outs
  intro hothers hcase
  cases hcase with
  | nothing => exact hidle
  | accepted session b hfree hb =>
    exact forall_insert _ _ _ _ (hothers session rfl) (h.fresh session hfree)
  | received session chunk conn r hconn hpending hr =>
    exact forall_insert _ _ _ _ (hothers session rfl)
      (h.received session conn chunk r hconn hpending hr (hw session conn hconn))
  | overflowed session chunk conn hconn hr =>
    exact forall_insert _ _ _ _ (hothers session rfl)
      (h.overflowed session conn chunk hconn hr (hw session conn hconn))
  | hungUp session conn hconn =>
    exact forall_insert _ _ _ _ (hothers session rfl) (h.hungUp session conn hconn (hw session conn hconn))
  | worked session faults conn task rest hconn hpending =>
    exact forall_taskStep _ _ _ _ _ _ _ _ (hothers session rfl) fun htask =>
      h.worked session conn faults task rest hconn hpending htask (hw session conn hconn)
  | dispatched session faults conn item r hconn hpending hnext =>
    exact forall_insert _ _ _ _ (hothers session rfl)
      (h.dispatched session conn item r hconn hpending hnext (hw session conn hconn))
  | keyed op => exact hidle
  | stopped => exact hidle
  | restarted =>
    intro s c hc
    rw [TreeMap.getElem?_emptyc] at hc
    cases hc

end World

end MetricMQ
