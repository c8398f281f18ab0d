import MetricMQ.World

/-! A thread that no other thread interrupts: its steps add up to the methods of the broker as
they are written, one after the other. -/
namespace MetricMQ

open ByteString Std Machine

def replayed (session : SessionId) (protocol : ProtocolType) (msgs : List StoredMessage) :
    List Output :=
  msgs.map fun m => .sent session protocol m.payload (some m.seq)

namespace World

variable {σ ε : Type} [Storage σ ε] (verify : Verify) (hash : HashOrder) (faults : Faults ε)
  (session : SessionId)

/-- A call from its beginning to its end, replays included. -/
def perform (w : World σ) : Call → Broker σ × List Output
  | .subscribe topic =>
    let r := w.broker.subscribe session topic
    (r.1, replayed session (w.protocolOf session) r.2)
  | .replayMessagesForClient topic clientId =>
    (w.broker,
      replayed session (w.protocolOf session) (w.broker.replayMessagesForClient topic clientId))
  | call => w.execCall hash faults session call

def performAll : World σ → List Call → Broker σ × List Output
  | w, [] => (w.broker, [])
  | w, call :: calls =>
    let r := w.perform hash faults session call
    let rest := performAll { w with broker := r.1 } calls
    (rest.1, r.2 ++ rest.2)

/-- The state after `n` steps of one thread, and what they put out. -/
def threadRun (w : World σ) (n : ℕ) : World σ × List Output :=
  run (step verify hash) w (List.replicate n (.thread session faults))

/-- In `n` steps the thread reaches the broker `b` and puts out `outs`, with `rest` still to
do; no other connection changes. -/
structure Arrives (w : World σ) (conn : Connection) (n : ℕ) (rest : List Task) (b : Broker σ)
    (outs : List Output) : Prop where
  broker : (w.threadRun verify hash faults session n).1.broker = b
  outputs : (w.threadRun verify hash faults session n).2 = outs
  own : (w.threadRun verify hash faults session n).1.connections[session]? =
    some { conn with pending := rest }
  others : ∀ s, s ≠ session →
    (w.threadRun verify hash faults session n).1.connections[s]? = w.connections[s]?

variable {w : World σ} {conn : Connection}

section Parts

variable {verify hash faults session}

theorem Arrives.trans {n m : ℕ} {mid rest : List Task} {b b' : Broker σ} {outs outs' : List Output}
    (h : Arrives verify hash faults session w conn n mid b outs)
    (h' : Arrives verify hash faults session (w.threadRun verify hash faults session n).1
      { conn with pending := mid } m rest b' outs') :
    Arrives verify hash faults session w conn (n + m) rest b' (outs ++ outs') := by
  have hrun : w.threadRun verify hash faults session (n + m) =
      (((w.threadRun verify hash faults session n).1.threadRun verify hash faults session m).1,
        (w.threadRun verify hash faults session n).2 ++
          ((w.threadRun verify hash faults session n).1.threadRun verify hash faults session m).2) := by
    rw [threadRun, List.replicate_add, run_append]
    rfl
  constructor
  · rw [hrun]
    exact h'.broker
  · rw [hrun]
    dsimp only
    rw [h.outputs, h'.outputs]
  · rw [hrun]
    exact h'.own
  · intro s hs
    rw [hrun]
    exact (h'.others s hs).trans (h.others s hs)

/-- The protocols the sessions have detected do not change on the way. -/
theorem Arrives.protocolOf {n : ℕ} {rest : List Task} {b : Broker σ} {outs : List Output}
    (h : Arrives verify hash faults session w conn n rest b outs)
    (hconn : w.connections[session]? = some conn) (s : SessionId) :
    (w.threadRun verify hash faults session n).1.protocolOf s = w.protocolOf s := by
  by_cases hs : s = session
  · subst hs
    rw [World.protocolOf, h.own, World.protocolOf, hconn]
  · rw [World.protocolOf, h.others s hs, World.protocolOf]

end Parts

/-- No step at all. -/
theorem arrives_zero (hconn : w.connections[session]? = some conn) :
    Arrives verify hash faults session w conn 0 conn.pending w.broker [] :=
  ⟨rfl, rfl, hconn, fun _ _ => rfl⟩

/-- One task. -/
theorem arrives_task (task : Task) (rest : List Task)
    (hconn : w.connections[session]? = some conn) (hp : conn.pending = task :: rest)
    (ht : task ≠ .call .removeSession) :
    Arrives verify hash faults session w conn 1 (w.followUp task ++ rest)
      (w.exec hash faults session task).1 (w.exec hash faults session task).2 := by
  have hstep : w.threadRun verify hash faults session 1 =
      w.taskStep hash faults session conn task rest := by
    rw [threadRun, List.replicate_one, run, run, step,
      threadStep_of_task verify hash w session faults conn task rest hconn hp]
    simp only [List.append_nil]
  have hconns : (w.taskStep hash faults session conn task rest).1.connections =
      w.connections.insert session { conn with pending := w.followUp task ++ rest } := by
    rw [taskStep]
    dsimp only
    rw [if_neg ht]
  constructor
  · rw [hstep]
    rfl
  · rw [hstep]
    rfl
  · rw [hstep, hconns, TreeMap.getElem?_insert_self]
  · intro s hs
    rw [hstep, hconns, TreeMap.getElem?_insert, if_neg]
    rw [LawfulEqCmp.compare_eq_iff_eq]
    exact fun he => hs he.symm

/-- A task that leaves the thread with `next`, whatever else the world holds than `b`. -/
structure TaskDoes (w : World σ) (task : Task) (b : Broker σ) (next : List Task)
    (outs : List Output) : Prop where
  exec : w.exec hash faults session task = (b, outs)
  followUp : w.followUp task = next
  stays : task ≠ .call .removeSession

theorem TaskDoes.arrives {task : Task} {b : Broker σ} {next : List Task} {outs : List Output}
    (h : TaskDoes hash faults session w task b next outs) (rest : List Task)
    (hconn : w.connections[session]? = some conn) (hp : conn.pending = task :: rest) :
    Arrives verify hash faults session w conn 1 (next ++ rest) b outs := by
  have hone := arrives_task verify hash faults session task rest hconn hp h.stays
  rwa [h.exec, h.followUp] at hone

/-- The loop of a replay: one task for each message, none of which changes the broker. -/
theorem arrives_sends (task : StoredMessage → Task) (out : StoredMessage → List Output)
    (b : Broker σ) (p : ProtocolType) (msgs : List StoredMessage) (rest : List Task)
    (htask : ∀ (w : World σ) m, w.broker = b → w.protocolOf session = p →
      TaskDoes hash faults session w (task m) b [] (out m))
    (hconn : w.connections[session]? = some conn) (hb : w.broker = b)
    (hproto : w.protocolOf session = p) (hp : conn.pending = msgs.map task ++ rest) :
    Arrives verify hash faults session w conn msgs.length rest b (msgs.flatMap out) := by
  induction msgs generalizing w conn with
  | nil =>
    have h := arrives_zero verify hash faults session hconn
    rw [hp, hb] at h
    exact h
  | cons m msgs ih =>
    have hone := (htask w m hb hproto).arrives verify hash faults session _ hconn hp
    have hrest := ih hone.own hone.broker ((hone.protocolOf hconn session).trans hproto) rfl
    rw [List.length_cons, Nat.add_comm, List.flatMap_cons]
    exact hone.trans hrest

/-- A call with a replay behind it: the call, the load, and one send for each message. -/
theorem arrives_replay (call load : Task) (task : StoredMessage → Task)
    (out : StoredMessage → List Output) (b : Broker σ) (msgs : List StoredMessage)
    (rest : List Task) (hcall : TaskDoes hash faults session w call b [load] [])
    (hload : ∀ w : World σ, w.broker = b →
      TaskDoes hash faults session w load b (msgs.map task) [])
    (htask : ∀ (w' : World σ) m, w'.broker = b → w'.protocolOf session = w.protocolOf session →
      TaskDoes hash faults session w' (task m) b [] (out m))
    (hconn : w.connections[session]? = some conn) (hp : conn.pending = call :: rest) :
    ∃ n, Arrives verify hash faults session w conn n rest b (msgs.flatMap out) := by
  have h1 := hcall.arrives verify hash faults session rest hconn hp
  have h2 := (hload _ h1.broker).arrives verify hash faults session rest h1.own rfl
  have h12 := h1.trans h2
  have h3 := arrives_sends verify hash faults session task out b _ msgs rest htask h12.own
    h12.broker (h12.protocolOf hconn session) rfl
  exact ⟨_, h12.trans h3⟩

/-- The steps of a call, uninterrupted, do what the call does from its beginning to its end. -/
theorem arrives_call (call : Call) (rest : List Task) (hc : call ≠ .removeSession)
    (hconn : w.connections[session]? = some conn) (hp : conn.pending = .call call :: rest) :
    ∃ n, Arrives verify hash faults session w conn n rest (w.perform hash faults session call).1
      (w.perform hash faults session call).2 := by
  cases call with
  | subscribe topic =>
    obtain ⟨n, h⟩ := arrives_replay verify hash faults session (.call (.subscribe topic))
      (.replayMessages topic 0) .sendStored
      (fun m => [.sent session (w.protocolOf session) m.payload (some m.seq)])
      (w.broker.addSubscriber session topic)
      ((w.broker.addSubscriber session topic).replayMessages topic 0) rest ⟨rfl, rfl, by simp⟩
      (fun w' hb => ⟨by rw [exec, hb], by rw [followUp, hb], by simp⟩)
      (fun w' m hb hproto => ⟨by rw [exec, hb, hproto], rfl, by simp⟩) hconn hp
    rw [← List.map_eq_flatMap] at h
    exact ⟨n, h⟩
  | replayMessagesForClient topic clientId =>
    obtain ⟨n, h⟩ := arrives_replay verify hash faults session
      (.call (.replayMessagesForClient topic clientId))
      (.loadUnacked topic clientId (w.broker.getLastAck clientId)) (.sendUnacked clientId)
      (fun m => if w.broker.isAcked clientId m.seq then []
        else [.sent session (w.protocolOf session) m.payload (some m.seq)])
      w.broker (w.broker.loadUnacked topic (w.broker.getLastAck clientId)) rest ⟨rfl, rfl, by simp⟩
      (fun w' hb => ⟨by rw [exec, hb], by rw [followUp, hb], by simp⟩)
      (fun w' m hb hproto => ⟨by rw [exec, hb, hproto], rfl, by simp⟩) hconn hp
    -- a send for each message that the filter keeps
    have hout : ∀ msgs : List StoredMessage,
        (msgs.flatMap fun m => if w.broker.isAcked clientId m.seq then []
          else [Output.sent session (w.protocolOf session) m.payload (some m.seq)]) =
        replayed session (w.protocolOf session)
          (msgs.filter fun m => !w.broker.isAcked clientId m.seq) := by
      intro msgs
      induction msgs with
      | nil => rfl
      | cons m msgs ih =>
        rw [List.flatMap_cons, ih, List.filter_cons]
        cases w.broker.isAcked clientId m.seq <;> rfl
    rw [hout] at h
    exact ⟨n, h⟩
  | removeSession => exact absurd rfl hc
  | registerClient | unsubscribe | publish | handleAck | send | unregisterClient =>
    exact ⟨1, arrives_task verify hash faults session _ rest hconn hp (by simp)⟩

/-- Only the broker and the detected protocols matter to what calls do. -/
theorem performAll_congr (w w' : World σ) (calls : List Call) (hb : w'.broker = w.broker)
    (hproto : ∀ s, w'.protocolOf s = w.protocolOf s) :
    w'.performAll hash faults session calls = w.performAll hash faults session calls := by
  induction calls generalizing w w' with
  | nil => rw [performAll, performAll, hb]
  | cons call calls ih =>
    have hone : w'.perform hash faults session call = w.perform hash faults session call := by
      cases call <;> simp only [perform, execCall, hb, hproto]
    rw [performAll, performAll, hone, ih { w with broker := (w.perform hash faults session call).1 }
      { w' with broker := (w.perform hash faults session call).1 } rfl hproto]

/-- A thread that runs alone performs the calls of a handler one after the other. -/
theorem arrives_all (calls : List Call) (rest : List Task) (hc : .removeSession ∉ calls)
    (hconn : w.connections[session]? = some conn) (hp : conn.pending = calls.map .call ++ rest) :
    ∃ n, Arrives verify hash faults session w conn n rest
      (w.performAll hash faults session calls).1 (w.performAll hash faults session calls).2 := by
  induction calls generalizing w conn with
  | nil =>
    have h := arrives_zero verify hash faults session hconn
    rw [hp] at h
    exact ⟨0, h⟩
  | cons call calls ih =>
    rw [List.mem_cons, not_or] at hc
    obtain ⟨n, hone⟩ := arrives_call verify hash faults session call (calls.map Task.call ++ rest)
      (fun he => hc.1 he.symm) hconn hp
    obtain ⟨m, hrest⟩ := ih hc.2 hone.own rfl
    rw [performAll_congr hash faults session
      { w with broker := (w.perform hash faults session call).1 } _ calls hone.broker
      (hone.protocolOf hconn)] at hrest
    exact ⟨n + m, hone.trans hrest⟩

end World

end MetricMQ
