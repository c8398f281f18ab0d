import Mathlib.Algebra.Order.BigOperators.Group.List
import MetricMQ.LiveDelivery

/-! What a process holds for its connections: `sessions_`, the counter of the accept loop, its
gauge and the receive buffers, over all runs. Here a connection is entered, counted and started at
once; the single steps of the accept loop are in `AcceptLoop`. -/
namespace MetricMQ

open ByteString Std Machine

section Accounting

variable {σ : Type}

/-- `sessions_` lists the connected sessions, each once; the counter and the gauge tell how many
they are, there are never more than the cap, and no buffer grows over its limit. -/
structure World.Accounted (w : World σ) : Prop where
  nodup : w.broker.sessions.Nodup
  connected : ∀ session, session ∈ w.broker.sessions ↔ session ∈ w.connections
  count : w.broker.activeConnections.toNat = w.broker.sessions.length
  gauge : w.broker.metrics.activeConnections = Int64.ofNat w.broker.sessions.length
  cap : w.broker.sessions.length ≤ maxConnections.toNat
  buffers : ∀ (session : SessionId) (conn : Connection), w.connections[session]? = some conn →
    conn.recvBuffer.length ≤ maxRecvBuffer

/-- The received bytes that are not parsed yet. -/
def World.buffered (w : World σ) : ℕ :=
  (w.connections.toList.map fun entry => entry.2.recvBuffer.length).sum

theorem World.Accounted.size {w : World σ} (h : w.Accounted) :
    w.connections.size = w.broker.sessions.length := by
  rw [← TreeMap.length_keys]
  -- two lists without duplicates that have the same elements
  refine ((List.perm_ext_iff_of_nodup TreeMap.nodup_keys h.nodup).mpr fun session => ?_).length_eq
  rw [TreeMap.mem_keys, h.connected]

theorem World.Accounted.buffered_le {w : World σ} (h : w.Accounted) :
    w.buffered ≤ maxConnections.toNat * maxRecvBuffer := by
  have hlength : (w.connections.toList.map fun entry => entry.2.recvBuffer.length).length ≤
      maxConnections.toNat := by
    rw [List.length_map, TreeMap.length_toList, h.size]
    exact h.cap
  apply (List.sum_le_card_nsmul _ maxRecvBuffer _).trans (Nat.mul_le_mul_right _ hlength)
  intro n hn
  obtain ⟨⟨session, conn⟩, he, rfl⟩ := List.mem_map.mp hn
  exact h.buffers session conn (TreeMap.mem_toList_iff_getElem?_eq_some.mp he)

variable {ε : Type} [Storage σ ε] (verify : Verify) (hash : HashOrder)

/-- What an unsubscription touches: the table, its own counter and the gauges of the table. -/
theorem unsubscribe_frame (b : Broker σ) (session : SessionId) (topic : Bytes) :
    ∃ subs total gauges active topics, b.unsubscribe session topic = { b with
      topicSubscribers := subs
      metrics := { b.metrics with
        unsubscriptionsTotal := total
        topicSubscribers := gauges
        activeSubscribers := active
        topicCount := topics } } := by
  have hdecrement : ∀ m : Metrics, ∃ gauges, m.decrementTopicSubscribers topic =
      { m with topicSubscribers := gauges } := by
    intro m
    rw [Metrics.decrementTopicSubscribers]
    cases m.topicSubscribers[topic]? with
    | none => exact ⟨_, rfl⟩
    | some n =>
      dsimp only
      split_ifs
      · exact ⟨_, rfl⟩
      · exact ⟨_, rfl⟩
  rw [Broker.unsubscribe]
  cases b.topicSubscribers[topic]? with
  | none => exact ⟨_, _, _, _, _, rfl⟩
  | some set =>
    obtain ⟨gauges, he⟩ := hdecrement b.metrics.incrementUnsubscriptions
    dsimp only
    rw [he]
    split_ifs
    · exact ⟨_, _, _, _, _, rfl⟩
    · exact ⟨_, _, _, _, _, rfl⟩

/-- Only the last task of a session is seen in the list of sessions. -/
theorem sessions_exec (w : World σ) (faults : Faults ε) (session : SessionId) (task : Task)
    (htask : task ≠ .call .removeSession) :
    (w.exec hash faults session task).1.sessions = w.broker.sessions ∧
      (w.exec hash faults session task).1.activeConnections = w.broker.activeConnections ∧
      (w.exec hash faults session task).1.metrics.activeConnections =
        w.broker.metrics.activeConnections := by
  cases task with
  | call call =>
    cases call with
    | registerClient id =>
      obtain ⟨acks, marks, h⟩ := w.broker.registerClient_frame hash id session
      rw [World.exec, World.execCall, h]
      exact ⟨rfl, rfl, rfl⟩
    | publish topic data =>
      obtain ⟨db, h⟩ := w.broker.publish_frame faults.publish topic data
      rw [World.exec, World.execCall]
      dsimp only
      rw [h]
      exact ⟨rfl, rfl, rfl⟩
    | unsubscribe topic =>
      obtain ⟨subs, total, gauges, active, topics, h⟩ := unsubscribe_frame w.broker session topic
      rw [World.exec, World.execCall, h]
      exact ⟨rfl, rfl, rfl⟩
    | removeSession => exact absurd rfl htask
    | subscribe | replayMessagesForClient | handleAck | send | unregisterClient =>
      exact ⟨rfl, rfl, rfl⟩
  | replayMessages | loadUnacked | sendStored | sendUnacked => exact ⟨rfl, rfl, rfl⟩

/-- A connection that takes another one's place. -/
theorem accounted_set (w : World σ) (h : w.Accounted) (session : SessionId) (conn conn' : Connection)
    (hconn : w.connections[session]? = some conn) (hbuffer : conn'.recvBuffer.length ≤ maxRecvBuffer) :
    (w.set session conn').Accounted := by
  refine ⟨h.nodup, fun s => ?_, h.count, h.gauge, h.cap, ?_⟩
  · rw [World.set, TreeMap.mem_insert, h.connected, LawfulEqCmp.compare_eq_iff_eq]
    refine ⟨Or.inr, fun hs => hs.elim (fun he => ?_) id⟩
    rw [← he, TreeMap.mem_iff_isSome_getElem?, hconn]
    rfl
  · exact World.forall_insert _ _ _ (fun _ c => c.recvBuffer.length ≤ maxRecvBuffer)
      (fun s c _ hc => h.buffers s c hc) hbuffer

/-- The receive loop appends only what its limit has room for. -/
theorem receive_length (r r' : Receiver) (chunk : Bytes) (h : r.receive chunk = some r') :
    r'.recvBuffer.length ≤ maxRecvBuffer := by
  rw [Receiver.receive] at h
  by_cases hfull : r.recvBuffer.length + chunk.length > maxRecvBuffer
  · rw [if_pos hfull] at h
    cases h
  · rw [if_neg hfull] at h
    rw [← Option.some_inj.mp h, List.length_append]
    exact Nat.not_lt.mp hfull

theorem next_length (r r' : Receiver) (item : Dispatch) (h : r.next = some (item, r')) :
    r'.recvBuffer.length < r.recvBuffer.length := by
  obtain ⟨n, hp, rfl⟩ := r.next_eq_some r' item h
  rw [← dispatcher_parse] at hp
  obtain ⟨hpos, hle⟩ := (dispatcher r.protocol).progress r.recvBuffer item n hp
  rw [List.length_drop]
  omega

theorem accounted_accept (w : World σ) (h : w.Accounted) (session : SessionId) (b : Broker σ)
    (hfree : w.connections[session]? = none) (hb : w.broker.acceptSession session = some b) :
    World.Accounted
      { w with
        broker := b
        connections := w.connections.insert session {}
        looked := w.looked.erase session } := by
  rw [Broker.acceptSession] at hb
  split_ifs at hb with hfull
  obtain rfl := Option.some_inj.mp hb
  have hmax : maxConnections.toNat = 1000 := rfl
  have hroom : w.broker.activeConnections.toNat < 1000 := by
    rw [ge_iff_le, UInt64.not_le] at hfull
    exact UInt64.lt_iff_toNat_lt.mp hfull
  have hcount := h.count
  have hnew : session ∉ w.broker.sessions := by
    rw [h.connected, TreeMap.mem_iff_isSome_getElem?, hfree]
    exact Bool.false_ne_true
  refine ⟨?_, fun s => ?_, ?_, rfl, ?_, ?_⟩
  · exact List.nodup_append_comm.mpr (List.nodup_cons.mpr ⟨hnew, h.nodup⟩)
  · rw [List.mem_append, List.mem_singleton, TreeMap.mem_insert, h.connected,
      LawfulEqCmp.compare_eq_iff_eq, or_comm, eq_comm]
  · dsimp only
    rw [toNat_next _ (by omega), List.length_append, List.length_singleton, hcount]
  · dsimp only
    rw [List.length_append, List.length_singleton]
    omega
  · exact World.forall_insert _ _ _ (fun _ c => c.recvBuffer.length ≤ maxRecvBuffer)
      (fun s c _ hc => h.buffers s c hc) (Nat.zero_le _)

/-- The last task of a session takes it out of all three places. -/
theorem accounted_remove (w : World σ) (h : w.Accounted) (session : SessionId) (conn : Connection)
    (hconn : w.connections[session]? = some conn) :
    World.Accounted
      { w with
        broker := w.broker.removeSession session
        connections := w.connections.erase session } := by
  have hmem : session ∈ w.broker.sessions := by
    rw [h.connected, TreeMap.mem_iff_isSome_getElem?, hconn]
    rfl
  have hlength : (w.broker.sessions.filter (· != session)).length = w.broker.sessions.length - 1 := by
    rw [← h.nodup.erase_eq_filter, List.length_erase_of_mem hmem]
  have hpos := List.length_pos_of_mem hmem
  have hcap := h.cap
  have hcount := h.count
  refine ⟨h.nodup.filter _, fun s => ?_, ?_, rfl, ?_, ?_⟩
  · simp only [Broker.removeSession]
    rw [List.mem_filter, h.connected, TreeMap.mem_erase, ne_eq, LawfulEqCmp.compare_eq_iff_eq,
      bne_iff_ne, and_comm, ne_comm]
  · simp only [Broker.removeSession]
    have hle : (1 : UInt64) ≤ w.broker.activeConnections := by
      rw [UInt64.le_iff_toNat_le, hcount]
      exact hpos
    rw [UInt64.toNat_sub_of_le _ _ hle, hlength, hcount]
    rfl
  · simp only [Broker.removeSession]
    omega
  · exact World.forall_erase _ _ (fun _ c => c.recvBuffer.length ≤ maxRecvBuffer)
      (fun s c _ hc => h.buffers s c hc)

theorem accounted_taskStep (w : World σ) (h : w.Accounted) (faults : Faults ε) (session : SessionId)
    (conn : Connection) (task : Task) (rest : List Task)
    (hconn : w.connections[session]? = some conn) :
    (w.taskStep hash faults session conn task rest).1.Accounted := by
  rw [World.taskStep]
  dsimp only
  by_cases htask : task = .call .removeSession
  · rw [if_pos htask, htask]
    exact accounted_remove w h session conn hconn
  -- every other task leaves the list, the counter and the gauge as they are
  · obtain ⟨hsessions, hactive, hgauge⟩ := sessions_exec hash w faults session task htask
    rw [if_neg htask]
    have hset := accounted_set w h session conn { conn with pending := w.followUp task ++ rest } hconn
      (h.buffers session conn hconn)
    refine ⟨?_, ?_, ?_, ?_, ?_, hset.buffers⟩
    · simpa only [hsessions] using h.nodup
    · simp only [hsessions]
      exact hset.connected
    · simpa only [hsessions, hactive] using h.count
    · simpa only [hsessions, hgauge] using h.gauge
    · simpa only [hsessions] using h.cap

theorem accounted_start (db : σ) : (World.start db).Accounted where
  nodup := List.nodup_nil
  connected := fun session => by simp [World.start, Broker.start]
  count := rfl
  gauge := rfl
  cap := Nat.zero_le _
  buffers := fun session conn hc => by simp [World.start] at hc

theorem accounted_step (w : World σ) (i : Input ε) (h : w.Accounted) :
    (w.step verify hash i).1.Accounted := by
  have hcase := World.stepCase_step verify hash w i
  revert hcase
  generalize (w.step verify hash i).1 = w'
  generalize (w.step verify hash i).2 = outs
  intro hcase
  cases hcase with
  | nothing => exact h
  | accepted session b hfree hb => exact accounted_accept w h session b hfree hb
  | received session chunk conn r hconn hpending hr =>
    exact accounted_set w h session conn _ hconn (receive_length _ r chunk hr)
  | overflowed session chunk conn hconn hr =>
    exact accounted_set w h session conn _ hconn (h.buffers session conn hconn)
  | hungUp session conn hconn =>
    exact accounted_set w h session conn _ hconn (h.buffers session conn hconn)
  | worked session faults conn task rest hconn hpending =>
    exact accounted_taskStep hash w h faults session conn task rest hconn
  | dispatched session faults conn item r hconn hpending hnext =>
    have hless := next_length conn.toReceiver r item hnext
    have hold := h.buffers session conn hconn
    have hset := accounted_set w h session conn
      { conn with
        toSession :=
          (Session.handle verify (w.lookups session) { conn.toSession with toReceiver := r } item).1
        pending := (Session.handle verify (w.lookups session)
          { conn.toSession with toReceiver := r } item).2.map .call } hconn
      (by rw [handle_toReceiver]; exact (Nat.le_of_lt hless).trans hold)
    exact ⟨hset.nodup, hset.connected, hset.count, hset.gauge, hset.cap, hset.buffers⟩
  | keyed op => exact ⟨h.nodup, h.connected, h.count, h.gauge, h.cap, h.buffers⟩
  | stopped => exact ⟨h.nodup, h.connected, h.count, h.gauge, h.cap, h.buffers⟩
  | restarted => exact accounted_start w.broker.db

/-- In every state of every run, across restarts, there are no more connections than the cap, no
receive buffer is over its limit, and so the bytes that are buffered for all connections together are
bounded too. -/
theorem resources_bounded (db : σ) (is : List (Input ε)) :
    (run (World.step verify hash) (World.start db) is).1.connections.size ≤ maxConnections.toNat ∧
      (∀ (session : SessionId) (conn : Connection),
        (run (World.step verify hash) (World.start db) is).1.connections[session]? = some conn →
          conn.recvBuffer.length ≤ maxRecvBuffer) ∧
      (run (World.step verify hash) (World.start db) is).1.buffered ≤
        maxConnections.toNat * maxRecvBuffer := by
  have h : (run (World.step verify hash) (World.start db) is).1.Accounted :=
    run_invariant (C := fun _ _ => True) (fun w _ => w.Accounted)
      (fun w _ i hw _ => accounted_step verify hash w i hw) (World.start db) [] is
      (accounted_start db) (meets_true _ is)
  exact ⟨h.size ▸ h.cap, h.buffers, h.buffered_le⟩

end Accounting

end MetricMQ
