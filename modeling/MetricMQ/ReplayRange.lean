import MetricMQ.AckMarks
import MetricMQ.Routing

/-! The range that `replayMessagesForClient` asks the storage for. Both ends are sums of `uint64_t`
with the mark of the client, and the mark is whatever number a client has sent in an ACK frame, in
this process or in an earlier one. -/
namespace MetricMQ

open ByteString Std Machine

/-- The last mark to which `MAX_STORED_MESSAGES` can be added. -/
def lastSafeAck : UInt64 := 18446744073709451615

/-- Neither end of the range above the mark wraps, and the range starts above the mark. -/
structure RangeFits (lastAck : UInt64) : Prop where
  first : (lastAck + 1).toNat = lastAck.toNat + 1
  last : (lastAck + maxStoredMessages).toNat = lastAck.toNat + maxStoredMessages.toNat
  above : lastAck < lastAck + 1

theorem rangeFits_iff (lastAck : UInt64) : RangeFits lastAck ↔ lastAck ≤ lastSafeAck := by
  have hmax : maxStoredMessages.toNat = 100000 := rfl
  have hsafe : lastSafeAck.toNat = 18446744073709451615 := rfl
  have hlt := lastAck.toNat_lt
  rw [UInt64.le_iff_toNat_le, hsafe]
  constructor
  · intro h
    have hlast := h.last
    rw [UInt64.toNat_add, hmax] at hlast
    omega
  · intro h
    have hfirst : (lastAck + 1).toNat = lastAck.toNat + 1 := by
      rw [UInt64.toNat_add, UInt64.toNat_one]
      exact Nat.mod_eq_of_lt (by omega)
    refine ⟨hfirst, ?_, ?_⟩
    · rw [UInt64.toNat_add, hmax]
      exact Nat.mod_eq_of_lt (by omega)
    · rw [UInt64.lt_iff_toNat_lt, hfirst]
      exact Nat.lt_succ_self _

section Marks

variable {σ ε : Type} [Storage σ ε]

/-- The mark of every client leaves room for its range. -/
def Broker.MarksFit (b : Broker σ) : Prop := ∀ c, RangeFits (b.getLastAck c)

theorem Broker.marksFit_start (db : σ) : (Broker.start db).MarksFit := by
  intro c
  rw [rangeFits_iff, marksAgree_start db c]
  exact UInt64.zero_le

/-- A call leaves room above the marks exactly when all acknowledgements in it do. -/
theorem Broker.marksFit_perform (hash : HashOrder) (b : Broker σ) (m : Method ε)
    (hagree : b.MarksAgree) (hfit : b.MarksFit) :
    (b.perform hash m).MarksFit ↔ ∀ a ∈ b.acksIn m, a.2 ≤ lastSafeAck := by
  -- the mark of one client
  have hclient : ∀ c, RangeFits ((b.perform hash m).getLastAck c) ↔
      ∀ n, (c, n) ∈ b.acksIn m → n ≤ lastSafeAck := by
    intro c
    obtain ⟨l, hl, hset⟩ := b.acksOf_perform hash c m
    -- the mark only grows, so the old one is no obstacle
    have hold : (b.acksOf c).maxSeq ≤ lastSafeAck := by
      rw [← hagree c, ← rangeFits_iff]
      exact hfit c
    rw [rangeFits_iff, b.marksAgree_perform hash m hagree c, hset,
      BoundedAckSet.maxSeq_insertAll_le_iff, and_iff_right hold]
    exact forall_congr' fun n => by rw [hl]
  constructor
  · intro h a ha
    exact (hclient a.1).mp (h a.1) a.2 ha
  · intro h c
    exact (hclient c).mpr fun n hn => h (c, n) hn

end Marks

section Runs

variable {σ ε : Type} [Storage σ ε]

namespace World

/-- The acknowledgements that come to the broker in a step of the system. -/
def acksIn (w : World σ) (i : Input ε) : List (Bytes × UInt64) :=
  (w.methods i).flatMap w.broker.acksIn

/-- No `uint64_t` sum of `replayMessagesForClient` wraps: not for a call that begins now, and not
for one that has read the mark of its client and is about to load. -/
structure ReplayRangesFit (w : World σ) : Prop where
  marks : w.broker.MarksFit
  loading : ∀ (session : SessionId) (conn : Connection), w.connections[session]? = some conn →
    ∀ topic clientId lastAck, .loadUnacked topic clientId lastAck ∈ conn.pending →
      RangeFits lastAck

omit [Storage σ ε] in
/-- A step of the system makes one call of the broker at most. -/
theorem methods_cases (w : World σ) (i : Input ε) : w.methods i = [] ∨ ∃ m, w.methods i = [m] := by
  cases i with
  | accept session =>
    rw [methods]
    split_ifs
    · exact Or.inl rfl
    · exact Or.inr ⟨_, rfl⟩
  | thread session faults =>
    rw [methods]
    cases w.pendingTask session with
    | none => exact Or.inl rfl
    | some task =>
      cases task with
      | call call =>
        cases call with
        | replayMessagesForClient | send => exact Or.inl rfl
        | registerClient | subscribe | unsubscribe | publish | handleAck | unregisterClient
        | removeSession => exact Or.inr ⟨_, rfl⟩
      | replayMessages | loadUnacked | sendStored | sendUnacked => exact Or.inl rfl
  | stop => exact Or.inr ⟨_, rfl⟩
  | recv | hangup | keyStore | restart => exact Or.inl rfl

variable (verify : Verify) (hash : HashOrder)

theorem marksAgree_step (w : World σ) (i : Input ε) (hlive : w.ConnectedLive)
    (hagree : w.broker.MarksAgree) : (w.step verify hash i).1.broker.MarksAgree := by
  have hcall : NoRestart w i → (w.step verify hash i).1.broker.MarksAgree := by
    intro hi
    rw [(step_methods verify hash w i hlive hi).2.1]
    exact hagree.after hash _
  cases i with
  | restart => exact Broker.marksAgree_start w.broker.db
  | accept | recv | hangup | thread | keyStore | stop => exact hcall trivial

/-- One step. After a restart no client is known, so all marks are zero. -/
theorem marksFit_step (w : World σ) (i : Input ε) (hlive : w.ConnectedLive)
    (hagree : w.broker.MarksAgree) (hfit : w.broker.MarksFit) :
    (w.step verify hash i).1.broker.MarksFit ↔ ∀ a ∈ w.acksIn i, a.2 ≤ lastSafeAck := by
  have hcall : NoRestart w i →
      ((w.step verify hash i).1.broker.MarksFit ↔ ∀ a ∈ w.acksIn i, a.2 ≤ lastSafeAck) := by
    intro hi
    rw [(step_methods verify hash w i hlive hi).2.1, acksIn]
    rcases w.methods_cases i with he | ⟨m, he⟩
    · rw [he]
      exact iff_of_true hfit (by simp)
    · rw [he, List.flatMap_singleton]
      exact w.broker.marksFit_perform hash m hagree hfit
  cases i with
  | restart => exact iff_of_true (Broker.marksFit_start w.broker.db) (by simp [acksIn, methods])
  | accept | recv | hangup | thread | keyStore | stop => exact hcall trivial

/-- The mark that a thread carries to its load is one that the broker had. -/
theorem loading_invariant :
    ConnectionInvariant verify (fun (w : World σ) (_ : Input ε) => w.broker.MarksFit)
      (fun _ _ conn => ∀ topic clientId lastAck,
        .loadUnacked topic clientId lastAck ∈ conn.pending → RangeFits lastAck) where
  mono := fun tr outs s c h => h
  fresh := by
    intro tr s topic clientId lastAck hm
    cases hm
  received := fun tr s c chunk r h _ _ => h
  overflowed := by
    intro w tr s c chunk _ _ _ _ topic clientId lastAck hm
    simp at hm
  hungUp := by
    intro tr s c _ topic clientId lastAck hm
    simp at hm
  worked := by
    intro w tr s c faults task rest hfit _ hp h topic clientId lastAck hm
    rcases List.mem_append.mp hm with hm | hm
    · cases task with
      | call call =>
        cases call with
        | replayMessagesForClient t d =>
          simp only [followUp, List.mem_singleton, Task.loadUnacked.injEq] at hm
          rw [hm.2.2]
          exact hfit d
        | registerClient | subscribe | unsubscribe | publish | handleAck | send
        | unregisterClient | removeSession => simp [followUp] at hm
      | replayMessages | loadUnacked | sendStored | sendUnacked => simp [followUp] at hm
    · exact h topic clientId lastAck (hp ▸ List.mem_cons_of_mem task hm)
  dispatched := by
    intro w tr s c faults item r _ _ _ _ _ topic clientId lastAck hm
    simp at hm

/-- In every state of every run the sums of a replay fit exactly when every acknowledgement that
comes to the broker, from a client or back from the storage, leaves room for the range. -/
theorem replay_ranges_fit_iff (db : σ) (is : List (Input ε)) :
    (∀ pre, pre <+: is →
      (run (World.step verify hash) (World.start db) pre).1.ReplayRangesFit) ↔
    Meets (World.step verify hash) (fun w i => ∀ a ∈ w.acksIn i, a.2 ≤ lastSafeAck)
      (World.start db) is := by
  refine forall_prefix_iff_meets (fun w : World σ => w.ConnectedLive ∧ w.broker.MarksAgree)
    ReplayRangesFit ?_ ?_ (World.start db) is ?_ ?_
  · intro w i h
    exact ⟨connectedLive_step verify hash w i h.1, marksAgree_step verify hash w i h.1 h.2⟩
  · -- a load that is pending carries a mark that fitted when it was read
    intro w i h hfit
    rw [← marksFit_step verify hash w i h.1 h.2 hfit.marks]
    refine ⟨fun h' => h'.marks, fun h' => ⟨h', ?_⟩⟩
    exact (loading_invariant verify).step w [] i hfit.marks hfit.loading
  · exact ⟨connectedLive_start db, Broker.marksAgree_start db⟩
  · refine ⟨Broker.marksFit_start db, ?_⟩
    intro session conn hconn
    simp [World.start] at hconn

end World

/-- A client subscribes under its name and acknowledges the largest number there is. -/
def acksLargest : List (Input (Option MdbError)) :=
  binaryClient 0 (.subscribe (lit "c" ++ 0 :: lit "t") 1) 7 ++
    .recv 0 (BinaryProtocol.serialize (.ack 18446744073709551615)) ::
    List.replicate 2 (.thread 0 World.allCommit)

/-- Its next replay starts at zero, below everything that it has acknowledged. -/
theorem replay_range_wraps :
    ¬ (∀ pre, pre <+: acksLargest →
      (run (World.step (fun _ _ _ => true) World.insertionOrder) (World.start LmdbFile.empty)
        pre).1.ReplayRangesFit) ∧
    (run (World.step (fun _ _ _ => true) World.insertionOrder) (World.start LmdbFile.empty)
      acksLargest).1.broker.getLastAck (lit "c") + 1 = 0 := by
  have hwrap : (run (World.step (fun _ _ _ => true) World.insertionOrder)
      (World.start LmdbFile.empty) acksLargest).1.broker.getLastAck (lit "c") + 1 = 0 := by
    decide
  refine ⟨?_, hwrap⟩
  intro h
  have habove := ((h acksLargest (List.prefix_refl _)).marks (lit "c")).above
  rw [hwrap] at habove
  exact UInt64.not_lt_zero habove

end Runs

end MetricMQ
