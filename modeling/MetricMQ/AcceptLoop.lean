import MetricMQ.Publishing

/-! The accept loop beside the ends of running sessions. The loop checks the number of
connections, enters a session into `sessions_`, counts it and starts its thread in separate
steps, only some of them under the broker mutex; a thread at its end takes its session out and
counts it down under the mutex, in two steps for the unlocked counter. -/
namespace MetricMQ

open ByteString Std Machine

namespace Broker

variable {σ : Type} (b : Broker σ) (session : SessionId)

/-- `sessions_.push_back`. -/
def pushSession : Broker σ := { b with sessions := b.sessions ++ [session] }

/-- `active_connections_++`, outside the mutex. -/
def countConnection : Broker σ := { b with activeConnections := b.activeConnections + 1 }

/-- The metrics at the end of the loop body. -/
def reportConnection : Broker σ :=
  { b with metrics := b.metrics.incrementConnections.setActiveConnections b.sessions.length }

/-- `removeSession` up to the erasure from `sessions_`. -/
def eraseSession : Broker σ :=
  let subs := b.topicSubscribers.keys.foldl (dropSubscriber session) b.topicSubscribers
  { b with
    topicSubscribers := subs.keys.foldl dropIfEmpty subs
    sessions := b.sessions.filter (· != session) }

/-- `removeSession` from `active_connections_--` on. -/
def uncountConnection : Broker σ :=
  { b with
    activeConnections := b.activeConnections - 1
    metrics := (((b.metrics.incrementDisconnections).setActiveConnections
      b.sessions.length).setActiveSubscribers
      (countTotalSubscribers b.topicSubscribers)).setTopicCount b.topicSubscribers.size }

theorem acceptSession_eq : b.acceptSession session =
    if b.activeConnections ≥ maxConnections then none
    else some (b.pushSession session).countConnection.reportConnection := rfl

theorem removeSession_eq :
    b.removeSession session = (b.eraseSession session).uncountConnection := rfl

end Broker

/-- Where the accept loop is with the connection at hand. -/
inductive AcceptStage
  | idle
  | checked (session : SessionId)
  | pushed (session : SessionId)
  | counted (session : SessionId)
  | started

/-- The broker, the accept loop, the sessions whose threads run, and the one that is between
its erasure and its decrement and holds the mutex. -/
structure AcceptLoop (σ : Type) where
  broker : Broker σ
  stage : AcceptStage := .idle
  running : List SessionId := []
  removing : Option SessionId := none

namespace AcceptLoop

inductive Input
  | check (session : SessionId)
  | push
  | count
  | start
  | report
  | erase (session : SessionId)
  | decrement

variable {σ : Type}

/-- A step that the state does not allow does not happen; the output are connections that are
closed at once. -/
def step (st : AcceptLoop σ) : Input → AcceptLoop σ × List SessionId
  | .check session =>
    match st.stage with
    | .idle =>
      if st.broker.activeConnections ≥ maxConnections then (st, [session])
      -- a new object is none of those in the list
      else if session ∈ st.broker.sessions then (st, [])
      else ({ st with stage := .checked session }, [])
    | _ => (st, [])
  | .push =>
    match st.stage, st.removing with
    | .checked session, none =>
      ({ st with broker := st.broker.pushSession session, stage := .pushed session }, [])
    | _, _ => (st, [])
  | .count =>
    match st.stage with
    | .pushed session => ({ st with broker := st.broker.countConnection, stage := .counted session }, [])
    | _ => (st, [])
  | .start =>
    match st.stage with
    | .counted session => ({ st with running := st.running ++ [session], stage := .started }, [])
    | _ => (st, [])
  | .report =>
    match st.stage, st.removing with
    | .started, none => ({ st with broker := st.broker.reportConnection, stage := .idle }, [])
    | _, _ => (st, [])
  | .erase session =>
    match st.removing with
    | none =>
      if session ∈ st.running then
        ({ st with
          broker := st.broker.eraseSession session
          running := st.running.erase session
          removing := some session }, [])
      else (st, [])
    | some _ => (st, [])
  | .decrement =>
    match st.removing with
    | some _ => ({ st with broker := st.broker.uncountConnection, removing := none }, [])
    | none => (st, [])

section Steps

variable (st : AcceptLoop σ)

/-- Everything a step can do, with what it requires. -/
inductive StepCase : Input → AcceptLoop σ → Prop
  | nothing (i : Input) : StepCase i st
  | checked (session : SessionId) (hstage : st.stage = .idle)
      (hroom : st.broker.activeConnections < maxConnections) (hfresh : session ∉ st.broker.sessions) :
      StepCase (.check session) { st with stage := .checked session }
  | pushed (session : SessionId) (hstage : st.stage = .checked session) (hfree : st.removing = none) :
      StepCase .push { st with broker := st.broker.pushSession session, stage := .pushed session }
  | counted (session : SessionId) (hstage : st.stage = .pushed session) :
      StepCase .count { st with broker := st.broker.countConnection, stage := .counted session }
  | started (session : SessionId) (hstage : st.stage = .counted session) :
      StepCase .start { st with running := st.running ++ [session], stage := .started }
  | reported (hstage : st.stage = .started) (hfree : st.removing = none) :
      StepCase .report { st with broker := st.broker.reportConnection, stage := .idle }
  | erased (session : SessionId) (hfree : st.removing = none) (hrun : session ∈ st.running) :
      StepCase (.erase session) { st with
        broker := st.broker.eraseSession session
        running := st.running.erase session
        removing := some session }
  | decremented (session : SessionId) (hheld : st.removing = some session) :
      StepCase .decrement { st with broker := st.broker.uncountConnection, removing := none }

theorem step_cases (i : Input) : StepCase st i (step st i).1 := by
  cases i with
  | check session =>
    rw [step]
    split
    · rename_i hstage
      split_ifs with hfull hmem
      · exact .nothing _
      · exact .nothing _
      · exact .checked session hstage (Std.not_le.mp hfull) hmem
    · exact .nothing _
  | push =>
    rw [step]
    split
    · rename_i session hstage hfree
      exact .pushed session hstage hfree
    · exact .nothing _
  | count =>
    rw [step]
    split
    · rename_i session hstage
      exact .counted session hstage
    · exact .nothing _
  | start =>
    rw [step]
    split
    · rename_i session hstage
      exact .started session hstage
    · exact .nothing _
  | report =>
    rw [step]
    split
    · rename_i hstage hfree
      exact .reported hstage hfree
    · exact .nothing _
  | erase session =>
    rw [step]
    split
    · rename_i hfree
      split_ifs with hrun
      · exact .erased session hfree hrun
      · exact .nothing _
    · exact .nothing _
  | decrement =>
    rw [step]
    split
    · rename_i session hheld
      exact .decremented session hheld
    · exact .nothing _

end Steps

/-- The loop is between `push_back` and the increment. -/
def uncounted : AcceptStage → ℕ
  | .pushed _ => 1
  | _ => 0

/-- A `removeSession` is between the erasure and the decrement. -/
def undecremented (removing : Option SessionId) : ℕ := if removing.isSome then 1 else 0

/-- What the loop knows at each stage: the session at hand is in the list or not, its thread
does not run yet, and nobody else counts up behind the check of the cap. -/
def StageOK (st : AcceptLoop σ) : AcceptStage → Prop
  | .idle | .started => True
  | .checked s =>
    s ∉ st.broker.sessions ∧ st.broker.activeConnections.toNat < maxConnections.toNat
  | .pushed s => (s ∈ st.broker.sessions ∧ s ∉ st.running) ∧
    st.broker.activeConnections.toNat < maxConnections.toNat
  | .counted s => s ∈ st.broker.sessions ∧ s ∉ st.running

/-- What holds between two steps. A session whose thread runs is in the list and was counted,
since the thread is started behind the increment. -/
structure Inv (st : AcceptLoop σ) : Prop where
  nodup : st.broker.sessions.Nodup
  runs : ∀ s ∈ st.running, s ∈ st.broker.sessions
  runsOnce : st.running.Nodup
  atStage : st.StageOK st.stage
  balance : st.broker.activeConnections.toNat + uncounted st.stage =
    st.broker.sessions.length + undecremented st.removing
  cap : st.broker.activeConnections.toNat ≤ maxConnections.toNat

section Invariant

variable {st : AcceptLoop σ}

theorem inv_check (session : SessionId) (h : Inv st) (hstage : st.stage = .idle)
    (hroom : st.broker.activeConnections < maxConnections) (hfresh : session ∉ st.broker.sessions) :
    Inv { st with stage := .checked session } := by
  have hbalance := h.balance
  rw [hstage] at hbalance
  exact ⟨h.nodup, h.runs, h.runsOnce, ⟨hfresh, UInt64.lt_iff_toNat_lt.mp hroom⟩, hbalance, h.cap⟩

theorem inv_push (session : SessionId) (h : Inv st) (hstage : st.stage = .checked session) :
    Inv { st with broker := st.broker.pushSession session, stage := .pushed session } := by
  have hbalance := h.balance
  have hat := h.atStage
  rw [hstage] at hbalance hat
  obtain ⟨hfresh, hroom⟩ := hat
  refine ⟨?_, ?_, h.runsOnce, ⟨⟨?_, ?_⟩, hroom⟩, ?_, h.cap⟩
  · exact List.nodup_append_comm.mpr (List.nodup_cons.mpr ⟨hfresh, h.nodup⟩)
  · exact fun s hs => List.mem_append_left _ (h.runs s hs)
  · exact List.mem_append_right _ (List.mem_singleton.mpr rfl)
  · exact fun hs => hfresh (h.runs session hs)
  · change st.broker.activeConnections.toNat + 1 =
      (st.broker.sessions ++ [session]).length + undecremented st.removing
    change st.broker.activeConnections.toNat + 0 = _ at hbalance
    rw [List.length_append, List.length_singleton]
    omega

/-- The increment cannot wrap around: the cap was checked and nobody else counts up. -/
theorem inv_count (session : SessionId) (h : Inv st) (hstage : st.stage = .pushed session) :
    Inv { st with broker := st.broker.countConnection, stage := .counted session } := by
  have hbalance := h.balance
  have hat := h.atStage
  rw [hstage] at hbalance hat
  obtain ⟨hentered, hroom⟩ := hat
  have hmax : maxConnections.toNat = 1000 := rfl
  have hnext : (st.broker.activeConnections + 1).toNat = st.broker.activeConnections.toNat + 1 :=
    toNat_next _ (by omega)
  refine ⟨h.nodup, h.runs, h.runsOnce, hentered, ?_, ?_⟩
  · change (st.broker.activeConnections + 1).toNat + 0 = _
    rw [hnext]
    exact hbalance
  · change (st.broker.activeConnections + 1).toNat ≤ _
    omega

theorem inv_start (session : SessionId) (h : Inv st) (hstage : st.stage = .counted session) :
    Inv { st with running := st.running ++ [session], stage := .started } := by
  have hbalance := h.balance
  have hat := h.atStage
  rw [hstage] at hbalance hat
  obtain ⟨hmem, hnew⟩ := hat
  refine ⟨h.nodup, ?_, ?_, trivial, hbalance, h.cap⟩
  · intro s hs
    rcases List.mem_append.mp hs with hs | hs
    · exact h.runs s hs
    · rw [List.mem_singleton.mp hs]
      exact hmem
  · exact List.nodup_append_comm.mpr (List.nodup_cons.mpr ⟨hnew, h.runsOnce⟩)

theorem inv_report (h : Inv st) (hstage : st.stage = .started) :
    Inv { st with broker := st.broker.reportConnection, stage := .idle } := by
  have hbalance := h.balance
  rw [hstage] at hbalance
  exact ⟨h.nodup, h.runs, h.runsOnce, trivial, hbalance, h.cap⟩

/-- A running session is in the list exactly once, so its erasure takes one entry away. -/
theorem inv_erase (session : SessionId) (h : Inv st) (hfree : st.removing = none)
    (hrun : session ∈ st.running) :
    Inv { st with
      broker := st.broker.eraseSession session
      running := st.running.erase session
      removing := some session } := by
  have hlen : (st.broker.sessions.filter (· != session)).length + 1 = st.broker.sessions.length := by
    rw [← h.nodup.erase_eq_filter, List.length_erase_of_mem (h.runs session hrun)]
    have hpos := List.length_pos_of_mem (h.runs session hrun)
    omega
  have hstay : ∀ s, s ∈ st.broker.sessions → s ≠ session →
      s ∈ st.broker.sessions.filter (· != session) := by
    intro s hs hne
    exact List.mem_filter.mpr ⟨hs, by simpa using hne⟩
  -- the session at hand does not run yet, so it is not the one that ends
  have hentered : ∀ s, s ∈ st.broker.sessions ∧ s ∉ st.running →
      s ∈ st.broker.sessions.filter (· != session) ∧ s ∉ st.running.erase session := by
    rintro s ⟨hmem, hnew⟩
    refine ⟨hstay s hmem ?_, fun hm => hnew (List.mem_of_mem_erase hm)⟩
    rintro rfl
    exact hnew hrun
  have hbalance := h.balance
  rw [hfree] at hbalance
  refine ⟨h.nodup.filter _, ?_, h.runsOnce.erase session, ?_, ?_, h.cap⟩
  · intro s hs
    obtain ⟨hne, hs⟩ := h.runsOnce.mem_erase_iff.mp hs
    exact hstay s (h.runs s hs) hne
  · have hat := h.atStage
    dsimp only
    cases hstage : st.stage with
    | idle | started => trivial
    | checked s =>
      rw [hstage] at hat
      exact ⟨fun hm => hat.1 (List.mem_filter.mp hm).1, hat.2⟩
    | pushed s =>
      rw [hstage] at hat
      exact ⟨hentered s hat.1, hat.2⟩
    | counted s =>
      rw [hstage] at hat
      exact hentered s hat
  · change st.broker.activeConnections.toNat + uncounted st.stage =
      (st.broker.sessions.filter (· != session)).length + 1
    rw [hlen]
    exact hbalance

/-- A session that was erased is still counted: at most one entry of the list is not. -/
theorem pos_of_removing (h : Inv st) (session : SessionId) (hheld : st.removing = some session) :
    0 < st.broker.activeConnections.toNat := by
  have hbalance := h.balance
  have hat := h.atStage
  rw [hheld] at hbalance
  change _ = _ + 1 at hbalance
  cases hstage : st.stage with
  | pushed s =>
    -- the one entry that is not counted is in the list itself
    rw [hstage] at hbalance hat
    have hpos := List.length_pos_of_mem hat.1.1
    change _ + 1 = _ at hbalance
    omega
  | idle | checked | counted | started =>
    rw [hstage] at hbalance
    change _ + 0 = _ at hbalance
    omega

theorem inv_decrement (session : SessionId) (h : Inv st) (hheld : st.removing = some session) :
    Inv { st with broker := st.broker.uncountConnection, removing := none } := by
  have hpos := pos_of_removing h session hheld
  have hprev : (st.broker.activeConnections - 1).toNat = st.broker.activeConnections.toNat - 1 :=
    UInt64.toNat_sub_of_le _ _ (UInt64.le_iff_toNat_le.mpr hpos)
  have hbalance := h.balance
  rw [hheld] at hbalance
  change _ = _ + 1 at hbalance
  have hle : (st.broker.activeConnections - 1).toNat ≤ st.broker.activeConnections.toNat := by omega
  refine ⟨h.nodup, h.runs, h.runsOnce, ?_, ?_, hle.trans h.cap⟩
  · have hat := h.atStage
    dsimp only
    cases hstage : st.stage with
    | idle | started => trivial
    | checked s | pushed s =>
      rw [hstage] at hat
      exact ⟨hat.1, hle.trans_lt hat.2⟩
    | counted s =>
      rw [hstage] at hat
      exact hat
  · change (st.broker.activeConnections - 1).toNat + uncounted st.stage = st.broker.sessions.length + 0
    omega

theorem inv_step (i : Input) (h : Inv st) : Inv (step st i).1 := by
  have hcase := step_cases st i
  generalize (step st i).1 = st' at hcase ⊢
  cases hcase with
  | nothing => exact h
  | checked session hstage hroom hfresh => exact inv_check session h hstage hroom hfresh
  | pushed session hstage hfree => exact inv_push session h hstage
  | counted session hstage => exact inv_count session h hstage
  | started session hstage => exact inv_start session h hstage
  | reported hstage hfree => exact inv_report h hstage
  | erased session hfree hrun => exact inv_erase session h hfree hrun
  | decremented session hheld => exact inv_decrement session h hheld

end Invariant

section Runs

variable {ε : Type} [Storage σ ε]

def start (db : σ) : AcceptLoop σ := { broker := Broker.start db }

theorem inv_run (db : σ) (is : List Input) : Inv (run step (start db) is).1 := by
  refine run_invariant (C := fun _ _ => True) (fun st _ => Inv st) (fun _ _ i h _ => inv_step i h)
    (start db) [] is ?_ (meets_true _ is)
  refine ⟨List.nodup_nil, ?_, List.nodup_nil, trivial, rfl, Nat.zero_le _⟩
  intro s hs
  cases hs

/-- In every state of every interleaving: the counter is at most the cap, and positive when it
is about to be decremented; the list is at most the cap long; and the two agree unless the loop
or a `removeSession` is between its change of the one and of the other. -/
theorem connection_accounting (db : σ) (is : List Input) :
    (run step (start db) is).1.broker.activeConnections ≤ maxConnections ∧
    ((run step (start db) is).1.removing.isSome →
      0 < (run step (start db) is).1.broker.activeConnections) ∧
    (run step (start db) is).1.broker.sessions.length ≤ maxConnections.toNat ∧
    ((∀ s, (run step (start db) is).1.stage ≠ .pushed s) → (run step (start db) is).1.removing = none →
      (run step (start db) is).1.broker.activeConnections.toNat =
        (run step (start db) is).1.broker.sessions.length) := by
  have h := inv_run db is
  have hbalance := h.balance
  refine ⟨UInt64.le_iff_toNat_le.mpr h.cap, ?_, ?_, ?_⟩
  · intro hheld
    obtain ⟨session, hs⟩ := Option.isSome_iff_exists.mp hheld
    exact UInt64.lt_iff_toNat_lt.mpr (pos_of_removing h session hs)
  · have hcap := h.cap
    have hat := h.atStage
    cases hstage : (run step (start db) is).1.stage with
    | pushed s =>
      rw [hstage] at hbalance hat
      have hroom := hat.2
      change _ + 1 = _ at hbalance
      omega
    | idle | checked | counted | started =>
      rw [hstage] at hbalance
      change _ + 0 = _ at hbalance
      omega
  · intro hstage hfree
    rw [hfree] at hbalance
    have hzero : uncounted (run step (start db) is).1.stage = 0 := by
      cases hs : (run step (start db) is).1.stage with
      | pushed s => exact absurd hs (hstage s)
      | idle | checked | counted | started => rfl
    rw [hzero] at hbalance
    exact hbalance

end Runs

section Uninterrupted

variable (st : AcceptLoop σ) (session : SessionId)

/-- A turn of the loop that nothing interrupts is the accept step of the broker. -/
theorem run_accept (hidle : st.stage = .idle) (hfree : st.removing = none)
    (hfresh : session ∉ st.broker.sessions) :
    (run step st [.check session, .push, .count, .start, .report]).1 =
      match st.broker.acceptSession session with
      | none => st
      | some b => { st with broker := b, running := st.running ++ [session] } := by
  obtain ⟨broker, stage, running, removing⟩ := st
  dsimp only at hidle hfree hfresh
  subst hidle hfree
  rw [Broker.acceptSession_eq]
  by_cases hfull : broker.activeConnections ≥ maxConnections
  · simp only [run, step, if_pos hfull]
  · simp only [run, step, if_neg hfull, if_neg hfresh]

/-- The end of a session that nothing interrupts is `removeSession`. -/
theorem run_remove (hfree : st.removing = none) (hrun : session ∈ st.running) :
    (run step st [.erase session, .decrement]).1 =
      { st with
        broker := st.broker.removeSession session
        running := st.running.erase session } := by
  obtain ⟨broker, stage, running, removing⟩ := st
  dsimp only at hfree hrun
  subst hfree
  simp only [run, step, if_pos hrun, Broker.removeSession_eq]

end Uninterrupted

end AcceptLoop

end MetricMQ
