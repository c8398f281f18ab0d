import MetricMQ.FairRuns
import MetricMQ.Resources

/-! Liveness of the session threads. Whatever the other threads, the accept loop and the key store
do in between, a thread that completes a step again and again works off what it has: it comes back
to `recv` with everything parsed and answered, or its session is removed. A step here never waits;
when a thread gets to complete its steps is another question. -/
namespace MetricMQ

open ByteString Std Machine

/-- Calls leave loads to do, loads leave sends, sends leave nothing. -/
def Task.rank : Task → ℕ
  | .call _ => 2
  | .replayMessages _ _ | .loadUnacked _ _ _ => 1
  | .sendStored _ | .sendUnacked _ _ => 0

def Connection.ranked (conn : Connection) (k : ℕ) : ℕ :=
  conn.pending.countP fun task => task.rank = k

/-- What a thread has still to do: first the bytes to parse, then its tasks by rank. -/
def Connection.work (conn : Connection) : ℕ ×ₗ ℕ ×ₗ ℕ ×ₗ ℕ :=
  toLex (conn.recvBuffer.length, toLex (conn.ranked 2, toLex (conn.ranked 1, conn.ranked 0)))

namespace World

variable {σ ε : Type}

/-- The thread is in `recv` with nothing left to do, or the session is gone. -/
def AtRest (session : SessionId) (w : World σ) : Prop :=
  ∀ conn, w.connections[session]? = some conn → waiting conn = true

def workOf (session : SessionId) (w : World σ) : ℕ ×ₗ ℕ ×ₗ ℕ ×ₗ ℕ :=
  (w.connections[session]?).elim (toLex (0, toLex (0, toLex (0, 0)))) Connection.work

variable [Storage σ ε]

theorem rank_followUp (w : World σ) (task : Task) : ∀ next ∈ w.followUp task, next.rank < task.rank := by
  cases task with
  | call call =>
    intro next hn
    cases call with
    | subscribe | replayMessagesForClient =>
      rw [List.mem_singleton.mp hn]
      exact Nat.lt_succ_self 1
    | registerClient | unsubscribe | publish | handleAck | unregisterClient | removeSession | send =>
      cases hn
  | replayMessages topic fromSeq =>
    intro next hn
    obtain ⟨m, -, rfl⟩ := List.mem_map.mp hn
    exact Nat.zero_lt_one
  | loadUnacked topic clientId lastAck =>
    intro next hn
    obtain ⟨m, -, rfl⟩ := List.mem_map.mp hn
    exact Nat.zero_lt_one
  | sendStored | sendUnacked =>
    intro next hn
    cases hn

theorem rank_le (task : Task) : task.rank ≤ 2 := by
  cases task <;> simp [Task.rank]

/-- A task that is done leaves less to do. -/
theorem work_lt_of_task (w : World σ) (conn : Connection) (task : Task) (rest : List Task)
    (hp : conn.pending = task :: rest) :
    Connection.work { conn with pending := w.followUp task ++ rest } < conn.work := by
  have hrank := w.rank_followUp task
  have hle := rank_le task
  -- ranks that the new tasks do not have
  have hnone : ∀ k, task.rank ≤ k → (w.followUp task).countP (fun t => t.rank = k) = 0 := by
    intro k hk
    rw [List.countP_eq_zero]
    intro t ht
    have := hrank t ht
    simp only [decide_eq_true_eq]
    omega
  have hbefore : ∀ k, conn.ranked k = rest.countP (fun t => t.rank = k) + if task.rank = k then 1 else 0 := by
    intro k
    rw [Connection.ranked, hp, List.countP_cons]
    simp
  have hafter : ∀ k, task.rank ≤ k →
      Connection.ranked { conn with pending := w.followUp task ++ rest } k =
        rest.countP fun t => t.rank = k := by
    intro k hk
    rw [Connection.ranked, List.countP_append, hnone k hk, Nat.zero_add]
  have hsame : ∀ k, task.rank < k →
      Connection.ranked { conn with pending := w.followUp task ++ rest } k = conn.ranked k := by
    intro k hk
    rw [hafter k (Nat.le_of_lt hk), hbefore, if_neg (Nat.ne_of_lt hk), Nat.add_zero]
  have hless : Connection.ranked { conn with pending := w.followUp task ++ rest } task.rank <
      conn.ranked task.rank := by
    rw [hafter _ le_rfl, hbefore, if_pos rfl]
    exact Nat.lt_succ_self _
  simp only [Connection.work, Prod.Lex.toLex_lt_toLex, lt_self_iff_false, false_or, true_and]
  obtain hk | hk | hk : task.rank = 2 ∨ task.rank = 1 ∨ task.rank = 0 := by omega
  · exact Or.inl (hk ▸ hless)
  · exact Or.inr ⟨hsame 2 (by omega), Or.inl (hk ▸ hless)⟩
  · exact Or.inr ⟨hsame 2 (by omega), Or.inr ⟨hsame 1 (by omega), hk ▸ hless⟩⟩

omit [Storage σ ε] in
theorem busy_iff (conn : Connection) :
    waiting conn = false ↔ conn.pending ≠ [] ∨ conn.closing = true ∨ conn.next ≠ none := by
  simp only [waiting, Bool.and_eq_false_iff, Bool.not_eq_false', List.isEmpty_eq_false_iff,
    Option.isNone_eq_false_iff, Option.isSome_iff_ne_none, or_assoc]

variable (verify : Verify) (hash : HashOrder) (w : World σ) (session : SessionId)

omit [Storage σ ε] in
theorem getElem?_set_ne (s : SessionId) (conn : Connection) (hs : s ≠ session) :
    (w.set s conn).connections[session]? = w.connections[session]? := by
  rw [set, TreeMap.getElem?_insert, if_neg (by simpa [LawfulEqCmp.compare_eq_iff_eq] using hs)]

/-- Nobody but its own thread moves a session that is not in `recv`, short of a restart. -/
theorem connection_of_busy (i : Input ε) (conn : Connection)
    (hconn : w.connections[session]? = some conn) (hbusy : waiting conn = false)
    (hi : ∀ faults, i ≠ .thread session faults) :
    (w.step verify hash i).1.connections[session]? = some conn ∨
      (w.step verify hash i).1.connections[session]? = none := by
  cases i with
  | accept s =>
    left
    rw [step, acceptStep]
    cases hs : w.connections[s]? with
    | some c => exact hconn
    | none =>
      have hne : s ≠ session := by
        rintro rfl
        rw [hconn] at hs
        cases hs
      cases w.broker.acceptSession s with
      | none => exact hconn
      | some b => exact (getElem?_set_ne w session s {} hne).trans hconn
  | recv s chunk =>
    left
    rw [step, recvStep]
    cases hs : w.connections[s]? with
    | none => exact hconn
    | some c =>
      dsimp only
      split_ifs with hw
      · exact hconn
      · have hne : s ≠ session := by
          rintro rfl
          obtain rfl := Option.some_inj.mp (hconn.symm.trans hs)
          simp [hbusy] at hw
        cases c.receive chunk with
        | none => exact (getElem?_set_ne w session s _ hne).trans hconn
        | some r => exact (getElem?_set_ne w session s _ hne).trans hconn
  | hangup s =>
    left
    rw [step, hangupStep]
    cases hs : w.connections[s]? with
    | none => exact hconn
    | some c =>
      dsimp only
      split_ifs with hw
      · have hne : s ≠ session := by
          rintro rfl
          obtain rfl := Option.some_inj.mp (hconn.symm.trans hs)
          rw [hbusy] at hw
          cases hw
        exact (getElem?_set_ne w session s _ hne).trans hconn
      · exact hconn
  | thread s faults =>
    left
    have hne : s ≠ session := fun h => hi faults (h ▸ rfl)
    have hcase := stepCase_thread verify hash w s faults
    rw [step]
    generalize (w.threadStep verify hash s faults).1 = w' at hcase ⊢
    generalize (w.threadStep verify hash s faults).2 = outs at hcase
    cases hcase with
    | nothing => exact hconn
    | worked _ _ c task rest hc hp =>
      rw [taskStep]
      dsimp only
      split_ifs
      · rw [TreeMap.getElem?_erase, if_neg (by simpa [LawfulEqCmp.compare_eq_iff_eq] using hne), hconn]
      · exact (getElem?_set_ne w session s _ hne).trans hconn
    | dispatched _ _ c item r => exact (getElem?_set_ne w session s _ hne).trans hconn
  | keyStore op => exact Or.inl hconn
  | stop => exact Or.inl hconn
  | restart => exact Or.inr (by simp [step])

/-- A turn of its own thread brings a session forward, or it ends it. -/
theorem work_of_thread (faults : Faults ε) (conn : Connection)
    (hconn : w.connections[session]? = some conn) (hbusy : waiting conn = false)
    (hfit : conn.TasksFit) :
    (w.step verify hash (.thread session faults)).1.connections[session]? = none ∨
      ∃ conn', (w.step verify hash (.thread session faults)).1.connections[session]? = some conn' ∧
        conn'.work < conn.work ∧ conn'.closing = conn.closing := by
  rw [step]
  cases hp : conn.pending with
  | cons task rest =>
    rw [w.threadStep_of_task verify hash session faults conn task rest hconn hp, taskStep]
    dsimp only
    split_ifs with htask
    · exact Or.inl (by rw [TreeMap.getElem?_erase_self])
    · refine Or.inr ⟨{ conn with pending := w.followUp task ++ rest }, ?_,
        w.work_lt_of_task conn task rest hp, rfl⟩
      rw [TreeMap.getElem?_insert_self]
  | nil =>
    have hopen : conn.closing = false := by
      rw [← Bool.not_eq_true]
      exact fun hc => (hfit.exit hc).1 hp
    have hnext : conn.next ≠ none := by
      rcases (busy_iff conn).mp hbusy with h | h | h
      · exact absurd hp h
      · rw [hopen] at h
        cases h
      · exact h
    obtain ⟨⟨item, r⟩, hnext⟩ := Option.ne_none_iff_exists'.mp hnext
    rw [w.threadStep_of_next verify hash session faults conn item r hconn hp hopen hnext, dispatchStep]
    refine Or.inr ⟨_, TreeMap.getElem?_insert_self, ?_, rfl⟩
    -- the buffer is shorter, whatever the handler has to do
    have hless := next_length conn.toReceiver r item hnext
    simp only [Connection.work, handle_toReceiver, Prod.Lex.toLex_lt_toLex]
    exact Or.inl hless

/-- Every connection has what its thread expects of it. -/
def AllFit (w : World σ) : Prop :=
  ∀ (s : SessionId) (conn : Connection), w.connections[s]? = some conn → conn.TasksFit

theorem allFit_step (i : Input ε) (h : w.AllFit) : (w.step verify hash i).1.AllFit :=
  (tasksFit_connectionStep verify hash w).step h i

theorem allFit_start (db : σ) : (start db).AllFit := by
  intro s conn hc
  simp [start] at hc

omit [Storage σ ε] in
theorem not_atRest (h : ¬ w.AtRest session) :
    ∃ conn, w.connections[session]? = some conn ∧ waiting conn = false := by
  rw [AtRest] at h
  push Not at h
  obtain ⟨conn, hconn, hw⟩ := h
  exact ⟨conn, hconn, by simpa using hw⟩

omit [Storage σ ε] in
theorem workOf_eq (conn : Connection) (h : w.connections[session]? = some conn) :
    w.workOf session = conn.work := by
  rw [workOf, h]
  rfl

omit [Storage σ ε] in
theorem atRest_of_none (h : w.connections[session]? = none) : w.AtRest session := by
  intro conn hc
  rw [h] at hc
  cases hc

end World

section Fairness

open World

variable {σ ε : Type} [Storage σ ε] (verify : Verify) (hash : HashOrder) (session : SessionId)

/-- The thread of a session completes a step again and again. -/
def Scheduled (inputs : ℕ → Input ε) : Prop :=
  Fair (fun i => ∃ faults, i = .thread session faults) inputs

/-- A thread that is scheduled again and again always comes back to `recv`, with every complete
frame taken out of its buffer and all calls and replays done, or its session goes, whatever the
other sessions, the accept loop and the key store do. -/
theorem thread_returns (db : σ) (inputs : ℕ → Input ε) (hfair : Scheduled session inputs) (n : ℕ) :
    ∃ m, n ≤ m ∧ (stateAt (World.step verify hash) (World.start db) inputs m).AtRest session := by
  refine rest_of_measure (World.step verify hash) wellFounded_lt (workOf session) (I := AllFit)
    (fun w i h => allFit_step verify hash w i h) ?_ ?_ (World.start db) inputs (allFit_start db)
    hfair n
  · intro w i hw hbusy
    obtain ⟨conn, hconn, hb⟩ := not_atRest w session hbusy
    by_cases hi : ∃ faults, i = .thread session faults
    · obtain ⟨faults, rfl⟩ := hi
      rcases work_of_thread verify hash w session faults conn hconn hb (hw session conn hconn) with
        h | ⟨conn', h, hless, -⟩
      · exact Or.inl (atRest_of_none _ session h)
      · rw [workOf_eq _ session conn' h, workOf_eq w session conn hconn]
        exact Or.inr (Or.inr hless)
    · rcases connection_of_busy verify hash w session i conn hconn hb
        (fun faults he => hi ⟨faults, he⟩) with h | h
      · rw [workOf_eq _ session conn h, workOf_eq w session conn hconn]
        exact Or.inr (Or.inl rfl)
      · exact Or.inl (atRest_of_none _ session h)
  · rintro w i hw hbusy ⟨faults, rfl⟩
    obtain ⟨conn, hconn, hb⟩ := not_atRest w session hbusy
    rcases work_of_thread verify hash w session faults conn hconn hb (hw session conn hconn) with
      h | ⟨conn', h, hless, -⟩
    · exact Or.inl (atRest_of_none _ session h)
    · rw [workOf_eq _ session conn' h, workOf_eq w session conn hconn]
      exact Or.inr hless

/-- A run in which nobody restarts the process meets the condition of a single process. -/
theorem noRestart_range (db : σ) (inputs : ℕ → Input ε) (h : ∀ n, inputs n ≠ .restart) (m : ℕ) :
    Meets (World.step verify hash) NoRestart (World.start db) ((List.range m).map inputs) := by
  have hne : Meets (World.step verify hash) (fun _ i => i ≠ .restart) (World.start db)
      ((List.range m).map inputs) := by
    refine (meets_iff_forall _ _).mpr fun i hi => ?_
    obtain ⟨k, -, rfl⟩ := List.mem_map.mp hi
    exact h k
  refine meets_of_invariant (fun _ => True) (fun w i _ hi => ⟨?_, trivial⟩) _ _ trivial hne
  cases i with
  | restart => exact hi rfl
  | accept | recv | hangup | thread | keyStore | stop => trivial

variable {verify session} in
/-- At rest nothing is left to do, so all that was asked for is done. -/
theorem done_of_atRest {α β : Type} {e : Effect α β} (h : e.Lawful session σ ε verify) (db : σ)
    (is : List (Input ε)) (his : Meets (World.step verify hash) NoRestart (World.start db) is)
    (hrest : (run (World.step verify hash) (World.start db) is).1.AtRest session) :
    List.Forall₂ e.Matches (e.done session (run (World.step verify hash) (World.start db) is).2)
      (e.requested session (run (World.step verify hash) (World.start db) is).2) := by
  have horder := (h.inOrder_run verify hash session db is his).order
  have hnone : e.pending session (run (World.step verify hash) (World.start db) is).1 = [] := by
    rw [Effect.pending]
    cases hconn : (run (World.step verify hash) (World.start db) is).1.connections[session]? with
    | none => rfl
    | some conn =>
      dsimp only
      rw [pending_of_waiting conn (hrest conn hconn)]
      rfl
  rw [hnone, List.append_nil] at horder
  exact horder

/-- The session has left its receive loop. -/
def Leaving (w : World σ) : Prop :=
  ∃ conn, w.connections[session]? = some conn ∧ conn.closing = true

/-- Nothing in the process leads to the session any more. -/
structure Gone (w : World σ) : Prop where
  connection : w.connections[session]? = none
  listed : session ∉ w.broker.sessions
  subscribed : ∀ topic, ¬ w.broker.Subscribed session topic

/-- What every state of a run has, for the end of a session. -/
structure Sound (w : World σ) : Prop where
  fit : w.AllFit
  accounted : w.Accounted
  subscribers : SubscribersConnected w

variable {session} in
theorem Sound.gone {w : World σ} (h : Sound w) (hnone : w.connections[session]? = none) :
    Gone session w := by
  refine ⟨hnone, fun hs => ?_, fun topic hs => ?_⟩
  · rw [h.accounted.connected, TreeMap.mem_iff_isSome_getElem?, hnone] at hs
    cases hs
  · obtain ⟨conn, hconn⟩ := h.subscribers session topic hs
    rw [hnone] at hconn
    cases hconn

theorem Sound.live {w : World σ} (h : Sound w) : w.ConnectedLive := by
  intro s conn hconn
  rw [h.accounted.connected, TreeMap.mem_iff_isSome_getElem?, hconn]
  rfl

theorem sound_step (w : World σ) (i : Input ε) (h : Sound w) : Sound (w.step verify hash i).1 :=
  ⟨allFit_step verify hash w i h.fit, accounted_step verify hash w i h.accounted,
    subscribersConnected_step verify hash w i h.live h.subscribers⟩

theorem sound_start (db : σ) : Sound (World.start db) :=
  ⟨allFit_start db, accounted_start db,
    fun s topic h => absurd h (Broker.not_subscribed_start db s topic)⟩

/-- Who has left the receive loop does not come back to it: it goes on leaving until it is gone. -/
theorem leaving_step (w : World σ) (i : Input ε) (hfit : w.AllFit) (h : Leaving session w) :
    Leaving session (w.step verify hash i).1 ∨
      (w.step verify hash i).1.connections[session]? = none := by
  obtain ⟨conn, hconn, hclosing⟩ := h
  have hbusy : waiting conn = false := (busy_iff conn).mpr (Or.inr (Or.inl hclosing))
  by_cases hi : ∃ faults, i = .thread session faults
  · obtain ⟨faults, rfl⟩ := hi
    rcases work_of_thread verify hash w session faults conn hconn hbusy (hfit session conn hconn) with
      h | ⟨conn', h, -, hc⟩
    · exact Or.inr h
    · exact Or.inl ⟨conn', h, hc.trans hclosing⟩
  · exact (connection_of_busy verify hash w session i conn hconn hbusy
      (fun faults he => hi ⟨faults, he⟩)).imp (fun h => ⟨conn, h, hclosing⟩) id

/-- A session that has left its receive loop, after a hangup or an overflow, is gone some time
later if its thread is scheduled again and again: it is out of the list of sessions and of all
subscriptions. -/
theorem leaving_ends (db : σ) (inputs : ℕ → Input ε) (hfair : Scheduled session inputs) (n : ℕ)
    (hleaving : Leaving session (stateAt (World.step verify hash) (World.start db) inputs n)) :
    ∃ m, n ≤ m ∧ Gone session (stateAt (World.step verify hash) (World.start db) inputs m) := by
  have hsound := stateAt_invariant (World.step verify hash)
    (fun w i h => sound_step verify hash w i h) (World.start db) inputs (sound_start db)
  obtain ⟨k, hk, hrest⟩ := thread_returns verify hash session db inputs hfair n
  have hstay : ∀ (w : World σ) (i : Input ε), Sound w ∧ Leaving session w →
      Gone session (w.step verify hash i).1 ∨
        (Sound (w.step verify hash i).1 ∧ Leaving session (w.step verify hash i).1) := by
    rintro w i ⟨hw, hleaving⟩
    have hnext := sound_step verify hash w i hw
    rcases leaving_step verify hash session w i hw.fit hleaving with h | h
    · exact Or.inr ⟨hnext, h⟩
    · exact Or.inl (hnext.gone h)
  -- it leaves all the way, or it is gone on the way
  rcases stays_until _ hstay (World.start db) inputs n k hk ⟨hsound n, hleaving⟩ with
    h | ⟨-, conn, hconn, hclosing⟩
  · exact h
  · have hw := hrest conn hconn
    rw [(busy_iff conn).mpr (Or.inr (Or.inl hclosing))] at hw
    cases hw

end Fairness

end MetricMQ
