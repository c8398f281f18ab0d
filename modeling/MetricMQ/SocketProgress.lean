import MetricMQ.SlowReader
import MetricMQ.Turns

/-! Liveness of the sessions, with all that they have to wait for. A thread cannot go on while it
writes to a full socket, or while it needs the broker mutex and a publish has it. It works off all
that it has to do if every socket that is written to takes bytes or fails, and the mutex and the
scheduler do not pass the thread over for ever. -/
namespace MetricMQ

open ByteString Std Machine

namespace SocketWorld

variable {σ ε : Type} [Storage σ ε] (verify : Verify) (hash : HashOrder)

section Moves

variable (x : SocketWorld σ)

/-- An input that does nothing: a packet without bytes. -/
def idle : Input ε := .recv 0 []

/-- The step of the system without the sockets that goes with a step. -/
def move (i : SocketInput ε) : Input ε := (x.moves i).headD idle

omit [Storage σ ε] in
theorem recvStep_idle (w : World σ) (s : SessionId) : w.recvStep s [] = w := by
  rw [World.recvStep]
  cases w.connections[s]? with
  | none => rfl
  | some conn =>
    dsimp only
    rw [if_pos]
    simp

theorem step_move (i : SocketInput ε) :
    (x.step verify hash i).1.world = (x.world.step verify hash (x.move i)).1 ∧
      (x.step verify hash i).2 = (x.world.step verify hash (x.move i)).2 := by
  have hmoves : x.moves i = [] ∨ ∃ j, x.moves i = [j] := by
    cases i with
    | step i =>
      rw [moves]
      split_ifs
      · exact Or.inl rfl
      · exact Or.inr ⟨i, rfl⟩
      · exact Or.inl rfl
    | write | writeFails => exact Or.inl rfl
    | brokenPipe thread =>
      rw [moves]
      split_ifs
      · exact Or.inl rfl
      · exact Or.inr ⟨.restart, rfl⟩
  obtain ⟨hworld, houts⟩ := x.step_moves verify hash i
  rw [hworld, houts, move]
  rcases hmoves with he | ⟨j, he⟩
  · rw [he, List.headD_nil, idle, World.step, recvStep_idle]
    exact ⟨rfl, rfl⟩
  · rw [he, List.headD_cons, run, run, List.append_nil]
    exact ⟨rfl, rfl⟩

end Moves

section Ready

omit [Storage σ ε] in
theorem move_ne_restart (x : SocketWorld σ) (i : SocketInput ε)
    (h : i ≠ .step .restart ∧ ∀ thread, i ≠ .brokenPipe thread) : x.move i ≠ .restart := by
  cases i with
  | step j =>
    rw [move, moves]
    split_ifs
    · simp [idle]
    · exact fun he => h.1 (congrArg _ he)
    · simp [idle]
  | write | writeFails => simp [move, moves, idle]
  | brokenPipe thread => exact absurd rfl (h.2 thread)

/-- The thread can take its next step: it writes nothing, and the mutex is free or not needed. -/
structure Ready (thread : SessionId) (x : SocketWorld σ) : Prop where
  written : x.writesOf thread = []
  released : x.holder ≠ some thread
  unlocked : x.holder = none ∨ x.nextTask Task.locks thread = false

/-- The thread gets a turn. -/
def TakesTurn (thread : SessionId) (i : SocketInput ε) : Prop :=
  ∃ faults, i = .step (.thread thread faults)

variable (thread : SessionId) (x : SocketWorld σ)

omit [Storage σ ε] in
theorem ready_iff (faults : Faults ε) : Ready thread x ↔
    x.releases (.thread thread faults) = false ∧ x.enabled (.thread thread faults) = true := by
  rw [releases, enabled, Bool.and_eq_true, Bool.or_eq_true, Bool.and_eq_false_iff, List.isEmpty_iff,
    decide_eq_false_iff_not, Option.isNone_iff_eq_none, Bool.not_eq_true',
    List.isEmpty_eq_false_iff]
  constructor
  · intro h
    exact ⟨Or.inl h.released, h.written, h.unlocked⟩
  · rintro ⟨hr, hw, hu⟩
    exact ⟨hw, hr.resolve_right fun h => h hw, hu⟩

omit [Storage σ ε] in
/-- A turn that a thread can take is a step of its own. -/
theorem move_of_ready (faults : Faults ε) (h : Ready thread x) :
    x.move (.step (.thread thread faults)) = .thread thread faults := by
  obtain ⟨hr, he⟩ := (ready_iff thread x faults).mp h
  rw [move, moves, if_neg (by rw [hr]; exact Bool.false_ne_true), if_pos he, List.headD_cons]

/-- A thread that is not ready does not start to write. -/
theorem written_step (i : SocketInput ε) (hw : x.writesOf thread = []) (h : ¬ Ready thread x) :
    (x.step verify hash i).1.writesOf thread = [] := by
  by_cases hi : ∃ j, i = .step j
  · obtain ⟨j, rfl⟩ := hi
    rw [SocketWorld.step]
    by_cases hr : x.releases j = true
    · rw [if_pos hr]
      exact hw
    · rw [if_neg hr]
      by_cases he : x.enabled j = true
      · rw [if_pos he]
        cases j with
        | thread s faults =>
          -- it is the turn of another one
          have hs : s ≠ thread := by
            rintro rfl
            exact h ((ready_iff s x faults).mpr ⟨Bool.eq_false_of_not_eq_true hr, he⟩)
          exact (writesOf_insert _ _ s thread _ hs).trans hw
        -- a new process has nothing to write
        | restart => exact TreeMap.getD_emptyc
        | accept | recv | hangup | keyStore | stop => exact hw
      · rw [if_neg he]
        exact hw
  · rcases socket_step_le verify hash thread x i (fun j he => hi ⟨j, he⟩) with he | hless
    · rw [he, hw]
    · rw [hw] at hless
      exact absurd hless (Nat.not_lt_zero _)

/-- While it writes, it only gets on with that. -/
theorem writing_step (i : SocketInput ε) (hw : x.writesOf thread ≠ []) :
    (x.step verify hash i).1.writesOf thread = x.writesOf thread ∨
      leftOf ((x.step verify hash i).1.writesOf thread) < leftOf (x.writesOf thread) := by
  by_cases hi : ∃ j, i = .step j
  · obtain ⟨j, rfl⟩ := hi
    rw [SocketWorld.step]
    by_cases hr : x.releases j = true
    · rw [if_pos hr]
      exact Or.inl rfl
    · rw [if_neg hr]
      by_cases he : x.enabled j = true
      · rw [if_pos he]
        cases j with
        | thread s faults =>
          -- its own turn would not be `enabled`
          have hs : s ≠ thread := by
            rintro rfl
            exact hw ((ready_iff s x faults).mpr ⟨Bool.eq_false_of_not_eq_true hr, he⟩).written
          exact Or.inl (writesOf_insert _ _ s thread _ hs)
        | restart =>
          right
          have hnone : writesOf (⟨(x.world.step verify hash (.restart : Input ε)).1, none, ∅⟩ :
              SocketWorld σ) thread = [] := TreeMap.getD_emptyc
          exact hnone ▸ Nat.lt_of_le_of_lt (Nat.zero_le _) (leftOf_tail _ hw)
        | accept | recv | hangup | keyStore | stop => exact Or.inl rfl
      · rw [if_neg he]
        exact Or.inl rfl
  · exact socket_step_le verify hash thread x i fun j he => hi ⟨j, he⟩

end Ready

section Fairness

variable (session : SessionId) (inputs : ℕ → SocketInput ε)

/-- What a session may count on in an endless run: whatever is written to a socket is taken or fails
some time, every thread gets its turns, and where this session could go on again and again, one of
its turns comes when it can. -/
structure FairTo (x : SocketWorld σ) : Prop where
  drains : ∀ thread, Fair (Drains thread) inputs
  turns : ∀ thread, Fair (TakesTurn thread) inputs
  served : StronglyFair (step verify hash) (Ready session) (TakesTurn session) x inputs

variable {inputs session} {x : SocketWorld σ}

/-- Every thread has written all its strings some time. -/
theorem written_again (hdrains : Fair (Drains session) inputs) (n : ℕ) :
    ∃ m, n ≤ m ∧ (stateAt (step verify hash) x inputs m).writesOf session = [] := by
  refine rest_of_measure (step verify hash) wellFounded_lt (R := fun y => y.writesOf session = [])
    (fun y => leftOf (y.writesOf session)) (I := fun _ => True) (fun _ _ _ => trivial) ?_ ?_
    x inputs trivial hdrains n
  · intro y i _ hw
    exact Or.inr ((writing_step verify hash session y i hw).imp_left (congrArg leftOf))
  · intro y i _ hw hi
    exact Or.inr (drain_step verify hash session y i hi hw)

/-- The mutex is free some time, whoever publishes. -/
theorem mutex_free_again (hdrains : ∀ thread, Fair (Drains thread) inputs)
    (hturns : ∀ thread, Fair (TakesTurn thread) inputs) (n : ℕ) :
    ∃ m, n ≤ m ∧ (stateAt (step verify hash) x inputs m).holder = none := by
  cases hholder : (stateAt (step verify hash) x inputs n).holder with
  | none => exact ⟨n, le_rfl, hholder⟩
  | some thread =>
    obtain ⟨m, hm, hreleased⟩ :=
      publish_returns verify hash thread x inputs (hdrains thread) (hturns thread) n
    -- whoever has it gives it back to nobody else
    have hstay : ∀ (y : SocketWorld σ) (i : SocketInput ε), y.holder = some thread →
        (y.step verify hash i).1.holder = none ∨ (y.step verify hash i).1.holder = some thread :=
      fun y i hy => (held_step_le verify hash thread y i hy).imp_right And.left
    exact (stays_until (step verify hash) (Q := fun y => y.holder = some thread)
      (R := fun y => y.holder = none) hstay x inputs n m hm hholder).resolve_right hreleased

/-- So the thread can go on again and again. -/
theorem ready_again (hdrains : ∀ thread, Fair (Drains thread) inputs)
    (hturns : ∀ thread, Fair (TakesTurn thread) inputs) (n : ℕ) :
    ∃ m, n ≤ m ∧ Ready session (stateAt (step verify hash) x inputs m) := by
  by_contra hnever
  push Not at hnever
  obtain ⟨k, hk, hwritten⟩ := written_again verify hash (x := x) (hdrains session) n
  obtain ⟨m, hm, hfree⟩ := mutex_free_again verify hash (x := x) hdrains hturns k
  -- it never takes a turn, so it does not start to write before the mutex is free
  have hstill : ∀ j, k ≤ j → (stateAt (step verify hash) x inputs j).writesOf session = [] := by
    intro j hj
    induction j, hj using Nat.le_induction with
    | base => exact hwritten
    | succ j hj ih =>
      exact written_step verify hash session _ (inputs j) ih (hnever j (Nat.le_trans hk hj))
  exact hnever m (Nat.le_trans hk hm) ⟨hstill m hm, by rw [hfree]; simp, Or.inl hfree⟩

variable (inputs) in
/-- The run without the sockets that goes with a run. -/
def worldInputs (x : SocketWorld σ) (n : ℕ) : Input ε :=
  (stateAt (step verify hash) x inputs n).move (inputs n)

/-- The thread is then scheduled again and again in the system without the sockets. -/
theorem FairTo.scheduled (h : FairTo verify hash session inputs x) :
    Scheduled session (worldInputs verify hash inputs x) := by
  intro n
  obtain ⟨m, hm, hready, faults, hturn⟩ :=
    h.served n fun k _ => ready_again verify hash h.drains h.turns k
  refine ⟨m, hm, faults, ?_⟩
  rw [worldInputs, hturn]
  exact move_of_ready session _ faults hready

theorem world_stateAt (n : ℕ) : (stateAt (step verify hash) x inputs n).world =
    stateAt (World.step verify hash) x.world (worldInputs verify hash inputs x) n :=
  (stateAt_projects (step verify hash) (fun y : SocketWorld σ => y.world) (fun y i => y.move i)
    (fun y i => y.step_move verify hash i) x inputs n).1

theorem outputs_range (n : ℕ) :
    (run (step verify hash) x ((List.range n).map inputs)).2 =
      (run (World.step verify hash) x.world
        ((List.range n).map (worldInputs verify hash inputs x))).2 :=
  (stateAt_projects (step verify hash) (fun y : SocketWorld σ => y.world) (fun y i => y.move i)
    (fun y i => y.step_move verify hash i) x inputs n).2

omit [Storage σ ε] in
theorem atRest_congr {w w' : World σ} (he : w'.connections[session]? = w.connections[session]?)
    (h : w.AtRest session) : w'.AtRest session := fun conn hconn => h conn (he ▸ hconn)

/-- A new session waits for its first bytes. -/
theorem atRest_acceptStep (w : World σ) (h : w.AtRest session) :
    (w.acceptStep session).AtRest session := by
  rw [World.acceptStep]
  cases w.connections[session]? with
  | some conn => exact h
  | none =>
    cases w.broker.acceptSession session with
    | none => exact h
    | some b =>
      intro conn hconn
      dsimp only at hconn
      rw [TreeMap.getElem?_insert_self] at hconn
      rw [← Option.some_inj.mp hconn]
      rfl

variable (session) in
/-- While a session that has nothing else to do still writes, it goes on waiting. -/
theorem atRest_step (y : SocketWorld σ) (i : SocketInput ε) (hw : y.writesOf session ≠ [])
    (h : y.world.AtRest session) : (y.step verify hash i).1.world.AtRest session := by
  have hbusy : (y.writesOf session).isEmpty = false := List.isEmpty_eq_false_iff.mpr hw
  cases i with
  | write | writeFails => exact h
  | brokenPipe thread =>
    rw [SocketWorld.step]
    split_ifs
    · exact h
    · exact World.atRest_of_none _ session TreeMap.getElem?_emptyc
  | step j =>
    rw [SocketWorld.step]
    by_cases hr : y.releases j = true
    · rw [if_pos hr]
      exact h
    · rw [if_neg hr]
      by_cases he : y.enabled j = true
      · rw [if_pos he]
        by_cases ha : j.actor = some session
        · cases j with
          | accept s =>
            obtain rfl := Option.some_inj.mp ha
            exact atRest_acceptStep y.world h
          -- its own thread is still in `send`
          | recv s | hangup s | thread s =>
            obtain rfl := Option.some_inj.mp ha
            rw [enabled, hbusy] at he
            cases he
          | keyStore | stop | restart => cases ha
        · cases j with
          | restart => exact World.atRest_of_none _ session TreeMap.getElem?_emptyc
          | accept s =>
            exact atRest_congr (y.world.untouched_step session verify hash _ ha
              fun he => ha (congrArg some he)).1 h
          | recv | hangup | thread | keyStore | stop =>
            exact atRest_congr (y.world.untouched_step session verify hash _ ha trivial).1 h
      · rw [if_neg he]
        exact h

/-- The session waits for more, and has handed all that it had to write over to its socket. -/
def Done (session : SessionId) (x : SocketWorld σ) : Prop :=
  x.world.AtRest session ∧ x.writesOf session = []

/-- Every session comes back to `recv`, with everything done and written, or is gone. -/
theorem done_again (db : σ) (h : FairTo verify hash session inputs (start db)) (n : ℕ) :
    ∃ m, n ≤ m ∧ Done session (stateAt (step verify hash) (start db) inputs m) := by
  obtain ⟨k, hk, hrest⟩ := thread_returns verify hash session db _ (h.scheduled verify hash) n
  have hwaits : (stateAt (step verify hash) (start db) inputs k).world.AtRest session := by
    rw [world_stateAt]
    exact hrest
  obtain ⟨m, hm, hwritten⟩ := written_again verify hash (x := start db) (h.drains session) k
  by_cases hw : (stateAt (step verify hash) (start db) inputs k).writesOf session = []
  · exact ⟨k, hk, hwaits, hw⟩
  -- from there on it only writes
  · have hstay : ∀ (y : SocketWorld σ) (i : SocketInput ε),
        y.world.AtRest session ∧ y.writesOf session ≠ [] → Done session (y.step verify hash i).1 ∨
          ((y.step verify hash i).1.world.AtRest session ∧
            (y.step verify hash i).1.writesOf session ≠ []) := by
      rintro y i ⟨hy, hbusy⟩
      have hnext := atRest_step verify hash session y i hbusy hy
      by_cases he : (y.step verify hash i).1.writesOf session = []
      · exact Or.inl ⟨hnext, he⟩
      · exact Or.inr ⟨hnext, he⟩
    rcases stays_until (step verify hash) (R := Done session) hstay (start db) inputs k m hm
        ⟨hwaits, hw⟩ with
      ⟨j, hj, hdone⟩ | ⟨-, hbusy⟩
    · exact ⟨j, Nat.le_trans hk hj, hdone⟩
    · exact absurd hwritten hbusy

/-- Nothing that a client asks stays without an answer. In every endless run of one process that is
fair to the session there is always a later moment at which it waits for more and finds no complete
item in what it has received; by then it has sent the answers to all the items it has taken out of
its stream, its socket has taken them, and the messages of all its accepted publish requests are
published, both in order. -/
theorem all_answered (db : σ) (h : FairTo verify hash session inputs (start db))
    (hone : ∀ n, inputs n ≠ .step .restart ∧ ∀ thread, inputs n ≠ .brokenPipe thread) (n : ℕ) :
    ∃ m, n ≤ m ∧ Done session (stateAt (step verify hash) (start db) inputs m) ∧
      (answering verify).done session
          (run (step verify hash) (start db) ((List.range m).map inputs)).2 =
        (answering verify).requested session
          (run (step verify hash) (start db) ((List.range m).map inputs)).2 ∧
      List.Forall₂ (publishing verify).Matches
        ((publishing verify).done session
          (run (step verify hash) (start db) ((List.range m).map inputs)).2)
        ((publishing verify).requested session
          (run (step verify hash) (start db) ((List.range m).map inputs)).2) := by
  obtain ⟨m, hm, hdone⟩ := done_again verify hash db h n
  have hnone : ∀ k, worldInputs verify hash inputs (start db) k ≠ .restart := by
    intro k
    exact move_ne_restart _ _ (hone k)
  have his := noRestart_range verify hash db _ hnone m
  have hrest := hdone.1
  rw [world_stateAt, stateAt_eq_run] at hrest
  refine ⟨m, hm, hdone, ?_⟩
  rw [outputs_range]
  exact ⟨List.forall₂_eq_eq_eq ▸ done_of_atRest hash (answering_lawful verify session) db _ his hrest,
    done_of_atRest hash (publishing_lawful verify session) db _ his hrest⟩

/-- A session that has left its receive loop, after a hangup or an overflow, is gone some time
later in every endless run that is fair to it: it is out of the list of sessions and of all
subscriptions, so no publish is sent to it any more. -/
theorem teardown_completes (db : σ) (h : FairTo verify hash session inputs (start db)) (n : ℕ)
    (hleaving : Leaving session (stateAt (step verify hash) (start db) inputs n).world) :
    ∃ m, n ≤ m ∧ Gone session (stateAt (step verify hash) (start db) inputs m).world := by
  rw [world_stateAt] at hleaving
  obtain ⟨m, hm, hgone⟩ := leaving_ends verify hash session db _ (h.scheduled verify hash) n hleaving
  exact ⟨m, hm, by rw [world_stateAt]; exact hgone⟩

end Fairness

section Examples

open World

/-- All sockets are read and all threads get turns, again and again. -/
def everybody (n : ℕ) : SocketInput (Option MdbError) :=
  if n.unpair.2 % 2 = 0 then .write n.unpair.1 100 else .step (.thread n.unpair.1 allCommit)

/-- A client connects and sends a ping, which its thread answers. -/
def pingForever : ℕ → SocketInput (Option MdbError)
  | 0 => .step (.accept 0)
  | 1 => .step (.recv 0 (BinaryProtocol.serialize .ping))
  | 2 | 3 => .step (.thread 0 allCommit)
  | n + 4 => everybody n

/-- A client connects and hangs up. -/
def hangupAtOnce : ℕ → SocketInput (Option MdbError)
  | 0 => .step (.accept 0)
  | 1 => .step (.hangup 0)
  | n + 2 => everybody n

/-- Nobody publishes, nothing is left to write to the client, and no thread has anything to do but to
take its session away. -/
structure Calm (y : SocketWorld LmdbFile) : Prop where
  free : y.holder = none
  written : y.writesOf 0 = []
  quiet : ∀ (t : SessionId) (conn : Connection), y.world.connections[t]? = some conn →
    waiting conn = true ∨ conn.pending = [.call .removeSession]

theorem calm_thread (verify : Verify) (hash : HashOrder) (w : World LmdbFile) (t : SessionId)
    (hquiet : ∀ (t : SessionId) (conn : Connection), w.connections[t]? = some conn →
      waiting conn = true ∨ conn.pending = [.call .removeSession]) :
    (w.pendingTask t).any (fun task => task.publishedTopic.isSome) = false ∧
      (w.threadStep verify hash t allCommit).2 = [] ∧
      ∀ (s : SessionId) (conn : Connection),
        (w.threadStep verify hash t allCommit).1.connections[s]? = some conn →
          waiting conn = true ∨ conn.pending = [.call .removeSession] := by
  cases hconn : w.connections[t]? with
  | none =>
    rw [w.pendingTask_eq_none t (by simp [hconn]), threadStep, hconn]
    exact ⟨rfl, rfl, hquiet⟩
  | some conn =>
    rcases hquiet t conn hconn with hw | hp
    · obtain ⟨hp, hopen, hnext⟩ := (waiting_iff conn).mp hw
      rw [w.pendingTask_eq_none t fun c hc => Option.some_inj.mp (hconn.symm.trans hc) ▸ hp, threadStep,
        hconn]
      dsimp only
      rw [hp, hopen, hnext]
      exact ⟨rfl, rfl, hquiet⟩
    · rw [w.pendingTask_eq t conn _ _ hconn hp,
        w.threadStep_of_task verify hash t allCommit conn _ _ hconn hp, taskStep]
      refine ⟨rfl, rfl, fun s c hc => ?_⟩
      dsimp only at hc
      rw [if_pos rfl, TreeMap.getElem?_erase] at hc
      split_ifs at hc
      exact hquiet s c hc

theorem calm_step (y : SocketWorld LmdbFile) (n : ℕ) (h : Calm y) :
    Calm (y.step (fun _ _ _ => true) insertionOrder (everybody n)).1 := by
  rw [everybody]
  split_ifs
  -- a socket that is read has nothing to take
  · refine ⟨h.free, ?_, h.quiet⟩
    rcases socket_step_le (fun _ _ _ => true) insertionOrder 0 y
      (.write n.unpair.1 100 : SocketInput (Option MdbError)) (by simp) with he | hless
    · rw [he, h.written]
    · rw [h.written] at hless
      exact absurd hless (Nat.not_lt_zero _)
  -- a turn waits in `recv`, or takes a session away without a word to the client
  · obtain ⟨htask, houts, hquiet⟩ :=
      calm_thread (fun _ _ _ => true) insertionOrder y.world n.unpair.1 h.quiet
    have hr : y.releases (.thread n.unpair.1 allCommit) = false := by
      rw [releases, h.free]
      rfl
    rw [SocketWorld.step, if_neg (by rw [hr]; exact Bool.false_ne_true)]
    by_cases he : y.enabled (.thread n.unpair.1 allCommit) = true
    · rw [if_pos he]
      refine ⟨?_, ?_, hquiet⟩
      · rw [holderAfter, nextTask, htask, if_neg Bool.false_ne_true]
        exact h.free
      · rw [writesOf]
        dsimp only [writesAfter, World.step]
        rw [houts, TreeMap.getD_insert]
        split_ifs
        · rfl
        · exact h.written
    · rw [if_neg he]
      exact h

/-- A run that goes on like this from a calm state is fair to the client. -/
theorem fairTo_everybody (inputs : ℕ → SocketInput (Option MdbError)) (c : ℕ)
    (h : ∀ n, inputs (n + c) = everybody n)
    (hcalm : Calm (stateAt (step (fun _ _ _ => true) insertionOrder) (start LmdbFile.empty) inputs
      (c + 1))) :
    FairTo (fun _ _ _ => true) insertionOrder 0 inputs (start LmdbFile.empty) := by
  have hwrite : ∀ t k, inputs (Nat.pair t (2 * k) + c) = .write t 100 := by
    intro t k
    rw [h, everybody, Nat.unpair_pair, if_pos (by omega)]
  have hturn : ∀ t k, inputs (Nat.pair t (2 * k + 1) + c) = .step (.thread t allCommit) := by
    intro t k
    rw [h, everybody, Nat.unpair_pair, if_neg (by omega)]
  refine ⟨fun t n => ?_, fun t n => ?_, fun n _ => ?_⟩
  · have hle := Nat.right_le_pair t (2 * n)
    exact ⟨_, by omega, Or.inr (Or.inr ⟨100, by decide, hwrite t n⟩)⟩
  · have hle := Nat.right_le_pair t (2 * n + 1)
    exact ⟨_, by omega, allCommit, hturn t n⟩
  · have hle := Nat.right_le_pair 0 (2 * n + 1)
    refine ⟨Nat.pair 0 (2 * n + 1) + c, by omega, ?_, allCommit, hturn 0 n⟩
    -- a calm state lets every thread go on
    have hstill : ∀ j, c + 1 ≤ j →
        Calm (stateAt (step (fun _ _ _ => true) insertionOrder) (start LmdbFile.empty) inputs j) := by
      intro j hj
      induction j, hj using Nat.le_induction with
      | base => exact hcalm
      | succ j hj ih =>
        obtain ⟨k, rfl⟩ := Nat.exists_eq_add_of_le' (Nat.le_of_succ_le hj)
        rw [stateAt, h]
        exact calm_step _ k ih
    have hnow := hstill (Nat.pair 0 (2 * n + 1) + c) (by omega)
    exact ⟨hnow.written, by rw [hnow.free]; simp, Or.inl hnow.free⟩

/-- The only session is the one of the client. -/
theorem calm_of_client (y : SocketWorld LmdbFile) (hw : y.world.Accounted)
    (hsessions : y.world.broker.sessions = [0]) (hfree : y.holder = none) (hwritten : y.writesOf 0 = [])
    (hconn : y.world.connections[0]?.all (fun conn => waiting conn || decide
      (conn.pending = [.call .removeSession])) = true) : Calm y := by
  refine ⟨hfree, hwritten, fun t conn hc => ?_⟩
  have ht : t ∈ y.world.broker.sessions := by
    rw [hw.connected, TreeMap.mem_iff_isSome_getElem?, hc]
    rfl
  rw [hsessions, List.mem_singleton] at ht
  rw [← ht, hc, Option.all_some, Bool.or_eq_true, decide_eq_true_eq] at hconn
  exact hconn

theorem accounted_stateAt (inputs : ℕ → SocketInput (Option MdbError)) (n : ℕ) :
    (stateAt (step (fun _ _ _ => true) insertionOrder) (start LmdbFile.empty) inputs n).world.Accounted := by
  rw [world_stateAt]
  exact stateAt_invariant _ (fun w i h => accounted_step _ _ w i h) _ _ (accounted_start LmdbFile.empty) n

theorem everybody_one_process (n : ℕ) :
    everybody n ≠ .step .restart ∧ ∀ thread, everybody n ≠ .brokenPipe thread := by
  rw [everybody]
  split_ifs <;> simp

theorem pingForever_one_process (n : ℕ) :
    pingForever n ≠ .step .restart ∧ ∀ thread, pingForever n ≠ .brokenPipe thread := by
  match n with
  | 0 | 1 | 2 | 3 => simp [pingForever]
  | n + 4 => exact everybody_one_process n

/-- The pong is sent in the first four steps. -/
theorem pong_done (m : ℕ) (hm : 4 ≤ m) : BinaryProtocol.serialize .pong ∈
    (answering fun _ _ _ => true).done 0 (run (step (fun _ _ _ => true) insertionOrder)
      (start LmdbFile.empty) ((List.range m).map pingForever)).2 := by
  obtain ⟨k, rfl⟩ := Nat.exists_eq_add_of_le hm
  rw [List.range_add, List.map_append, run_append, Effect.done_append]
  exact List.mem_append_left _ (by decide)

theorem all_answered_ping : ∃ m, 4 ≤ m ∧
    Done 0 (stateAt (step (fun _ _ _ => true) insertionOrder) (start LmdbFile.empty) pingForever m) ∧
    (answering fun _ _ _ => true).done 0 (run (step (fun _ _ _ => true) insertionOrder)
      (start LmdbFile.empty) ((List.range m).map pingForever)).2 =
    (answering fun _ _ _ => true).requested 0 (run (step (fun _ _ _ => true) insertionOrder)
      (start LmdbFile.empty) ((List.range m).map pingForever)).2 ∧
    BinaryProtocol.serialize .pong ∈ (answering fun _ _ _ => true).done 0
      (run (step (fun _ _ _ => true) insertionOrder) (start LmdbFile.empty)
        ((List.range m).map pingForever)).2 := by
  have hcalm := calm_of_client _ (accounted_stateAt pingForever 5) (by decide) (by decide) (by decide)
    (by decide)
  obtain ⟨m, hm, hdone, hanswers, -⟩ := all_answered (fun _ _ _ => true) insertionOrder LmdbFile.empty
    (fairTo_everybody pingForever 4 (fun _ => rfl) hcalm) pingForever_one_process 4
  exact ⟨m, hm, hdone, hanswers, pong_done m hm⟩

theorem teardown_completes_hangup : ∃ m, 2 ≤ m ∧
    Gone 0 (stateAt (step (fun _ _ _ => true) insertionOrder) (start LmdbFile.empty) hangupAtOnce m).world :=
  teardown_completes (fun _ _ _ => true) insertionOrder LmdbFile.empty
    (fairTo_everybody hangupAtOnce 2 (fun _ => rfl) (calm_of_client _ (accounted_stateAt hangupAtOnce 3)
      (by decide) (by decide) (by decide) (by decide))) 2
    ⟨{ pending := [.call .removeSession], closing := true }, by rfl, rfl⟩

end Examples

end SocketWorld

end MetricMQ
