import MetricMQ.Delivery
import MetricMQ.FairRuns

/-! What a client that does not read does to all the others. A publish writes to the sockets of its
subscribers under the broker mutex, and a write to a full socket waits. So one subscriber that stops
reading stops every other call of the broker, until its socket takes bytes again or fails. -/
namespace MetricMQ

open ByteString Std Machine

/-- The tasks that lock the broker mutex. A replay loads and sends without it, and asks under it for
the mark of the client and for its acknowledgements. -/
def Task.locks : Task → Bool
  | .call (.send _) | .replayMessages _ _ | .loadUnacked _ _ _ | .sendStored _ => false
  | .call _ | .sendUnacked _ _ => true

/-- The system with its sockets: who is writing under the mutex, and what the threads have still to
write, to whom and how many bytes. -/
structure SocketWorld (σ : Type) where
  world : World σ
  holder : Option SessionId := none
  writes : TreeMap SessionId (List (SessionId × ℕ)) := ∅

/-- `writeFails` is an error of `::send` that raises no signal, `brokenPipe` the one that does: the
peer has closed the connection. -/
inductive SocketInput (ε : Type)
  | step (i : Input ε)
  | write (thread : SessionId) (n : ℕ)
  | writeFails (thread : SessionId)
  | brokenPipe (thread : SessionId)

/-- The writes that go with the outputs of a step; there is no turn of the loop without bytes. -/
def writesFor (outs : List Output) : List (SessionId × ℕ) :=
  outs.filterMap fun o => match o with
    | .sent s _ data _ => if data = [] then none else some (s, data.length)
    | _ => none

/-- `::send` takes `n` bytes of the string that is being written, or as many as there are. -/
def wrote (n : ℕ) : List (SessionId × ℕ) → List (SessionId × ℕ)
  | [] => []
  | (s, k) :: rest => if n = 0 then (s, k) :: rest else if k ≤ n then rest else (s, k - n) :: rest

namespace SocketWorld

section Definitions

variable {σ ε : Type} [Storage σ ε] (verify : Verify) (hash : HashOrder) (x : SocketWorld σ)

def start (db : σ) : SocketWorld σ := { world := World.start db }

def writesOf (thread : SessionId) : List (SessionId × ℕ) := x.writes.getD thread []

/-- The next task of a thread meets the condition. -/
def nextTask (p : Task → Bool) (thread : SessionId) : Bool := (x.world.pendingTask thread).any p

/-- The publish of a thread has written everything, and gives the mutex back. -/
def releases : Input ε → Bool
  | .thread s _ => decide (x.holder = some s) && (x.writesOf s).isEmpty
  | _ => false

/-- A thread that is in `send` does nothing else, and only one thread has the mutex. -/
def enabled : Input ε → Bool
  | .thread s _ => (x.writesOf s).isEmpty && (x.holder.isNone || !x.nextTask Task.locks s)
  | .recv s _ | .hangup s | .keyStore (.lookup s) =>
    (x.writesOf s).isEmpty && decide (x.holder ≠ some s)
  | .accept _ => x.holder.isNone
  | .keyStore (.change _) | .stop | .restart => true

/-- Only a publish keeps the mutex beyond its step. -/
def holderAfter : Input ε → Option SessionId
  | .thread s _ => if x.nextTask (fun task => task.publishedTopic.isSome) s then some s else x.holder
  | .restart => none
  | .accept _ | .recv _ _ | .hangup _ | .keyStore _ | .stop => x.holder

def writesAfter (outs : List Output) : Input ε → TreeMap SessionId (List (SessionId × ℕ))
  | .thread s _ => x.writes.insert s (writesFor outs)
  | .restart => ∅
  | .accept _ | .recv _ _ | .hangup _ | .keyStore _ | .stop => x.writes

def step : SocketInput ε → SocketWorld σ × List Output
  | .step i =>
    if x.releases i then ({ x with holder := none }, [])
    else if x.enabled i then
      let r := x.world.step verify hash i
      (⟨r.1, x.holderAfter i, x.writesAfter r.2 i⟩, r.2)
    else (x, [])
  | .write thread n => ({ x with writes := x.writes.insert thread (wrote n (x.writesOf thread)) }, [])
  -- the rest of the string is given up, the next subscriber's turn comes
  | .writeFails thread => ({ x with writes := x.writes.insert thread (x.writesOf thread).tail }, [])
  -- nothing catches SIGPIPE, so the process ends; what goes on is a new one on the same file
  | .brokenPipe thread =>
    if (x.writesOf thread).isEmpty then (x, []) else (start x.world.broker.db, [])

/-- The steps of the system without the sockets. -/
def moves : SocketInput ε → List (Input ε)
  | .step i => if x.releases i then [] else if x.enabled i then [i] else []
  | .write _ _ | .writeFails _ => []
  | .brokenPipe thread => if (x.writesOf thread).isEmpty then [] else [.restart]

theorem step_moves (i : SocketInput ε) :
    (x.step verify hash i).1.world = (run (World.step verify hash) x.world (x.moves i)).1 ∧
      (x.step verify hash i).2 = (run (World.step verify hash) x.world (x.moves i)).2 := by
  cases i with
  | write thread n => exact ⟨rfl, rfl⟩
  | writeFails thread => exact ⟨rfl, rfl⟩
  | brokenPipe thread =>
    rw [step, moves]
    split_ifs
    · exact ⟨rfl, rfl⟩
    · exact ⟨rfl, rfl⟩
  | step i =>
    rw [step, moves]
    split_ifs
    · exact ⟨rfl, rfl⟩
    · refine ⟨rfl, ?_⟩
      rw [run, run, List.append_nil]
    · exact ⟨rfl, rfl⟩

/-- The sockets only hold the system up: every run with them is a run without them, with the same
outputs. -/
theorem sockets_refine (is : List (SocketInput ε)) :
    (run (step verify hash) x is).1.world =
        (run (World.step verify hash) x.world (movesOf (step verify hash) moves x is)).1 ∧
      (run (step verify hash) x is).2 =
        (run (World.step verify hash) x.world (movesOf (step verify hash) moves x is)).2 :=
  run_projects (fun x : SocketWorld σ => x.world) moves (fun x i => x.step_moves verify hash i) x is

end Definitions

section Stuck

variable {σ ε : Type} [Storage σ ε] (verify : Verify) (hash : HashOrder)

/-- A task without the mutex leaves the broker alone and publishes nothing. -/
theorem exec_of_free (w : World σ) (faults : Faults ε) (s : SessionId) (task : Task)
    (h : task.locks = false) : (w.exec hash faults s task).1 = w.broker ∧
      ∀ s' topic data n, .published s' topic data n ∉ (w.exec hash faults s task).2 := by
  cases task with
  | call call =>
    cases call with
    | send data => exact ⟨rfl, by simp [World.exec, World.execCall]⟩
    | registerClient | subscribe | unsubscribe | publish | handleAck | unregisterClient
    | removeSession | replayMessagesForClient => cases h
  | sendUnacked => cases h
  | replayMessages | loadUnacked | sendStored => exact ⟨rfl, by simp [World.exec]⟩

/-- A thread whose next task does not lock, or that takes its next item. -/
theorem threadStep_of_free (w : World σ) (s : SessionId) (faults : Faults ε)
    (h : (w.pendingTask s).any Task.locks = false) :
    (w.threadStep verify hash s faults).1.broker = w.broker ∧
      ∀ s' topic data n, .published s' topic data n ∉ (w.threadStep verify hash s faults).2 := by
  have hcase := World.stepCase_thread verify hash w s faults
  revert hcase
  generalize (w.threadStep verify hash s faults).1 = w'
  generalize (w.threadStep verify hash s faults).2 = outs
  intro hcase
  cases hcase with
  | nothing => exact ⟨rfl, by simp⟩
  | worked _ _ conn task rest hconn hp =>
    rw [w.pendingTask_eq s conn task rest hconn hp] at h
    exact exec_of_free hash w faults s task h
  | dispatched => exact ⟨rfl, by simp [World.dispatchStep]⟩

omit [Storage σ ε] in
theorem broker_recvStep (w : World σ) (s : SessionId) (chunk : Bytes) :
    (w.recvStep s chunk).broker = w.broker := by
  rcases w.recvStep_set s chunk with h | ⟨conn, h⟩
  · rw [h]
  · rw [h, World.set]

omit [Storage σ ε] in
theorem broker_hangupStep (w : World σ) (s : SessionId) : (w.hangupStep s).broker = w.broker := by
  rcases w.hangupStep_set s with h | ⟨conn, h⟩
  · rw [h]
  · rw [h, World.set]

/-- The thread is in a publish and has something to write. -/
structure Writing (thread : SessionId) (x : SocketWorld σ) : Prop where
  holder : x.holder = some thread
  writes : x.writesOf thread ≠ []

/-- What the inputs leave alone that are not about the socket of the write: the broker as a whole,
except that `stop` takes its storage away, and that a broken pipe ends it like a restart. -/
def Untouched (thread : SessionId) : SocketInput ε → Prop
  | .write s _ | .writeFails s => s ≠ thread
  | .brokenPipe _ | .step .stop | .step .restart => False
  | .step _ => True

instance (thread : SessionId) (i : SocketInput ε) : Decidable (Untouched thread i) :=
  match i with
  | .write s _ | .writeFails s => inferInstanceAs (Decidable (s ≠ thread))
  | .brokenPipe _ | .step .stop | .step .restart => isFalse id
  | .step (.accept _) | .step (.recv _ _) | .step (.hangup _) | .step (.thread _ _)
  | .step (.keyStore _) => isTrue trivial

variable {x : SocketWorld σ} {thread : SessionId}

omit [Storage σ ε] in
theorem Writing.isEmpty (h : Writing thread x) : (x.writesOf thread).isEmpty = false := by
  rw [List.isEmpty_eq_false_iff]
  exact h.writes

omit [Storage σ ε] in
theorem Writing.not_releases (h : Writing thread x) (i : Input ε) : x.releases i = false := by
  cases i with
  | thread s faults =>
    rw [releases, Bool.and_eq_false_iff]
    by_cases hs : s = thread
    · exact Or.inr (hs ▸ h.isEmpty)
    · left
      rw [h.holder, decide_eq_false_iff_not, Option.some_inj]
      exact Ne.symm hs
  | accept | recv | hangup | keyStore | stop | restart => rfl

omit [Storage σ ε] in
/-- A thread that runs while the mutex is held is another one, and does not need the mutex. -/
theorem of_enabled (h : x.holder = some thread) (s : SessionId) (faults : Faults ε)
    (hr : x.releases (.thread s faults) = false) (he : x.enabled (.thread s faults) = true) :
    s ≠ thread ∧ (x.world.pendingTask s).any Task.locks = false := by
  rw [enabled, Bool.and_eq_true, h] at he
  constructor
  · -- the holder itself would release it, with nothing to write
    rintro rfl
    rw [releases, h, he.1, decide_eq_true rfl] at hr
    cases hr
  · simpa [nextTask] using he.2

omit [Storage σ ε] in
theorem writesOf_insert (w : World σ) (holder : Option SessionId) (s t : SessionId)
    (writes : List (SessionId × ℕ)) (hs : s ≠ t) :
    writesOf (⟨w, holder, x.writes.insert s writes⟩ : SocketWorld σ) t = x.writesOf t := by
  rw [writesOf, TreeMap.getD_insert, if_neg]
  · rfl
  · rwa [LawfulEqCmp.compare_eq_iff_eq]

omit [Storage σ ε] in
/-- No task publishes without the mutex. -/
theorem any_publishedTopic_of_free (w : World σ) (s : SessionId)
    (h : (w.pendingTask s).any Task.locks = false) :
    (w.pendingTask s).any (fun task => task.publishedTopic.isSome) = false := by
  cases ht : w.pendingTask s with
  | none => rfl
  | some task =>
    rw [ht, Option.any_some] at h
    rw [Option.any_some]
    cases task with
    | call call => cases call <;> first | rfl | cases h
    | replayMessages | loadUnacked | sendStored | sendUnacked => rfl

/-- One step beside the write: the write goes on, and the broker is as it was. -/
theorem Writing.step (h : Writing thread x) (i : SocketInput ε) (hi : Untouched thread i) :
    Writing thread (x.step verify hash i).1 ∧
      (x.step verify hash i).1.world.broker = x.world.broker ∧
      ∀ s topic data n, .published s topic data n ∉ (x.step verify hash i).2 := by
  have hkeep : ∀ (w : World σ) (s : SessionId) (writes : List (SessionId × ℕ)), s ≠ thread →
      Writing thread (⟨w, x.holder, x.writes.insert s writes⟩ : SocketWorld σ) :=
    fun w s writes hs => ⟨h.holder, by rw [writesOf_insert w x.holder s thread writes hs]; exact h.writes⟩
  cases i with
  -- other sockets are written to by other threads
  | write s n => exact ⟨hkeep x.world s _ hi, rfl, by simp [SocketWorld.step]⟩
  | writeFails s => exact ⟨hkeep x.world s _ hi, rfl, by simp [SocketWorld.step]⟩
  | brokenPipe s => exact hi.elim
  | step i =>
    rw [SocketWorld.step, if_neg (by rw [h.not_releases i]; exact Bool.false_ne_true)]
    by_cases he : x.enabled i = true
    · rw [if_pos he]
      cases i with
      | thread s faults =>
        obtain ⟨hs, hfree⟩ := of_enabled h.holder s faults (h.not_releases _) he
        obtain ⟨hbroker, hpub⟩ := threadStep_of_free verify hash x.world s faults hfree
        refine ⟨?_, hbroker, hpub⟩
        rw [holderAfter, nextTask, any_publishedTopic_of_free x.world s hfree,
          if_neg Bool.false_ne_true]
        exact hkeep _ s _ hs
      | accept s =>
        -- the accept loop has to lock, too
        rw [enabled, h.holder] at he
        cases he
      | recv s chunk =>
        exact ⟨⟨h.holder, h.writes⟩, broker_recvStep x.world s chunk, by simp [World.step]⟩
      | hangup s => exact ⟨⟨h.holder, h.writes⟩, broker_hangupStep x.world s, by simp [World.step]⟩
      | keyStore op => exact ⟨⟨h.holder, h.writes⟩, rfl, by simp [World.step]⟩
      | stop | restart => exact hi.elim
    · rw [if_neg he]
      exact ⟨h, rfl, by simp⟩

/-- The publish still waits, the broker is the one it was, and nothing has been published. -/
structure Frozen (thread : SessionId) (b : Broker σ) (y : SocketWorld σ) (tr : List Output) : Prop where
  writing : Writing thread y
  broker : y.world.broker = b
  silent : ∀ s topic data n, .published s topic data n ∉ tr

theorem Frozen.step {b : Broker σ} {y : SocketWorld σ} {tr : List Output} (h : Frozen thread b y tr)
    (i : SocketInput ε) (hi : Untouched thread i) :
    Frozen thread b (y.step verify hash i).1 (tr ++ (y.step verify hash i).2) := by
  obtain ⟨hwriting, hbroker, hnew⟩ := h.writing.step verify hash i hi
  refine ⟨hwriting, hbroker.trans h.broker, fun s topic data n hm => ?_⟩
  rcases List.mem_append.mp hm with hm | hm
  · exact h.silent s topic data n hm
  · exact hnew s topic data n hm

/-- One reader stops the broker: while a publish waits for the socket of a subscriber, nothing that
the other clients do, and no thread of theirs, changes anything in the broker: nobody is accepted,
subscribed, removed or acknowledged, and nothing is published. -/
theorem stuck_write_freezes (is : List (SocketInput ε)) (h : Writing thread x)
    (his : ∀ i ∈ is, Untouched thread i) :
    Writing thread (run (SocketWorld.step verify hash) x is).1 ∧
      (run (SocketWorld.step verify hash) x is).1.world.broker = x.world.broker ∧
      ∀ s topic data n,
        .published s topic data n ∉ (run (SocketWorld.step verify hash) x is).2 := by
  have hrun := run_invariant (C := fun _ i => Untouched thread i) (Frozen thread x.world.broker)
    (fun _ _ i hy hi => hy.step verify hash i hi) x [] is ⟨h, rfl, by simp⟩
    ((meets_iff_forall x is).mpr his)
  rw [List.nil_append] at hrun
  exact ⟨hrun.writing, hrun.broker, hrun.silent⟩

end Stuck

section Returns

/-- What is left to write: the bytes, and one for each string. -/
def leftOf (writes : List (SessionId × ℕ)) : ℕ := (writes.map fun w => w.2 + 1).sum

theorem leftOf_wrote (n : ℕ) (hn : 0 < n) (writes : List (SessionId × ℕ)) (h : writes ≠ []) :
    leftOf (wrote n writes) < leftOf writes := by
  cases writes with
  | nil => exact absurd rfl h
  | cons w rest =>
    obtain ⟨s, k⟩ := w
    rw [wrote, if_neg (Nat.ne_of_gt hn)]
    split_ifs with hk
    · simp [leftOf]
    · simp only [leftOf, List.map_cons, List.sum_cons]
      omega

theorem leftOf_tail (writes : List (SessionId × ℕ)) (h : writes ≠ []) :
    leftOf writes.tail < leftOf writes := by
  cases writes with
  | nil => exact absurd rfl h
  | cons w rest => simp [leftOf]

theorem wrote_zero (writes : List (SessionId × ℕ)) : wrote 0 writes = writes := by
  cases writes with
  | nil => rfl
  | cons w rest => rw [wrote, if_pos rfl]

variable {σ ε : Type} [Storage σ ε] (verify : Verify) (hash : HashOrder) (thread : SessionId)

omit [Storage σ ε] in
theorem writesOf_self (w : World σ) (x : SocketWorld σ) (holder : Option SessionId)
    (writes : List (SessionId × ℕ)) :
    writesOf (⟨w, holder, x.writes.insert thread writes⟩ : SocketWorld σ) thread = writes := by
  rw [writesOf, TreeMap.getD_insert, if_pos ReflCmp.compare_self]

/-- While a thread has the mutex, the steps of the system add nothing to what it has to write. -/
theorem held_step (x : SocketWorld σ) (i : Input ε) (h : x.holder = some thread) :
    (x.step verify hash (.step i)).1.holder = none ∨
      ((x.step verify hash (.step i)).1.holder = some thread ∧
        (x.step verify hash (.step i)).1.writesOf thread = x.writesOf thread) := by
  rw [SocketWorld.step]
  by_cases hr : x.releases i = true
  · rw [if_pos hr]
    exact Or.inl rfl
  · rw [if_neg hr]
    by_cases he : x.enabled i = true
    · rw [if_pos he]
      cases i with
      | thread s faults =>
        obtain ⟨hs, hfree⟩ := of_enabled h s faults (Bool.eq_false_of_not_eq_true hr) he
        right
        rw [holderAfter, nextTask, any_publishedTopic_of_free x.world s hfree,
          if_neg Bool.false_ne_true]
        exact ⟨h, writesOf_insert _ x.holder s thread _ hs⟩
      | accept s =>
        rw [enabled, h] at he
        cases he
      | recv | hangup | keyStore | stop => exact Or.inr ⟨h, rfl⟩
      | restart => exact Or.inl rfl
    · rw [if_neg he]
      exact Or.inr ⟨h, rfl⟩

theorem writesOf_start (db : σ) : (start db).writesOf thread = [] := TreeMap.getD_emptyc

/-- The sockets take bytes away from what a thread has to write, and add none. -/
theorem socket_step_le (x : SocketWorld σ) (i : SocketInput ε) (hi : ∀ j, i ≠ .step j) :
    (x.step verify hash i).1.writesOf thread = x.writesOf thread ∨
      leftOf ((x.step verify hash i).1.writesOf thread) < leftOf (x.writesOf thread) := by
  cases i with
  | step j => exact absurd rfl (hi j)
  | write s n =>
    rw [SocketWorld.step]
    by_cases hs : s = thread
    · subst hs
      rw [writesOf_self]
      by_cases hn : n = 0
      · rw [hn, wrote_zero]
        exact Or.inl rfl
      · by_cases hw : x.writesOf s = []
        · rw [hw]
          exact Or.inl rfl
        · exact Or.inr (leftOf_wrote n (Nat.pos_of_ne_zero hn) _ hw)
    · exact Or.inl (writesOf_insert x.world x.holder s thread _ hs)
  | writeFails s =>
    rw [SocketWorld.step]
    by_cases hs : s = thread
    · subst hs
      rw [writesOf_self]
      by_cases hw : x.writesOf s = []
      · rw [hw]
        exact Or.inl rfl
      · exact Or.inr (leftOf_tail _ hw)
    · exact Or.inl (writesOf_insert x.world x.holder s thread _ hs)
  | brokenPipe s =>
    rw [SocketWorld.step]
    split_ifs
    · exact Or.inl rfl
    -- a new process has nothing to write
    · rw [writesOf_start]
      by_cases hw : x.writesOf thread = []
      · exact Or.inl hw.symm
      · exact Or.inr (Nat.lt_of_le_of_lt (Nat.zero_le _) (leftOf_tail _ hw))

/-- So it stays or goes down, until the mutex is given back or the process ends. -/
theorem held_step_le (x : SocketWorld σ) (i : SocketInput ε) (h : x.holder = some thread) :
    (x.step verify hash i).1.holder = none ∨ ((x.step verify hash i).1.holder = some thread ∧
      ((x.step verify hash i).1.writesOf thread = x.writesOf thread ∨
        leftOf ((x.step verify hash i).1.writesOf thread) < leftOf (x.writesOf thread))) := by
  cases i with
  | step i => exact (held_step verify hash thread x i h).imp_right (And.imp_right Or.inl)
  | write s n => exact Or.inr ⟨h, socket_step_le verify hash thread x _ (by simp)⟩
  | writeFails s => exact Or.inr ⟨h, socket_step_le verify hash thread x _ (by simp)⟩
  | brokenPipe s =>
    have hle := socket_step_le verify hash thread x (.brokenPipe s : SocketInput ε) (by simp)
    rw [SocketWorld.step] at hle ⊢
    split_ifs at hle ⊢
    · exact Or.inr ⟨h, hle⟩
    · exact Or.inl rfl

/-- The next string of a thread loses bytes to its socket, or is given up, or ends the process. -/
def Drains (thread : SessionId) (i : SocketInput ε) : Prop :=
  i = .writeFails thread ∨ i = .brokenPipe thread ∨ ∃ n, 0 < n ∧ i = .write thread n

theorem drain_step (x : SocketWorld σ) (i : SocketInput ε) (hi : Drains thread i)
    (h : x.writesOf thread ≠ []) :
    leftOf ((x.step verify hash i).1.writesOf thread) < leftOf (x.writesOf thread) := by
  rcases hi with rfl | rfl | ⟨n, hn, rfl⟩
  · rw [SocketWorld.step, writesOf_self]
    exact leftOf_tail _ h
  · rw [SocketWorld.step, if_neg (by simpa using h)]
    exact Nat.lt_of_le_of_lt (Nat.zero_le _) (leftOf_tail _ h)
  · rw [SocketWorld.step, writesOf_self]
    exact leftOf_wrote n hn _ h

/-- A publish comes to its end and gives the mutex back if its subscribers go on reading, or their
sockets fail, and its thread goes on running; nothing else is asked of the other sessions. Where a
write ends the process, nobody has the mutex either. -/
theorem publish_returns (x : SocketWorld σ) (inputs : ℕ → SocketInput ε)
    (hdrains : Fair (Drains thread) inputs)
    (hturns : Fair (fun i => ∃ faults, i = .step (.thread thread faults)) inputs) (n : ℕ) :
    ∃ m, n ≤ m ∧ (stateAt (SocketWorld.step verify hash) x inputs m).holder ≠ some thread := by
  -- first everything is written
  have hwritten : ∃ m, n ≤ m ∧
      ((stateAt (SocketWorld.step verify hash) x inputs m).holder ≠ some thread ∨
        (stateAt (SocketWorld.step verify hash) x inputs m).writesOf thread = []) := by
    refine rest_of_measure (SocketWorld.step verify hash) wellFounded_lt
      (R := fun y => y.holder ≠ some thread ∨ y.writesOf thread = [])
      (fun y => leftOf (y.writesOf thread)) (I := fun _ => True) (fun _ _ _ => trivial) ?_ ?_
      x inputs trivial hdrains n
    · intro y i _ hbusy
      rw [not_or, not_not] at hbusy
      rcases held_step_le verify hash thread y i hbusy.1 with h | ⟨-, h | h⟩
      · exact Or.inl (Or.inl (by rw [h]; simp))
      · exact Or.inr (Or.inl (congrArg leftOf h))
      · exact Or.inr (Or.inr h)
    · intro y i _ hbusy hi
      rw [not_or] at hbusy
      exact Or.inr (drain_step verify hash thread y i hi hbusy.2)
  obtain ⟨m, hm, hfree | hempty⟩ := hwritten
  · exact ⟨m, hm, hfree⟩
  -- then the next turn of the thread releases the mutex
  · by_cases hholder : (stateAt (SocketWorld.step verify hash) x inputs m).holder = some thread
    · have hreleased := leads_to (SocketWorld.step verify hash)
        (Q := fun y => y.holder = some thread ∧ y.writesOf thread = [])
        (R := fun y => y.holder ≠ some thread) ?_ ?_ x inputs hturns m ⟨hholder, hempty⟩
      · obtain ⟨m', hm', hfree⟩ := hreleased
        exact ⟨m', Nat.le_trans hm hm', hfree⟩
      · rintro y i ⟨hy, hw⟩
        rcases held_step_le verify hash thread y i hy with h | ⟨h, hw' | hw'⟩
        · exact Or.inl (by rw [h]; simp)
        · exact Or.inr ⟨h, hw'.trans hw⟩
        · rw [hw] at hw'
          exact absurd hw' (Nat.not_lt_zero _)
      · rintro y i ⟨hy, hw⟩ ⟨faults, rfl⟩
        have hr : y.releases (.thread thread faults) = true := by
          rw [releases, hy, hw, decide_eq_true rfl, List.isEmpty_nil, Bool.and_true]
        rw [SocketWorld.step, if_pos hr]
        simp
    · exact ⟨m, hm, hholder⟩

end Returns

section Examples

open World

/-- The first client subscribes to the topic, the second publishes on it. -/
def publishToSubscriber : List (SocketInput (Option MdbError)) :=
  (binaryClient 0 (.subscribe (lit "t") 1) 5 ++ binaryClient 1 (.publish (lit "t") (lit "a") 1) 2).map
    .step

/-- The publish waits for the first client, who does not read. -/
def publishWaiting : SocketWorld LmdbFile :=
  (run (step (fun _ _ _ => true) insertionOrder) (SocketWorld.start LmdbFile.empty) publishToSubscriber).1

/-- Meanwhile the first client takes the answer to its subscription and hangs up, and a third one
comes: neither is it removed nor the other accepted. -/
def othersMeanwhile : List (SocketInput (Option MdbError)) :=
  [.write 0 16, .step (.hangup 0), .step (.thread 0 allCommit), .step (.accept 2)]

theorem stuck_write_freezes_publish :
    (run (step (fun _ _ _ => true) insertionOrder) publishWaiting othersMeanwhile).1.world.broker =
      publishWaiting.world.broker := by
  have hwriting : Writing 1 publishWaiting := ⟨by decide, by decide⟩
  exact (stuck_write_freezes (fun _ _ _ => true) insertionOrder othersMeanwhile hwriting
    (by decide)).2.1

/-- The first client reads five bytes at a time. -/
def readsOn (n : ℕ) : SocketInput (Option MdbError) :=
  if n % 2 = 0 then .write 1 5 else .step (.thread 1 allCommit)

theorem publish_returns_publish : publishWaiting.holder = some 1 ∧ ∃ m, 0 ≤ m ∧
    (stateAt (step (fun _ _ _ => true) insertionOrder) publishWaiting readsOn m).holder ≠ some 1 := by
  refine ⟨by decide, publish_returns (fun _ _ _ => true) insertionOrder 1 publishWaiting readsOn ?_ ?_ 0⟩
  · intro n
    exact ⟨2 * n, by omega, Or.inr (Or.inr ⟨5, by decide, by simp [readsOn]⟩)⟩
  · intro n
    exact ⟨2 * n + 1, by omega, allCommit, by simp [readsOn]⟩

end Examples

end SocketWorld

end MetricMQ
