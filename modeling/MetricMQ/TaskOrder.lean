import MetricMQ.ClientRegistry

/-! Requests and what becomes of them, for one session at a time. A thread takes the items of its
stream one by one and makes the calls its handler gives it before it takes the next one. So of any
kind of effect, the ones a session has had and those it has still to have are the ones its items
have asked for, in order, however the threads of the other connections run in between. -/
namespace MetricMQ

open ByteString Std Machine

instance {σ ε : Type} (w : World σ) : DecidablePred (NoRestart (ε := ε) w)
  | .restart => isFalse fun h => h
  | .accept _ | .recv _ _ | .hangup _ | .thread _ _ | .keyStore _ | .stop => isTrue trivial

/-- A kind of effect: which calls have it, where the outputs show it, and what an item asks for
under the keys of the moment. -/
structure Effect (α β : Type) where
  ofCall : Call → List α
  shown : SessionId → Output → List α
  asked : KeyLookups → Dispatch → List β
  Matches : α → β → Prop

namespace Effect

variable {α β : Type} (e : Effect α β) (session : SessionId)

/-- Only calls have effects, the parts of a replay have none. -/
def ofTask : Task → List α
  | .call call => e.ofCall call
  | _ => []

/-- What the session has done. -/
def done (tr : List Output) : List α := tr.flatMap (e.shown session)

/-- What the session has been asked for. -/
def requested (tr : List Output) : List β :=
  tr.flatMap fun o => match o with
    | .dispatched s item keys => if s = session then e.asked keys item else []
    | _ => []

/-- What the session has still to do. -/
def pending {σ : Type} (w : World σ) : List α :=
  match w.connections[session]? with
  | none => []
  | some conn => conn.pending.flatMap e.ofTask

/-- The handlers do what is asked, and the outputs show what is done. -/
structure Lawful (σ ε : Type) [Storage σ ε] (verify : Verify) : Prop where
  exec : ∀ (w : World σ) (hash : HashOrder) (faults : Faults ε) (s : SessionId) (task : Task),
    e.done session (w.exec hash faults s task).2 = if s = session then e.ofTask task else []
  dispatched : ∀ s item keys, e.shown session (.dispatched s item keys) = []
  leaving : ∀ s : Session, s.overflowCalls.flatMap e.ofCall = []
  handled : ∀ (keys : KeyLookups) (s : Session) (r : Receiver) (item : Dispatch),
    s.next = some (item, r) → List.Forall₂ e.Matches
      ((Session.handle verify keys { s with toReceiver := r } item).2.flatMap e.ofCall)
      (e.asked keys item)

theorem done_append (tr outs : List Output) :
    e.done session (tr ++ outs) = e.done session tr ++ e.done session outs := List.flatMap_append

theorem requested_append (tr outs : List Output) :
    e.requested session (tr ++ outs) = e.requested session tr ++ e.requested session outs :=
  List.flatMap_append

theorem ofTask_map (calls : List Call) :
    (calls.map Task.call).flatMap e.ofTask = calls.flatMap e.ofCall := by
  rw [List.flatMap_map]
  rfl

end Effect

section Steps

variable {σ ε : Type} [Storage σ ε] (verify : Verify) (hash : HashOrder) (w : World σ)
  (session : SessionId)

/-- What a connection has still to do fits, in every run. -/
theorem tasksFit_connectionStep : World.ConnectionStep (ε := ε) verify hash w
    (fun _ c => c.TasksFit) (fun _ _ c => c.TasksFit) where
  others := fun _ _ _ _ _ h => h
  idle := fun _ _ h => h
  fresh := fun _ _ => ⟨fun _ => by simp, fun h => Bool.noConfusion h⟩
  received := fun _ _ _ _ _ _ _ h => ⟨h.loop, h.exit⟩
  overflowed := fun _ c _ _ _ _ => c.tasksFit_exit _ (List.cons_ne_nil _ _) List.suffix_rfl
  hungUp := fun _ c _ _ => c.tasksFit_hungUp
  worked := fun _ c _ task rest _ hp htask h => c.tasksFit_worked w task rest h hp htask
  dispatched := by
    intro s c item r _ hp hnext h
    refine ⟨fun _ => Session.inLoop_handle verify _ _ item, fun hc => ?_⟩
    exact absurd hp (h.exit hc).1

/-- Tasks take no items. -/
theorem dispatched_not_mem_exec (faults : Faults ε) (s : SessionId) (task : Task) (s' : SessionId)
    (item : Dispatch) (keys : KeyLookups) :
    .dispatched s' item keys ∉ (w.exec hash faults s task).2 := by
  have hshown := w.shown_exec hash faults s task
  generalize (w.exec hash faults s task).2 = outs at hshown
  cases hshown with
  | nothing | published | replied | replayed => simp

omit [Storage σ ε] in
theorem pending_of_waiting (conn : Connection) (h : World.waiting conn = true) :
    conn.pending = [] := by
  rw [World.waiting, Bool.and_eq_true, Bool.and_eq_true] at h
  exact List.isEmpty_iff.mp h.1.1

namespace Effect

variable {α β : Type} (e : Effect α β)

omit [Storage σ ε] in
theorem pending_eq (conn : Connection) (h : w.connections[session]? = some conn) :
    e.pending session w = conn.pending.flatMap e.ofTask := by
  rw [pending, h]

omit [Storage σ ε] in
theorem pending_insert (b : Broker σ) (keys : TrustedKeyStore)
    (looked : TreeMap SessionId TrustedKeyStore) (s : SessionId) (conn : Connection) :
    e.pending session (⟨b, w.connections.insert s conn, keys, looked⟩ : World σ) =
      if s = session then conn.pending.flatMap e.ofTask else e.pending session w := by
  rw [pending, TreeMap.getElem?_insert]
  simp only [LawfulEqCmp.compare_eq_iff_eq]
  by_cases hs : s = session
  · simp [hs]
  · simp [hs, pending]

omit [Storage σ ε] in
theorem pending_erase (b : Broker σ) (keys : TrustedKeyStore)
    (looked : TreeMap SessionId TrustedKeyStore) (s : SessionId) :
    e.pending session (⟨b, w.connections.erase s, keys, looked⟩ : World σ) =
      if s = session then [] else e.pending session w := by
  rw [pending, TreeMap.getElem?_erase]
  simp only [LawfulEqCmp.compare_eq_iff_eq]
  by_cases hs : s = session
  · simp [hs]
  · simp [hs, pending]

omit [Storage σ ε] in
/-- A connection whose pending tasks have the same effects as before. -/
theorem pending_set (s : SessionId) (conn conn' : Connection)
    (hconn : w.connections[s]? = some conn)
    (h : conn'.pending.flatMap e.ofTask = conn.pending.flatMap e.ofTask) :
    e.pending session (w.set s conn') = e.pending session w := by
  rw [World.set, pending_insert]
  split_ifs with hs
  · rw [h, e.pending_eq w session conn (hs ▸ hconn)]
  · rfl

/-- What a task leaves to do are parts of a replay. -/
theorem ofTask_followUp (task : Task) : (w.followUp task).flatMap e.ofTask = [] := by
  apply List.flatMap_eq_nil_iff.mpr
  intro next hn
  cases next with
  | call call => exact absurd hn (w.not_call_followUp task call)
  | replayMessages | loadUnacked | sendStored | sendUnacked => rfl

theorem requested_exec (faults : Faults ε) (s : SessionId) (task : Task) :
    e.requested session (w.exec hash faults s task).2 = [] := by
  apply List.flatMap_eq_nil_iff.mpr
  intro o ho
  cases o with
  | dispatched s' item keys => exact absurd ho (dispatched_not_mem_exec hash w faults s task s' item keys)
  | published | sent => rfl

section Lawful

variable {e verify session} (h : e.Lawful session σ ε verify)

include h in
theorem Lawful.exit (s : Session) : s.exitCalls.flatMap e.ofCall = [] := by
  have hover := h.leaving s
  rw [Session.overflowCalls, List.flatMap_cons, List.append_eq_nil_iff] at hover
  exact hover.2

include h in
/-- Bytes from the socket and hangups find a thread that has nothing left to do, and ask nothing. -/
theorem Lawful.pending_recvStep (s : SessionId) (chunk : Bytes) :
    e.pending session (w.recvStep s chunk) = e.pending session w := by
  rw [World.recvStep]
  cases hconn : w.connections[s]? with
  | none => rfl
  | some conn =>
    dsimp only
    split_ifs with hw
    · rfl
    · rw [Bool.not_eq_true, Bool.or_eq_false_iff, Bool.or_eq_false_iff, Bool.not_eq_false'] at hw
      have hp := pending_of_waiting conn hw.1.1
      cases conn.receive chunk with
      | none =>
        apply e.pending_set w session s conn _ hconn
        rw [hp, ofTask_map, h.leaving]
        rfl
      | some r => exact e.pending_set w session s conn _ hconn rfl

include h in
theorem Lawful.pending_hangupStep (s : SessionId) :
    e.pending session (w.hangupStep s) = e.pending session w := by
  rw [World.hangupStep]
  cases hconn : w.connections[s]? with
  | none => rfl
  | some conn =>
    dsimp only
    split_ifs with hw
    · apply e.pending_set w session s conn _ hconn
      rw [pending_of_waiting conn hw, ofTask_map, h.exit]
      rfl
    · rfl

theorem pending_acceptStep (s : SessionId) :
    e.pending session (w.acceptStep s) = e.pending session w := by
  rw [World.acceptStep]
  cases hconn : w.connections[s]? with
  | some conn => rfl
  | none =>
    cases w.broker.acceptSession s with
    | none => rfl
    | some b =>
      dsimp only
      rw [pending_insert]
      split_ifs with hs
      · rw [pending, ← hs, hconn]
        rfl
      · rfl

include h in
/-- A task has the effects it stands for, and the others stay pending. -/
theorem Lawful.pending_taskStep (faults : Faults ε) (s : SessionId) (conn : Connection) (task : Task)
    (rest : List Task) (hconn : w.connections[s]? = some conn) (hfit : conn.TasksFit)
    (hp : conn.pending = task :: rest) :
    e.done session (w.taskStep hash faults s conn task rest).2 ++
        e.pending session (w.taskStep hash faults s conn task rest).1 = e.pending session w := by
  have hmine : s = session → e.pending session w = e.ofTask task ++ rest.flatMap e.ofTask := by
    intro hs
    rw [e.pending_eq w session conn (hs ▸ hconn), hp, List.flatMap_cons]
  rw [World.taskStep, h.exec]
  dsimp only
  by_cases htask : task = .call .removeSession
  -- the connection goes with the call, which is its last task
  · rw [if_pos htask, pending_erase]
    obtain ⟨-, he | ⟨-, rfl⟩⟩ := hfit.of_exit task rest hp (by rw [htask]; exact fun h => h)
    · rw [htask] at he
      cases he
    split_ifs with hs
    · rw [hmine hs]
      rfl
    · rfl
  · rw [if_neg htask, pending_insert]
    split_ifs with hs
    · rw [hmine hs, List.flatMap_append, ofTask_followUp, List.nil_append]
    · rfl

end Lawful

/-- What holds between two steps of one process: every connection does what fits, and what the
session has done and has still to do is what it was asked for. -/
structure InOrder (w : World σ) (tr : List Output) : Prop where
  fit : ∀ (s : SessionId) (conn : Connection), w.connections[s]? = some conn → conn.TasksFit
  order : List.Forall₂ e.Matches (e.done session tr ++ e.pending session w) (e.requested session tr)

omit [Storage σ ε] in
/-- Nothing asked: what is done now was pending before. -/
theorem inOrder_of_eq (w' : World σ) (tr outs : List Output)
    (horder : List.Forall₂ e.Matches (e.done session tr ++ e.pending session w) (e.requested session tr))
    (hdone : e.done session outs ++ e.pending session w' = e.pending session w)
    (hasked : e.requested session outs = []) :
    List.Forall₂ e.Matches (e.done session (tr ++ outs) ++ e.pending session w')
      (e.requested session (tr ++ outs)) := by
  have hsame : e.done session (tr ++ outs) ++ e.pending session w' =
      e.done session tr ++ e.pending session w := by
    calc e.done session (tr ++ outs) ++ e.pending session w'
        = e.done session tr ++ (e.done session outs ++ e.pending session w') := by
          rw [done_append, List.append_assoc]
      _ = e.done session tr ++ e.pending session w := by rw [hdone]
  rw [hsame, requested_append, hasked, List.append_nil]
  exact horder

variable {e} in
theorem Lawful.inOrder_step (h : e.Lawful session σ ε verify) (tr : List Output) (i : Input ε)
    (hw : e.InOrder session w tr) (hi : NoRestart w i) :
    e.InOrder session (w.step verify hash i).1 (tr ++ (w.step verify hash i).2) := by
  refine ⟨(tasksFit_connectionStep verify hash w).step hw.fit i, ?_⟩
  -- only the thread of the session shows anything of it, and only by a task or by an item
  cases i with
  | accept s => exact e.inOrder_of_eq w session _ tr [] hw.order (pending_acceptStep w s) rfl
  | recv s chunk => exact e.inOrder_of_eq w session _ tr [] hw.order (h.pending_recvStep w s chunk) rfl
  | hangup s => exact e.inOrder_of_eq w session _ tr [] hw.order (h.pending_hangupStep w s) rfl
  | keyStore | stop => exact e.inOrder_of_eq w session _ tr [] hw.order rfl rfl
  | restart => exact hi.elim
  | thread s faults =>
    have hcase := World.stepCase_thread verify hash w s faults
    rw [World.step]
    generalize (w.threadStep verify hash s faults).1 = w' at hcase ⊢
    generalize (w.threadStep verify hash s faults).2 = outs at hcase ⊢
    cases hcase with
    | nothing => exact e.inOrder_of_eq w session _ tr [] hw.order rfl rfl
    | worked _ _ conn task rest hconn hp =>
      apply e.inOrder_of_eq w session _ tr _ hw.order
      · exact h.pending_taskStep hash w faults s conn task rest hconn (hw.fit s conn hconn) hp
      · exact e.requested_exec hash w session faults s task
    | dispatched _ _ conn item r hconn hp hnext =>
      have hdone : e.done session (w.dispatchStep verify s conn item r).2 = [] := by
        rw [World.dispatchStep, done, List.flatMap_singleton, h.dispatched]
      have hpending : e.pending session (w.dispatchStep verify s conn item r).1 =
          if s = session then
            (Session.handle verify (w.lookups s)
              { conn.toSession with toReceiver := r } item).2.flatMap e.ofCall
          else e.pending session w := by
        rw [World.dispatchStep, pending_insert, ofTask_map]
      have hrequested : e.requested session (w.dispatchStep verify s conn item r).2 =
          if s = session then e.asked (w.lookups s) item else [] := by
        rw [World.dispatchStep, requested, List.flatMap_singleton]
      rw [done_append, requested_append, hdone, List.append_nil, hpending, hrequested]
      split_ifs with hs
      · -- the thread had nothing left to do, so its new calls are all that is pending
        have hnone : e.pending session w = [] := by
          rw [e.pending_eq w session conn (hs ▸ hconn), hp]
          rfl
        have horder := hw.order
        rw [hnone, List.append_nil] at horder
        exact List.rel_append horder (h.handled _ conn.toSession r item hnext)
      · rw [List.append_nil]
        exact hw.order

variable {e} in
/-- In every run of one process, what a session has done of a kind, followed by what it has still
to do, is what its items have asked for, one for one and in order. -/
theorem Lawful.inOrder_run (h : e.Lawful session σ ε verify) (db : σ) (is : List (Input ε))
    (his : Meets (World.step verify hash) NoRestart (World.start db) is) :
    e.InOrder session (run (World.step verify hash) (World.start db) is).1
      (run (World.step verify hash) (World.start db) is).2 := by
  refine run_invariant (e.InOrder session)
    (fun w tr i hw hi => h.inOrder_step verify hash w session tr i hw hi) (World.start db) [] is ?_ his
  refine ⟨fun s conn hc => ?_, ?_⟩
  · simp [World.start] at hc
  · simp [World.start, pending, done, requested]

end Effect

end Steps

end MetricMQ
