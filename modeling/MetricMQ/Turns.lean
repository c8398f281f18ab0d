import MetricMQ.IdleTimeout
import MetricMQ.Progress

/-! One session among all the others. A step of the system lets a session read bytes of its own
socket, dispatch an item, make a call or leave its loop, and what it does is what its handlers say
for the items of its bytes, one after the other. -/
namespace MetricMQ

open ByteString Std Machine StreamFraming

namespace Receiver

/-- What the receiver will make of its buffer and `stream` behind it. -/
def ahead (r : Receiver) (stream : Bytes) : List Dispatch × Receiver :=
  drainAll ⟨r.finalProtocol stream, r.recvBuffer ++ stream⟩

/-- Bytes that are taken from the stream into the buffer change nothing. -/
theorem ahead_receive (r r' : Receiver) (chunk stream : Bytes) (h : r.receive chunk = some r') :
    r.ahead (chunk ++ stream) = r'.ahead stream := by
  obtain ⟨p, b⟩ := r
  rw [receive] at h
  split_ifs at h with hg hp
  all_goals obtain rfl := Option.some_inj.mp h
  · -- the protocol was open: the new bytes decide it, or those behind them
    obtain rfl : p = .unknown := hp
    rw [ahead, ahead, finalProtocol, finalProtocol, if_pos rfl, ← List.append_assoc]
    dsimp only
    split_ifs with hd
    · rfl
    · have hne : b ++ chunk ≠ [] := by
        intro he
        rw [he] at hd
        exact hd rfl
      rw [detectProtocol_append _ stream hne]
  · rw [ahead, ahead, finalProtocol, finalProtocol, if_neg hp, if_neg hp, ← List.append_assoc]

/-- A turn of the drain loop takes the first item. -/
theorem ahead_next (r r' : Receiver) (item : Dispatch) (stream : Bytes)
    (h : r.next = some (item, r')) :
    r.ahead stream = (item :: (r'.ahead stream).1, (r'.ahead stream).2) := by
  obtain ⟨n, hp, rfl⟩ := r.next_eq_some r' item h
  have hknown : r.protocol ≠ .unknown := by
    intro hu
    rw [hu] at hp
    cases hp
  rw [← dispatcher_parse] at hp
  have hn := ((dispatcher r.protocol).progress _ _ _ hp).2
  have hs := (dispatcher r.protocol).stable _ stream _ _ hp
  rw [ahead, ahead, finalProtocol, finalProtocol, if_neg hknown, drainAll, drainAll]
  dsimp only
  rw [← dispatcher_parse, drain_some _ _ _ _ hs, List.drop_append_of_le_length hn, if_neg hknown,
    dispatcher_parse]

/-- The receiver has seen `bytes` of its stream and has dispatched `items` of it. -/
structure Follows (r : Receiver) (bytes : Bytes) (items : List Dispatch) : Prop where
  reads : ∀ stream, greedy (bytes ++ stream) = (items ++ (r.ahead stream).1, (r.ahead stream).2)
  detected : r.finalProtocol [] = r.protocol

theorem follows_fresh : Follows {} [] [] := ⟨fun stream => (drainAll_eq_greedy stream).symm, rfl⟩

theorem detected_receive (r r' : Receiver) (chunk : Bytes) (h : r.receive chunk = some r') :
    r'.finalProtocol [] = r'.protocol := by
  rw [receive] at h
  split_ifs at h with hg hp
  all_goals obtain rfl := Option.some_inj.mp h
  · rw [finalProtocol]
    split_ifs
    · rw [List.append_nil]
    · rfl
  · exact if_neg hp

theorem Follows.receive {r r' : Receiver} {bytes : Bytes} {items : List Dispatch} (chunk : Bytes)
    (hf : r.Follows bytes items) (h : r.receive chunk = some r') :
    r'.Follows (bytes ++ chunk) items := by
  refine ⟨fun stream => ?_, detected_receive r r' chunk h⟩
  rw [List.append_assoc, hf.reads, ahead_receive r r' chunk stream h]

theorem Follows.next {r r' : Receiver} {bytes : Bytes} {items : List Dispatch} (item : Dispatch)
    (hf : r.Follows bytes items) (h : r.next = some (item, r')) :
    r'.Follows bytes (items ++ [item]) := by
  constructor
  · intro stream
    rw [hf.reads, ahead_next r r' item stream h, List.append_assoc, List.singleton_append]
  · obtain ⟨n, hp, rfl⟩ := r.next_eq_some r' item h
    rw [finalProtocol, if_neg]
    intro hu
    rw [hu] at hp
    cases hp

/-- What the buffer still holds comes behind what has been dispatched. -/
theorem Follows.greedy_eq {r : Receiver} {bytes : Bytes} {items : List Dispatch}
    (hf : r.Follows bytes items) : greedy bytes = (items ++ r.drainAll.1, r.drainAll.2) := by
  have h := hf.reads []
  rwa [List.append_nil, ahead, hf.detected, List.append_nil] at h

/-- With no complete item in the buffer all of them have been dispatched. -/
theorem Follows.greedy_of_idle {r : Receiver} {bytes : Bytes} {items : List Dispatch}
    (hf : r.Follows bytes items) (h : r.next = none) : greedy bytes = (items, r) := by
  have hidle := r.drainAll_next
  rw [h] at hidle
  rw [hf.greedy_eq, hidle, List.append_nil]

end Receiver

namespace Session

/-- The handlers one after the other, each item under what its thread found at the key lookups. -/
def handleAll (verify : Verify) (s : Session) :
    List (KeyLookups × Dispatch) → Session × List Call
  | [] => (s, [])
  | (keys, item) :: items =>
    let h := handle verify keys s item
    let r := handleAll verify h.1 items
    (r.1, h.2 ++ r.2)

/-- The handlers do not look at what the receive loop holds. -/
theorem handle_receiver (verify : Verify) (keys : KeyLookups) (s : Session) (r : Receiver)
    (item : Dispatch) : handle verify keys { s with toReceiver := r } item =
      ({ (handle verify keys s item).1 with toReceiver := r }, (handle verify keys s item).2) := by
  cases item with
  | command v => rfl
  | frame f =>
    -- every branch reads the counter and the client id only
    rw [handle, handle, handleBinaryFrame, handleBinaryFrame]
    cases f.command with
    | subscribe =>
      dsimp only
      rw [handleSubscribe, handleSubscribe]
      cases find f.topic 0 <;> rfl
    | publish =>
      dsimp only
      rw [handlePublish, handlePublish]
      split_ifs <;> rfl
    | signedPublish =>
      dsimp only
      rw [handleSignedPublish, handleSignedPublish]
      split_ifs <;> rfl
    | unsubscribe | ping | ack | signedMessage | message | pong | error | unnamed => rfl

theorem handleAll_append (verify : Verify) (s : Session) (items more : List (KeyLookups × Dispatch)) :
    handleAll verify s (items ++ more) =
      ((handleAll verify (handleAll verify s items).1 more).1,
        (handleAll verify s items).2 ++ (handleAll verify (handleAll verify s items).1 more).2) := by
  induction items generalizing s with
  | nil => rfl
  | cons p items ih =>
    simp only [List.cons_append, handleAll, ih, List.append_assoc]

theorem handleAll_toReceiver (verify : Verify) (s : Session)
    (items : List (KeyLookups × Dispatch)) :
    (handleAll verify s items).1.toReceiver = s.toReceiver := by
  induction items generalizing s with
  | nil => rfl
  | cons p items ih => exact (ih _).trans (handle_toReceiver verify p.1 s p.2)

/-- They leave a session that has received nothing without bytes. -/
theorem handleAll_fresh (verify : Verify) (items : List (KeyLookups × Dispatch)) :
    ({ (handleAll verify {} items).1 with toReceiver := {} } : Session) =
      (handleAll verify {} items).1 := by
  have h := handleAll_toReceiver verify {} items
  generalize (handleAll verify {} items).1 = s at h ⊢
  obtain ⟨r, sequence, clientId⟩ := s
  obtain rfl : r = {} := h
  rfl

/-- The calls of a session that has left its receive loop: those of its items, and those behind
the loop. -/
def Leaves (s : Session) (handled calls : List Call) : Prop :=
  calls = handled ++ s.exitCalls ∨ calls = handled ++ s.overflowCalls

end Session

def Task.calls : Task → List Call
  | .call c => [c]
  | _ => []

/-- What a session has dispatched in a trace, each item with what was found at the key lookups. -/
def dispatchedBy (session : SessionId) (tr : List Output) : List (KeyLookups × Dispatch) :=
  tr.filterMap fun o => match o with
    | .dispatched s item keys => if s = session then some (keys, item) else none
    | _ => none

section Turns

variable {σ ε : Type} [Storage σ ε] (session : SessionId)

omit [Storage σ ε] in
theorem dispatchedBy_dispatched (s : SessionId) (item : Dispatch) (keys : KeyLookups) :
    dispatchedBy session [.dispatched s item keys] = if s = session then [(keys, item)] else [] := by
  by_cases hs : s = session <;> simp [dispatchedBy, hs]

theorem dispatchedBy_exec (w : World σ) (hash : HashOrder) (faults : Faults ε) (s : SessionId)
    (task : Task) : dispatchedBy session (w.exec hash faults s task).2 = [] := by
  apply List.filterMap_eq_nil_iff.mpr
  intro o ho
  cases o with
  | dispatched s' item keys => exact absurd ho (dispatched_not_mem_exec hash w faults s task s' item keys)
  | published | sent => rfl

/-- What a task leaves to do are no calls. -/
theorem calls_followUp (w : World σ) (task : Task) : (w.followUp task).flatMap Task.calls = [] := by
  apply List.flatMap_eq_nil_iff.mpr
  intro next hn
  cases next with
  | call call => exact absurd hn (w.not_call_followUp task call)
  | replayMessages | loadUnacked | sendStored | sendUnacked => rfl

/-- The bytes a session takes from its socket in a step, unless the size guard drops them. -/
def World.taken (w : World σ) : Input ε → Bytes
  | .recv s chunk =>
    match w.connections[s]? with
    | none => []
    | some conn => if s = session && w.takes s chunk && (conn.receive chunk).isSome then chunk else []
  | .accept _ | .hangup _ | .thread _ _ | .keyStore _ | .stop | .restart => []

/-- The call its thread makes in a step. -/
def World.made (w : World σ) : Input ε → List Call
  | .thread s _ => if s = session then (w.pendingTask session).elim [] Task.calls else []
  | .accept _ | .recv _ _ | .hangup _ | .keyStore _ | .stop | .restart => []

/-- The process goes on, and the name of the session is not given to a new one. -/
def SameConnection (_ : World σ) : Input ε → Prop
  | .restart => False
  | .accept s => s ≠ session
  | .recv _ _ | .hangup _ | .thread _ _ | .keyStore _ | .stop => True

/-- Everything a step can do to one session: what becomes of its connection, which bytes it takes,
what it dispatches, and which call its thread makes. -/
inductive Turn (verify : Verify) (keys : KeyLookups) : Option Connection → Option Connection →
    Bytes → List (KeyLookups × Dispatch) → List Call → Prop
  | absent : Turn verify keys none none [] [] []
  | idle (conn : Connection) : Turn verify keys (some conn) (some conn) [] [] []
  | received (conn : Connection) (chunk : Bytes) (r : Receiver) (hw : World.waiting conn = true)
      (hr : conn.receive chunk = some r) :
      Turn verify keys (some conn) (some { conn with toReceiver := r }) chunk [] []
  | leaving (conn : Connection) (calls : List Call) (hw : World.waiting conn = true)
      (hcalls : calls = conn.exitCalls ∨ calls = conn.overflowCalls) :
      Turn verify keys (some conn)
        (some { conn with pending := calls.map .call, closing := true }) [] [] []
  | worked (conn : Connection) (task : Task) (rest next : List Task)
      (hp : conn.pending = task :: rest) (hnext : next.flatMap Task.calls = []) :
      Turn verify keys (some conn) (some { conn with pending := next ++ rest }) [] [] task.calls
  | dispatched (conn : Connection) (item : Dispatch) (r : Receiver) (hp : conn.pending = [])
      (hopen : conn.closing = false) (hnext : conn.next = some (item, r)) :
      Turn verify keys (some conn)
        (some { conn with
          toSession := (Session.handle verify keys { conn.toSession with toReceiver := r } item).1
          pending := (Session.handle verify keys
            { conn.toSession with toReceiver := r } item).2.map .call }) [] [(keys, item)] []
  | gone (conn : Connection) (hp : conn.pending = [.call .removeSession])
      (hclosing : conn.closing = true) :
      Turn verify keys (some conn) none [] [] [.removeSession]

theorem Turn.same (verify : Verify) (keys : KeyLookups) (oc : Option Connection) :
    Turn verify keys oc oc [] [] [] := by
  cases oc with
  | none => exact .absent
  | some conn => exact .idle conn

variable (verify : Verify) (hash : HashOrder) (w : World σ)

/-- What is not an input of the session leaves it alone. -/
theorem World.untouched_step (i : Input ε) (hi : i.actor ≠ some session)
    (hsame : SameConnection session w i) :
    (w.step verify hash i).1.connections[session]? = w.connections[session]? ∧
      dispatchedBy session (w.step verify hash i).2 = [] ∧ w.taken session i = [] ∧
      w.made session i = [] := by
  have hset : ∀ (s : SessionId) (conn : Connection), some s ≠ some session →
      (w.set s conn).connections[session]? = w.connections[session]? :=
    fun s conn hs => World.getElem?_set_ne w session s conn fun he => hs (congrArg some he)
  have hcase := World.stepCase_step verify hash w i
  revert hcase
  generalize (w.step verify hash i).1 = w'
  generalize (w.step verify hash i).2 = outs
  intro hcase
  refine ⟨?_, ?_, ?_, ?_⟩
  · cases hcase with
    | nothing | keyed | stopped => rfl
    | accepted s b => exact hset s {} hi
    | received s | overflowed s | hungUp s | dispatched s => exact hset s _ hi
    | worked s faults conn task rest =>
      rw [World.taskStep]
      dsimp only
      split_ifs
      · rw [TreeMap.getElem?_erase, if_neg]
        rw [LawfulEqCmp.compare_eq_iff_eq]
        exact fun he => hi (congrArg some he)
      · exact hset s _ hi
    | restarted => exact hsame.elim
  · cases hcase with
    | worked s faults conn task rest => exact dispatchedBy_exec session w hash faults s task
    | dispatched s faults conn item r =>
      rw [World.dispatchStep, dispatchedBy_dispatched, if_neg]
      exact fun he => hi (congrArg some he)
    | nothing | accepted | received | overflowed | hungUp | keyed | stopped | restarted => rfl
  · cases i with
    | recv s chunk =>
      have hs : s ≠ session := fun he => hi (congrArg some he)
      rw [World.taken]
      cases w.connections[s]? with
      | none => rfl
      | some conn => simp [hs]
    | accept | hangup | thread | keyStore | stop | restart => rfl
  · cases i with
    | thread s faults => exact if_neg fun he => hi (congrArg some he)
    | accept | recv | hangup | keyStore | stop | restart => rfl

/-- What stands as looked up for a session stood there before, or its thread has looked it up now. -/
theorem World.looked_step (i : Input ε) (ks : TrustedKeyStore)
    (h : (w.step verify hash i).1.looked[session]? = some ks) :
    w.looked[session]? = some ks ∨ ks = w.keys ∧ (w.nextItem session).isSome = true := by
  have herase : ∀ s, (w.looked.erase s)[session]? = some ks → w.looked[session]? = some ks := by
    intro s hs
    rw [TreeMap.getElem?_erase] at hs
    split_ifs at hs
    exact hs
  have hcase := World.stepCase_step verify hash w i
  generalize (w.step verify hash i).1 = w' at hcase h
  generalize (w.step verify hash i).2 = outs at hcase
  cases hcase with
  | nothing | received | overflowed | hungUp | worked | stopped => exact Or.inl h
  | accepted s | dispatched s => exact Or.inl (herase s h)
  | restarted =>
    rw [TreeMap.getElem?_emptyc] at h
    cases h
  | keyed access =>
    cases access with
    | change op => exact Or.inl h
    | lookup s =>
      simp only [lookedAfter] at h
      split_ifs at h with hnext
      · rw [TreeMap.getElem?_insertIfNew] at h
        split_ifs at h with hnew
        · rw [LawfulEqCmp.compare_eq_iff_eq] at hnew
          exact Or.inr ⟨(Option.some_inj.mp h).symm, hnew.1 ▸ hnext⟩
        · exact Or.inl h
      · exact Or.inl h

omit [Storage σ ε] in
theorem waiting_iff (conn : Connection) : World.waiting conn = true ↔
    conn.pending = [] ∧ conn.closing = false ∧ conn.next = none := by
  simp [World.waiting, and_assoc]

omit [Storage σ ε] in
theorem World.getElem?_set_self (conn : Connection) :
    (w.set session conn).connections[session]? = some conn := TreeMap.getElem?_insert_self

omit [Storage σ ε] in
/-- Bytes from its own socket. -/
theorem World.turn_recv (chunk : Bytes) (conn : Connection) (hconn : w.connections[session]? = some conn) :
    Turn verify (w.lookups session) (some conn) (w.recvStep session chunk).connections[session]?
      (w.taken session (.recv session chunk : Input ε)) [] [] := by
  have htakes : (!waiting conn || chunk.isEmpty || decide (chunk.length > 4096)) =
      !w.takes session chunk := by
    rw [takes, hconn]
    simp only [Bool.not_and, Bool.not_not, ← decide_not, Nat.not_le]
  rw [recvStep, taken, hconn]
  dsimp only
  rw [htakes]
  cases ht : w.takes session chunk with
  | false =>
    rw [Bool.and_false, Bool.false_and, if_neg Bool.false_ne_true, Bool.not_false, if_pos rfl, hconn]
    exact .idle conn
  | true =>
    have hw : waiting conn = true := by
      rw [takes, hconn] at ht
      exact (Bool.and_eq_true_iff.mp (Bool.and_eq_true_iff.mp ht).1).1
    rw [Bool.not_true, if_neg Bool.false_ne_true, decide_eq_true rfl]
    cases hr : conn.receive chunk with
    | none =>
      rw [Option.isSome_none, Bool.and_false, if_neg Bool.false_ne_true, getElem?_set_self]
      exact .leaving conn conn.overflowCalls hw (Or.inr rfl)
    | some r =>
      rw [Option.isSome_some, Bool.and_true, Bool.and_true, if_pos rfl, getElem?_set_self]
      exact .received conn chunk r hw hr

theorem World.turn_hangup (conn : Connection) (hconn : w.connections[session]? = some conn) :
    Turn verify (w.lookups session) (some conn) (w.hangupStep session).connections[session]? [] [] [] := by
  rw [hangupStep, hconn]
  dsimp only
  split_ifs with hw
  · rw [getElem?_set_self]
    exact .leaving conn conn.exitCalls hw (Or.inl rfl)
  · rw [hconn]
    exact .idle conn

/-- A turn of its own thread. -/
theorem World.turn_thread (faults : Faults ε) (conn : Connection)
    (hconn : w.connections[session]? = some conn) (hfit : conn.TasksFit) :
    Turn verify (w.lookups session) (some conn)
      (w.threadStep verify hash session faults).1.connections[session]? []
      (dispatchedBy session (w.threadStep verify hash session faults).2)
      (w.made session (.thread session faults : Input ε)) := by
  rw [made, if_pos rfl]
  cases hp : conn.pending with
  | cons task rest =>
    rw [w.threadStep_of_task verify hash session faults conn task rest hconn hp,
      w.pendingTask_eq session conn task rest hconn hp, taskStep]
    dsimp only
    rw [dispatchedBy_exec, Option.elim_some]
    split_ifs with htask
    · -- it is the last task of a session that has left its loop
      obtain ⟨hclosing, he | ⟨-, rfl⟩⟩ := hfit.of_exit task rest hp (by rw [htask]; exact fun h => h)
      · rw [htask] at he
        cases he
      · rw [TreeMap.getElem?_erase_self, htask]
        exact .gone conn (htask ▸ hp) hclosing
    · rw [TreeMap.getElem?_insert_self]
      exact .worked conn task rest _ hp (calls_followUp w task)
  | nil =>
    rw [w.pendingTask_eq_none session fun c hc => Option.some_inj.mp (hconn.symm.trans hc) ▸ hp,
      Option.elim_none]
    have hopen : conn.closing = false := by
      rw [← Bool.not_eq_true]
      exact fun hc => (hfit.exit hc).1 hp
    cases hnext : conn.next with
    | none =>
      rw [threadStep, hconn]
      dsimp only
      rw [hp, hopen, hnext]
      dsimp only
      rw [if_neg Bool.false_ne_true, hconn]
      exact .idle conn
    | some p =>
      obtain ⟨item, r⟩ := p
      rw [w.threadStep_of_next verify hash session faults conn item r hconn hp hopen hnext,
        dispatchStep, TreeMap.getElem?_insert_self, dispatchedBy_dispatched, if_pos rfl]
      exact .dispatched conn item r hp hopen hnext

/-- Where nobody is, nothing is read, dispatched or called. -/
theorem World.turn_absent (i : Input ε) (ha : i.actor = some session) (hi : SameConnection session w i)
    (hconn : w.connections[session]? = none) :
    Turn verify (w.lookups session) none (w.step verify hash i).1.connections[session]? (w.taken session i)
      (dispatchedBy session (w.step verify hash i).2) (w.made session i) := by
  cases i with
  | accept s => exact absurd (Option.some_inj.mp ha) hi
  | recv s chunk =>
    obtain rfl := Option.some_inj.mp ha
    rw [step, recvStep, taken, hconn]
    dsimp only
    rw [hconn]
    exact .absent
  | hangup s =>
    obtain rfl := Option.some_inj.mp ha
    rw [step, hangupStep, hconn]
    dsimp only
    rw [hconn]
    exact .absent
  | thread s faults =>
    obtain rfl := Option.some_inj.mp ha
    rw [step, threadStep, made, if_pos rfl, w.pendingTask_eq_none s (by simp [hconn]), hconn]
    dsimp only
    rw [hconn]
    exact .absent
  | keyStore | stop | restart => cases ha

/-- No step does more to a session than the list says. -/
theorem World.turn_step (i : Input ε) (hi : SameConnection session w i)
    (hfit : ∀ conn, w.connections[session]? = some conn → conn.TasksFit) :
    Turn verify (w.lookups session) w.connections[session]? (w.step verify hash i).1.connections[session]?
      (w.taken session i) (dispatchedBy session (w.step verify hash i).2) (w.made session i) := by
  by_cases ha : i.actor = some session
  · cases hconn : w.connections[session]? with
    | none => exact w.turn_absent session verify hash i ha hi hconn
    | some conn =>
      cases i with
      | accept s => exact absurd (Option.some_inj.mp ha) hi
      | recv s chunk =>
        obtain rfl := Option.some_inj.mp ha
        exact w.turn_recv s verify chunk conn hconn
      | hangup s =>
        obtain rfl := Option.some_inj.mp ha
        exact w.turn_hangup s verify conn hconn
      | thread s faults =>
        obtain rfl := Option.some_inj.mp ha
        exact w.turn_thread s verify hash faults conn hconn (hfit conn hconn)
      | keyStore | stop | restart => cases ha
  · obtain ⟨hconn, hitems, htaken, hmade⟩ := w.untouched_step session verify hash i ha hi
    rw [hconn, hitems, htaken, hmade]
    exact .same verify _ _

end Turns

section Plays

variable (verify : Verify)

/-- What a session in its receive loop has done so far is what its items say, one after the other,
and its items are the first ones in its bytes. `made` are the calls its thread has made. -/
structure Plays (conn : Connection) (bytes : Bytes) (items : List (KeyLookups × Dispatch))
    (made : List Call) : Prop where
  reads : conn.toReceiver.Follows bytes (items.map Prod.snd)
  state : conn.toSession =
    { (Session.handleAll verify {} items).1 with toReceiver := conn.toReceiver }
  inLoop : conn.closing = false →
    made ++ conn.pending.flatMap Task.calls = (Session.handleAll verify {} items).2
  behindLoop : conn.closing = true → conn.next = none ∧
    conn.Leaves (Session.handleAll verify {} items).2 (made ++ conn.pending.flatMap Task.calls)

/-- The same of a session that is gone: it has read all its bytes and has made all its calls. -/
structure Played (bytes : Bytes) (items : List (KeyLookups × Dispatch)) (made : List Call) :
    Prop where
  reads : (Receiver.greedy bytes).1 = items.map Prod.snd
  calls : (Session.handleAll verify {} items).1.Leaves (Session.handleAll verify {} items).2 made

/-- What is known of a session from its beginning on. -/
def Tracks (oc : Option Connection) (bytes : Bytes) (items : List (KeyLookups × Dispatch))
    (made : List Call) : Prop :=
  match oc with
  | none => Played verify bytes items made
  | some conn => Plays verify conn bytes items made

theorem plays_fresh : Plays verify {} [] [] [] where
  reads := Receiver.follows_fresh
  state := rfl
  inLoop := fun _ => rfl
  behindLoop := fun h => Bool.noConfusion h

theorem calls_map_call (calls : List Call) : (calls.map Task.call).flatMap Task.calls = calls := by
  rw [List.flatMap_map]
  exact List.flatMap_singleton' calls

variable {verify} {conn : Connection} {bytes : Bytes} {items : List (KeyLookups × Dispatch)}
  {made : List Call}

theorem Plays.received (h : Plays verify conn bytes items made) (chunk : Bytes) (r : Receiver)
    (hr : conn.receive chunk = some r) (hopen : conn.closing = false) :
    Plays verify { conn with toReceiver := r } (bytes ++ chunk) items made where
  reads := h.reads.receive chunk hr
  state := by
    have hstate := h.state
    change { conn.toSession with toReceiver := r } = _
    rw [hstate]
  inLoop := h.inLoop
  behindLoop := fun hc => absurd hc (by rw [hopen]; exact Bool.false_ne_true)

theorem Plays.leaving (h : Plays verify conn bytes items made) (calls : List Call)
    (hw : World.waiting conn = true) (hcalls : calls = conn.exitCalls ∨ calls = conn.overflowCalls) :
    Plays verify { conn with pending := calls.map .call, closing := true } bytes items made := by
  obtain ⟨hp, hopen, hnext⟩ := (waiting_iff conn).mp hw
  -- all calls of its items are made
  have hdone := h.inLoop hopen
  rw [hp, List.flatMap_nil, List.append_nil] at hdone
  refine ⟨h.reads, h.state, fun hc => Bool.noConfusion hc, fun _ => ⟨hnext, ?_⟩⟩
  dsimp only
  rw [calls_map_call, hdone]
  rcases hcalls with rfl | rfl
  · exact Or.inl rfl
  · exact Or.inr rfl

theorem Plays.worked (h : Plays verify conn bytes items made) (task : Task) (rest next : List Task)
    (hp : conn.pending = task :: rest) (hnext : next.flatMap Task.calls = []) :
    Plays verify { conn with pending := next ++ rest } bytes items (made ++ task.calls) := by
  -- the call has gone from those to make to those made
  have hsame : made ++ task.calls ++ (next ++ rest).flatMap Task.calls =
      made ++ conn.pending.flatMap Task.calls := by
    calc made ++ task.calls ++ (next ++ rest).flatMap Task.calls
        = made ++ (task.calls ++ rest.flatMap Task.calls) := by
          rw [List.flatMap_append, hnext, List.nil_append, List.append_assoc]
      _ = made ++ conn.pending.flatMap Task.calls := by rw [hp, List.flatMap_cons]
  refine ⟨h.reads, h.state, fun hc => ?_, fun hc => ?_⟩
  · exact hsame.trans (h.inLoop hc)
  · obtain ⟨hidle, hleaves⟩ := h.behindLoop hc
    exact ⟨hidle, hsame ▸ hleaves⟩

theorem Plays.dispatched (h : Plays verify conn bytes items made) (keys : KeyLookups)
    (item : Dispatch) (r : Receiver) (hp : conn.pending = []) (hopen : conn.closing = false)
    (hnext : conn.next = some (item, r)) :
    Plays verify { conn with
        toSession := (Session.handle verify keys { conn.toSession with toReceiver := r } item).1
        pending := (Session.handle verify keys
          { conn.toSession with toReceiver := r } item).2.map .call } bytes (items ++ [(keys, item)])
      made := by
  have hdone := h.inLoop hopen
  rw [hp, List.flatMap_nil, List.append_nil] at hdone
  -- the handler sees the session that the items before have left
  have hhandle : Session.handle verify keys { conn.toSession with toReceiver := r } item =
      ({ (Session.handleAll verify {} (items ++ [(keys, item)])).1 with toReceiver := r },
        (Session.handle verify keys (Session.handleAll verify {} items).1 item).2) := by
    have hstate : ({ conn.toSession with toReceiver := r } : Session) =
        { (Session.handleAll verify {} items).1 with toReceiver := r } := by
      rw [h.state]
    rw [hstate, Session.handle_receiver, Session.handleAll_append]
    rfl
  rw [hhandle]
  refine ⟨?_, rfl, fun _ => ?_, fun hc => ?_⟩
  · rw [List.map_append]
    exact h.reads.next item hnext
  · dsimp only
    rw [calls_map_call, hdone, Session.handleAll_append, Session.handleAll, Session.handleAll,
      List.append_nil]
  · exact absurd hc (by rw [hopen]; exact Bool.false_ne_true)

theorem Plays.gone (h : Plays verify conn bytes items made) (hp : conn.pending = [.call .removeSession])
    (hclosing : conn.closing = true) : Played verify bytes items (made ++ [.removeSession]) := by
  obtain ⟨hidle, hleaves⟩ := h.behindLoop hclosing
  rw [hp] at hleaves
  refine ⟨congrArg Prod.fst (h.reads.greedy_of_idle hidle), ?_⟩
  rw [h.state] at hleaves
  exact hleaves

/-- One step of the system. -/
theorem Tracks.turn {keys : KeyLookups} {oc oc' : Option Connection} {more : Bytes}
    {items' : List (KeyLookups × Dispatch)} {calls : List Call}
    (h : Tracks verify oc bytes items made) (ht : Turn verify keys oc oc' more items' calls) :
    Tracks verify oc' (bytes ++ more) (items ++ items') (made ++ calls) := by
  cases ht with
  | absent | idle =>
    simp only [List.append_nil]
    exact h
  | received conn chunk r hw hr =>
    simp only [List.append_nil]
    exact Plays.received h more r hr ((waiting_iff conn).mp hw).2.1
  | leaving conn tasks hw hcalls =>
    simp only [List.append_nil]
    exact Plays.leaving h tasks hw hcalls
  | worked conn task rest next hp hnext =>
    simp only [List.append_nil]
    exact Plays.worked h task rest next hp hnext
  | dispatched conn item r hp hopen hnext =>
    simp only [List.append_nil]
    exact Plays.dispatched h keys item r hp hopen hnext
  | gone conn hp hclosing =>
    simp only [List.append_nil]
    exact Plays.gone h hp hclosing

end Plays

end MetricMQ
