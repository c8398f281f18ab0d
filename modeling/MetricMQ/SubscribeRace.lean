import MetricMQ.Replay
import MetricMQ.SetTable

/-! One anonymous subscription beside publishes on its topic. The session is a subscriber before
its history is read, and the history is sent outside the broker mutex; the steps are those
of `World`. -/
namespace MetricMQ

open ByteString Std Machine

/-- The broker, what the subscribing thread has still to do, and whether a publish has reached
the session. -/
structure SubscribeRace where
  broker : Broker ContractStore
  pending : List Task
  live : Bool := false

namespace SubscribeRace

inductive Input
  | subscriber
  | publish (payload : Bytes)

/-- Before the call of `Broker::subscribe`. -/
def start (b : Broker ContractStore) (topic : Bytes) : SubscribeRace :=
  { broker := b, pending := [.call (.subscribe topic)] }

/-- The broker numbers of what is sent to a session. -/
def numbersTo (session : SessionId) (outs : List Output) : List UInt64 :=
  outs.filterMap fun o =>
    match o with
    | .sent s _ _ seq => if s = session then seq else none
    | _ => none

/-- The locked insertion, the load and each send of the replay are steps of their own; a
publish is one. A step puts out the numbers of the messages the session is sent. -/
def step (hash : HashOrder) (session : SessionId) (topic : Bytes) (st : SubscribeRace) :
    Input → SubscribeRace × List UInt64
  | .subscriber =>
    match st.pending with
    | [] => (st, [])
    | task :: rest =>
      let w : World ContractStore := { broker := st.broker }
      let r := w.exec hash ⟨⟨(), (), ()⟩, ()⟩ session task
      ({ st with broker := r.1, pending := w.followUp task ++ rest }, numbersTo session r.2)
  | .publish payload =>
    let r := st.broker.publish ⟨(), (), ()⟩ topic payload
    -- one number for each write to the session
    ({ st with broker := r.1, live := st.live || r.2.2.contains session },
      List.replicate (r.2.2.count session) r.2.1)

/-- At most once and in ascending order. -/
def InOrder (numbers : List UInt64) : Prop := numbers.Pairwise (· < ·)

/-- No message of the replay is sent behind a live one, no publish on the wildcard topic finds
the session subscribed, and the counter does not wrap around. -/
def ReplayFirst (topic : Bytes) (st : SubscribeRace) : Input → Prop
  | .subscriber =>
    match st.pending with
    | .sendStored _ :: _ => st.live = false
    | _ => True
  | .publish _ => st.broker.currentSequence.toNat + 1 < 2 ^ 64 ∧
      (st.pending = [.call (.subscribe topic)] ∨ topic ≠ lit "#")

instance decidableReplayFirst (topic : Bytes) (st : SubscribeRace) :
    DecidablePred (ReplayFirst topic st)
  | .subscriber => by
    unfold ReplayFirst
    exact match st.pending with
      | .sendStored _ :: _ => inferInstanceAs (Decidable (st.live = false))
      | [] | .call _ :: _ | .replayMessages _ _ :: _ | .loadUnacked _ _ _ :: _
      | .sendUnacked _ _ :: _ => isTrue trivial
  | .publish _ => inferInstanceAs (Decidable (_ ∧ (_ ∨ _)))

section Store

variable (b : Broker ContractStore)

theorem holds_compact (s : ContractStore) (t : UInt64) (m : StoredMessage) :
    (s.compact t).Holds m ↔ s.Holds m ∧ t < m.seq := by
  rw [ContractStore.Holds, ContractStore.compact]
  dsimp only
  rw [SortedCursor.getElem?_eraseAll, ContractStore.Holds]
  split_ifs with hm
  · refine iff_of_false (by simp) fun h => ?_
    have hle := of_decide_eq_true (List.mem_filter.mp hm).2
    exact absurd h.2 (Std.not_lt.mpr hle)
  · refine ⟨fun h => ⟨h, ?_⟩, And.left⟩
    by_contra hle
    refine hm (List.mem_filter.mpr ⟨?_, decide_eq_true (Std.not_lt.mp hle)⟩)
    rw [TreeMap.mem_keys, TreeMap.mem_iff_isSome_getElem?, h]
    rfl

/-- A publish adds its record, over an old one of the same number, and removes what the
compaction is for. -/
theorem holds_publish_iff (topic payload : Bytes) (ho : b.persistence = true) (m : StoredMessage) :
    (b.publish ⟨(), (), ()⟩ topic payload).1.db.Holds m ↔
      (if m.seq = b.currentSequence + 1 then m.topic = topic ∧ m.payload = payload else b.db.Holds m) ∧
      ((b.publishCount + 1) % compactEvery = 0 ∧ maxStoredMessages < b.currentSequence + 1 →
        b.currentSequence + 1 - maxStoredMessages < m.seq) := by
  have hsaved : (b.savedDb ⟨(), (), ()⟩ topic payload).Holds m ↔
      if m.seq = b.currentSequence + 1 then m.topic = topic ∧ m.payload = payload
      else b.db.Holds m := by
    rw [Broker.savedDb, if_pos ho]
    change (b.db.messages.insert (b.currentSequence + 1) (topic, payload))[m.seq]? = _ ↔ _
    rw [TreeMap.getElem?_insert]
    by_cases he : m.seq = b.currentSequence + 1
    · rw [if_pos (by rw [he]; exact ReflCmp.compare_self), if_pos he, Option.some_inj, Prod.mk.injEq,
        eq_comm, @eq_comm _ payload]
    · rw [if_neg (by rw [LawfulEqCmp.compare_eq_iff_eq]; exact Ne.symm he), if_neg he]
      rfl
  rw [← hsaved, Broker.publish_db, Broker.persist_db _ _ _ _ ho]
  split_ifs with hdue
  · change ((b.savedDb ⟨(), (), ()⟩ topic payload).compact _).Holds m ↔ _
    rw [holds_compact]
    exact and_congr_right fun _ => ⟨fun h _ => h, fun h => h hdue⟩
  · exact ⟨fun h => ⟨h, fun hh => absurd hh hdue⟩, And.left⟩

theorem publish_closed (topic payload : Bytes) (h : b.persistence = false) :
    (b.publish ⟨(), (), ()⟩ topic payload).1.db = b.db := by
  rw [Broker.publish_db]
  obtain ⟨db, hp, rfl | ⟨ho, -⟩⟩ := b.persist_cases ⟨(), (), ()⟩ topic payload
  · rw [hp, Broker.savedDb, h]
    rfl
  · rw [h] at ho
    cases ho

theorem holds_publish (topic payload : Bytes) (m : StoredMessage)
    (h : (b.publish ⟨(), (), ()⟩ topic payload).1.db.Holds m) :
    b.db.Holds m ∨ m.seq = b.currentSequence + 1 := by
  cases ho : b.persistence with
  | false =>
    rw [publish_closed b topic payload ho] at h
    exact Or.inl h
  | true =>
    have hold := ((holds_publish_iff b topic payload ho m).mp h).1
    split_ifs at hold with he
    · exact Or.inr he
    · exact Or.inl hold

/-- The history of a topic comes in ascending order. -/
theorem inOrder_replayMessages (topic : Bytes) (fromSeq : UInt64) :
    InOrder ((b.replayMessages topic fromSeq).map StoredMessage.seq) := by
  rw [InOrder, Broker.replayMessages]
  split_ifs
  · have hk : b.db.messages.toList.Pairwise fun x y => x.1 < y.1 := by
      apply (TreeMap.ordered_keys_toList (t := b.db.messages)).imp
      exact fun hab => Std.compare_eq_lt.mp hab
    have hl : (b.db.loadRange fromSeq (fromSeq + maxStoredMessages)).Pairwise
        fun x y => x.seq < y.seq := List.pairwise_map.mpr (hk.filter _)
    exact List.pairwise_map.mpr (hl.filter _)
  · exact List.Pairwise.nil

end Store

section Recipients

variable (b : Broker ContractStore) (session : SessionId) (topic : Bytes)

theorem subscribersOf_addSubscriber :
    (b.addSubscriber session topic).subscribersOf topic =
      ((b.topicSubscribers.getD topic ∅).insert session).toList := by
  simp [Broker.subscribersOf, Broker.addSubscriber]

theorem subscribersOf_addSubscriber_ne (t : Bytes) (h : topic ≠ t) :
    (b.addSubscriber session topic).subscribersOf t = b.subscribersOf t := by
  simp only [Broker.subscribersOf, Broker.addSubscriber]
  rw [TreeMap.getElem?_insert, if_neg (by simpa using h)]

theorem count_toList (s : TreeSet SessionId) (h : session ∈ s) : s.toList.count session = 1 :=
  List.count_eq_one_of_mem (SetTable.nodup_toList s) (TreeSet.mem_toList.mpr h)

/-- How often a publish on the topic is written to a session subscribed to it alone. -/
def deliveries (topic : Bytes) : ℕ := if topic = lit "#" then 2 else 1

theorem count_recipients_addSubscriber (h : session ∉ b.recipients topic) :
    ((b.addSubscriber session topic).recipients topic).count session = deliveries topic := by
  have hmem : session ∈ (b.topicSubscribers.getD topic ∅).insert session := TreeSet.mem_insert_self
  rw [Broker.recipients, List.count_append, subscribersOf_addSubscriber, count_toList session _ hmem,
    deliveries]
  split_ifs with ht
  · rw [← ht, subscribersOf_addSubscriber, count_toList session _ hmem]
  · rw [subscribersOf_addSubscriber_ne b session topic _ ht, List.count_eq_zero_of_not_mem]
    exact fun hm => h (List.mem_append_right _ hm)

end Recipients

section Steps

variable {hash : HashOrder} {session : SessionId} {topic : Bytes} {st : SubscribeRace}

theorem step_insert (h : st.pending = [.call (.subscribe topic)]) :
    step hash session topic st .subscriber =
      ({ st with
        broker := st.broker.addSubscriber session topic
        pending := [.replayMessages topic 0] }, []) := by
  simp only [step, h]
  rfl

theorem step_load (h : st.pending = [.replayMessages topic 0]) :
    step hash session topic st .subscriber =
      ({ st with pending := (st.broker.replayMessages topic 0).map .sendStored }, []) := by
  simp only [step, h, World.followUp, List.append_nil]
  rfl

theorem step_send (m : StoredMessage) (ms : List StoredMessage)
    (h : st.pending = (m :: ms).map .sendStored) :
    step hash session topic st .subscriber =
      ({ st with pending := ms.map .sendStored }, [m.seq]) := by
  simp only [step, h, List.map_cons]
  simp [World.exec, World.followUp, numbersTo]

theorem step_done (h : st.pending = []) : step hash session topic st .subscriber = (st, []) := by
  simp only [step, h]

theorem step_publish (payload : Bytes) :
    step hash session topic st (.publish payload) =
      ({ st with
        broker := (st.broker.publish ⟨(), (), ()⟩ topic payload).1
        live := st.live || (st.broker.recipients topic).contains session },
      List.replicate ((st.broker.recipients topic).count session) (st.broker.currentSequence + 1)) := by
  simp only [step, Broker.publish_seq, (st.broker.publish_recipients _ topic payload).1]

/-- Where the subscription stands, and how what is still to come relates to what was sent. -/
inductive Stage (session : SessionId) (topic : Bytes) (st : SubscribeRace) (outs : List UInt64) : Prop
  | waiting (hp : st.pending = [.call (.subscribe topic)]) (hout : outs = []) (hlive : st.live = false)
      (hfresh : session ∉ st.broker.recipients topic)
  | inserted (hp : st.pending = [.replayMessages topic 0])
      (hcount : (st.broker.recipients topic).count session = deliveries topic)
      (hquiet : st.live = false → outs = [])
      (hloud : st.live = true → st.broker.currentSequence ∈ outs)
  | replaying (ms : List StoredMessage) (hp : st.pending = ms.map .sendStored)
      (hcount : (st.broker.recipients topic).count session = deliveries topic)
      (horder : InOrder (ms.map StoredMessage.seq)) (hbelow : ∀ m ∈ ms, m.seq ≤ st.broker.currentSequence)
      (hquiet : st.live = false → ∀ n ∈ outs, ∀ m ∈ ms, n < m.seq)
      (hloud : st.live = true → ∃ n ∈ outs, ∀ m ∈ ms, m.seq ≤ n)

structure Inv (session : SessionId) (topic : Bytes) (st : SubscribeRace) (outs : List UInt64) : Prop where
  stored : ∀ m, st.broker.db.Holds m → m.seq ≤ st.broker.currentSequence
  inOrder : InOrder outs
  below : ∀ n ∈ outs, n ≤ st.broker.currentSequence
  stage : Stage session topic st outs

theorem inOrder_snoc (outs : List UInt64) (n : UInt64) :
    InOrder (outs ++ [n]) ↔ InOrder outs ∧ ∀ a ∈ outs, a < n := by
  rw [InOrder, List.pairwise_append]
  simp [InOrder]

theorem inv_subscriber (outs : List UInt64) (h : Inv session topic st outs)
    (hok : ReplayFirst topic st .subscriber) :
    Inv session topic (step hash session topic st .subscriber).1
      (outs ++ (step hash session topic st .subscriber).2) := by
  cases h.stage with
  | waiting hp hout hlive hfresh =>
    -- from here on every publish on the topic reaches the session
    rw [step_insert hp, List.append_nil]
    refine ⟨h.stored, h.inOrder, h.below, .inserted rfl ?_ (fun _ => hout) ?_⟩
    · exact count_recipients_addSubscriber st.broker session topic hfresh
    · intro hl
      rw [hlive] at hl
      cases hl
  | inserted hp hcount hquiet hloud =>
    rw [step_load hp, List.append_nil]
    -- if a publish has come in between, its number is the newest of the history
    have hbelow : ∀ m ∈ st.broker.replayMessages topic 0, m.seq ≤ st.broker.currentSequence := by
      intro m hm
      exact h.stored m ((mem_replayMessages st.broker topic m).mp hm).2.1
    refine ⟨h.stored, h.inOrder, h.below, .replaying (st.broker.replayMessages topic 0) rfl hcount
      (inOrder_replayMessages st.broker topic 0) hbelow ?_ ?_⟩
    · intro hl n hn
      rw [hquiet hl] at hn
      cases hn
    · exact fun hl => ⟨st.broker.currentSequence, hloud hl, hbelow⟩
  | replaying ms hp hcount horder hbelow hquiet hloud =>
    cases ms with
    | nil =>
      rw [step_done hp, List.append_nil]
      exact h
    | cons m ms =>
      -- no live message is out yet, so everything sent so far is older history
      have hlive : st.live = false := by
        simpa only [ReplayFirst, hp, List.map_cons] using hok
      have hnew := hquiet hlive
      rw [InOrder, List.map_cons, List.pairwise_cons] at horder
      rw [step_send m ms hp]
      refine ⟨h.stored, ?_, ?_, .replaying ms rfl hcount horder.2
        (fun m' hm' => hbelow m' (List.mem_cons_of_mem m hm')) ?_ ?_⟩
      · exact (inOrder_snoc outs m.seq).mpr
          ⟨h.inOrder, fun n hn => hnew n hn m List.mem_cons_self⟩
      · intro n hn
        rcases List.mem_append.mp hn with hn | hn
        · exact h.below n hn
        · rw [List.mem_singleton.mp hn]
          exact hbelow m List.mem_cons_self
      · intro _ n hn m' hm'
        rcases List.mem_append.mp hn with hn | hn
        · exact hnew n hn m' (List.mem_cons_of_mem m hm')
        · rw [List.mem_singleton.mp hn]
          exact horder.1 _ (List.mem_map_of_mem hm')
      · intro hl
        rw [hlive] at hl
        cases hl

/-- A publish that finds the session subscribed to the topic alone reaches it once. -/
theorem step_publish_subscribed (payload : Bytes)
    (hcount : (st.broker.recipients topic).count session = deliveries topic)
    (ht : topic ≠ lit "#") :
    step hash session topic st (.publish payload) =
      ({ st with
        broker := (st.broker.publish ⟨(), (), ()⟩ topic payload).1
        live := true }, [st.broker.currentSequence + 1]) := by
  have hone : (st.broker.recipients topic).count session = 1 := by
    rw [hcount, deliveries, if_neg ht]
  have hmem : (st.broker.recipients topic).contains session = true := by
    rw [List.contains_iff_mem, ← List.count_pos_iff, hone]
    exact Nat.one_pos
  rw [step_publish, hone, hmem, Bool.or_true]
  rfl

/-- The record of a publish is the newest one. -/
theorem stored_publish (b : Broker ContractStore) (topic payload : Bytes)
    (hlt : b.currentSequence < b.currentSequence + 1)
    (h : ∀ m, b.db.Holds m → m.seq ≤ b.currentSequence) (m : StoredMessage)
    (hm : (b.publish ⟨(), (), ()⟩ topic payload).1.db.Holds m) :
    m.seq ≤ (b.publish ⟨(), (), ()⟩ topic payload).1.currentSequence := by
  rw [Broker.publish_currentSequence]
  rcases holds_publish b topic payload m hm with hm | hm
  · exact Std.le_trans (h m hm) (Std.le_of_lt hlt)
  · exact Std.le_of_eq hm

theorem lt_next (n : UInt64) (h : n.toNat + 1 < 2 ^ 64) : n < n + 1 := by
  rw [UInt64.lt_iff_toNat_lt, toNat_next n h]
  exact Nat.lt_succ_self _

theorem inv_publish (outs : List UInt64) (payload : Bytes) (h : Inv session topic st outs)
    (hok : ReplayFirst topic st (.publish payload)) :
    Inv session topic (step hash session topic st (.publish payload)).1
      (outs ++ (step hash session topic st (.publish payload)).2) := by
  have hlt := lt_next _ hok.1
  have hstored := stored_publish st.broker topic payload hlt h.stored
  have hnew : ∀ n ∈ outs, n < st.broker.currentSequence + 1 :=
    fun n hn => Std.lt_of_le_of_lt (h.below n hn) hlt
  have hkept := (st.broker.publish_recipients ⟨(), (), ()⟩ topic payload).2 topic
  -- a live message is numbered above everything sent before
  have horder := (inOrder_snoc outs _).mpr ⟨h.inOrder, hnew⟩
  have hbelow : ∀ n ∈ outs ++ [st.broker.currentSequence + 1],
      n ≤ (st.broker.publish ⟨(), (), ()⟩ topic payload).1.currentSequence := by
    intro n hn
    rw [Broker.publish_currentSequence]
    rcases List.mem_append.mp hn with hn | hn
    · exact Std.le_of_lt (hnew n hn)
    · exact Std.le_of_eq (List.mem_singleton.mp hn)
  cases h.stage with
  | waiting hp hout hlive hfresh =>
    -- not a subscriber yet: the history will have the message
    have hcontains : (st.broker.recipients topic).contains session = false := by
      simpa using hfresh
    rw [step_publish, List.count_eq_zero_of_not_mem hfresh, hcontains, hlive, List.replicate_zero,
      List.append_nil]
    refine ⟨hstored, h.inOrder, ?_, .waiting hp hout rfl ?_⟩
    · rw [hout]
      simp
    · rw [hkept]
      exact hfresh
  | inserted hp hcount hquiet hloud =>
    have ht : topic ≠ lit "#" := hok.2.resolve_left (by rw [hp]; simp)
    rw [step_publish_subscribed payload hcount ht]
    refine ⟨hstored, horder, hbelow, .inserted hp ?_ ?_ ?_⟩
    · rw [hkept]
      exact hcount
    · intro hl
      cases hl
    · intro _
      rw [Broker.publish_currentSequence]
      exact List.mem_append_right _ (List.mem_singleton.mpr rfl)
  | replaying ms hp hcount hms hmsbelow hquiet hloud =>
    have ht : topic ≠ lit "#" := by
      apply hok.2.resolve_left
      rw [hp]
      cases ms <;> simp
    rw [step_publish_subscribed payload hcount ht]
    have hmslt : ∀ m ∈ ms, m.seq ≤ st.broker.currentSequence + 1 :=
      fun m hm => Std.le_of_lt (Std.lt_of_le_of_lt (hmsbelow m hm) hlt)
    refine ⟨hstored, horder, hbelow, .replaying ms hp ?_ hms ?_ ?_ ?_⟩
    · rw [hkept]
      exact hcount
    · rw [Broker.publish_currentSequence]
      exact hmslt
    · intro hl
      cases hl
    · exact fun _ => ⟨_, List.mem_append_right _ (List.mem_singleton.mpr rfl), hmslt⟩

theorem inv_step (outs : List UInt64) (i : Input) (h : Inv session topic st outs)
    (hok : ReplayFirst topic st i) :
    Inv session topic (step hash session topic st i).1 (outs ++ (step hash session topic st i).2) := by
  cases i with
  | subscriber => exact inv_subscriber outs h hok
  | publish payload => exact inv_publish outs payload h hok

end Steps

section Reached

/-- No publish of the run lets the counter wrap around. -/
def CounterFits (b : Broker ContractStore) : BrokerOp → Prop
  | .publish _ _ => b.currentSequence.toNat + 1 < 2 ^ 64
  | _ => True

instance decidableCounterFits (b : Broker ContractStore) : DecidablePred (CounterFits b)
  | .publish _ _ => inferInstanceAs (Decidable (_ < _))
  | .accept _ | .subscribe _ _ | .unsubscribe _ _ | .handleAck _ _ | .registerClient _ _
  | .unregisterClient _ | .removeSession _ | .stop | .restart => isTrue trivial

/-- The store holds no record above its own counter, and that one is not ahead of the broker's. -/
structure Numbered (b : Broker ContractStore) : Prop where
  stored : ∀ m, b.db.Holds m → m.seq ≤ b.db.lastSeq
  counted : b.db.lastSeq ≤ b.currentSequence

variable {b : Broker ContractStore}

theorem Numbered.of_frame (b' : Broker ContractStore) (h : Numbered b)
    (hmessages : b'.db.messages = b.db.messages) (hlast : b'.db.lastSeq = b.db.lastSeq)
    (hseq : b'.currentSequence = b.currentSequence) : Numbered b' := by
  refine ⟨?_, ?_⟩
  · intro m hm
    rw [ContractStore.Holds, hmessages] at hm
    rw [hlast]
    exact h.stored m hm
  · rw [hlast, hseq]
    exact h.counted

theorem persist_lastSeq (b : Broker ContractStore) (topic payload : Bytes) :
    (b.persist ⟨(), (), ()⟩ topic payload).db.lastSeq =
      if b.persistence then b.currentSequence + 1 else b.db.lastSeq := by
  have hsaved : (b.savedDb ⟨(), (), ()⟩ topic payload).lastSeq =
      if b.persistence then b.currentSequence + 1 else b.db.lastSeq := by
    rw [Broker.savedDb]
    split_ifs <;> rfl
  obtain ⟨db, hp, rfl | ⟨-, -, rfl⟩⟩ := b.persist_cases ⟨(), (), ()⟩ topic payload
  · rw [hp, ← hsaved]
  · rw [hp, ← hsaved]
    rfl

theorem numbered_publish (topic payload : Bytes) (h : Numbered b)
    (hfit : b.currentSequence.toNat + 1 < 2 ^ 64) :
    Numbered (b.publish ⟨(), (), ()⟩ topic payload).1 := by
  have hlt := lt_next _ hfit
  cases ho : b.persistence with
  | false =>
    -- without storage only the counter in memory goes on
    refine ⟨?_, ?_⟩
    · rw [publish_closed b topic payload ho]
      exact h.stored
    · rw [publish_closed b topic payload ho, Broker.publish_currentSequence]
      exact Std.le_trans h.counted (Std.le_of_lt hlt)
  | true =>
    refine ⟨?_, ?_⟩
    · intro m hm
      rw [Broker.publish_db, persist_lastSeq, ho, if_pos rfl]
      rcases holds_publish b topic payload m hm with hm | hm
      · exact Std.le_trans (Std.le_trans (h.stored m hm) h.counted) (Std.le_of_lt hlt)
      · exact Std.le_of_eq hm
    · rw [Broker.publish_db, persist_lastSeq, ho, if_pos rfl, Broker.publish_currentSequence]
      exact Std.le_refl _

theorem numbered_handleAck (c : Bytes) (n : UInt64) (h : Numbered b) :
    Numbered (b.handleAck () c n) := by
  apply h.of_frame
  · rw [Broker.handleAck]
    dsimp only
    split_ifs <;> rfl
  · rw [Broker.handleAck]
    dsimp only
    split_ifs <;> rfl
  · rfl

theorem numbered_perform (hash : HashOrder) (m : Method Unit) (hm : m.touchesStore = false)
    (h : Numbered b) : Numbered (b.perform hash m) := by
  obtain ⟨hdb, hseq⟩ := b.perform_store hash m hm
  exact h.of_frame _ (by rw [hdb]) (by rw [hdb]) hseq

theorem numbered_step {hash : HashOrder} (op : BrokerOp) (h : Numbered b) (hfit : CounterFits b op) :
    Numbered (BrokerOp.step hash b op).1 := by
  cases op with
  | publish topic payload => exact numbered_publish topic payload h hfit
  | handleAck c n => exact numbered_handleAck c n h
  | accept session => exact numbered_perform hash (.accept session) rfl h
  | subscribe session topic => exact numbered_perform hash (.subscribe session topic) rfl h
  | unsubscribe session topic => exact numbered_perform hash (.unsubscribe session topic) rfl h
  | registerClient c session => exact numbered_perform hash (.registerClient c session) rfl h
  | unregisterClient c => exact numbered_perform hash (.unregisterClient c) rfl h
  | removeSession session => exact numbered_perform hash (.removeSession session) rfl h
  | stop => exact numbered_perform hash .stop rfl h
  | restart => exact ⟨h.stored, Std.le_refl _⟩

theorem numbered_reach (hash : HashOrder) (ops : List BrokerOp)
    (hops : Meets (BrokerOp.step hash) CounterFits (Broker.start ContractStore.empty) ops) :
    Numbered (BrokerOp.reach hash ops).1 := by
  have hinit : Numbered (Broker.start ContractStore.empty) := by
    refine ⟨?_, Std.le_refl _⟩
    intro m hm
    rw [ContractStore.Holds] at hm
    simp [Broker.start, ContractStore.empty] at hm
  exact run_invariant (fun b _ => Numbered b) (fun b _ op h hfit => numbered_step op h hfit) _ [] ops
    hinit hops

end Reached

section Runs

variable (hash : HashOrder) (session : SessionId) (topic : Bytes)

theorem inv_start (ops : List BrokerOp)
    (hops : Meets (BrokerOp.step hash) CounterFits (Broker.start ContractStore.empty) ops)
    (hfresh : session ∉ (BrokerOp.reach hash ops).1.recipients topic) :
    Inv session topic (start (BrokerOp.reach hash ops).1 topic) [] := by
  have hn := numbered_reach hash ops hops
  refine ⟨?_, List.Pairwise.nil, ?_, .waiting rfl rfl rfl hfresh⟩
  · exact fun m hm => Std.le_trans (hn.stored m hm) hn.counted
  · intro n hn
    cases hn

/-- A publish in the run does not let the counter wrap around. -/
def NoWrap (st : SubscribeRace) : Input → Prop
  | .subscriber => True
  | .publish _ => st.broker.currentSequence.toNat + 1 < 2 ^ 64

variable {hash session topic}

theorem replayFirst_of_inOrder {st : SubscribeRace} (outs : List UInt64) (i : Input)
    (h : Inv session topic st outs) (hw : NoWrap st i)
    (ho : InOrder (outs ++ (step hash session topic st i).2)) : ReplayFirst topic st i := by
  cases i with
  | subscriber =>
    cases h.stage with
    | waiting hp => simp only [ReplayFirst, hp]
    | inserted hp => simp only [ReplayFirst, hp]
    | replaying ms hp _ _ _ _ hloud =>
      cases ms with
      | nil => simp only [ReplayFirst, hp, List.map_nil]
      | cons m ms =>
        simp only [ReplayFirst, hp, List.map_cons]
        cases hlive : st.live with
        | false => rfl
        | true =>
          -- the message was sent live, or one behind it was
          obtain ⟨n, hn, hle⟩ := hloud hlive
          rw [step_send m ms hp] at ho
          have hlt := ((inOrder_snoc outs m.seq).mp ho).2 n hn
          exact absurd (hle m List.mem_cons_self) (Std.not_le.mpr hlt)
  | publish payload =>
    refine ⟨hw, ?_⟩
    by_cases ht : topic = lit "#"
    · left
      -- subscribers of the wildcard topic are listed twice for it
      have htwice : (st.broker.recipients topic).count session ≠ deliveries topic := by
        intro hcount
        rw [step_publish, hcount, deliveries, if_pos ht, InOrder] at ho
        have hpair := (List.pairwise_append.mp ho).2.1
        simp at hpair
      cases h.stage with
      | waiting hp => exact hp
      | inserted _ hcount => exact absurd hcount htwice
      | replaying _ _ hcount => exact absurd hcount htwice
    · exact Or.inr ht

/-- The condition is exact: a run that leaves it sends a number twice or out of order. -/
theorem meets_replayFirst_of_inOrder {st : SubscribeRace} (outs : List UInt64) (is : List Input)
    (h : Inv session topic st outs) (hw : Meets (step hash session topic) NoWrap st is)
    (ho : InOrder (outs ++ (run (step hash session topic) st is).2)) :
    Meets (step hash session topic) (ReplayFirst topic) st is := by
  induction is generalizing st outs with
  | nil => trivial
  | cons i is ih =>
    rw [run, ← List.append_assoc] at ho
    have hfirst := replayFirst_of_inOrder outs i h hw.1 (List.pairwise_append.mp ho).1
    exact ⟨hfirst, ih _ (inv_step outs i h hfirst) hw.2 ho⟩

end Runs

end SubscribeRace

end MetricMQ
