import MetricMQ.PubSubRefinement
import MetricMQ.Resources

/-! The message counters of `metrics.cpp` after any run of one process, against what the run has
shown. -/
namespace MetricMQ

open ByteString Std Machine

section Counters

variable {σ ε : Type} [Storage σ ε]

/-- The counters of a process on the file `db` and what it has put out so far. All of them are
taken modulo two to the 64. -/
structure CountersMatch (db : σ) (b : Broker σ) (tr : List Output) : Prop where
  published : b.metrics.messagesPublishedTotal = UInt64.ofNat (publishedIn tr).length
  -- one for each message, however many sessions it is sent to
  delivered : b.metrics.messagesDeliveredTotal = b.metrics.messagesPublishedTotal
  topics : ∀ topic : Bytes, b.metrics.topicMessages[topic]? =
    if publishedOn topic tr = [] then none
    else some (UInt64.ofNat (publishedOn topic tr).length)
  numbers : b.currentSequence = Storage.getLastSeq db + b.metrics.messagesPublishedTotal

variable (verify : Verify) (hash : HashOrder)

/-- The counters that a call other than a publish leaves alone. -/
structure Broker.SameCounts (b b' : Broker σ) : Prop where
  published : b'.metrics.messagesPublishedTotal = b.metrics.messagesPublishedTotal
  delivered : b'.metrics.messagesDeliveredTotal = b.metrics.messagesDeliveredTotal
  topics : b'.metrics.topicMessages = b.metrics.topicMessages
  numbers : b'.currentSequence = b.currentSequence

theorem sameCounts_perform (b : Broker σ) (m : Method ε) (hm : ∀ f topic data, m ≠ .publish f topic data) :
    b.SameCounts (b.perform hash m) := by
  cases m with
  | publish f topic data => exact absurd rfl (hm f topic data)
  | accept session =>
    rcases b.accept_frame (ε := ε) hash session with h | h
    · rw [h]
      exact ⟨rfl, rfl, rfl, rfl⟩
    · rw [h]
      exact ⟨rfl, rfl, rfl, rfl⟩
  | registerClient c session =>
    obtain ⟨acks, marks, h⟩ := b.registerClient_frame hash c session
    rw [Broker.perform, h]
    exact ⟨rfl, rfl, rfl, rfl⟩
  | unsubscribe session topic =>
    obtain ⟨subs, total, gauges, active, topics, h⟩ := unsubscribe_frame b session topic
    rw [Broker.perform, h]
    exact ⟨rfl, rfl, rfl, rfl⟩
  | subscribe | handleAck | unregisterClient | removeSession | stop => exact ⟨rfl, rfl, rfl, rfl⟩

/-- What is published on a topic shows in what a session sees of the step. -/
theorem publishedOn_liveView (w : World σ) (i : Input ε) (topic : Bytes) :
    publishedOn topic (w.step verify hash i).2 =
      (liveView 0 (w.step verify hash i).2).filterMap fun e => match e with
        | .published t data n => if t = topic then some (data, n) else none
        | .delivered _ _ => none := by
  rcases w.step_outputs verify hash i with he | ⟨s, item, he⟩ |
    ⟨s, faults, conn, task, rest, -, -, -, he, -⟩
  · rw [he]
    rfl
  · rw [he]
    rfl
  · rw [he, liveView_exec, publishedOn_exec]
    cases task with
    | call call =>
      cases call with
      | publish t data =>
        by_cases ht : t = topic
        · simp [ht]
        · simp [ht]
      | registerClient | subscribe | unsubscribe | handleAck | unregisterClient | removeSession
      | replayMessagesForClient | send => rfl
    | replayMessages | loadUnacked | sendStored | sendUnacked => rfl

/-- A step shows the publish that it makes, and none if it makes none. -/
theorem published_of_methods (w : World σ) (i : Input ε) :
    (∃ f topic data, w.methods i = [.publish f topic data] ∧
      publishedIn (w.step verify hash i).2 = [(data, w.broker.currentSequence + 1)] ∧
      ∀ t, publishedOn t (w.step verify hash i).2 =
        if topic = t then [(data, w.broker.currentSequence + 1)] else []) ∨
    (∀ m ∈ w.methods i, ∀ f topic data, m ≠ .publish f topic data) ∧
      publishedIn (w.step verify hash i).2 = [] ∧
      ∀ t, publishedOn t (w.step verify hash i).2 = [] := by
  -- all that is published shows in what a session sees, whichever it is
  have hlog := logOf_liveView verify hash 0 w i
  have hon := publishedOn_liveView verify hash w i
  have hview := liveView_step verify hash w 0 i
  rcases w.methods_cases i with he | ⟨m, he⟩
  · right
    rw [he] at hview ⊢
    rw [hview] at hlog
    refine ⟨fun m hm => absurd hm List.not_mem_nil, hlog.symm, fun t => ?_⟩
    rw [hon, hview]
    rfl
  · rw [he] at hview ⊢
    cases m with
    | publish f topic data =>
      left
      dsimp only at hview
      refine ⟨f, topic, data, rfl, ?_, fun t => ?_⟩
      · rw [← hlog, hview, PubSub.logOf, List.filterMap_cons, List.filterMap_replicate]
      · rw [hon, hview]
        by_cases ht : topic = t
        · simp [ht]
        · simp [ht]
    | accept | subscribe | unsubscribe | handleAck | registerClient | unregisterClient
    | removeSession | stop =>
      right
      rw [hview] at hlog
      refine ⟨fun m hm f topic data hp => ?_, hlog.symm, fun t => ?_⟩
      · rw [List.mem_singleton.mp hm] at hp
        cases hp
      · rw [hon, hview]
        rfl

theorem length_snoc {α : Type} (l : List α) (a : α) :
    UInt64.ofNat (l ++ [a]).length = UInt64.ofNat l.length + 1 := by
  rw [List.length_append, List.length_singleton, UInt64.ofNat_add]
  rfl

/-- A publish counts once in all three places. -/
theorem countersMatch_publish (db : σ) (b : Broker σ) (tr outs : List Output) (f : PublishFaults ε)
    (topic data : Bytes) (h : CountersMatch db b tr)
    (hpublished : publishedIn outs = [(data, b.currentSequence + 1)])
    (hon : ∀ t, publishedOn t outs = if topic = t then [(data, b.currentSequence + 1)] else []) :
    CountersMatch db (b.publish f topic data).1 (tr ++ outs) := by
  obtain ⟨db', he⟩ := b.publish_frame f topic data
  rw [he]
  refine ⟨?_, ?_, fun t => ?_, ?_⟩
  · change b.metrics.messagesPublishedTotal + 1 = _
    rw [publishedIn, List.filterMap_append, ← publishedIn, ← publishedIn, hpublished, length_snoc,
      h.published]
  · change b.metrics.messagesDeliveredTotal + 1 = b.metrics.messagesPublishedTotal + 1
    rw [h.delivered]
  · change (b.metrics.topicMessages.insert topic (b.metrics.topicMessages.getD topic 0 + 1))[t]? = _
    rw [publishedOn_append, hon, TreeMap.getElem?_insert]
    by_cases ht : topic = t
    · -- the count of a topic that is new starts at zero
      subst ht
      have hcount : b.metrics.topicMessages.getD topic 0 = UInt64.ofNat (publishedOn topic tr).length := by
        rw [TreeMap.getD_eq_getD_getElem?, h.topics]
        split_ifs with hnone
        · rw [hnone]
          rfl
        · rfl
      rw [if_pos ReflCmp.compare_self, if_pos rfl, length_snoc, hcount, if_neg (by simp)]
    · rw [if_neg (by rwa [LawfulEqCmp.compare_eq_iff_eq]), if_neg ht, List.append_nil, h.topics]
  · change b.currentSequence + 1 = Storage.getLastSeq db + (b.metrics.messagesPublishedTotal + 1)
    rw [h.numbers, UInt64.add_assoc]

theorem countersMatch_step (db : σ) (w : World σ) (tr : List Output) (i : Input ε)
    (hlive : w.ConnectedLive) (h : CountersMatch db w.broker tr) (hi : NoRestart w i) :
    CountersMatch db (w.step verify hash i).1.broker (tr ++ (w.step verify hash i).2) := by
  rw [(World.step_methods verify hash w i hlive hi).2.1]
  rcases published_of_methods verify hash w i with
    ⟨f, topic, data, he, hpublished, hon⟩ | ⟨hm, hpublished, hon⟩
  · rw [he]
    exact countersMatch_publish db w.broker tr _ f topic data h hpublished hon
  · -- the trace has nothing new to count
    have hsame : ∀ t, publishedOn t (tr ++ (w.step verify hash i).2) = publishedOn t tr := by
      intro t
      rw [publishedOn_append, hon, List.append_nil]
    have hlog : publishedIn (tr ++ (w.step verify hash i).2) = publishedIn tr := by
      rw [publishedIn, List.filterMap_append, ← publishedIn, ← publishedIn, hpublished, List.append_nil]
    rcases w.methods_cases i with he | ⟨m, he⟩
    · rw [he, Broker.after_nil]
      refine ⟨by rw [hlog]; exact h.published, h.delivered, fun t => ?_, h.numbers⟩
      rw [hsame]
      exact h.topics t
    · have hcounts := sameCounts_perform hash w.broker m (hm m (by rw [he]; exact List.mem_cons_self))
      rw [he]
      change CountersMatch db (w.broker.perform hash m) _
      refine ⟨?_, ?_, fun t => ?_, ?_⟩
      · rw [hcounts.published, hlog]
        exact h.published
      · rw [hcounts.delivered, hcounts.published]
        exact h.delivered
      · rw [hcounts.topics, hsame]
        exact h.topics t
      · rw [hcounts.numbers, hcounts.published]
        exact h.numbers

theorem countersMatch_start (db : σ) : CountersMatch db (Broker.start db) [] where
  published := rfl
  delivered := rfl
  topics := fun topic => by simp [Broker.start, publishedOn]
  numbers := (UInt64.add_zero _).symm

/-- In every state of one process the counters are what the run has shown: the messages of every
topic, and the messages of all topics, which also give the last number. The deliveries are not
counted, but the messages once more. -/
theorem counters_match (db : σ) (is : List (Input ε))
    (h : Meets (World.step verify hash) NoRestart (World.start db) is) :
    CountersMatch db (run (World.step verify hash) (World.start db) is).1.broker
      (run (World.step verify hash) (World.start db) is).2 :=
  (run_invariant (fun w tr => w.ConnectedLive ∧ CountersMatch db w.broker tr)
    (fun w tr i hw hi => ⟨World.connectedLive_step verify hash w i hw.1,
      countersMatch_step verify hash db w tr i hw.1 hw.2 hi⟩) (World.start db) [] is
    ⟨World.connectedLive_start db, countersMatch_start db⟩ h).2

end Counters

/-- Two messages on one topic, one of them to two subscriptions of one session. -/
theorem counters_match_twice :
    (run (World.step (fun _ _ _ => true) World.insertionOrder) (World.start LmdbFile.empty)
      wildcardAndTopic).1.broker.metrics.topicMessages[lit "t"]? = some 1 := by
  rw [(counters_match (fun _ _ _ => true) World.insertionOrder LmdbFile.empty wildcardAndTopic
    (by decide)).topics]
  decide

end MetricMQ
