import MetricMQ.Authenticity

/-! Live delivery over whole runs: while a session is subscribed it is sent every message of its
topic in the order of the broker's numbers, and nothing is ever sent to a session that is not
connected, so the raw session pointers of the subscription table are never used after the
session is gone. -/
namespace MetricMQ

open ByteString Std Machine

/-- The messages published on a topic, with their numbers. -/
def publishedOn (topic : Bytes) (tr : List Output) : List (Bytes × UInt64) :=
  tr.filterMap fun o => match o with
    | .published _ t data n => if t = topic then some (data, n) else none
    | _ => none

/-- The messages a session was sent, live or replayed, with their numbers. -/
def messagesTo (session : SessionId) (tr : List Output) : List (Bytes × UInt64) :=
  tr.filterMap fun o => match o with
    | .sent s _ data (some n) => if s = session then some (data, n) else none
    | _ => none

section Steps

variable {σ ε : Type} [Storage σ ε] (verify : Verify) (hash : HashOrder) (w : World σ)

theorem publishedOn_exec (faults : Faults ε) (s : SessionId) (topic : Bytes) (task : Task) :
    publishedOn topic (w.exec hash faults s task).2 =
      match task with
      | .call (.publish t data) => if t = topic then [(data, w.broker.currentSequence + 1)] else []
      | _ => [] := by
  have hshown := w.shown_exec hash faults s task
  generalize (w.exec hash faults s task).2 = outs at hshown
  cases hshown with
  | nothing _ hpublish hsend =>
    split
    · exact absurd rfl (hpublish _ _)
    · rfl
  | published t data =>
    simp only [publishedOn, List.filterMap_cons, List.filterMap_map]
    split_ifs <;> simp
  | replied => rfl
  | replayed _ m htask => rcases htask with rfl | ⟨c, rfl⟩ <;> rfl

/-- What a step puts out is put out by a task of a connected session, or it is a dispatch. -/
theorem publishedOn_step (i : Input ε) (topic : Bytes)
    (h : publishedOn topic (w.step verify hash i).2 ≠ []) :
    ∃ s faults conn data rest, i = .thread s faults ∧
      w.connections[s]? = some conn ∧ conn.pending = .call (.publish topic data) :: rest ∧
      (w.step verify hash i).2 = (w.exec hash faults s (.call (.publish topic data))).2 := by
  rcases w.step_outputs verify hash i with he | ⟨s, item, he⟩ |
    ⟨s, faults, conn, task, rest, hi, hconn, hp, he, -⟩
  · rw [he] at h
    exact absurd rfl h
  · rw [he] at h
    exact absurd rfl h
  · rw [he, publishedOn_exec] at h
    split at h
    · split_ifs at h with ht
      · subst ht
        exact ⟨s, faults, conn, _, rest, hi, hconn, hp, he⟩
      · exact absurd rfl h
    · exact absurd rfl h

/-- One step: a subscribed session is sent what is published on its topic. -/
theorem published_sublist_step (i : Input ε) (session : SessionId) (topic : Bytes)
    (h : w.broker.Subscribed session topic) :
    (publishedOn topic (w.step verify hash i).2).Sublist
      (messagesTo session (w.step verify hash i).2) := by
  by_cases hne : publishedOn topic (w.step verify hash i).2 = []
  · rw [hne]
    exact List.nil_sublist _
  · obtain ⟨s, faults, conn, data, rest, -, -, -, he⟩ := publishedOn_step verify hash w i topic hne
    rw [he, publishedOn_exec]
    simp only [↓reduceIte]
    rw [List.singleton_sublist, messagesTo, List.mem_filterMap]
    refine ⟨.sent session (w.protocolOf session) data (some (w.broker.currentSequence + 1)), ?_, by simp⟩
    simp only [World.exec, World.execCall, Broker.publish_seq, (Broker.publish_recipients _ _ _ _).1]
    refine List.mem_cons_of_mem _ (List.mem_map.mpr ⟨session, ?_, rfl⟩)
    exact List.mem_append_left _ ((w.broker.mem_subscribersOf session topic).mpr h)

/-- A call of the broker takes the next number exactly if it is a publish. -/
theorem currentSequence_perform (b : Broker σ) (m : Method ε) :
    (b.perform hash m).currentSequence = b.currentSequence ∨
      (b.perform hash m).currentSequence = b.currentSequence + 1 := by
  cases m with
  | publish f topic data => exact Or.inr (Broker.publish_currentSequence f b topic data)
  | handleAck err c n => exact Or.inl rfl
  | accept | subscribe | unsubscribe | registerClient | unregisterClient | removeSession | stop =>
    exact Or.inl (b.perform_store hash _ rfl).2

theorem currentSequence_step (i : Input ε) (hlive : w.ConnectedLive) (hi : NoRestart w i) :
    (w.step verify hash i).1.broker.currentSequence = w.broker.currentSequence ∨
      (w.step verify hash i).1.broker.currentSequence = w.broker.currentSequence + 1 := by
  rw [(World.step_methods verify hash w i hlive hi).2.1]
  rcases w.methods_cases i with he | ⟨m, he⟩
  · rw [he]
    exact Or.inl rfl
  · rw [he]
    exact currentSequence_perform hash w.broker m

/-- What a step publishes has the number the broker has then reached. -/
theorem publishedOn_number (i : Input ε) (topic : Bytes) :
    publishedOn topic (w.step verify hash i).2 = [] ∨
      ∃ data, publishedOn topic (w.step verify hash i).2 = [(data, w.broker.currentSequence + 1)] ∧
        (w.step verify hash i).1.broker.currentSequence = w.broker.currentSequence + 1 := by
  by_cases hne : publishedOn topic (w.step verify hash i).2 = []
  · exact Or.inl hne
  · obtain ⟨s, faults, conn, data, rest, rfl, hconn, hp, he⟩ :=
      publishedOn_step verify hash w i topic hne
    refine Or.inr ⟨data, ?_, ?_⟩
    · rw [he, publishedOn_exec]
      simp
    · rw [World.step, w.threadStep_of_task verify hash s faults conn _ rest hconn hp]
      exact Broker.publish_currentSequence faults.publish w.broker topic data

end Steps

section Runs

variable {σ ε : Type} [Storage σ ε] (verify : Verify) (hash : HashOrder)

/-- While a session is subscribed to a topic. -/
def SubscribedTo (session : SessionId) (topic : Bytes) (w : World σ) (_ : Input ε) : Prop :=
  w.broker.Subscribed session topic

instance (session : SessionId) (topic : Bytes) (w : World σ) (i : Input ε) :
    Decidable (SubscribedTo session topic w i) :=
  decidable_of_iff (session ∈ w.broker.subscribersOf topic) (w.broker.mem_subscribersOf session topic)

theorem publishedOn_append (topic : Bytes) (tr outs : List Output) :
    publishedOn topic (tr ++ outs) = publishedOn topic tr ++ publishedOn topic outs :=
  List.filterMap_append

theorem messagesTo_append (session : SessionId) (tr outs : List Output) :
    messagesTo session (tr ++ outs) = messagesTo session tr ++ messagesTo session outs :=
  List.filterMap_append

/-- All numbers of a run are above the one it starts with, and they increase. -/
theorem numbers_increase (session : SessionId) (topic : Bytes) (w : World σ) (is : List (Input ε))
    (hlive : w.ConnectedLive) (h : Meets (World.step verify hash) (SubscribedTo session topic) w is)
    (hroom : w.broker.currentSequence.toNat + is.length < 2 ^ 64) :
    (publishedOn topic (run (World.step verify hash) w is).2).Pairwise (fun a b => a.2 < b.2) ∧
      ∀ e ∈ publishedOn topic (run (World.step verify hash) w is).2,
        w.broker.currentSequence < e.2 := by
  induction is generalizing w with
  | nil => exact ⟨List.Pairwise.nil, by simp [run, publishedOn]⟩
  | cons i is ih =>
    have hlen : is.length + 1 = (i :: is).length := rfl
    have hnext : (w.broker.currentSequence + 1).toNat = w.broker.currentSequence.toNat + 1 :=
      toNat_next _ (by omega)
    -- a restart ends the subscription, so nothing comes behind it
    by_cases hi : NoRestart w i
    · have hcur := currentSequence_step verify hash w i hlive hi
      have hle : w.broker.currentSequence.toNat ≤
          (w.step verify hash i).1.broker.currentSequence.toNat ∧
          (w.step verify hash i).1.broker.currentSequence.toNat + is.length < 2 ^ 64 := by
        rcases hcur with he | he <;> rw [he]
        · omega
        · rw [hnext]
          omega
      obtain ⟨hpair, hall⟩ := ih _ (World.connectedLive_step verify hash w i hlive) h.2 hle.2
      rw [run, publishedOn_append]
      rcases publishedOn_number verify hash w i topic with he | ⟨data, he, hseq⟩
      · rw [he, List.nil_append]
        refine ⟨hpair, fun e hm => ?_⟩
        have hlt := UInt64.lt_iff_toNat_lt.mp (hall e hm)
        exact UInt64.lt_iff_toNat_lt.mpr (Nat.lt_of_le_of_lt hle.1 hlt)
      · rw [he, List.singleton_append, List.pairwise_cons]
        rw [hseq] at hall
        refine ⟨⟨hall, hpair⟩, fun e hm => ?_⟩
        have hlt : w.broker.currentSequence < w.broker.currentSequence + 1 := by
          rw [UInt64.lt_iff_toNat_lt, hnext]
          exact Nat.lt_succ_self _
        rcases List.mem_cons.mp hm with rfl | hm
        · exact hlt
        · exact Std.lt_trans hlt (hall e hm)
    · cases i with
      | restart =>
        cases is with
        | nil => exact ⟨List.Pairwise.nil, by simp [run, World.step, publishedOn]⟩
        | cons j js => exact absurd h.2.1 (Broker.not_subscribed_start w.broker.db session topic)
      | accept | recv | hangup | thread | keyStore | stop => exact absurd trivial hi

/-- No update is lost and all are in order: whatever the other connections do in between, in a
stretch of any run in which a session is subscribed to a topic all of the time, the messages it
is sent have every message published on the topic among them, in the order of their numbers. -/
theorem live_delivery (db : σ) (pre is : List (Input ε)) (session : SessionId) (topic : Bytes)
    (h : Meets (World.step verify hash) (SubscribedTo session topic)
      (run (World.step verify hash) (World.start db) pre).1 is)
    (hroom : (run (World.step verify hash) (World.start db) pre).1.broker.currentSequence.toNat +
      is.length < 2 ^ 64) :
    (publishedOn topic (run (World.step verify hash)
        (run (World.step verify hash) (World.start db) pre).1 is).2).Sublist
      (messagesTo session (run (World.step verify hash)
        (run (World.step verify hash) (World.start db) pre).1 is).2) ∧
    (publishedOn topic (run (World.step verify hash)
        (run (World.step verify hash) (World.start db) pre).1 is).2).Pairwise
      (fun a b => a.2 < b.2) := by
  have hlive : (run (World.step verify hash) (World.start db) pre).1.ConnectedLive :=
    run_invariant (C := fun _ _ => True) (fun w _ => w.ConnectedLive)
      (fun w _ i hw _ => World.connectedLive_step verify hash w i hw) (World.start db) [] pre
      (World.connectedLive_start db) (meets_true _ pre)
  refine ⟨?_, (numbers_increase verify hash session topic _ is hlive h hroom).1⟩
  generalize (run (World.step verify hash) (World.start db) pre).1 = w at h
  clear hroom hlive
  induction is generalizing w with
  | nil => exact List.Sublist.refl _
  | cons i is ih =>
    rw [run, publishedOn_append, messagesTo_append]
    exact (published_sublist_step verify hash w i session topic h.1).append (ih _ h.2)

open World in
/-- A publish while another session is subscribed to its topic. -/
theorem live_delivery_pair :
    (publishedOn (lit "t") (run (World.step (fun _ _ _ => true) insertionOrder)
      (run (World.step (fun _ _ _ => true) insertionOrder) (World.start LmdbFile.empty)
        (binaryClient 0 (.subscribe (lit "t") 1) 4)).1
      (binaryClient 2 (.publish (lit "t") (lit "a") 1) 3)).2).length = 1 ∧
    (publishedOn (lit "t") (run (World.step (fun _ _ _ => true) insertionOrder)
      (run (World.step (fun _ _ _ => true) insertionOrder) (World.start LmdbFile.empty)
        (binaryClient 0 (.subscribe (lit "t") 1) 4)).1
      (binaryClient 2 (.publish (lit "t") (lit "a") 1) 3)).2).Sublist
    (messagesTo 0 (run (World.step (fun _ _ _ => true) insertionOrder)
      (run (World.step (fun _ _ _ => true) insertionOrder) (World.start LmdbFile.empty)
        (binaryClient 0 (.subscribe (lit "t") 1) 4)).1
      (binaryClient 2 (.publish (lit "t") (lit "a") 1) 3)).2) :=
  ⟨by decide, (live_delivery (fun _ _ _ => true) insertionOrder LmdbFile.empty
    (binaryClient 0 (.subscribe (lit "t") 1) 4) (binaryClient 2 (.publish (lit "t") (lit "a") 1) 3) 0
    (lit "t") (by decide) (by decide)).1⟩

/-- The step sends nothing to a session that is not connected. -/
def SendsToConnected (w : World σ) (i : Input ε) : Prop :=
  ∀ session p data n, .sent session p data n ∈ (w.step verify hash i).2 →
    ∃ conn, w.connections[session]? = some conn

theorem sendsToConnected_of_subscribers (w : World σ) (i : Input ε) (h : SubscribersConnected w) :
    SendsToConnected verify hash w i := by
  intro session p data n hm
  obtain ⟨s, faults, conn, task, rest, hconn, -, hm⟩ := w.sent_mem_step verify hash i session p data n hm
  -- a thread writes to its own socket, a publish to those of the subscribers
  obtain ⟨-, ⟨topic, -, hr, -⟩ | ⟨rfl, -⟩ | ⟨rfl, -⟩⟩ :=
    w.sent_mem_exec hash faults s session task p data n hm
  · rcases List.mem_append.mp hr with hr | hr
    · exact h session topic ((w.broker.mem_subscribersOf session topic).mp hr)
    · exact h session _ ((w.broker.mem_subscribersOf session _).mp hr)
  · exact ⟨conn, hconn⟩
  · exact ⟨conn, hconn⟩

/-- No session pointer is used after its session has gone: in every run, also across restarts,
each string is sent to a session that is connected at that moment. -/
theorem sends_connected (db : σ) (is : List (Input ε)) :
    Meets (World.step verify hash) (SendsToConnected verify hash) (World.start db) is := by
  refine meets_of_invariant (C := fun _ _ => True)
    (fun w => w.ConnectedLive ∧ SubscribersConnected w) ?_ (World.start db) is
    ⟨World.connectedLive_start db, ?_⟩ (meets_true _ is)
  · intro w i hw _
    exact ⟨sendsToConnected_of_subscribers verify hash w i hw.2,
      World.connectedLive_step verify hash w i hw.1,
      subscribersConnected_step verify hash w i hw.1 hw.2⟩
  · intro session topic h
    exact absurd h (Broker.not_subscribed_start db session topic)

end Runs

end MetricMQ
