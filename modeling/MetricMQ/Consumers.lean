import MetricMQ.LiveDelivery

/-! What the receive loops of the clients make of a run. Where nobody publishes in RESP, every
string that a binary client is sent is one frame, live or replayed, so its loop reads exactly the
strings it was sent, however the network cuts them; and a queue is no more than a topic: each of
its consumers is handed every task. -/
namespace MetricMQ

open ByteString Std Machine StreamFraming

/-- A RESP command that publishes. -/
def Dispatch.isRespPublish : Dispatch → Bool
  | .command (.array [head, _, _]) => Session.toUpper head.asString = lit "PUBLISH"
  | _ => false

/-- The strings that went to a session. -/
def sentTo (session : SessionId) (tr : List Output) : List Bytes :=
  tr.filterMap fun o => match o with
    | .sent s _ data _ => if s = session then some data else none
    | _ => none

section Strings

/-- The string is one whole frame. -/
def WholeFrame (data : Bytes) : Prop :=
  ∃ g, BinaryProtocol.FrameWellFormed g ∧ data = BinaryProtocol.serialize g

theorem wholeFrame_of_sendOK (data : Bytes) (h : Session.SendOK .binary data) : WholeFrame data := by
  obtain ⟨g, hg⟩ := h
  obtain ⟨hw, hlen, r, hr⟩ := BinaryProtocol.parse_sound data g _ hg
  have hnil : r = [] := by
    apply List.eq_nil_of_length_eq_zero
    have hl := congrArg List.length hr
    rw [List.length_append, ← hlen] at hl
    omega
  rw [hnil, List.append_nil] at hr
  exact ⟨g, hw, hr⟩

/-- An accepted request that did not come in RESP is published as one frame of its topic. -/
theorem frame_of_publishes (verify : Verify) (keys : KeyLookups) (item : Dispatch)
    (topic data : Bytes) (h : item.Publishes verify keys topic data)
    (hresp : item.isRespPublish = false) :
    ∃ g, BinaryProtocol.FrameWellFormed g ∧ data = BinaryProtocol.serialize g ∧ g.topic = topic := by
  cases item with
  | command v =>
    obtain ⟨head, arg, payload, rfl, hcmd, -⟩ := h
    exact absurd hcmd (of_decide_eq_false hresp)
  | frame f =>
    obtain ⟨hw, ha, ht, seq, hd⟩ := h
    refine ⟨_, wellFormed_relayFrame f seq hw, hd, ?_⟩
    rw [(relays_relayFrame verify keys f seq hw ha).topic, ht]

end Strings

section Steps

variable {σ ε : Type} [Storage σ ε] (verify : Verify) (hash : HashOrder) (w : World σ)

/-- No RESP session is about to publish. -/
def PublishesBinary (w : World σ) : Input ε → Prop
  | .thread session _ => (w.nextItem session).elim True fun item => item.isRespPublish = false
  | _ => True

instance (w : World σ) : DecidablePred (PublishesBinary (ε := ε) w)
  | .thread session _ => inferInstanceAs (Decidable ((w.nextItem session).elim True _))
  | .accept _ | .recv _ _ | .hangup _ | .keyStore _ | .stop | .restart => isTrue trivial

/-- What is dispatched in such a step publishes nothing in RESP. -/
theorem isRespPublish_of_dispatched (i : Input ε) (hi : PublishesBinary w i) (session : SessionId)
    (item : Dispatch) (keys : KeyLookups)
    (h : .dispatched session item keys ∈ (w.step verify hash i).2) : item.isRespPublish = false := by
  have hcase := World.stepCase_step verify hash w i
  revert hcase h
  generalize (w.step verify hash i).1 = w'
  generalize (w.step verify hash i).2 = outs
  intro h hcase
  cases hcase with
  | worked s faults conn task rest hconn hp =>
    exact absurd h (dispatched_not_mem_exec hash w faults s task session item keys)
  | dispatched s faults conn it r hconn hp hnext =>
    have hn : w.nextItem s = some it := by
      simp only [World.nextItem, hconn, hp, List.isEmpty_nil, ↓reduceIte, hnext, Option.map_some]
    rw [World.dispatchStep, List.mem_singleton, Output.dispatched.injEq] at h
    rw [PublishesBinary, hn] at hi
    rw [h.2.1]
    exact hi
  | nothing | accepted | received | overflowed | hungUp | keyed | stopped | restarted => cases h

/-- A string is sent under the protocol its receiver has detected. -/
theorem protocol_of_sent (i : Input ε) (s : SessionId) (p : ProtocolType) (data : Bytes)
    (q : Option UInt64) (h : .sent s p data q ∈ (w.step verify hash i).2) : p = w.protocolOf s := by
  obtain ⟨s', faults, conn, task, rest, -, -, hm⟩ := w.sent_mem_step verify hash i s p data q h
  exact (w.sent_mem_exec hash faults s' s task p data q hm).1

/-- What a thread that does not speak RESP replies are frames; the error of the size guard is one in
any case. -/
theorem wholeFrame_pending : World.ConnectionInvariant verify (fun (_ : World σ) (_ : Input ε) => True)
    (fun _ _ c => ∀ data, .call (.send data) ∈ c.pending → c.protocol ≠ .resp → WholeFrame data) where
  mono := fun _ _ _ _ h => h
  fresh := by
    intro _ _ data hm
    cases hm
  received := by
    intro _ _ c chunk r _ hp _ data hm
    change _ ∈ c.pending at hm
    rw [hp] at hm
    cases hm
  overflowed := by
    intro _ _ _ c _ _ _ _ _ data hm _
    rw [World.mem_map_call, Session.overflowCalls, List.mem_cons] at hm
    rcases hm with he | hm
    · exact ⟨_, Session.wellFormed_error _ (by decide), Call.send.inj he⟩
    · exact absurd hm (by rw [Session.exitCalls]; split_ifs <;> simp)
  hungUp := by
    intro _ _ c _ data hm
    rw [World.mem_map_call] at hm
    exact absurd hm (by rw [Session.exitCalls]; split_ifs <;> simp)
  worked := by
    intro w _ _ c _ task rest _ _ hp h data hm hne
    rcases List.mem_append.mp hm with hm | hm
    · exact absurd hm (w.not_call_followUp task _)
    · exact h data (hp ▸ List.mem_cons_of_mem task hm) hne
  dispatched := by
    intro w _ _ c _ item r _ _ _ hnext _ data hm hne
    rw [World.mem_map_call] at hm
    change (Session.handle verify (w.lookups _) { c.toSession with toReceiver := r } item).1.protocol ≠ _ at hne
    obtain ⟨n, hparse, rfl⟩ := c.toReceiver.next_eq_some r item hnext
    rw [handle_toReceiver] at hne
    -- the item is a frame, so its handler is the binary one
    rcases parseFor_eq_some _ _ _ n hparse with ⟨v, hproto, -⟩ | ⟨f, hproto, rfl, hf⟩
    · exact absurd hproto hne
    · have hw := (BinaryProtocol.parse_sound _ f n hf).1
      exact wholeFrame_of_sendOK data
        (Session.callOK_handleBinaryFrame verify _ _ f hw (.send data) hm)

end Steps

section Runs

variable (verify : Verify) (hash : HashOrder)

/-- What a run in which nobody publishes in RESP has shown so far. -/
structure FramesOnly (tr : List Output) : Prop where
  sent : ∀ s p data q, p ≠ .resp → .sent s p data q ∈ tr → WholeFrame data
  published : ∀ s topic data n, .published s topic data n ∈ tr →
    ∃ g, BinaryProtocol.FrameWellFormed g ∧ data = BinaryProtocol.serialize g ∧ g.topic = topic

/-- Every publish of a run was requested before. -/
theorem requested_of_published (db : ContractStore) (is : List (Input Unit)) (s : SessionId)
    (topic data : Bytes) (n : UInt64)
    (h : .published s topic data n ∈ (run (World.step verify hash) (World.start db) is).2) :
    Requested verify (run (World.step verify hash) (World.start db) is).2 s topic data := by
  induction is using List.reverseRecOn with
  | nil => cases h
  | append_singleton is i ih =>
    rw [run_outputs_snoc] at h ⊢
    rcases List.mem_append.mp h with h | h
    · exact (ih h).append _
    · have hk := known_run ContractStore.handsBack verify hash db is
      generalize (run (World.step verify hash) (World.start db) is).1 = w at h hk
      rcases w.step_outputs verify hash i with he | ⟨s', item, he⟩ |
        ⟨s', faults, conn, task, rest, -, hconn, hp, he, -⟩
      · rw [he] at h
        cases h
      · rw [he] at h
        simp at h
      · rw [he] at h
        obtain ⟨rfl, rfl, -⟩ := World.published_mem_exec hash faults w s' s task topic data n h
        exact ((hk.pending s conn hconn _ (hp ▸ List.mem_cons_self)).2 topic data rfl).append _

theorem wholeFrame_of_requested (tr : List Output) (s : SessionId) (topic data : Bytes)
    (hresp : ∀ s item keys, .dispatched s item keys ∈ tr → item.isRespPublish = false)
    (h : Requested verify tr s topic data) :
    ∃ g, BinaryProtocol.FrameWellFormed g ∧ data = BinaryProtocol.serialize g ∧ g.topic = topic := by
  obtain ⟨item, keys, hd, hp⟩ := h
  exact frame_of_publishes verify keys item topic data hp (hresp s item keys hd)

/-- A message that is sent was asked for by a publish before, also if a replay sends it. -/
theorem requested_of_sent (is : List (Input Unit)) (pre : List Output) (session : SessionId)
    (p : ProtocolType) (data : Bytes) (n : UInt64) (h : pre ++ [.sent session p data (some n)] <+:
      (run (World.step verify hash) (World.start ContractStore.empty) is).2) :
    ∃ s topic, Requested verify pre s topic data := by
  obtain ⟨js, i, pre', -, rfl, hstep⟩ := exists_step_of_snoc_prefix _ _ _ _ h
  have hk := known_run ContractStore.handsBack verify hash ContractStore.empty js
  obtain ⟨s, topic, hr, -⟩ := requested_of_traced verify _
    (traced_step verify hash _ _ _ hk i pre' session p data n hstep)
  exact ⟨s, topic, hr⟩

/-- In such a run, with any restarts, every string for a session that does not speak RESP is a
frame. -/
theorem framesOnly_run (is : List (Input Unit))
    (h : Meets (World.step verify hash) PublishesBinary (World.start ContractStore.empty) is) :
    FramesOnly (run (World.step verify hash) (World.start ContractStore.empty) is).2 := by
  have hresp : ∀ s item keys, .dispatched s item keys ∈
      (run (World.step verify hash) (World.start ContractStore.empty) is).2 →
      item.isRespPublish = false := by
    refine run_invariant (fun _ tr => ∀ s item keys, .dispatched s item keys ∈ tr →
      item.isRespPublish = false) ?_ (World.start ContractStore.empty) [] is ?_ h
    · intro w tr i hI hi s item keys hm
      rcases List.mem_append.mp hm with hm | hm
      · exact hI s item keys hm
      · exact isRespPublish_of_dispatched verify hash w i hi s item keys hm
    · intro s item keys hm
      cases hm
  have hpublished : ∀ s topic data n, .published s topic data n ∈
      (run (World.step verify hash) (World.start ContractStore.empty) is).2 →
      ∃ g, BinaryProtocol.FrameWellFormed g ∧ data = BinaryProtocol.serialize g ∧ g.topic = topic :=
    fun s topic data n hm => wholeFrame_of_requested verify _ s topic data hresp
      (requested_of_published verify hash ContractStore.empty is s topic data n hm)
  refine ⟨?_, hpublished⟩
  intro s p data q hp hm
  cases q with
  | none =>
    exact reply_run hash (Q := fun p data => p ≠ .resp → WholeFrame data) (wholeFrame_pending verify)
      ContractStore.empty is s p data hm hp
  | some n =>
    -- a message was published before, also if a replay sends it
    obtain ⟨pre, post, he⟩ := List.append_of_mem hm
    have hpre : pre ++ [.sent s p data (some n)] <+:
        (run (World.step verify hash) (World.start ContractStore.empty) is).2 := by
      rw [he]
      exact ⟨post, by simp⟩
    have hsub : ∀ o ∈ pre, o ∈ (run (World.step verify hash) (World.start ContractStore.empty) is).2 :=
      fun o ho => hpre.subset (List.mem_append_left _ ho)
    obtain ⟨s', topic, item, keys, hd, hitem⟩ := requested_of_sent verify hash is pre s p data n hpre
    obtain ⟨g, hw, he, -⟩ := frame_of_publishes verify keys item topic data hitem
      (hresp s' item keys (hsub _ hd))
    exact ⟨g, hw, he⟩

/-- While the session does not speak RESP. -/
def NotResp (session : SessionId) (w : World ContractStore) (_ : Input Unit) : Prop :=
  w.protocolOf session ≠ .resp

instance (session : SessionId) (w : World ContractStore) (i : Input Unit) :
    Decidable (NotResp session w i) := inferInstanceAs (Decidable (_ ≠ _))

variable (session : SessionId) (topic : Bytes) (w : World ContractStore) (is : List (Input Unit))

/-- The strings that are published on a topic while a session is subscribed to it. -/
def publishedWhile : List Bytes :=
  movesOf (World.step verify hash) (fun w i =>
    if SubscribedTo session topic w i then
      (publishedOn topic (w.step verify hash i).2).map Prod.fst else []) w is

theorem sentTo_append (tr outs : List Output) :
    sentTo session (tr ++ outs) = sentTo session tr ++ sentTo session outs :=
  List.filterMap_append

/-- The messages of a session are some of the strings that it is sent. -/
theorem messagesTo_sublist_sentTo (tr : List Output) :
    ((messagesTo session tr).map Prod.fst).Sublist (sentTo session tr) := by
  induction tr with
  | nil => exact List.Sublist.refl _
  | cons o tr ih =>
    -- a reply is left out, a message is in both
    have hsplit : o :: tr = [o] ++ tr := rfl
    rw [hsplit, messagesTo_append, sentTo_append, List.map_append]
    apply List.Sublist.append _ ih
    cases o with
    | dispatched | published => exact List.Sublist.refl _
    | sent s p data q =>
      cases q with
      | none => exact List.nil_sublist _
      | some n =>
        by_cases hs : s = session
        · simp [messagesTo, sentTo, hs]
        · simp [messagesTo, sentTo, hs]

theorem publishedWhile_sublist :
    (publishedWhile verify hash session topic w is).Sublist
      (sentTo session (run (World.step verify hash) w is).2) := by
  induction is generalizing w with
  | nil => exact List.Sublist.refl _
  | cons i is ih =>
    rw [publishedWhile, movesOf, run, sentTo_append]
    apply List.Sublist.append _ (ih _)
    split_ifs with hsub
    · have hstep := published_sublist_step verify hash w i session topic hsub
      exact (hstep.map Prod.fst).trans (messagesTo_sublist_sentTo session _)
    · exact List.nil_sublist _

/-- The published strings stand in the trace. -/
theorem mem_publishedWhile (data : Bytes) (h : data ∈ publishedWhile verify hash session topic w is) :
    ∃ s n, .published s topic data n ∈ (run (World.step verify hash) w is).2 := by
  induction is generalizing w with
  | nil => cases h
  | cons i is ih =>
    rw [publishedWhile, movesOf, List.mem_append] at h
    rw [run]
    rcases h with h | h
    · split_ifs at h
      · obtain ⟨⟨d, n⟩, hm, rfl⟩ := List.mem_map.mp h
        obtain ⟨o, ho, he⟩ := List.mem_filterMap.mp hm
        cases o with
        | dispatched | sent => cases he
        | published s t d' n' =>
          dsimp only at he
          split_ifs at he with ht
          obtain ⟨rfl, rfl⟩ := Prod.mk.inj (Option.some_inj.mp he)
          exact ⟨s, n', List.mem_append_left _ (ht ▸ ho)⟩
      · cases h
    · obtain ⟨s, n, hm⟩ := ih _ h
      exact ⟨s, n, List.mem_append_right _ hm⟩

/-- What is sent in a stretch goes out under a protocol that the session has in it. -/
theorem protocol_of_sent_run (h : Meets (World.step verify hash) (NotResp session) w is)
    (p : ProtocolType) (data : Bytes) (q : Option UInt64)
    (hm : .sent session p data q ∈ (run (World.step verify hash) w is).2) : p ≠ .resp := by
  induction is generalizing w with
  | nil => cases hm
  | cons i is ih =>
    rw [run] at hm
    rcases List.mem_append.mp hm with hm | hm
    · rw [protocol_of_sent verify hash w i session p data q hm]
      exact h.1
    · exact ih _ h.2 hm

theorem exists_frames (strings : List Bytes) (h : ∀ data ∈ strings, WholeFrame data) :
    ∃ frames : List BinaryFrame, (∀ g ∈ frames, BinaryProtocol.FrameWellFormed g) ∧
      strings = frames.map BinaryProtocol.serialize := by
  induction strings with
  | nil => exact ⟨[], by simp, rfl⟩
  | cons data strings ih =>
    obtain ⟨frames, hw, he⟩ := ih fun d hd => h d (List.mem_cons_of_mem data hd)
    obtain ⟨g, hg, hd⟩ := h data List.mem_cons_self
    exact ⟨g :: frames, List.forall_mem_cons.mpr ⟨hg, hw⟩, by rw [List.map_cons, hd, he]⟩

/-- A client loop at the other end of the socket: it reads one frame for each string. -/
theorem feed_serialized (frames : List BinaryFrame) (chunks : List Bytes)
    (hw : ∀ g ∈ frames, BinaryProtocol.FrameWellFormed g)
    (hc : chunks.flatten = (frames.map BinaryProtocol.serialize).flatten) :
    feed BinaryProtocol.parse [] chunks = (frames, []) := by
  have hread : ∀ g ∈ frames, BinaryProtocol.parse (BinaryProtocol.serialize g) =
      some (g, (BinaryProtocol.serialize g).length) := by
    intro g hg
    have h := BinaryProtocol.parse_serialize_append g (hw g hg) []
    rwa [List.append_nil] at h
  have h := feed_frames BinaryProtocol.parser BinaryProtocol.serialize id frames chunks hread hc
  rwa [List.map_id] at h

variable (pre : List (Input Unit))

/-- What a session that does not speak RESP is sent in a stretch of a run. -/
theorem frames_of_stretch
    (hbinary : Meets (World.step verify hash) PublishesBinary (World.start ContractStore.empty)
      (pre ++ is))
    (hspeaks : Meets (World.step verify hash) (NotResp session)
      (run (World.step verify hash) (World.start ContractStore.empty) pre).1 is) :
    ∃ frames : List BinaryFrame, (∀ g ∈ frames, BinaryProtocol.FrameWellFormed g) ∧
      sentTo session (run (World.step verify hash)
        (run (World.step verify hash) (World.start ContractStore.empty) pre).1 is).2 =
        frames.map BinaryProtocol.serialize := by
  apply exists_frames
  intro data hd
  obtain ⟨o, ho, he⟩ := List.mem_filterMap.mp hd
  cases o with
  | dispatched | published => cases he
  | sent s p d q =>
    dsimp only at he
    split_ifs at he with hs
    obtain rfl := Option.some_inj.mp he
    subst hs
    apply (framesOnly_run verify hash (pre ++ is) hbinary).sent s p d q
    · exact protocol_of_sent_run verify hash s _ is hspeaks p d q ho
    · rw [run_append]
      exact List.mem_append_right _ ho

/-- Where nobody publishes in RESP, the loop of a client that does not speak RESP either reads, in
any stretch of any run, exactly the strings that its session is sent, one frame for each, replayed
or live, and never waits with a rest, however the network cuts them. -/
theorem reads_frames (chunks : List Bytes)
    (hbinary : Meets (World.step verify hash) PublishesBinary (World.start ContractStore.empty)
      (pre ++ is))
    (hspeaks : Meets (World.step verify hash) (NotResp session)
      (run (World.step verify hash) (World.start ContractStore.empty) pre).1 is)
    (hc : chunks.flatten = (sentTo session (run (World.step verify hash)
      (run (World.step verify hash) (World.start ContractStore.empty) pre).1 is).2).flatten) :
    ∃ frames : List BinaryFrame, sentTo session (run (World.step verify hash)
        (run (World.step verify hash) (World.start ContractStore.empty) pre).1 is).2 =
        frames.map BinaryProtocol.serialize ∧
      feed BinaryProtocol.parse [] chunks = (frames, []) := by
  obtain ⟨frames, hw, he⟩ := frames_of_stretch verify hash session is pre hbinary hspeaks
  rw [he] at hc
  exact ⟨frames, he, feed_serialized frames chunks hw hc⟩

/-- The task in a published string: the payload of an unsigned message. -/
def taskOf (data : Bytes) : Option Bytes :=
  match BinaryProtocol.parse data with
  | some (g, _) => if g.command = .message then some g.payload else none
  | none => none

theorem serialize_injective (g g' : BinaryFrame) (hg : BinaryProtocol.FrameWellFormed g)
    (hg' : BinaryProtocol.FrameWellFormed g')
    (h : BinaryProtocol.serialize g = BinaryProtocol.serialize g') : g = g' := by
  have hread := BinaryProtocol.parse_serialize_append g hg []
  rw [h, BinaryProtocol.parse_serialize_append g' hg' [], Option.some_inj] at hread
  exact (Prod.mk.inj hread).1.symm

/-- The loop of `pull` calls back for what is published on a queue. -/
theorem onFrame_of_queue (name : Bytes) (g : BinaryFrame) (hw : BinaryProtocol.FrameWellFormed g)
    (ht : g.topic = lit "q:" ++ name) :
    QueueConsumer.onFrame g = (taskOf (BinaryProtocol.serialize g)).toList := by
  have hread := BinaryProtocol.parse_serialize_append g hw []
  rw [List.append_nil] at hread
  have hprefix : g.topic.take 2 = lit "q:" := by
    rw [ht]
    exact List.take_left' (by decide)
  rw [taskOf, hread, QueueConsumer.onFrame, if_pos hprefix]
  dsimp only
  split_ifs <;> rfl

/-- A queue is not shared out among its consumers: each of them is called back, in order, for every
task that is published while its session is subscribed to the queue, whoever else pulls it and
however the network cuts the stream, and nothing is left in its buffer. -/
theorem queue_fans_out (name : Bytes) (sequence : UInt64) (chunks : List Bytes)
    (hbinary : Meets (World.step verify hash) PublishesBinary (World.start ContractStore.empty)
      (pre ++ is))
    (hspeaks : Meets (World.step verify hash) (NotResp session)
      (run (World.step verify hash) (World.start ContractStore.empty) pre).1 is)
    (hc : chunks.flatten = (sentTo session (run (World.step verify hash)
      (run (World.step verify hash) (World.start ContractStore.empty) pre).1 is).2).flatten) :
    ((publishedWhile verify hash session (lit "q:" ++ name)
        (run (World.step verify hash) (World.start ContractStore.empty) pre).1 is).filterMap
      taskOf).Sublist (QueueConsumer.pull name sequence chunks).2.1 ∧
    (QueueConsumer.pull name sequence chunks).2.2 = [] := by
  obtain ⟨frames, hw, he⟩ := frames_of_stretch verify hash session is pre hbinary hspeaks
  have hsub := publishedWhile_sublist verify hash session (lit "q:" ++ name)
    (run (World.step verify hash) (World.start ContractStore.empty) pre).1 is
  have hpub := mem_publishedWhile verify hash session (lit "q:" ++ name)
    (run (World.step verify hash) (World.start ContractStore.empty) pre).1 is
  rw [he] at hc hsub
  rw [QueueConsumer.pull, feed_serialized frames chunks hw hc]
  refine ⟨?_, rfl⟩
  -- the published strings are those of some of the frames, in their order
  obtain ⟨some', hsome, hmap⟩ := List.sublist_map_iff.mp hsub
  have hcalls : (publishedWhile verify hash session (lit "q:" ++ name)
      (run (World.step verify hash) (World.start ContractStore.empty) pre).1 is).filterMap taskOf =
      some'.flatMap QueueConsumer.onFrame := by
    rw [hmap, List.filterMap_map, List.filterMap_eq_flatMap_toList]
    apply List.flatMap_congr
    intro g hg
    obtain ⟨s, n, hm⟩ := hpub (BinaryProtocol.serialize g) (hmap ▸ List.mem_map_of_mem hg)
    obtain ⟨g', hw', hd, ht⟩ := (framesOnly_run verify hash (pre ++ is) hbinary).published s _ _ n
      (by rw [run_append]; exact List.mem_append_right _ hm)
    have hsame : g = g' := serialize_injective g g' (hw g (hsome.subset hg)) hw' hd
    exact (onFrame_of_queue name g (hw g (hsome.subset hg)) (hsame ▸ ht)).symm
  rw [hcalls]
  exact hsome.flatMap _

end Runs

section Example

open World

/-- Two consumers pull the queue "jobs". -/
def twoConsumers : List (Input Unit) :=
  [0, 1].flatMap fun s => [.accept s, .recv s (QueueConsumer.pull (lit "jobs") 0 []).1] ++
    List.replicate 4 (.thread s ⟨⟨(), (), ()⟩, ()⟩)

/-- A producer pushes one task to it. -/
def pushOne : List (Input Unit) :=
  [.accept 2, .recv 2 (QueueProducer.push {} (lit "jobs") (lit "a")).2] ++
    List.replicate 3 (.thread 2 ⟨⟨(), (), ()⟩, ()⟩)

/-- The frame with the task, as the consumers get it. -/
def taskFrame : Bytes := BinaryProtocol.serialize (.message (lit "q:jobs") (lit "a") 1)

theorem reads_frames_jobs : ∃ frames : List BinaryFrame,
    [taskFrame] = frames.map BinaryProtocol.serialize ∧
      feed BinaryProtocol.parse [] [taskFrame.take 7, taskFrame.drop 7] = (frames, []) := by
  have hsent : sentTo 1 (run (World.step (fun _ _ _ => true) insertionOrder)
      (run (World.step (fun _ _ _ => true) insertionOrder) (World.start ContractStore.empty)
        twoConsumers).1 pushOne).2 = [taskFrame] := by decide
  have h := reads_frames (fun _ _ _ => true) insertionOrder 1 pushOne twoConsumers
    [taskFrame.take 7, taskFrame.drop 7] (by decide) (by decide) (by rw [hsent]; decide)
  rwa [hsent] at h

/-- Both consumers are sent the one task, and the loop at the end of such a stream calls back for it. -/
theorem queue_fans_out_jobs :
    [lit "a"].Sublist (QueueConsumer.pull (lit "jobs") 0 [taskFrame.take 7, taskFrame.drop 7]).2.1 ∧
    sentTo 0 (run (World.step (fun _ _ _ => true) insertionOrder)
      (run (World.step (fun _ _ _ => true) insertionOrder) (World.start ContractStore.empty)
        twoConsumers).1 pushOne).2 = [taskFrame] ∧
    sentTo 1 (run (World.step (fun _ _ _ => true) insertionOrder)
      (run (World.step (fun _ _ _ => true) insertionOrder) (World.start ContractStore.empty)
        twoConsumers).1 pushOne).2 = [taskFrame] := by
  have hzero : sentTo 0 (run (World.step (fun _ _ _ => true) insertionOrder)
      (run (World.step (fun _ _ _ => true) insertionOrder) (World.start ContractStore.empty)
        twoConsumers).1 pushOne).2 = [taskFrame] := by decide
  have htasks : (publishedWhile (fun _ _ _ => true) insertionOrder 0 (lit "q:" ++ lit "jobs")
      (run (World.step (fun _ _ _ => true) insertionOrder) (World.start ContractStore.empty)
        twoConsumers).1 pushOne).filterMap taskOf = [lit "a"] := by decide
  have h := queue_fans_out (fun _ _ _ => true) insertionOrder 0 pushOne twoConsumers (lit "jobs") 0
    [taskFrame.take 7, taskFrame.drop 7] (by decide) (by decide) (by rw [hzero]; decide)
  rw [htasks] at h
  exact ⟨h.1, hzero, by decide⟩

end Example

end MetricMQ
