import MetricMQ.PublishOrder

/-! What a subscriber may believe of a signed message. Over the documented storage a session is
sent a SIGNED_MESSAGE frame only if its topic, payload, signature and key came in one signed
publish that the broker had checked; the broker makes none up, and neither a reply nor a relayed
unsigned message is ever read as one. -/
namespace MetricMQ

open ByteString Std Machine

/-- The string is not read as a signed message. -/
def NotSigned (data : Bytes) : Prop :=
  ∀ g n, BinaryProtocol.parse data = some (g, n) → g.command ≠ .signedMessage

/-- The command of a frame is read off its second byte. -/
theorem notSigned_serialize (f : BinaryFrame) (hf : f.command ≠ .signedMessage) :
    NotSigned (BinaryProtocol.serialize f) := by
  intro g n hp hg
  -- what is parsed begins as the frame does that comes out
  obtain ⟨-, -, r, hr⟩ := BinaryProtocol.parse_sound _ g n hp
  obtain ⟨a, ha⟩ := BinaryProtocol.serialize_header f
  obtain ⟨b, hb⟩ := BinaryProtocol.serialize_header g
  rw [ha, hb, List.cons_append, List.cons_append, List.cons.injEq, List.cons.injEq] at hr
  apply hf
  rw [← f.command.ofByte_toByte, hr.2.1, hg]
  rfl

/-- No RESP value begins with the version byte. -/
theorem notSigned_resp (v : RespValue) : NotSigned (RespParser.serialize v) := by
  intro g n hp
  obtain ⟨hw, -, r, hr⟩ := BinaryProtocol.parse_sound _ g n hp
  obtain ⟨b, hb⟩ := BinaryProtocol.serialize_header g
  rw [hb, hw.version] at hr
  have hh := congrArg List.head? hr
  cases v <;> exact absurd (Option.some_inj.mp hh) (by decide)

theorem notSigned_answers (verify : Verify) (keys : KeyLookups) (item : Dispatch) :
    ∀ data ∈ item.answers verify keys, NotSigned data := by
  intro data hm
  cases item with
  | command v =>
    obtain ⟨w, -, rfl⟩ := List.mem_map.mp hm
    exact notSigned_resp w
  | frame f =>
    rw [Dispatch.answers, List.mem_map] at hm
    obtain ⟨g, hg, rfl⟩ := hm
    rw [Option.mem_toList, Session.answerFrame] at hg
    apply notSigned_serialize
    cases hc : f.command with
    | publish | signedPublish =>
      simp only [hc] at hg
      split_ifs at hg <;> rw [← Option.some_inj.mp hg] <;> exact fun h => BinaryCommand.noConfusion h
    | subscribe | unsubscribe | ping | message | pong | error | unnamed =>
      rw [hc] at hg
      rw [← Option.some_inj.mp hg]
      exact fun h => BinaryCommand.noConfusion h
    | ack | signedMessage =>
      rw [hc] at hg
      cases hg

section Replies

variable {σ ε : Type} [Storage σ ε] (verify : Verify) (hash : HashOrder)

theorem notSigned_pending : World.ConnectionInvariant verify (fun (_ : World σ) (_ : Input ε) => True)
    (fun _ _ c => ∀ data, .call (.send data) ∈ c.pending → NotSigned data) where
  mono := fun _ _ _ _ h => h
  fresh := by
    intro _ _ data hm
    cases hm
  received := fun _ _ _ _ _ h _ _ => h
  overflowed := by
    intro _ _ _ c _ _ _ _ _ data hm
    rw [World.mem_map_call, Session.overflowCalls, List.mem_cons] at hm
    rcases hm with he | hm
    · rw [Call.send.inj he]
      exact notSigned_serialize _ fun h => BinaryCommand.noConfusion h
    · rw [Session.exitCalls] at hm
      split_ifs at hm <;> simp at hm
  hungUp := by
    intro _ _ c _ data hm
    rw [World.mem_map_call, Session.exitCalls] at hm
    split_ifs at hm <;> simp at hm
  worked := by
    intro w _ _ c _ task rest _ _ hp h data hm
    rcases List.mem_append.mp hm with hm | hm
    · exact absurd hm (w.not_call_followUp task _)
    · exact h data (hp ▸ List.mem_cons_of_mem task hm)
  dispatched := by
    intro w _ _ c _ item r _ _ _ _ _ data hm
    rw [World.mem_map_call, ← Session.mem_written, Session.written_handle] at hm
    exact notSigned_answers verify _ item data hm

/-- A reply is sent by the thread that has it pending, under the protocol of its connection. -/
theorem pending_of_reply (w : World σ) (i : Input ε) (s : SessionId) (p : ProtocolType) (data : Bytes)
    (h : .sent s p data none ∈ (w.step verify hash i).2) :
    ∃ conn : Connection, w.connections[s]? = some conn ∧ p = conn.protocol ∧
      .call (.send data) ∈ conn.pending := by
  obtain ⟨s', faults, conn, task, rest, hconn, hp, hm⟩ := w.sent_mem_step verify hash i s p data none h
  obtain ⟨hproto, ⟨topic, -, -, hq⟩ | ⟨rfl, rfl, -⟩ | ⟨-, m, -, -, hq⟩⟩ :=
    w.sent_mem_exec hash faults s' s task p data none hm
  · cases hq
  · rw [World.protocolOf, hconn] at hproto
    exact ⟨conn, hconn, hproto, hp ▸ List.mem_cons_self⟩
  · cases hq

variable {verify} in
/-- What holds of all strings that threads have pending holds of all replies of a run. -/
theorem reply_run {Q : ProtocolType → Bytes → Prop}
    (hpending : World.ConnectionInvariant verify (fun (_ : World σ) (_ : Input ε) => True)
      (fun _ _ c => ∀ data, .call (.send data) ∈ c.pending → Q c.protocol data))
    (db : σ) (is : List (Input ε)) (s : SessionId) (p : ProtocolType) (data : Bytes)
    (h : .sent s p data none ∈ (run (World.step verify hash) (World.start db) is).2) : Q p data := by
  let I : World σ → List Output → Prop := fun w tr =>
    (∀ (s : SessionId) (c : Connection), w.connections[s]? = some c →
      ∀ data, .call (.send data) ∈ c.pending → Q c.protocol data) ∧
    ∀ s p data, .sent s p data none ∈ tr → Q p data
  have hstep : ∀ w tr (i : Input ε), I w tr → True →
      I (w.step verify hash i).1 (tr ++ (w.step verify hash i).2) := by
    intro w tr i hI _
    refine ⟨hpending.step w tr i trivial hI.1, ?_⟩
    intro s p data hm
    rcases List.mem_append.mp hm with hm | hm
    · exact hI.2 s p data hm
    · obtain ⟨conn, hconn, rfl, htask⟩ := pending_of_reply verify hash w i s p data hm
      exact hI.1 s conn hconn data htask
  have hinit : I (World.start db) [] := by
    refine ⟨fun s c hc => ?_, fun s p data hm => ?_⟩
    · simp [World.start] at hc
    · cases hm
  exact (run_invariant I hstep (World.start db) [] is hinit (meets_true _ is)).2 s p data h

end Replies

/-- Every signed message that a run sends has been signed: its contents were dispatched before as
one signed publish that passed the two checks of the broker, and its receiver has asked for the topic
over its present connection. -/
def SignedAuthentic (verify : Verify) (hash : HashOrder) (is : List (Input Unit)) : Prop :=
  ∀ js i, js ++ [i] <+: is → ∀ pre session p data q, pre ++ [.sent session p data q] <+:
      ((run (World.step verify hash) (World.start ContractStore.empty) js).1.step verify hash i).2 →
    ∀ g n, BinaryProtocol.parse data = some (g, n) → g.command = .signedMessage →
      ∃ s f keys, .dispatched s (.frame f) keys ∈
          (run (World.step verify hash) (World.start ContractStore.empty) js).2 ++ pre ∧
        f.command = .signedPublish ∧ PassesChecks verify keys f ∧ Relays f g ∧
        (Asked verify hash ContractStore.empty js session f.topic ∨
          Asked verify hash ContractStore.empty js session (lit "#"))

/-- The request behind a published string that is read as a signed message. -/
theorem signed_of_publishes (verify : Verify) (keys : KeyLookups) (item : Dispatch)
    (topic data : Bytes) (h : item.Publishes verify keys topic data) (g : BinaryFrame) (n : ℕ)
    (hp : BinaryProtocol.parse data = some (g, n)) (hg : g.command = .signedMessage) :
    ∃ f, item = .frame f ∧ f.topic = topic ∧ f.command = .signedPublish ∧ PassesChecks verify keys f ∧
      Relays f g := by
  cases item with
  | command v =>
    obtain ⟨head, arg, payload, -, -, -, rfl⟩ := h
    exact absurd hg (notSigned_resp _ g n hp)
  | frame f =>
    obtain ⟨hw, ha, ht, seq, rfl⟩ := h
    have hread := BinaryProtocol.parse_serialize_append _ (wellFormed_relayFrame f seq hw) []
    rw [List.append_nil, hp, Option.some_inj] at hread
    obtain rfl := (Prod.mk.inj hread).1
    have hr := relays_relayFrame verify keys f seq hw ha
    have hc : f.command = .signedPublish := by
      by_contra hc
      rw [Session.relayFrame, if_neg hc] at hg
      cases hg
    refine ⟨f, rfl, ht, hc, ?_, hr⟩
    rw [Session.acceptsPublish, hc, Bool.and_eq_true] at ha
    exact Session.passesChecks_of_checks verify keys f ha.1 ha.2

/-- Signed messages are authentic in every run from an empty store, with any interleaving of the
threads and of changes to the key store, any faults and any restarts. -/
theorem signed_authentic (verify : Verify) (hash : HashOrder) (is : List (Input Unit)) :
    SignedAuthentic verify hash is := by
  intro js i _ pre session p data q hpre g n hp hg
  cases q with
  | none =>
    have hm : .sent session p data none ∈
        (run (World.step verify hash) (World.start ContractStore.empty) (js ++ [i])).2 := by
      rw [run_outputs_snoc]
      exact List.mem_append_right _ (hpre.subset (List.mem_append_right pre (List.mem_singleton.mpr rfl)))
    exact absurd hg (reply_run hash (Q := fun _ data => NotSigned data) (notSigned_pending verify)
      ContractStore.empty (js ++ [i]) session p data hm g n hp)
  | some seq =>
    -- a live message comes from its own publish, a replayed one from the publish that stored it
    have hk := known_run ContractStore.handsBack verify hash ContractStore.empty js
    obtain ⟨s, topic, hreq, hasked⟩ := requested_of_traced verify _
      (traced_step verify hash _ _ _ hk i pre session p data seq hpre)
    obtain ⟨item, keys, hd, hitem⟩ := hreq
    obtain ⟨f, rfl, rfl, hc, hpass, hr⟩ := signed_of_publishes verify keys item topic data hitem g n hp hg
    exact ⟨s, f, keys, hd, hc, hpass, hr, hasked⟩

end MetricMQ
