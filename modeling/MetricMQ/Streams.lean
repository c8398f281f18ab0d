import MetricMQ.Turns

/-! A session against the stream of its bytes. Whatever the other sessions do, and however the
stream is cut into packets, a session does what its bytes say when they are parsed at once: it
dispatches the items that stand in them, in order, and it answers, publishes and subscribes as
these items ask. -/
namespace MetricMQ

open ByteString Std Machine

section Runs

variable {σ ε : Type} [Storage σ ε] (verify : Verify) (hash : HashOrder) (session : SessionId)

instance (w : World σ) : DecidablePred (SameConnection (ε := ε) session w)
  | .restart => isFalse fun h => h
  | .accept s => inferInstanceAs (Decidable (s ≠ session))
  | .recv _ _ | .hangup _ | .thread _ _ | .keyStore _ | .stop => isTrue trivial

/-- The bytes a session takes from its socket in a run. -/
def bytesIn (w : World σ) (is : List (Input ε)) : Bytes :=
  movesOf (World.step verify hash) (World.taken session) w is

/-- The calls that its thread makes. -/
def callsIn (w : World σ) (is : List (Input ε)) : List Call :=
  movesOf (World.step verify hash) (World.made session) w is

/-- The calls that its thread has still to make. -/
def callsLeft (w : World σ) : List Call :=
  (w.connections[session]?).elim [] fun conn => conn.pending.flatMap Task.calls

theorem tracks_run (w : World σ) (is : List (Input ε)) (bytes : Bytes)
    (items : List (KeyLookups × Dispatch)) (made : List Call) (hfit : w.AllFit)
    (h : Tracks verify w.connections[session]? bytes items made)
    (his : Meets (World.step verify hash) (SameConnection session) w is) :
    Tracks verify (run (World.step verify hash) w is).1.connections[session]?
      (bytes ++ bytesIn verify hash session w is)
      (items ++ dispatchedBy session (run (World.step verify hash) w is).2)
      (made ++ callsIn verify hash session w is) := by
  -- what a step adds goes behind what there was
  induction is generalizing w bytes items made with
  | nil =>
    simp only [bytesIn, callsIn, movesOf, run, dispatchedBy, List.filterMap_nil, List.append_nil]
    exact h
  | cons i is ih =>
    have hturn := w.turn_step session verify hash i his.1 fun conn hc => hfit session conn hc
    have hrest := ih _ _ _ _ (World.allFit_step verify hash w i hfit) (h.turn hturn) his.2
    simp only [bytesIn, callsIn, movesOf, run, dispatchedBy, List.filterMap_append,
      ← List.append_assoc] at hrest ⊢
    exact hrest

omit [Storage σ ε] in
theorem touched_accept (w : World σ) (h : w.touched (.accept session : Input ε) = some session) :
    ∃ b, w.connections[session]? = none ∧ w.broker.acceptSession session = some b := by
  rw [World.touched] at h
  split_ifs at h with hc
  rw [Bool.and_eq_true, Option.isNone_iff_eq_none] at hc
  obtain ⟨b, hb⟩ := Option.isSome_iff_exists.mp hc.2
  exact ⟨b, hc.1, hb⟩

theorem step_accept (w : World σ) (b : Broker σ) (hfree : w.connections[session]? = none)
    (hb : w.broker.acceptSession session = some b) :
    w.step verify hash (.accept session : Input ε) =
      ({ w with
          broker := b
          connections := w.connections.insert session {}
          looked := w.looked.erase session }, []) := by
  rw [World.step, World.acceptStep, hfree]
  dsimp only
  rw [hb]

theorem sound_reachable (db : σ) (is : List (Input ε)) :
    Sound (run (World.step verify hash) (World.start db) is).1 :=
  run_invariant (C := fun _ _ => True) (fun w _ => Sound w) (fun w _ i h _ => sound_step verify hash w i h)
    (World.start db) [] is (sound_start db) (meets_true _ _)

/-- The life of a connection: in a state that the system can reach the session is accepted, and it
goes on without a restart and without a new session of the same name. -/
structure Life (w : World σ) (is : List (Input ε)) : Prop where
  reached : ∃ (db : σ) (before : List (Input ε)),
    (run (World.step verify hash) (World.start db) before).1 = w
  opened : w.touched (.accept session : Input ε) = some session
  begins : is.head? = some (.accept session)
  goesOn : Meets (World.step verify hash) (SameConnection session)
    (w.step verify hash (.accept session : Input ε)).1 is.tail

/-- What the session dispatches, with what its thread found at the key lookups. -/
def itemsIn (w : World σ) (is : List (Input ε)) : List (KeyLookups × Dispatch) :=
  dispatchedBy session (run (World.step verify hash) w is).2

variable {verify hash session} {w : World σ} {is : List (Input ε)}

theorem Life.sound (h : Life verify hash session w is) : Sound w := by
  obtain ⟨db, before, rfl⟩ := h.reached
  exact sound_reachable verify hash db before

theorem Life.tracks (h : Life verify hash session w is) :
    Tracks verify (run (World.step verify hash) w is).1.connections[session]?
      (bytesIn verify hash session w is) (itemsIn verify hash session w is)
      (callsIn verify hash session w is) := by
  obtain ⟨life, rfl⟩ := List.head?_eq_some_iff.mp h.begins
  obtain ⟨b, hfree, hb⟩ := touched_accept session w h.opened
  have hfit := World.allFit_step verify hash w (.accept session : Input ε) h.sound.fit
  have hnew : (w.step verify hash (.accept session : Input ε)).1.connections[session]? = some {} := by
    rw [step_accept verify hash session w b hfree hb]
    exact TreeMap.getElem?_insert_self
  have hbegin : Tracks verify
      (w.step verify hash (.accept session : Input ε)).1.connections[session]? [] [] [] := by
    rw [hnew]
    exact plays_fresh verify
  -- the accept itself takes no bytes, dispatches nothing and makes no call of the thread
  exact tracks_run verify hash session _ life [] [] [] hfit hbegin h.goesOn

/-- A session understands its stream, whatever the others do and however it is cut into packets:
what it has dispatched are the first items that greedy parsing of all its bytes gives, its buffer
holds what comes behind them, and they are all the items once no complete one is left in it. -/
theorem reads_stream (h : Life verify hash session w is) :
    (itemsIn verify hash session w is).map Prod.snd <+:
        (Receiver.greedy (bytesIn verify hash session w is)).1 ∧
      (∀ conn, (run (World.step verify hash) w is).1.connections[session]? = some conn →
        Receiver.greedy (bytesIn verify hash session w is) =
          ((itemsIn verify hash session w is).map Prod.snd ++ conn.drainAll.1, conn.drainAll.2)) ∧
      ((∀ conn, (run (World.step verify hash) w is).1.connections[session]? = some conn →
          conn.next = none) →
        (itemsIn verify hash session w is).map Prod.snd =
          (Receiver.greedy (bytesIn verify hash session w is)).1) := by
  have htracks := h.tracks
  cases hconn : (run (World.step verify hash) w is).1.connections[session]? with
  | none =>
    rw [hconn] at htracks
    have hall := Played.reads htracks
    rw [hall]
    refine ⟨List.prefix_rfl, ?_, fun _ => rfl⟩
    intro conn hc
    cases hc
  | some conn =>
    rw [hconn] at htracks
    have hreads := Plays.reads htracks
    refine ⟨⟨conn.drainAll.1, (congrArg Prod.fst hreads.greedy_eq).symm⟩, ?_, fun hidle => ?_⟩
    · intro c hc
      obtain rfl := Option.some_inj.mp hc
      exact hreads.greedy_eq
    · exact (congrArg Prod.fst (hreads.greedy_of_idle (hidle conn rfl))).symm

/-- A session is a sequential program: its counter and its client id are those that its handlers
give for its items one after the other, in the receive loop and behind it, and so are the calls of
the broker that its thread has made and has still to make, and behind the loop those of the way
out. -/
theorem runs_sequentially (h : Life verify hash session w is) :
    (∀ conn, (run (World.step verify hash) w is).1.connections[session]? = some conn →
        { conn.toSession with toReceiver := {} } =
            (Session.handleAll verify {} (itemsIn verify hash session w is)).1 ∧
          (conn.closing = false →
            callsIn verify hash session w is ++
                callsLeft session (run (World.step verify hash) w is).1 =
              (Session.handleAll verify {} (itemsIn verify hash session w is)).2)) ∧
      ((run (World.step verify hash) w is).1.Left session →
        (Session.handleAll verify {} (itemsIn verify hash session w is)).1.Leaves
          (Session.handleAll verify {} (itemsIn verify hash session w is)).2
          (callsIn verify hash session w is ++
            callsLeft session (run (World.step verify hash) w is).1)) := by
  have htracks := h.tracks
  rw [callsLeft, World.Left]
  cases hconn : (run (World.step verify hash) w is).1.connections[session]? with
  | none =>
    rw [hconn] at htracks
    rw [Option.elim_none, List.append_nil]
    refine ⟨?_, fun _ => Played.calls htracks⟩
    intro conn hc
    cases hc
  | some conn =>
    rw [hconn] at htracks
    rw [Option.elim_some]
    constructor
    · intro c hc
      obtain rfl := Option.some_inj.mp hc
      refine ⟨?_, fun hopen => Plays.inLoop htracks hopen⟩
      rw [Plays.state htracks]
      exact Session.handleAll_fresh verify _
    · intro hleft
      have hleaves := (Plays.behindLoop htracks (hleft conn rfl)).2
      rw [Plays.state htracks] at hleaves
      exact hleaves

/-- The key store stays as it is. -/
def KeysKept (_ : World σ) : Input ε → Prop
  | .keyStore (.change _) => False
  | .accept _ | .recv _ _ | .hangup _ | .thread _ _ | .keyStore (.lookup _) | .stop | .restart => True

instance (w : World σ) : DecidablePred (KeysKept (ε := ε) w)
  | .keyStore (.change _) => isFalse fun h => h
  | .accept _ | .recv _ _ | .hangup _ | .thread _ _ | .keyStore (.lookup _) | .stop | .restart =>
    isTrue trivial

theorem keys_step (i : Input ε) (hkeys : KeysKept w i) (hsame : SameConnection session w i) :
    (w.step verify hash i).1.keys = w.keys := by
  have hcase := World.stepCase_step verify hash w i
  revert hcase
  generalize (w.step verify hash i).1 = w'
  generalize (w.step verify hash i).2 = outs
  intro hcase
  cases hcase with
  | nothing | accepted | received | overflowed | hungUp | worked | dispatched | stopped => rfl
  | keyed access =>
    cases access with
    | change op => exact hkeys.elim
    | lookup s => rfl
  | restarted => exact hsame.elim

/-- An item goes with what its own thread has looked up. -/
theorem lookups_of_dispatchedBy (i : Input ε) :
    ∀ p ∈ dispatchedBy session (w.step verify hash i).2, p.1 = w.lookups session := by
  intro p hp
  rcases w.step_outputs verify hash i with hnone | ⟨s, item, hone⟩ |
    ⟨s, faults, conn, task, rest, -, -, -, hexec, -⟩
  · rw [hnone] at hp
    cases hp
  · rw [hone, dispatchedBy_dispatched] at hp
    split_ifs at hp with hs
    · rw [List.mem_singleton.mp hp, hs]
    · cases hp
  · rw [hexec, dispatchedBy_exec] at hp
    cases hp

/-- Over an unchanged key store all items are dispatched under the same keys, however the two
lookups of a thread stand apart. -/
theorem keys_of_itemsIn (w : World σ) (is : List (Input ε))
    (hkeys : Meets (World.step verify hash) KeysKept w is)
    (hsame : Meets (World.step verify hash) (SameConnection session) w is)
    (hlooked : ∀ ks, w.looked[session]? = some ks → ks = w.keys) :
    ∀ p ∈ itemsIn verify hash session w is, p.1 = ⟨w.keys, w.keys⟩ := by
  induction is generalizing w with
  | nil =>
    intro p hp
    cases hp
  | cons i is ih =>
    intro p hp
    rw [itemsIn, run, dispatchedBy, List.filterMap_append, List.mem_append] at hp
    rcases hp with hp | hp
    · rw [lookups_of_dispatchedBy i p hp, World.lookups]
      cases hl : w.looked[session]? with
      | none => rfl
      | some ks => rw [hlooked ks hl, Option.getD_some]
    · have hnext : (w.step verify hash i).1.keys = w.keys := keys_step i hkeys.1 hsame.1
      rw [← hnext]
      refine ih _ hkeys.2 hsame.2 (fun ks hl => ?_) p hp
      rw [hnext]
      exact (w.looked_step session verify hash i ks hl).elim (hlooked ks) And.left

theorem Life.itemsIn_keys (h : Life verify hash session w is)
    (hkeys : Meets (World.step verify hash) KeysKept w is) :
    ∀ p ∈ itemsIn verify hash session w is, p.1 = ⟨w.keys, w.keys⟩ := by
  obtain ⟨life, rfl⟩ := List.head?_eq_some_iff.mp h.begins
  obtain ⟨b, hfree, hb⟩ := touched_accept session w h.opened
  have haccept := step_accept (ε := ε) verify hash session w b hfree hb
  have hnext : (w.step verify hash (.accept session : Input ε)).1.keys = w.keys := by
    rw [haccept]
  -- a new thread has looked up nothing
  have hlooked : ∀ ks, (w.step verify hash (.accept session : Input ε)).1.looked[session]? = some ks →
      ks = (w.step verify hash (.accept session : Input ε)).1.keys := by
    intro ks hl
    rw [haccept, TreeMap.getElem?_erase_self] at hl
    cases hl
  rw [← hnext]
  exact keys_of_itemsIn _ life hkeys.2 h.goesOn hlooked

theorem eq_map_of_keys (items : List (KeyLookups × Dispatch)) (keys : KeyLookups)
    (h : ∀ p ∈ items, p.1 = keys) : items = (items.map Prod.snd).map fun item => (keys, item) := by
  calc items = items.map id := (List.map_id items).symm
    _ = items.map fun p => (keys, p.2) := List.map_congr_left fun p hp => Prod.ext (h p hp) rfl
    _ = (items.map Prod.snd).map fun item => (keys, item) := by
      rw [List.map_map]
      rfl

/-- A session that waits for more has done all that its bytes say, and nothing else. -/
theorem Life.of_waiting (h : Life verify hash session w is) (conn : Connection)
    (hconn : (run (World.step verify hash) w is).1.connections[session]? = some conn)
    (hw : World.waiting conn = true) :
    Receiver.greedy (bytesIn verify hash session w is) =
        ((itemsIn verify hash session w is).map Prod.snd, conn.toReceiver) ∧
      conn.toSession = { (Session.handleAll verify {} (itemsIn verify hash session w is)).1 with
        toReceiver := conn.toReceiver } ∧
      callsIn verify hash session w is =
        (Session.handleAll verify {} (itemsIn verify hash session w is)).2 := by
  obtain ⟨hp, hopen, hnext⟩ := (waiting_iff conn).mp hw
  have htracks := h.tracks
  rw [hconn] at htracks
  have hcalls := Plays.inLoop htracks hopen
  rw [hp, List.flatMap_nil, List.append_nil] at hcalls
  exact ⟨(Plays.reads htracks).greedy_of_idle hnext, Plays.state htracks, hcalls⟩

/-- Sessions are isolated: what a session does is a function of its bytes and of the trusted keys.
Two sessions that have taken the same bytes and wait for more are in the same state and have made the
same calls, so they have answered and published the same, though they run in two systems with other
storages, other clients, other threads in between and other packets. -/
theorem sessions_isolated {σ' ε' : Type} [Storage σ' ε'] {hash' : HashOrder} {session' : SessionId}
    {w' : World σ'} {is' : List (Input ε')} (h : Life verify hash session w is)
    (h' : Life verify hash' session' w' is') (hkeys : Meets (World.step verify hash) KeysKept w is)
    (hkeys' : Meets (World.step verify hash') KeysKept w' is') (hsame : w'.keys = w.keys)
    (hbytes : bytesIn verify hash' session' w' is' = bytesIn verify hash session w is)
    (conn conn' : Connection)
    (hconn : (run (World.step verify hash) w is).1.connections[session]? = some conn)
    (hconn' : (run (World.step verify hash') w' is').1.connections[session']? = some conn')
    (hw : World.waiting conn = true) (hw' : World.waiting conn' = true) :
    conn'.toSession = conn.toSession ∧
      callsIn verify hash' session' w' is' = callsIn verify hash session w is := by
  obtain ⟨hreads, hstate, hcalls⟩ := h.of_waiting conn hconn hw
  obtain ⟨hreads', hstate', hcalls'⟩ := h'.of_waiting conn' hconn' hw'
  rw [hbytes, hreads, Prod.mk.injEq] at hreads'
  obtain ⟨hitems, hreceiver⟩ := hreads'
  -- the same items, each under the same keys
  have hsameItems : itemsIn verify hash' session' w' is' = itemsIn verify hash session w is := by
    rw [eq_map_of_keys _ _ (h'.itemsIn_keys hkeys'), eq_map_of_keys _ _ (h.itemsIn_keys hkeys), hitems,
      hsame]
  rw [hstate', hstate, hcalls', hcalls, hsameItems, hreceiver]
  exact ⟨rfl, rfl⟩

end Runs

section Subscriptions

/-- The calls that change the subscriptions of the session that makes them. -/
def Call.changes : Call → Bool
  | .subscribe _ | .unsubscribe _ | .removeSession => true
  | .registerClient _ | .replayMessagesForClient _ _ | .publish _ _ | .handleAck _ _ | .send _
  | .unregisterClient _ => false

/-- Those that decide whether it is subscribed to the topic. -/
def Call.concerns (topic : Bytes) : Call → Bool
  | .subscribe t | .unsubscribe t => t = topic
  | .removeSession => true
  | .registerClient _ | .replayMessagesForClient _ _ | .publish _ _ | .handleAck _ _ | .send _
  | .unregisterClient _ => false

/-- The subscriptions an item asks for and gives up. -/
def Dispatch.subscriptions : Dispatch → List Call
  | .frame f =>
    match f.command with
    -- what stands before the first NUL is a client id
    | .subscribe => [.subscribe ((find f.topic 0).elim f.topic fun sep => f.topic.drop (sep + 1))]
    | .unsubscribe => [.unsubscribe f.topic]
    | .publish | .signedPublish | .ping | .ack | .signedMessage | .message | .pong | .error
    | .unnamed _ _ => []
  | .command v =>
    match v.isArray, v.asArray with
    | true, head :: args =>
      if Session.toUpper head.asString = lit "SUBSCRIBE" then args.map fun a => .subscribe a.asString
      else if Session.toUpper head.asString = lit "UNSUBSCRIBE" then
        args.map fun a => .unsubscribe a.asString
      else []
    | _, _ => []

theorem Session.changes_handleBinaryFrame (verify : Verify) (keys : KeyLookups) (s : Session)
    (f : BinaryFrame) : (handleBinaryFrame verify keys s f).2.filter Call.changes =
      (Dispatch.frame f).subscriptions := by
  rw [handleBinaryFrame, Dispatch.subscriptions]
  cases f.command with
  | subscribe =>
    dsimp only
    rw [handleSubscribe]
    cases find f.topic 0 <;> rfl
  | publish =>
    dsimp only
    rw [handlePublish]
    split_ifs <;> rfl
  | signedPublish =>
    dsimp only
    rw [handleSignedPublish]
    split_ifs <;> rfl
  | ack =>
    dsimp only
    split_ifs <;> rfl
  | unsubscribe | ping | signedMessage | message | pong | error | unnamed => rfl

theorem Session.changes_respSubscribe (i : ℕ) (args : List RespValue) :
    (respSubscribe i args).filter Call.changes = args.map fun a => .subscribe a.asString := by
  induction args generalizing i with
  | nil => rfl
  | cons arg args ih =>
    rw [respSubscribe, List.filter_cons_of_pos rfl, List.filter_cons_of_neg (by exact Bool.false_ne_true),
      ih, List.map_cons]

theorem Session.changes_respUnsubscribe (args : List RespValue) :
    (respUnsubscribe args).filter Call.changes = args.map fun a => .unsubscribe a.asString := by
  induction args with
  | nil => rfl
  | cons arg args ih =>
    rw [respUnsubscribe, List.flatMap_cons, List.filter_append, ← respUnsubscribe, ih]
    rfl

theorem Session.changes_handleCommand (s : Session) (v : RespValue) :
    (handleCommand s v).filter Call.changes = (Dispatch.command v).subscriptions := by
  rw [handleCommand, Dispatch.subscriptions]
  cases v.isArray with
  | false => rfl
  | true =>
    cases v.asArray with
    | nil => rfl
    | cons head args =>
      dsimp only
      rw [Bool.not_true, if_neg Bool.false_ne_true]
      split_ifs with h1 h2 h3 h4 h5
      · exact changes_respSubscribe 1 args
      · exact changes_respUnsubscribe args
      · unfold respPublish
        split <;> rfl
      · cases args <;> rfl
      · unfold respAck
        split
        · split_ifs <;> rfl
        · rfl
      · rfl

/-- A handler changes the subscriptions as its item says, whatever the keys and the session. -/
theorem Session.changes_handleAll (verify : Verify) (s : Session)
    (items : List (KeyLookups × Dispatch)) :
    (handleAll verify s items).2.filter Call.changes =
      (items.map Prod.snd).flatMap Dispatch.subscriptions := by
  induction items generalizing s with
  | nil => rfl
  | cons p items ih =>
    obtain ⟨keys, item⟩ := p
    rw [handleAll, List.filter_append, ih, List.map_cons, List.flatMap_cons]
    cases item with
    | frame f => rw [handle, changes_handleBinaryFrame]
    | command v => rw [handle, changes_handleCommand]

theorem Call.filter_concerns (topic : Bytes) (calls : List Call) :
    (calls.filter Call.changes).filter (Call.concerns topic) = calls.filter (Call.concerns topic) := by
  rw [List.filter_filter]
  refine List.filter_congr fun call _ => ?_
  cases call <;> simp [Call.concerns, Call.changes]

variable {σ ε : Type} [Storage σ ε] {verify : Verify} {hash : HashOrder} {session : SessionId}

theorem World.subscribed_methods (w : World σ) (i : Input ε) (topic : Bytes) :
    (w.broker.after hash (w.methods i)).Subscribed session topic ↔
      .subscribe session topic ∈ w.methods i ∨ w.broker.Subscribed session topic ∧
        .unsubscribe session topic ∉ w.methods i ∧ .removeSession session ∉ w.methods i := by
  rcases w.methods_cases i with he | ⟨m, he⟩
  · rw [he, Broker.after_nil]
    simp
  · rw [he]
    change (w.broker.perform hash m).Subscribed session topic ↔ _
    rw [Broker.subscribed_perform]
    simp [eq_comm]

omit [Storage σ ε] in
/-- A call that the thread of a session makes is a method with the name of the session. -/
theorem mem_methods_iff_made (session : SessionId) (w : World σ) (i : Input ε) (topic : Bytes) :
    (.subscribe session topic ∈ w.methods i ↔ w.made session i = [.subscribe topic]) ∧
      (.unsubscribe session topic ∈ w.methods i ↔ w.made session i = [.unsubscribe topic]) ∧
      (.removeSession session ∈ w.methods i ↔ w.made session i = [.removeSession]) := by
  cases i with
  | accept s =>
    rw [World.methods, World.made]
    split_ifs <;> simp
  | recv | hangup | keyStore | stop | restart => simp [World.methods, World.made]
  | thread s faults =>
    rw [World.methods, World.made]
    by_cases hs : s = session
    · subst hs
      rw [if_pos rfl]
      cases w.pendingTask s with
      | none => simp
      | some task =>
        cases task with
        | call call => cases call <;> simp [Task.method, Task.calls, eq_comm]
        | replayMessages | loadUnacked | sendStored | sendUnacked => simp [Task.method, Task.calls]
    · rw [if_neg hs]
      cases w.pendingTask s with
      | none => simp
      | some task =>
        have hne : session ≠ s := Ne.symm hs
        cases task with
        | call call => cases call <;> simp [Task.method, hne]
        | replayMessages | loadUnacked | sendStored | sendUnacked => simp [Task.method]

/-- Only the calls of its own thread change what a session is subscribed to. -/
theorem subscribed_step_made (w : World σ) (hlive : w.ConnectedLive) (i : Input ε)
    (hi : SameConnection session w i) (topic : Bytes) :
    (w.step verify hash i).1.broker.Subscribed session topic ↔
      w.made session i = [.subscribe topic] ∨ w.broker.Subscribed session topic ∧
        w.made session i ≠ [.unsubscribe topic] ∧ w.made session i ≠ [.removeSession] := by
  have hrun : NoRestart w i := by
    cases i with
    | restart => exact hi
    | accept | recv | hangup | thread | keyStore | stop => trivial
  obtain ⟨hsub, hunsub, hremove⟩ := mem_methods_iff_made session w i topic
  rw [(World.step_methods verify hash w i hlive hrun).2.1, World.subscribed_methods, hsub, hunsub,
    hremove]

omit [Storage σ ε] in
theorem made_cases (session : SessionId) (w : World σ) (i : Input ε) :
    w.made session i = [] ∨ ∃ call, w.made session i = [call] := by
  cases i with
  | thread s faults =>
    rw [World.made]
    split_ifs
    · cases w.pendingTask session with
      | none => exact Or.inl rfl
      | some task =>
        cases task with
        | call call => exact Or.inr ⟨call, rfl⟩
        | replayMessages | loadUnacked | sendStored | sendUnacked => exact Or.inl rfl
    · exact Or.inl rfl
  | accept | recv | hangup | keyStore | stop | restart => exact Or.inl rfl

/-- The last call on a topic decides. -/
theorem subscribed_run_made (w : World σ) (hlive : w.ConnectedLive) (is : List (Input ε))
    (his : Meets (World.step verify hash) (SameConnection session) w is) (topic : Bytes)
    (made : List Call) (h : w.broker.Subscribed session topic ↔
      (made.filter (Call.concerns topic)).getLast? = some (.subscribe topic)) :
    (run (World.step verify hash) w is).1.broker.Subscribed session topic ↔
      ((made ++ callsIn verify hash session w is).filter (Call.concerns topic)).getLast? =
        some (.subscribe topic) := by
  induction is generalizing w made with
  | nil =>
    rw [callsIn, movesOf, List.append_nil]
    exact h
  | cons i is ih =>
    rw [callsIn, movesOf, ← List.append_assoc, run]
    apply ih _ (World.connectedLive_step verify hash w i hlive) his.2
    rw [subscribed_step_made w hlive i his.1, h, List.filter_append]
    rcases made_cases session w i with he | ⟨call, he⟩
    · simp [he]
    · rw [he, List.filter_singleton]
      cases hc : call.concerns topic with
      | false =>
        -- the call is about something else
        rw [cond_false, List.append_nil]
        have hne : call ≠ .subscribe topic ∧ call ≠ .unsubscribe topic ∧ call ≠ .removeSession := by
          refine ⟨?_, ?_, ?_⟩ <;>
            · rintro rfl
              simp [Call.concerns] at hc
        simp [hne]
      | true =>
        -- it is the last one now
        rw [cond_true, List.getLast?_concat]
        cases call with
        | subscribe t | unsubscribe t =>
          have ht : t = topic := by simpa [Call.concerns] using hc
          simp [ht]
        | removeSession => simp
        | registerClient | replayMessagesForClient | publish | handleAck | send | unregisterClient =>
          cases hc

/-- Also what a session is subscribed to is a function of its bytes: when it waits for more it is
subscribed to the topics for which the last item in its bytes that names them is a subscribe. -/
theorem subscriptions_of_stream {w : World σ} {is : List (Input ε)} (h : Life verify hash session w is)
    (conn : Connection)
    (hconn : (run (World.step verify hash) w is).1.connections[session]? = some conn)
    (hw : World.waiting conn = true) (topic : Bytes) :
    (run (World.step verify hash) w is).1.broker.Subscribed session topic ↔
      (((Receiver.greedy (bytesIn verify hash session w is)).1.flatMap Dispatch.subscriptions).filter
        (Call.concerns topic)).getLast? = some (.subscribe topic) := by
  obtain ⟨hreads, -, hcalls⟩ := h.of_waiting conn hconn hw
  rw [hreads, ← Session.changes_handleAll verify {}, Call.filter_concerns, ← hcalls]
  obtain ⟨life, rfl⟩ := List.head?_eq_some_iff.mp h.begins
  obtain ⟨b, hfree, hb⟩ := touched_accept session w h.opened
  -- a new session is subscribed to nothing
  have hnone : ¬ (w.step verify hash (.accept session : Input ε)).1.broker.Subscribed session topic := by
    rw [(World.step_methods verify hash w (.accept session : Input ε) h.sound.live trivial).2.1,
      World.subscribed_methods]
    have hbefore := (h.sound.gone hfree).subscribed topic
    rw [World.methods]
    split_ifs <;> simp [hbefore]
  exact subscribed_run_made _ (World.connectedLive_step verify hash w (.accept session) h.sound.live) life
    h.goesOn topic [] (iff_of_false hnone (by simp))

end Subscriptions

section Example

open World

/-- A client subscribes, its frame cut in two, with another client connecting in between. -/
def cutSubscribe : List (Input (Option MdbError)) :=
  [.accept 0, .recv 0 ((BinaryProtocol.serialize (.subscribe (lit "t") 1)).take 5), .accept 1,
    .recv 0 ((BinaryProtocol.serialize (.subscribe (lit "t") 1)).drop 5)] ++
    List.replicate 4 (.thread 0 allCommit)

/-- A client of another process, in which a message on the topic has been published before. -/
def laterSubscribe : List (Input (Option MdbError)) := binaryClient 1 (.subscribe (lit "t") 1) 5

theorem life_cutSubscribe :
    Life (fun _ _ _ => true) insertionOrder 0 (World.start LmdbFile.empty) cutSubscribe :=
  ⟨⟨LmdbFile.empty, [], rfl⟩, by decide, rfl, by decide⟩

theorem life_laterSubscribe : Life (fun _ _ _ => true) insertionOrder 1
    (run (World.step (fun _ _ _ => true) insertionOrder) (World.start LmdbFile.empty)
      (binaryClient 0 (.publish (lit "t") (lit "a") 1) 3)).1 laterSubscribe :=
  ⟨⟨LmdbFile.empty, _, rfl⟩, by decide, rfl, by decide⟩

theorem waiting_cutSubscribe : ∃ conn, (run (World.step (fun _ _ _ => true) insertionOrder)
      (World.start LmdbFile.empty) cutSubscribe).1.connections[0]? = some conn ∧
    World.waiting conn = true := by
  have h : ((run (World.step (fun _ _ _ => true) insertionOrder) (World.start LmdbFile.empty)
      cutSubscribe).1.connections[0]?).any World.waiting = true := by decide
  obtain ⟨conn, hconn, hw⟩ := (Option.any_eq_true _ _).mp h
  exact ⟨conn, hconn, hw⟩

theorem waiting_laterSubscribe : ∃ conn, (run (World.step (fun _ _ _ => true) insertionOrder)
      (run (World.step (fun _ _ _ => true) insertionOrder) (World.start LmdbFile.empty)
        (binaryClient 0 (.publish (lit "t") (lit "a") 1) 3)).1 laterSubscribe).1.connections[1]? =
      some conn ∧ World.waiting conn = true := by
  have h : ((run (World.step (fun _ _ _ => true) insertionOrder)
      (run (World.step (fun _ _ _ => true) insertionOrder) (World.start LmdbFile.empty)
        (binaryClient 0 (.publish (lit "t") (lit "a") 1) 3)).1
      laterSubscribe).1.connections[1]?).any World.waiting = true := by decide
  obtain ⟨conn, hconn, hw⟩ := (Option.any_eq_true _ _).mp h
  exact ⟨conn, hconn, hw⟩

theorem reads_stream_cut :
    (itemsIn (fun _ _ _ => true) insertionOrder 0 (World.start LmdbFile.empty) cutSubscribe).map
      Prod.snd = (Receiver.greedy (BinaryProtocol.serialize (.subscribe (lit "t") 1))).1 := by
  have hbytes : bytesIn (fun _ _ _ => true) insertionOrder 0 (World.start LmdbFile.empty) cutSubscribe =
      BinaryProtocol.serialize (.subscribe (lit "t") 1) := by decide
  obtain ⟨conn, hconn, hw⟩ := waiting_cutSubscribe
  rw [← hbytes]
  refine (reads_stream life_cutSubscribe).2.2 fun c hc => ?_
  obtain rfl := Option.some_inj.mp (hconn.symm.trans hc)
  exact ((waiting_iff conn).mp hw).2.2

theorem runs_sequentially_cut : ∃ conn, (run (World.step (fun _ _ _ => true) insertionOrder)
      (World.start LmdbFile.empty) cutSubscribe).1.connections[0]? = some conn ∧
    { conn.toSession with toReceiver := {} } = (Session.handleAll (fun _ _ _ => true) {}
      (itemsIn (fun _ _ _ => true) insertionOrder 0 (World.start LmdbFile.empty) cutSubscribe)).1 ∧
    (Session.handleAll (fun _ _ _ => true) {}
      (itemsIn (fun _ _ _ => true) insertionOrder 0 (World.start LmdbFile.empty) cutSubscribe)).2 =
      [.subscribe (lit "t"), Session.sendBinary (.ack 1)] := by
  obtain ⟨conn, hconn, hw⟩ := waiting_cutSubscribe
  obtain ⟨hstate, hall⟩ := (runs_sequentially life_cutSubscribe).1 conn hconn
  have hcalls : callsIn (fun _ _ _ => true) insertionOrder 0 (World.start LmdbFile.empty) cutSubscribe ++
      callsLeft 0 (run (World.step (fun _ _ _ => true) insertionOrder) (World.start LmdbFile.empty)
        cutSubscribe).1 = [.subscribe (lit "t"), Session.sendBinary (.ack 1)] := by decide
  exact ⟨conn, hconn, hstate, (hall ((waiting_iff conn).mp hw).2.1).symm.trans hcalls⟩

theorem sessions_isolated_subscribers : ∃ conn conn' : Connection,
    (run (World.step (fun _ _ _ => true) insertionOrder) (World.start LmdbFile.empty)
      cutSubscribe).1.connections[0]? = some conn ∧
    (run (World.step (fun _ _ _ => true) insertionOrder)
      (run (World.step (fun _ _ _ => true) insertionOrder) (World.start LmdbFile.empty)
        (binaryClient 0 (.publish (lit "t") (lit "a") 1) 3)).1 laterSubscribe).1.connections[1]? =
      some conn' ∧ conn'.toSession = conn.toSession := by
  obtain ⟨conn, hconn, hw⟩ := waiting_cutSubscribe
  obtain ⟨conn', hconn', hw'⟩ := waiting_laterSubscribe
  refine ⟨conn, conn', hconn, hconn', ?_⟩
  exact (sessions_isolated life_cutSubscribe life_laterSubscribe (by decide) (by decide) rfl
    (by decide) conn conn' hconn hconn' hw hw').1

theorem subscriptions_of_stream_cut : (run (World.step (fun _ _ _ => true) insertionOrder)
    (World.start LmdbFile.empty) cutSubscribe).1.broker.Subscribed 0 (lit "t") := by
  obtain ⟨conn, hconn, hw⟩ := waiting_cutSubscribe
  refine (subscriptions_of_stream life_cutSubscribe conn hconn hw (lit "t")).mpr ?_
  rw [← Receiver.drainAll_eq_greedy]
  decide

end Example

end MetricMQ
