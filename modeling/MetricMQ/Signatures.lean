import MetricMQ.Clients
import MetricMQ.Machine

/-! What a signature authorizes. The first part takes the handling of one signed publish apart
into its locked sections, between which other threads change the key store; the second
compares two frames that carry the same signature. -/
namespace MetricMQ

open ByteString Std Machine Session

/-- Where the handling of a signed publish stands. `verify_with_key` is the first three stages;
the record is looked up again for the scope check. -/
inductive SignedStage
  | lookup
  | verify (publicKey : PublicKey)
  | touch
  | getKeyInfo
  | checkScope (keyInfo : Option TrustedKey)
  | publish
  | rejected (text : Bytes)
  | published

structure SignedHandling where
  keys : TrustedKeyStore
  stage : SignedStage := .lookup

namespace SignedHandling

inductive Input
  | handler
  | keyStore (op : TrustedKeyStore.Op)

def invalidSignature : Bytes := lit "Invalid signature or unknown key"

def notAuthorized (topic : Bytes) : Bytes :=
  lit "Key not authorized for topic '" ++ topic ++ lit "'"

/-- One section of the handler, which reads the key store at most once. -/
def advance (verify : Verify) (f : BinaryFrame) (keys : TrustedKeyStore) : SignedStage → SignedStage
  | .lookup =>
    match keys.keys[f.keyId]? with
    | none => .rejected invalidSignature
    | some key => if key.enabled then .verify key.publicKey else .rejected invalidSignature
  | .verify publicKey =>
    -- outside the lock
    if verify (f.topic ++ f.payload) f.signature publicKey then .touch
    else .rejected invalidSignature
  -- the time of last use is the only thing `touch` writes
  | .touch => .getKeyInfo
  | .getKeyInfo => .checkScope (keys.getKeyInfo f.keyId)
  | .checkScope keyInfo =>
    match keyInfo with
    -- a record that has disappeared is taken for one without a scope
    | none => .publish
    | some key =>
      if key.allowedTopics = [] then .publish
      else if topicAllowed key.allowedTopics f.topic then .publish
      else .rejected (notAuthorized f.topic)
  | .publish => .published
  | .rejected text => .rejected text
  | .published => .published

def isOver : SignedStage → Bool
  | .rejected _ | .published => true
  | _ => false

/-- A step puts out the key store it leaves, as long as the handling goes on. -/
def step (verify : Verify) (f : BinaryFrame) (st : SignedHandling) (i : Input) :
    SignedHandling × List TrustedKeyStore :=
  if isOver st.stage then (st, [])
  else
    match i with
    | .handler => ({ st with stage := advance verify f st.keys st.stage }, [st.keys])
    | .keyStore op => ({ st with keys := st.keys.apply op }, [st.keys.apply op])

/-- What the handler has sent when it is through. -/
def outcome (s : Session) (f : BinaryFrame) : SignedStage → Session × List Call
  | .published => ({ s with sequence := s.sequence + 1 }, publishCalls f
      (.signedMessage f.topic f.payload f.signature f.keyId (s.sequence + 1)))
  | .rejected text => (s, [sendBinary (.error text)])
  | _ => (s, [])

/-- Without steps of other threads the sections are `handleSignedPublish`. -/
theorem outcome_uninterrupted (verify : Verify) (keys : TrustedKeyStore) (s : Session)
    (f : BinaryFrame) :
    outcome s f (run (step verify f) { keys := keys } (List.replicate 6 .handler)).1.stage =
      handleSignedPublish verify keys s f := by
  simp only [handleSignedPublish, TrustedKeyStore.verifyWithKey, topicAuthorized,
    TrustedKeyStore.getKeyInfo, List.replicate, run]
  -- each check that fails ends the handling, and the turns left over do nothing
  rcases Option.eq_none_or_eq_some keys.keys[f.keyId]? with hk | ⟨key, hk⟩
  · simp [step, isOver, advance, hk, outcome, invalidSignature]
  · by_cases he : key.enabled = true
    · by_cases hv : verify (f.topic ++ f.payload) f.signature key.publicKey = true
      · by_cases ha : key.allowedTopics = []
        · simp [step, isOver, advance, hk, he, hv, ha, outcome, TrustedKeyStore.getKeyInfo]
        · by_cases ht : topicAllowed key.allowedTopics f.topic = true
          · simp [step, isOver, advance, hk, he, hv, ha, ht, outcome, TrustedKeyStore.getKeyInfo]
          · simp [step, isOver, advance, hk, he, hv, ha, ht, outcome, TrustedKeyStore.getKeyInfo,
              notAuthorized]
      · simp [step, isOver, advance, hk, he, hv, outcome, invalidSignature]
    · simp [step, isOver, advance, hk, he, outcome, invalidSignature]

/-- An operation that takes the record of `keyId` away or puts another in its place. An
assigned id is in use already when the counter has wrapped around. -/
def dropsRecord (keyId : UInt32) (keys : TrustedKeyStore) : TrustedKeyStore.Op → Bool
  | .registerKey _ _ _ => keys.nextKeyId = keyId
  | .registerKeyAs _ _ _ _ | .setEnabled _ _ => false
  | .removeKey id => id = keyId
  | .clear => true

theorem getElem?_apply (keyId : UInt32) (keys : TrustedKeyStore) (op : TrustedKeyStore.Op)
    (key : TrustedKey) (hk : keys.keys[keyId]? = some key) (hd : dropsRecord keyId keys op = false) :
    ∃ key', (keys.apply op).keys[keyId]? = some key' ∧ key'.allowedTopics = key.allowedTopics := by
  cases op with
  | registerKey publicKey deviceName allowedTopics =>
    refine ⟨key, ?_, rfl⟩
    rw [dropsRecord, decide_eq_false_iff_not] at hd
    simp only [TrustedKeyStore.apply, TrustedKeyStore.registerKey]
    rw [TreeMap.getElem?_insert, if_neg (by simpa using hd)]
    exact hk
  | registerKeyAs id publicKey deviceName allowedTopics =>
    refine ⟨key, ?_, rfl⟩
    rw [TrustedKeyStore.apply, TrustedKeyStore.registerKeyAs]
    -- an id that is taken is refused
    by_cases hc : keys.keys.contains id = true
    · rw [if_pos hc]
      exact hk
    · rw [if_neg hc]
      dsimp only
      rw [TreeMap.getElem?_insert, if_neg]
      · exact hk
      · intro he
        rw [LawfulEqCmp.compare_eq_iff_eq] at he
        rw [he, TreeMap.contains_eq_isSome_getElem?, hk] at hc
        exact hc rfl
  | setEnabled id enabled =>
    simp only [TrustedKeyStore.apply, TrustedKeyStore.setEnabled]
    cases hid : keys.keys[id]? with
    | none => exact ⟨key, hk, rfl⟩
    | some key' =>
      dsimp only
      rw [TreeMap.getElem?_insert]
      split_ifs with he
      · rw [LawfulEqCmp.compare_eq_iff_eq] at he
        rw [he, hk] at hid
        obtain rfl := Option.some_inj.mp hid
        exact ⟨_, rfl, rfl⟩
      · exact ⟨key, hk, rfl⟩
  | removeKey id =>
    refine ⟨key, ?_, rfl⟩
    rw [dropsRecord, decide_eq_false_iff_not] at hd
    simp only [TrustedKeyStore.apply, TrustedKeyStore.removeKey]
    rw [TreeMap.getElem?_erase, if_neg (by simpa using hd)]
    exact hk
  | clear => cases hd

/-- The handler has looked the key up and not yet read its scope. -/
def betweenLookups : SignedStage → Bool
  | .verify _ | .touch | .getKeyInfo => true
  | _ => false

/-- Between the two lookups a record of the key is only dropped if its scope covers the topic. -/
def Undisturbed (f : BinaryFrame) (st : SignedHandling) : Input → Prop
  | .handler => True
  | .keyStore op => betweenLookups st.stage = true → dropsRecord f.keyId st.keys op = true →
      ∀ key, st.keys.keys[f.keyId]? = some key → ScopeCovers key.allowedTopics f.topic

/-- At an earlier moment the key was enabled with `publicKey`, and its scope covered the topic
or is the scope of the record that is there now. -/
def LookedUp (f : BinaryFrame) (keys : TrustedKeyStore) (tr : List TrustedKeyStore)
    (publicKey : PublicKey) : Prop :=
  ∃ ks ∈ tr, ∃ key, ks.keys[f.keyId]? = some key ∧ key.enabled = true ∧
    key.publicKey = publicKey ∧ (ScopeCovers key.allowedTopics f.topic ∨
      ∃ key', keys.keys[f.keyId]? = some key' ∧ key'.allowedTopics = key.allowedTopics)

theorem lookedUp_append (f : BinaryFrame) (keys : TrustedKeyStore) (tr outs : List TrustedKeyStore)
    (pk : PublicKey) (h : LookedUp f keys tr pk) : LookedUp f keys (tr ++ outs) pk := by
  obtain ⟨ks, hks, hrest⟩ := h
  exact ⟨ks, List.mem_append_left _ hks, hrest⟩

theorem lookedUp_apply (f : BinaryFrame) (keys : TrustedKeyStore) (tr : List TrustedKeyStore)
    (pk : PublicKey) (op : TrustedKeyStore.Op) (h : LookedUp f keys tr pk)
    (hop : dropsRecord f.keyId keys op = true →
      ∀ key, keys.keys[f.keyId]? = some key → ScopeCovers key.allowedTopics f.topic) :
    LookedUp f (keys.apply op) tr pk := by
  obtain ⟨ks, hks, key, hk, he, hpk, hscope⟩ := h
  refine ⟨ks, hks, key, hk, he, hpk, ?_⟩
  rcases hscope with hc | ⟨key', hk', ha⟩
  · exact Or.inl hc
  · cases hd : dropsRecord f.keyId keys op with
    | true =>
      left
      rw [← ha]
      exact hop hd key' hk'
    | false =>
      obtain ⟨key'', hk'', ha'⟩ := getElem?_apply f.keyId keys op key' hk' hd
      exact Or.inr ⟨key'', hk'', ha'.trans ha⟩

/-- At some moment of the handling the frame was authorized. -/
def AuthorizedIn (verify : Verify) (f : BinaryFrame) (tr : List TrustedKeyStore) : Prop :=
  ∃ ks ∈ tr, Authorized verify ks f

/-- What is known at each stage; `tr` holds the key stores since the handling began. -/
def StageInv (verify : Verify) (f : BinaryFrame) (keys : TrustedKeyStore)
    (tr : List TrustedKeyStore) : SignedStage → Prop
  | .lookup | .rejected _ => True
  | .verify publicKey => LookedUp f keys tr publicKey
  | .touch | .getKeyInfo => ∃ publicKey,
      verify (f.topic ++ f.payload) f.signature publicKey = true ∧ LookedUp f keys tr publicKey
  | .checkScope keyInfo => (∀ key, keyInfo = some key → ScopeCovers key.allowedTopics f.topic) →
      AuthorizedIn verify f tr
  | .publish | .published => AuthorizedIn verify f tr

theorem authorizedIn_of_lookedUp (verify : Verify) (f : BinaryFrame) (keys : TrustedKeyStore)
    (tr : List TrustedKeyStore) (pk : PublicKey)
    (hv : verify (f.topic ++ f.payload) f.signature pk = true) (h : LookedUp f keys tr pk)
    (hc : ∀ key, keys.keys[f.keyId]? = some key → ScopeCovers key.allowedTopics f.topic) :
    AuthorizedIn verify f tr := by
  obtain ⟨ks, hks, key, hk, he, rfl, hscope⟩ := h
  refine ⟨ks, hks, key, hk, he, hv, ?_⟩
  rcases hscope with hs | ⟨key', hk', ha⟩
  · exact hs
  · rw [← ha]
    exact hc key' hk'

theorem stageInv_advance (verify : Verify) (f : BinaryFrame) (keys : TrustedKeyStore)
    (tr : List TrustedKeyStore) (stage : SignedStage) (hm : keys ∈ tr)
    (h : StageInv verify f keys tr stage) :
    StageInv verify f keys tr (advance verify f keys stage) := by
  cases stage with
  | lookup =>
    rw [advance]
    rcases Option.eq_none_or_eq_some keys.keys[f.keyId]? with hk | ⟨key, hk⟩
    · rw [hk]
      trivial
    · rw [hk]
      dsimp only
      split_ifs with he
      · exact ⟨keys, hm, key, hk, he, rfl, Or.inr ⟨key, hk, rfl⟩⟩
      · trivial
  | verify pk =>
    rw [advance]
    split_ifs with hv
    · exact ⟨pk, hv, h⟩
    · trivial
  | touch => exact h
  | getKeyInfo =>
    obtain ⟨pk, hv, hl⟩ := h
    exact authorizedIn_of_lookedUp verify f keys tr pk hv hl
  | checkScope info =>
    cases info with
    | none => exact h fun key hk => nomatch hk
    | some key =>
      simp only [advance]
      split_ifs with ha ht
      · exact h fun _ hk => Or.inl (Option.some_inj.mp hk ▸ ha)
      · exact h fun _ hk => Or.inr (Option.some_inj.mp hk ▸ ht)
      · trivial
  | publish => exact h
  | rejected => trivial
  | published => exact h

theorem stageInv_append (verify : Verify) (f : BinaryFrame) (keys : TrustedKeyStore)
    (tr outs : List TrustedKeyStore) (stage : SignedStage) (h : StageInv verify f keys tr stage) :
    StageInv verify f keys (tr ++ outs) stage := by
  have hmono : AuthorizedIn verify f tr → AuthorizedIn verify f (tr ++ outs) := by
    rintro ⟨ks, hks, ha⟩
    exact ⟨ks, List.mem_append_left _ hks, ha⟩
  cases stage with
  | lookup | rejected => trivial
  | verify pk => exact lookedUp_append f keys tr outs pk h
  | touch | getKeyInfo =>
    obtain ⟨pk, hv, hl⟩ := h
    exact ⟨pk, hv, lookedUp_append f keys tr outs pk hl⟩
  | checkScope info => exact fun hc => hmono (h hc)
  | publish | published => exact hmono h

theorem stageInv_apply (verify : Verify) (f : BinaryFrame) (st : SignedHandling)
    (tr : List TrustedKeyStore) (op : TrustedKeyStore.Op)
    (h : StageInv verify f st.keys tr st.stage) (hop : Undisturbed f st (.keyStore op)) :
    StageInv verify f (st.keys.apply op) tr st.stage := by
  obtain ⟨keys, stage⟩ := st
  cases stage with
  | lookup | rejected => trivial
  | verify pk => exact lookedUp_apply f keys tr pk op h (hop rfl)
  | touch | getKeyInfo =>
    obtain ⟨pk, hv, hl⟩ := h
    exact ⟨pk, hv, lookedUp_apply f keys tr pk op hl (hop rfl)⟩
  | checkScope | publish | published => exact h

def Inv (verify : Verify) (f : BinaryFrame) (st : SignedHandling) (tr : List TrustedKeyStore) : Prop :=
  st.keys ∈ tr ∧ StageInv verify f st.keys tr st.stage

theorem inv_step (verify : Verify) (f : BinaryFrame) (st : SignedHandling)
    (tr : List TrustedKeyStore) (i : Input) (h : Inv verify f st tr) (hi : Undisturbed f st i) :
    Inv verify f (step verify f st i).1 (tr ++ (step verify f st i).2) := by
  unfold step
  split_ifs
  · rw [List.append_nil]
    exact h
  · cases i with
    | handler =>
      refine ⟨List.mem_append_left _ h.1, stageInv_append _ _ _ _ _ _ ?_⟩
      exact stageInv_advance verify f st.keys tr st.stage h.1 h.2
    | keyStore op =>
      -- the changed store is the new moment; what was looked up before may be out of date
      refine ⟨List.mem_append_right _ (List.mem_singleton.mpr rfl), stageInv_append _ _ _ _ _ _ ?_⟩
      exact stageInv_apply verify f st tr op h.2 hi

/-- However the handling of a signed publish is interleaved with changes of the key store: if
between its two lookups no record of the key is dropped whose scope does not cover the topic,
a published frame was authorized by the key store of one moment. -/
theorem published_authorized_at_one_moment (verify : Verify) (f : BinaryFrame)
    (keys : TrustedKeyStore) (is : List Input)
    (hok : Meets (step verify f) (Undisturbed f) { keys := keys } is)
    (hp : (run (step verify f) { keys := keys } is).1.stage = .published) :
    ∃ ks ∈ keys :: (run (step verify f) { keys := keys } is).2, Authorized verify ks f := by
  have h := run_invariant (Inv verify f) (inv_step verify f) { keys := keys } [keys] is
    ⟨List.mem_singleton.mpr rfl, trivial⟩ hok
  have hs := h.2
  rw [hp] at hs
  exact hs

/-- One key, number 1, for the topics of the sensors. -/
def sensorKeys : TrustedKeyStore :=
  (TrustedKeyStore.registerKey {} (Vector.replicate 32 9) (lit "sensor") (lit "sensors/*")).1

/-- A check that knows a single signed message. -/
def acceptsOnly (message : Bytes) : Verify := fun m _ _ => m = message

/-- The key is disabled and another one registered while its frame is handled. -/
theorem published_authorized_at_one_moment_disabled :
    ∃ ks ∈ sensorKeys :: (run (step (acceptsOnly (lit "sensors/t20"))
        (.signedPublish (lit "sensors/t") (lit "20") (Vector.replicate 64 0) 1 1))
        { keys := sensorKeys }
        [.handler, .handler, .keyStore (.setEnabled 1 false), .handler,
          .keyStore (.registerKey (Vector.replicate 32 8) (lit "door") (lit "secure/*")),
          .handler, .handler, .handler]).2,
      Authorized (acceptsOnly (lit "sensors/t20")) ks
        (.signedPublish (lit "sensors/t") (lit "20") (Vector.replicate 64 0) 1 1) := by
  apply published_authorized_at_one_moment
  · exact ⟨trivial, trivial, fun _ h => (nomatch h), trivial, fun _ h => absurd h (by decide), trivial,
      trivial, trivial, trivial⟩
  · rfl

/-- The key of the sensors signs a topic outside its scope and is removed after its signature
was checked: the frame is published though no key store of the time authorized it. -/
theorem published_after_key_removal :
    (run (step (acceptsOnly (lit "secure/dooropen"))
        (.signedPublish (lit "secure/door") (lit "open") (Vector.replicate 64 0) 1 1))
        { keys := sensorKeys }
        [.handler, .handler, .handler, .keyStore (.removeKey 1), .handler, .handler, .handler]).1.stage =
      .published ∧
    ¬ ∃ ks ∈ sensorKeys :: (run (step (acceptsOnly (lit "secure/dooropen"))
        (.signedPublish (lit "secure/door") (lit "open") (Vector.replicate 64 0) 1 1))
        { keys := sensorKeys }
        [.handler, .handler, .handler, .keyStore (.removeKey 1), .handler, .handler, .handler]).2,
      Authorized (acceptsOnly (lit "secure/dooropen")) ks
        (.signedPublish (lit "secure/door") (lit "open") (Vector.replicate 64 0) 1 1) := by
  refine ⟨rfl, ?_⟩
  have hnone : ∀ ks ∈ [sensorKeys, sensorKeys, sensorKeys, sensorKeys,
      sensorKeys.apply (.removeKey 1), sensorKeys.apply (.removeKey 1),
      sensorKeys.apply (.removeKey 1), sensorKeys.apply (.removeKey 1)],
      ∀ key ∈ ks.keys[(1 : UInt32)]?, ¬ ScopeCovers key.allowedTopics (lit "secure/door") := by
    decide
  rintro ⟨ks, hks, key, hk, -, -, hs⟩
  exact hnone ks hks key hk hs

end SignedHandling

section Binding

/-- Under a given key a signature fits at most one string of bytes. -/
def SingleMessage (verify : Verify) : Prop :=
  ∀ signature publicKey m m', verify m signature publicKey = true →
    verify m' signature publicKey = true → m = m'

/-- The broker publishes what a session does with the frame. -/
def PublishedBy (verify : Verify) (keys : TrustedKeyStore) (s : Session) (f : BinaryFrame) : Prop :=
  ∃ topic data, .publish topic data ∈ (handleBinaryFrame verify keys s f).2

theorem authorized_of_publishedBy (verify : Verify) (keys : TrustedKeyStore) (s : Session)
    (f : BinaryFrame) (hc : f.command = .signedPublish) (h : PublishedBy verify keys s f) :
    Authorized verify keys f := by
  obtain ⟨topic, data, hm⟩ := h
  rw [handleBinaryFrame, hc] at hm
  rcases handleSignedPublish_cases verify keys s f with ⟨text, -, he⟩ | ⟨ha, -⟩
  · simp [he, sendBinary] at hm
  · exact (passesChecks_same verify keys f).mp ha

theorem publishedBy_of_authorized (verify : Verify) (keys : TrustedKeyStore) (s : Session)
    (f : BinaryFrame) (hc : f.command = .signedPublish) (h : Authorized verify keys f) :
    PublishedBy verify keys s f := by
  obtain ⟨key, hk, he, hv, hs⟩ := h
  have hacc : acceptsPublish verify keys f = true := by
    have ha : topicAuthorized keys f = true := by
      rw [topicAuthorized, TrustedKeyStore.getKeyInfo, hk]
      dsimp only
      split_ifs with hn
      · rfl
      · exact hs.resolve_left hn
    simp [acceptsPublish, hc, TrustedKeyStore.verifyWithKey, hk, he, hv, ha]
  exact ⟨f.topic, _, by rw [handleBinaryFrame_accepted verify keys s f hacc]; exact List.mem_cons_self⟩

/-- Frames with one key and one signature that are both published carry the same signed bytes,
and they agree in topic and payload exactly if the bytes are split at the same place. -/
theorem signature_binds_concatenation (verify : Verify) (hv : SingleMessage verify)
    (keys : TrustedKeyStore) (s s' : Session) (f g : BinaryFrame)
    (hf : f.command = .signedPublish) (hg : g.command = .signedPublish) (hk : f.keyId = g.keyId)
    (hs : f.signature = g.signature) (hpf : PublishedBy verify keys s f)
    (hpg : PublishedBy verify keys s' g) :
    f.topic ++ f.payload = g.topic ++ g.payload ∧
      (f.topic = g.topic ∧ f.payload = g.payload ↔ f.topic.length = g.topic.length) := by
  obtain ⟨key, hkf, -, hvf, -⟩ := authorized_of_publishedBy verify keys s f hf hpf
  obtain ⟨key', hkg, -, hvg, -⟩ := authorized_of_publishedBy verify keys s' g hg hpg
  have hkey : key = key' := by
    rw [hk, hkg] at hkf
    exact (Option.some_inj.mp hkf).symm
  have hm : f.topic ++ f.payload = g.topic ++ g.payload := by
    rw [hs, hkey] at hvf
    exact hv _ _ _ _ hvf hvg
  refine ⟨hm, fun h => congrArg List.length h.1, fun h => List.append_inj hm h⟩

/-- Another split of the same bytes is published as well, if the scope covers its topic. -/
theorem publishedBy_resplit (verify : Verify) (keys : TrustedKeyStore) (s s' : Session)
    (f g : BinaryFrame) (hf : f.command = .signedPublish) (hg : g.command = .signedPublish)
    (hk : f.keyId = g.keyId) (hs : f.signature = g.signature)
    (hm : f.topic ++ f.payload = g.topic ++ g.payload) (hpf : PublishedBy verify keys s f)
    (hscope : ∀ key, keys.keys[g.keyId]? = some key → ScopeCovers key.allowedTopics g.topic) :
    PublishedBy verify keys s' g := by
  obtain ⟨key, hkf, he, hvf, -⟩ := authorized_of_publishedBy verify keys s f hf hpf
  rw [hk] at hkf
  apply publishedBy_of_authorized verify keys s' g hg
  refine ⟨key, hkf, he, ?_, hscope key hkf⟩
  rw [← hm, ← hs]
  exact hvf

theorem singleMessage_acceptsOnly (message : Bytes) :
    SingleMessage (SignedHandling.acceptsOnly message) := by
  intro signature publicKey m m' hm hm'
  rw [SignedHandling.acceptsOnly, decide_eq_true_eq] at hm hm'
  rw [hm, hm']

/-- One key, number 1, for all secure topics. -/
def secureKeys : TrustedKeyStore :=
  (TrustedKeyStore.registerKey {} (Vector.replicate 32 9) (lit "door") (lit "secure/*")).1

theorem signature_binds_concatenation_door :
    lit "secure/a" ++ lit "b" = lit "secure/" ++ lit "ab" ∧
      (lit "secure/a" = lit "secure/" ∧ lit "b" = lit "ab" ↔
        (lit "secure/a").length = (lit "secure/").length) :=
  signature_binds_concatenation (SignedHandling.acceptsOnly (lit "secure/ab"))
    (singleMessage_acceptsOnly _) secureKeys {} {}
    (.signedPublish (lit "secure/a") (lit "b") (Vector.replicate 64 0) 1 1)
    (.signedPublish (lit "secure/") (lit "ab") (Vector.replicate 64 0) 1 1) rfl rfl rfl rfl
    (publishedBy_of_authorized _ _ _ _ rfl ⟨_, rfl, rfl, by decide, by decide⟩)
    (publishedBy_of_authorized _ _ _ _ rfl ⟨_, rfl, rfl, by decide, by decide⟩)

/-- One signature, two topics: the broker publishes both splits of the signed bytes. -/
theorem signature_fits_two_splits :
    SingleMessage (SignedHandling.acceptsOnly (lit "secure/ab")) ∧
    PublishedBy (SignedHandling.acceptsOnly (lit "secure/ab")) secureKeys {}
      (.signedPublish (lit "secure/a") (lit "b") (Vector.replicate 64 0) 1 1) ∧
    PublishedBy (SignedHandling.acceptsOnly (lit "secure/ab")) secureKeys {}
      (.signedPublish (lit "secure/") (lit "ab") (Vector.replicate 64 0) 1 1) ∧
    lit "secure/a" ≠ lit "secure/" :=
  ⟨singleMessage_acceptsOnly _,
    publishedBy_of_authorized _ _ _ _ rfl ⟨_, rfl, rfl, by decide, by decide⟩,
    publishedBy_of_authorized _ _ _ _ rfl ⟨_, rfl, rfl, by decide, by decide⟩, by decide⟩

end Binding

end MetricMQ
