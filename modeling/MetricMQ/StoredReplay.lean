import MetricMQ.Provenance
import MetricMQ.RespReplies

/-! Replay over the LMDB storage as it is written. A record is the topic followed by the payload
with nothing between them, and `load_range` splits it at its first NUL, so a replay gives back
other topics and other bytes than were published. -/
namespace MetricMQ

open ByteString Std Machine LmdbStorage

namespace LmdbFile

/-- The store has this record, as `load_range` splits it. -/
def Holds (file : LmdbFile) (m : StoredMessage) : Prop :=
  0 ∉ m.topic ∧ file.store[msgKey m.seq]? = some (m.topic ++ 0 :: m.payload)

/-- What becomes of a message: the first NUL of topic and payload ends the topic. -/
def Split (topic data : Bytes) (_seq : UInt64) (m : StoredMessage) : Prop :=
  0 ∉ m.topic ∧ m.topic ++ 0 :: m.payload = topic ++ data

theorem mem_loadRange (file : LmdbFile) (fromSeq toSeq : UInt64) (m : StoredMessage) :
    m ∈ Storage.loadRange file fromSeq toSeq ↔
      CursorReaches file.store fromSeq toSeq m.seq ∧ file.Holds m :=
  LmdbStorage.mem_loadRange file.store fromSeq toSeq _ m file.schema
    (Option.some_get (file.loadRange_isSome fromSeq toSeq)).symm

theorem handsBack : HandsBack LmdbFile Holds Split where
  load := fun file fromSeq toSeq m hm => ((file.mem_loadRange fromSeq toSeq m).mp hm).2
  save := by
    intro err file seq topic data m hm
    cases err with
    | some e => exact Or.inl hm
    | none =>
      obtain ⟨hn, hv⟩ := hm
      change (save none file.store seq topic data)[msgKey m.seq]? = _ at hv
      rw [getElem?_save, if_neg (msgKey_ne_lastSeqKey _).symm, msgData_eq] at hv
      split_ifs at hv
      · exact Or.inr ⟨hn, (Option.some_inj.mp hv).symm⟩
      · exact Or.inl ⟨hn, hv⟩
  saveAck := by
    intro err file c n m hm
    cases err with
    | some e => exact hm
    | none =>
      obtain ⟨hn, hv⟩ := hm
      change (saveAck none file.store c n)[msgKey m.seq]? = _ at hv
      rw [getElem?_saveAck, if_neg (ackKey_ne_msgKey c n m.seq)] at hv
      exact ⟨hn, hv⟩
  compact := fun err file t m hm => ⟨hm.1, compact_subset err file.store t _ _ hm.2⟩
  purgeOldAcks := fun err file t m hm => ⟨hm.1, purgeOldAcks_subset err file.store t _ _ hm.2⟩

end LmdbFile

section Split

variable {topic data asked rest : Bytes}

/-- The NUL that a record is split at lies in the topic or in the payload. -/
theorem split_cases (h0 : 0 ∉ asked) (h : asked ++ 0 :: rest = topic ++ data) :
    (∃ x, topic = asked ++ 0 :: x ∧ rest = x ++ data) ∨
      ∃ y, asked = topic ++ y ∧ data = y ++ 0 :: rest := by
  -- where `asked` ends before the topic does, and where it does not
  rcases List.append_eq_append_iff.mp h with ⟨a, rfl, ha⟩ | ⟨c, rfl, hc⟩
  · cases a with
    | nil =>
      rw [List.append_nil]
      exact Or.inr ⟨[], (List.append_nil asked).symm, ha.symm⟩
    | cons b x =>
      obtain ⟨rfl, hx⟩ := List.cons.inj ha
      exact Or.inl ⟨x, rfl, hx⟩
  · exact Or.inr ⟨c, rfl, hc⟩

/-- The string of a publish begins with the version byte or with the header of an array. -/
theorem publishes_bytes (verify : Verify) (keys : KeyLookups) (item : Dispatch)
    (h : item.Publishes verify keys topic data) :
    (∃ r, data = 1 :: r) ∨ ∃ r, data = lit "*3\r\n" ++ r := by
  cases item with
  | frame f =>
    obtain ⟨-, -, -, seq, rfl⟩ := h
    have hv : (Session.relayFrame f seq).version = 1 := by
      rw [Session.relayFrame]
      split_ifs <;> rfl
    rw [BinaryProtocol.serialize_eq, hv]
    exact Or.inl ⟨_, rfl⟩
  | command v =>
    obtain ⟨head, arg, payload, -, -, -, rfl⟩ := h
    have hheader : lit "*3\r\n" = 42 :: (toDecimal 3 ++ RespParser.crlf) := by decide
    rw [Session.respMessage, RespParser.serialize, hheader]
    exact Or.inr ⟨_, rfl⟩

/-- A NUL in the string of a publish has the version byte or a line end before it. -/
theorem control_byte_of_split (verify : Verify) (keys : KeyLookups) (item : Dispatch)
    (h : item.Publishes verify keys topic data) (y : Bytes) (hy : data = y ++ 0 :: rest) :
    1 ∈ y ∨ 13 ∈ y := by
  rcases publishes_bytes verify keys item h with ⟨r, rfl⟩ | ⟨r, rfl⟩
  · cases y with
    | nil => simp at hy
    | cons b y =>
      obtain ⟨rfl, -⟩ := List.cons.inj hy
      exact Or.inl List.mem_cons_self
  · have hl : (lit "*3\r\n") = [42, 51, 13, 10] := by decide
    rw [hl] at hy
    match y, hy with
    | [], hy => simp at hy
    | [_], hy => simp at hy
    | [_, _], hy => simp at hy
    | a :: b :: c :: y, hy =>
      simp only [List.cons_append, List.cons.injEq] at hy
      rw [← hy.2.2.1]
      exact Or.inr (by simp)

end Split

/-- A message that a run sends under a number was published just so, on a topic the session has
asked for over its present connection. Or it is the part behind the first NUL of the topic and
the string of a publish, and the session has asked for the part before it, which has a control
byte in it unless the topic itself has the NUL. Or the file `db` held it from the start, as
`load_range` splits it. -/
def DeliversSplit (verify : Verify) (hash : HashOrder) (db : LmdbFile)
    (is : List (Input (Option MdbError))) : Prop :=
  ∀ js i, js ++ [i] <+: is → ∀ pre session p data n, pre ++ [.sent session p data (some n)] <+:
      ((run (World.step verify hash) (World.start db) js).1.step verify hash i).2 →
    (∃ s topic,
      .published s topic data n ∈ (run (World.step verify hash) (World.start db) js).2 ++ pre ∧
      Requested verify ((run (World.step verify hash) (World.start db) js).2 ++ pre) s topic data ∧
      (Asked verify hash db js session topic ∨ Asked verify hash db js session (lit "#"))) ∨
    (∃ s topic d seq asked,
      .published s topic d seq ∈ (run (World.step verify hash) (World.start db) js).2 ++ pre ∧
      Requested verify ((run (World.step verify hash) (World.start db) js).2 ++ pre) s topic d ∧
      Asked verify hash db js session asked ∧ 0 ∉ asked ∧ asked ++ 0 :: data = topic ++ d ∧
      ((∃ x, topic = asked ++ 0 :: x) ∨ 1 ∈ asked ∨ 13 ∈ asked)) ∨
    ∃ topic, db.Holds ⟨n, topic, data⟩ ∧ Asked verify hash db js session topic

/-- What sessions are sent in any run of the system over the storage as it is written. -/
theorem delivers_split (verify : Verify) (hash : HashOrder) (db : LmdbFile)
    (is : List (Input (Option MdbError))) : DeliversSplit verify hash db is := by
  intro js i _ pre session p data n hpre
  have hk := known_run LmdbFile.handsBack verify hash db js
  rcases traced_step verify hash db _ _ hk i pre session p data n hpre with
    hlive | ⟨m, rfl, rfl, hasked, hold | ⟨s, topic, d, seq, hpub, hr, h0, hsplit⟩⟩
  · exact Or.inl hlive
  · exact Or.inr (Or.inr ⟨m.topic, hold, hasked⟩)
  · refine Or.inr (Or.inl ⟨s, topic, d, seq, m.topic, hpub, hr, hasked, h0, hsplit, ?_⟩)
    rcases split_cases h0 hsplit with ⟨x, hx, -⟩ | ⟨y, hy, hd⟩
    · exact Or.inl ⟨x, hx⟩
    · obtain ⟨item, keys, -, hitem⟩ := hr
      rw [hy]
      exact Or.inr ((control_byte_of_split verify keys item hitem y hd).imp
        (List.mem_append_right _) (List.mem_append_right _))

section Injection

/-- No message key comes before the first one. -/
theorem not_keyLT_zero (s : UInt64) : ¬ KeyLT s 0 := by
  obtain ⟨d, ds, hd, hdigit⟩ := toDecimal_cons s.toNat
  have hle : 48 ≤ d := by
    rw [isDigit, Bool.and_eq_true, decide_eq_true_eq] at hdigit
    exact hdigit.1
  have hs : msgKey s = [109, 115, 103, 58] ++ d :: ds := by
    rw [msgKey, hd]
    rfl
  have h0 : msgKey 0 = [109, 115, 103, 58] ++ [48] := by decide
  rw [KeyLT, hs, h0]
  simp only [List.cons_append, List.nil_append, List.compare_cons_cons, ReflOrd.compare_self,
    Ordering.eq_then]
  intro h
  cases hc : compare d 48 with
  | lt =>
    rw [Std.compare_eq_lt] at hc
    exact absurd hle (Std.not_le.mpr hc)
  | eq =>
    rw [hc] at h
    exact SortedCursor.not_lt_of_prefix [] ds List.nil_prefix h
  | gt =>
    rw [hc] at h
    cases h

def publishes : List (Method (Option MdbError)) → ℕ
  | [] => 0
  | .publish _ _ _ :: ms => publishes ms + 1
  | _ :: ms => publishes ms

/-- A process on a new file that has published `n` messages so far. -/
structure Early (b : Broker LmdbFile) (n : ℕ) : Prop where
  isOpen : b.persistence = true
  numbers : b.currentSequence.toNat = n
  last : (getLastSeq b.db.store).toNat ≤ n
  ids : ∀ s v, b.db.store[msgKey s]? = some v → s.toNat ≤ (getLastSeq b.db.store).toNat

theorem early_start : Early (Broker.start LmdbFile.empty) 0 where
  isOpen := rfl
  numbers := by decide
  last := by decide
  ids := by
    intro s v h
    simp [Broker.start, LmdbFile.empty] at h

variable {b : Broker LmdbFile} {n : ℕ}

/-- The records behind a publish of such a process; it does not compact yet. -/
theorem Early.publish (h : Early b n) (hn : n < maxStoredMessages.toNat)
    (f : PublishFaults (Option MdbError)) (topic data : Bytes) :
    (b.publish f topic data).1.db = b.savedDb f topic data := by
  obtain ⟨db, he, rfl | ⟨-, hlt, -⟩⟩ := Broker.persist_cases f b topic data
  · rw [Broker.publish_db, he]
  · have hm : maxStoredMessages.toNat = 100000 := by decide
    rw [UInt64.lt_iff_toNat_lt, toNat_next _ (by rw [h.numbers]; omega), h.numbers] at hlt
    omega

theorem Early.of_store {b' : Broker LmdbFile} (h : Early b n) (ho : b'.persistence = b.persistence)
    (hc : b'.currentSequence = b.currentSequence)
    (hlast : b'.db.store[lastSeqKey]? = b.db.store[lastSeqKey]?)
    (hids : ∀ s, b'.db.store[msgKey s]? = b.db.store[msgKey s]?) : Early b' n := by
  have hg := Broker.getLastSeq_congr b.db.store b'.db.store hlast
  refine ⟨by rw [ho, h.isOpen], by rw [hc, h.numbers], by rw [hg]; exact h.last, ?_⟩
  intro s v hv
  rw [hg]
  exact h.ids s v (hids s ▸ hv)

theorem Early.published (h : Early b n) (hn : n < maxStoredMessages.toNat)
    (f : PublishFaults (Option MdbError)) (topic data : Bytes) :
    Early (b.publish f topic data).1 (n + 1) := by
  have hm : maxStoredMessages.toNat = 100000 := by decide
  have hl := h.last
  have hnum : (b.publish f topic data).1.currentSequence.toNat = n + 1 := by
    rw [Broker.publish_currentSequence, toNat_next _ (by rw [h.numbers]; omega), h.numbers]
  have hopen : (b.publish f topic data).1.persistence = true := by
    rw [Broker.publish_persistence, h.isOpen]
  have hdb := h.publish hn f topic data
  rw [Broker.savedDb, if_pos h.isOpen] at hdb
  cases hf : f.save with
  | some e =>
    -- the number is used up, the store is as before
    have hsame : (b.publish f topic data).1.db = b.db := by
      rw [hdb, hf]
      rfl
    refine ⟨hopen, hnum, by rw [hsame]; omega, ?_⟩
    rw [hsame]
    exact h.ids
  | none =>
    have hstore : (b.publish f topic data).1.db.store =
        save none b.db.store (b.currentSequence + 1) topic data := by
      rw [hdb, hf]
      rfl
    have hlast : (nextSeq b.db.store).toNat = (getLastSeq b.db.store).toNat + 1 := by
      rw [nextSeq_eq, toNat_next _ (by omega)]
    refine ⟨hopen, hnum, ?_, ?_⟩
    · rw [hstore, Broker.getLastSeq_save, hlast]
      omega
    · intro s v hv
      rw [hstore, Broker.getLastSeq_save, hlast]
      rw [hstore, getElem?_save, if_neg (msgKey_ne_lastSeqKey s).symm] at hv
      split_ifs at hv with hs
      · rw [← msgKey_injective hs, hlast]
      · exact Nat.le_succ_of_le (h.ids s v hv)

/-- Of the other methods only `handleAck` writes to the file. -/
theorem Early.perform (h : Early b n) (hash : HashOrder) (m : Method (Option MdbError))
    (hs : m ≠ .stop) (hn : n + publishes [m] ≤ maxStoredMessages.toNat) :
    Early (b.perform hash m) (n + publishes [m]) := by
  cases m with
  | publish f topic data => exact h.published (Nat.lt_of_succ_le hn) f topic data
  | handleAck err c k =>
    -- it writes one key, which is neither that of the counter nor that of a message
    have hkept : ∀ key, ackKey c k ≠ key →
        (b.perform hash (.handleAck err c k)).db.store[key]? = b.db.store[key]? := by
      intro key hkey
      rw [Broker.perform, Broker.handleAck]
      dsimp only
      rw [if_pos h.isOpen]
      cases err with
      | some e => rfl
      | none =>
        change (saveAck none b.db.store c k)[key]? = _
        rw [getElem?_saveAck, if_neg hkey]
    exact h.of_store rfl rfl (hkept _ (ackKey_ne_lastSeqKey c k)) fun s =>
      hkept _ (ackKey_ne_msgKey c k s)
  | accept session =>
    rcases b.accept_frame (ε := Option MdbError) hash session with he | he <;> rw [he]
    · exact h
    · exact h.of_store rfl rfl rfl fun _ => rfl
  | unsubscribe session topic =>
    rw [Broker.perform, Broker.unsubscribe]
    cases b.topicSubscribers[topic]? with
    | none => exact h
    | some set => exact h.of_store rfl rfl rfl fun _ => rfl
  | registerClient c session =>
    obtain ⟨acks, marks, he⟩ := b.registerClient_frame hash c session
    rw [Broker.perform, he]
    exact h.of_store rfl rfl rfl fun _ => rfl
  | subscribe | unregisterClient | removeSession => exact h.of_store rfl rfl rfl fun _ => rfl
  | stop => exact absurd rfl hs

theorem publishes_snoc (ms : List (Method (Option MdbError))) (m : Method (Option MdbError)) :
    publishes (ms ++ [m]) = publishes ms + publishes [m] := by
  induction ms with
  | nil => rw [List.nil_append, publishes, Nat.zero_add]
  | cons m' ms ih =>
    cases m' with
    | publish f topic data =>
      rw [List.cons_append, publishes, publishes, ih]
      omega
    | accept | subscribe | unsubscribe | handleAck | registerClient | unregisterClient
    | removeSession | stop => exact ih

theorem early_after (hash : HashOrder) (ms : List (Method (Option MdbError))) (hs : .stop ∉ ms)
    (hn : publishes ms ≤ maxStoredMessages.toNat) :
    Early ((Broker.start LmdbFile.empty).after hash ms) (publishes ms) := by
  induction ms using List.reverseRecOn with
  | nil => exact early_start
  | append_singleton ms m ih =>
    rw [List.mem_append, not_or, List.mem_singleton] at hs
    rw [publishes_snoc] at hn ⊢
    rw [Broker.after_snoc]
    exact (ih hs.1 (by omega)).perform hash m (Ne.symm hs.2) hn

/-- A publish on a topic with a NUL is replayed under the part before it, and what follows the NUL
comes first in the bytes that are sent. -/
theorem Early.mem_replay (h : Early b n) (hn : n < maxStoredMessages.toNat)
    (f : PublishFaults (Option MdbError)) (hf : f.save = none) (topic x data : Bytes) (h0 : 0 ∉ topic) :
    ⟨nextSeq b.db.store, topic, x ++ data⟩ ∈
      (b.publish f (topic ++ 0 :: x) data).1.replayMessages topic 0 := by
  have hm : maxStoredMessages.toNat = 100000 := by decide
  have hnext := h.published hn f (topic ++ 0 :: x) data
  have hstore : (b.publish f (topic ++ 0 :: x) data).1.db.store =
      save none b.db.store (b.currentSequence + 1) (topic ++ 0 :: x) data := by
    rw [h.publish hn, Broker.savedDb, if_pos h.isOpen, hf]
    rfl
  have hv : (b.publish f (topic ++ 0 :: x) data).1.db.store[msgKey (nextSeq b.db.store)]? =
      some (topic ++ 0 :: (x ++ data)) := by
    rw [hstore, getElem?_saved, List.append_assoc, List.cons_append]
  -- no id is above the range that `replayMessages` asks for
  have hids : ∀ s v, (b.publish f (topic ++ 0 :: x) data).1.db.store[msgKey s]? = some v →
      s ≤ 0 + maxStoredMessages := by
    intro s v hs
    have h1 := hnext.ids s v hs
    have h2 := hnext.last
    rw [UInt64.zero_add, UInt64.le_iff_toNat_le, hm]
    omega
  -- the record is under the topic that comes before the NUL
  rw [Broker.replayMessages, if_pos hnext.isOpen, List.mem_filter]
  refine ⟨(LmdbFile.mem_loadRange _ _ _ _).mpr ⟨?_, h0, hv⟩, by simp⟩
  rw [cursorReaches_iff _ _ _ _ (b.publish f (topic ++ 0 :: x) data).1.db.schema]
  exact ⟨⟨_, hv⟩, not_keyLT_zero _, hids _ _ hv, fun s v hs _ _ => hids s v hs⟩

theorem isSecure_nul (topic x : Bytes) (h : Session.isSecure topic = false) :
    Session.isSecure (topic ++ 0 :: x) = false := by
  rw [Session.isSecure, Bool.eq_false_iff, ne_eq, List.isPrefixOf_iff_prefix] at h ⊢
  intro hp
  rcases List.prefix_or_prefix_of_prefix hp (List.prefix_append topic (0 :: x)) with hs | ⟨r, hr⟩
  · exact h hs
  -- the topic is shorter than the prefix, which has no NUL
  · obtain ⟨t, ht⟩ := hp
    rw [← hr, List.append_assoc, List.append_cancel_left_eq] at ht
    cases r with
    | nil =>
      rw [List.append_nil] at hr
      exact h ⟨[], by rw [List.append_nil, hr]⟩
    | cons c r =>
      have hc : c = 0 := (List.cons.inj ht).1
      have hmem : (0 : UInt8) ∈ Session.securePrefix := by
        rw [← hr, hc]
        simp
      exact absurd hmem (by decide)

open BinaryProtocol in
/-- Any frame `g` that fits into a topic is handed to the subscribers of any open topic: an unsigned
publish on that topic, a NUL and the frame is accepted, and the replays that follow it send
bytes that are read as `g` first. Nothing asks who signed `g`. -/
theorem forged_frame_replayed (verify : Verify) (keys : KeyLookups) (session : Session)
    (hash : HashOrder) (ms : List (Method (Option MdbError))) (hopen : .stop ∉ ms)
    (hfew : publishes ms < maxStoredMessages.toNat) (f : PublishFaults (Option MdbError))
    (hsave : f.save = none) (g : BinaryFrame) (hg : FrameWellFormed g) (topic payload : Bytes)
    (seq : UInt64) (h0 : 0 ∉ topic) (hsecure : Session.isSecure topic = false)
    (hlen : topic.length + 1 + (serialize g).length ≤ maxTopicLen.toNat)
    (hpayload : payload.length ≤ maxPayloadLen.toNat) :
    FrameWellFormed (.publish (topic ++ 0 :: serialize g) payload seq) ∧
    ∃ data, (Session.handleBinaryFrame verify keys session
        (.publish (topic ++ 0 :: serialize g) payload seq)).2 =
        [.publish (topic ++ 0 :: serialize g) data, Session.sendBinary (.ack seq)] ∧
      ∃ m ∈ (((Broker.start LmdbFile.empty).after hash ms).publish f
          (topic ++ 0 :: serialize g) data).1.replayMessages topic 0,
        parse m.payload = some (g, (serialize g).length) := by
  have hwf : FrameWellFormed (.publish (topic ++ 0 :: serialize g) payload seq) := by
    refine ⟨rfl, ?_, hpayload, rfl, fun _ => ⟨rfl, rfl⟩⟩
    simp only [BinaryFrame.publish, List.length_append, List.length_cons]
    omega
  -- the check for secure topics looks at the beginning of the topic only
  have ha : Session.acceptsPublish verify keys
      (.publish (topic ++ 0 :: serialize g) payload seq) = true := by
    simp only [Session.acceptsPublish, BinaryFrame.publish, isSecure_nul topic _ hsecure, Bool.not_false]
  have hcalls := Session.handleBinaryFrame_accepted verify keys session _ ha
  have hearly := early_after hash ms hopen (Nat.le_of_lt hfew)
  exact ⟨hwf, _, congrArg Prod.snd hcalls, _,
    hearly.mem_replay hfew f hsave topic (serialize g) _ h0, parse_serialize_append g hg _⟩

/-- A SIGNED_MESSAGE frame that nobody signed, for the subscribers of `news`. -/
theorem forged_frame_replayed_news :
    ∃ data, ∃ m ∈ ((Broker.start LmdbFile.empty).publish ⟨none, none, none⟩
        (lit "news" ++ 0 :: BinaryProtocol.serialize
          (.signedMessage (lit "news") (lit "sell") (Vector.replicate 64 7) 1 9)) data).1.replayMessages
        (lit "news") 0,
      ∃ k, BinaryProtocol.parse m.payload =
        some (.signedMessage (lit "news") (lit "sell") (Vector.replicate 64 7) 1 9, k) := by
  obtain ⟨-, data, -, m, hm, hp⟩ := forged_frame_replayed (fun _ _ _ => false) {} {}
    World.insertionOrder [] (by simp) (by decide) ⟨none, none, none⟩ rfl
    (.signedMessage (lit "news") (lit "sell") (Vector.replicate 64 7) 1 9)
    ⟨rfl, by decide, by decide, rfl, fun h => Bool.noConfusion h⟩ (lit "news") [] 1 (by decide)
    (by decide) (by decide) (by decide)
  exact ⟨data, m, hm, _, hp⟩

end Injection

end MetricMQ
