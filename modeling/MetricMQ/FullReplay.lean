import MetricMQ.Subscriptions
import MetricMQ.SubscribeRace

/-! The replay of a new subscriber against what is retained, and against what was delivered live,
over a storage that keeps its documented contract. The replay asks for the first
`MAX_STORED_MESSAGES` numbers there are, the compaction keeps the last ones. -/
namespace MetricMQ

open ByteString Std Machine SubscribeRace

namespace FullReplay

/-- Every stored message of the topic is sent, in ascending order. -/
structure ReplaysAll (b : Broker ContractStore) (topic : Bytes) : Prop where
  complete : ∀ m, b.db.Holds m → m.topic = topic → m ∈ b.replayMessages topic 0
  ascending : InOrder ((b.replayMessages topic 0).map StoredMessage.seq)

/-- The broker after the messages `ps` were published on an empty store. -/
def published (ps : List (Bytes × Bytes)) : Broker ContractStore :=
  (Broker.start ContractStore.empty).after World.insertionOrder
    (ps.map fun p => .publish ⟨(), (), ()⟩ p.1 p.2)

/-- The last number that the compactions of `n` publishes have removed. -/
def removed (n : ℕ) : ℕ := n / compactEvery.toNat * compactEvery.toNat - maxStoredMessages.toNat

section Runs

theorem published_snoc (ps : List (Bytes × Bytes)) (p : Bytes × Bytes) :
    published (ps ++ [p]) = ((published ps).publish ⟨(), (), ()⟩ p.1 p.2).1 := by
  rw [published, List.map_append, List.map_singleton, Broker.after_snoc]
  rfl

theorem persistence_published (ps : List (Bytes × Bytes)) : (published ps).persistence = true := by
  induction ps using List.reverseRecOn with
  | nil => rfl
  | append_singleton ps p ih => rw [published_snoc, Broker.publish_persistence, ih]

/-- What is known of the broker after fewer than `2 ^ 64` publishes: the `i`th message has the
number `i + 1`, and is stored unless a compaction has removed it. -/
structure Retained (b : Broker ContractStore) (ps : List (Bytes × Bytes)) : Prop where
  number : b.currentSequence.toNat = ps.length
  count : b.publishCount.toNat = ps.length
  stored : ∀ m, b.db.Holds m ↔ ∃ i, ps[i]? = some (m.topic, m.payload) ∧ m.seq.toNat = i + 1 ∧
    removed ps.length ≤ i

theorem removed_eq (n : ℕ) : removed n = n / 1000 * 1000 - 100000 := rfl

/-- The compaction runs at every multiple of `COMPACT_EVERY`, and then with the newest bound. -/
theorem removed_succ_lt_iff (n s : ℕ) (hs : removed n < s) :
    removed (n + 1) < s ↔ ((n + 1) % 1000 = 0 ∧ 100000 < n + 1 → n + 1 - 100000 < s) := by
  rw [removed_eq] at hs ⊢
  omega

theorem removed_succ_le (n : ℕ) : removed (n + 1) ≤ n := by
  rw [removed_eq]
  omega

theorem removed_le_succ (n : ℕ) : removed n ≤ removed (n + 1) := by
  rw [removed_eq, removed_eq]
  omega

/-- The bound of a compaction in the broker's words and as a number. -/
theorem compacted_iff (b : Broker ContractStore) (n : ℕ) (s : UInt64)
    (hnumber : (b.currentSequence + 1).toNat = n + 1) (hcount : (b.publishCount + 1).toNat = n + 1) :
    ((b.publishCount + 1) % compactEvery = 0 ∧ maxStoredMessages < b.currentSequence + 1 →
      b.currentSequence + 1 - maxStoredMessages < s) ↔
    ((n + 1) % 1000 = 0 ∧ 100000 < n + 1 → n + 1 - 100000 < s.toNat) := by
  have hdue : (b.publishCount + 1) % compactEvery = 0 ↔ (n + 1) % 1000 = 0 := by
    rw [← UInt64.toNat_inj, UInt64.toNat_mod, hcount]
    rfl
  have hlt : maxStoredMessages < b.currentSequence + 1 ↔ 100000 < n + 1 := by
    rw [UInt64.lt_iff_toNat_lt, hnumber]
    rfl
  rw [hdue, hlt]
  refine forall_congr' fun h => ?_
  have hsub : (b.currentSequence + 1 - maxStoredMessages).toNat = n + 1 - 100000 := by
    rw [UInt64.toNat_sub_of_le _ _ (Std.le_of_lt (hlt.mpr h.2)), hnumber]
    rfl
  rw [UInt64.lt_iff_toNat_lt, hsub]

/-- One publish more: the new message is stored, and its compaction takes the old ones that fall out
of the window. -/
theorem retained_snoc (ps : List (Bytes × Bytes)) (p : Bytes × Bytes) (hlen : ps.length + 1 < 2 ^ 64)
    (h : Retained (published ps) ps) : Retained (published (ps ++ [p])) (ps ++ [p]) := by
  have hnext : ((published ps).currentSequence + 1).toNat = ps.length + 1 := by
    rw [toNat_next _ (by rw [h.number]; exact hlen), h.number]
  have hnext' : ((published ps).publishCount + 1).toNat = ps.length + 1 := by
    rw [toNat_next _ (by rw [h.count]; exact hlen), h.count]
  rw [published_snoc]
  refine ⟨?_, ?_, fun m => ?_⟩
  · rw [Broker.publish_currentSequence, hnext, List.length_append, List.length_singleton]
  · obtain ⟨db, hp⟩ := (published ps).publish_frame ⟨(), (), ()⟩ p.1 p.2
    rw [hp, List.length_append, List.length_singleton]
    exact hnext'
  · rw [holds_publish_iff _ _ _ (persistence_published ps), compacted_iff _ ps.length _ hnext hnext',
      List.length_append, List.length_singleton]
    by_cases hm : m.seq = (published ps).currentSequence + 1
    · -- the new message, which no compaction of its own publish removes
      have hnew : m.seq.toNat = ps.length + 1 := by rw [hm, hnext]
      rw [if_pos hm, hnew]
      constructor
      · rintro ⟨⟨ht, hp⟩, -⟩
        refine ⟨ps.length, ?_, rfl, removed_succ_le _⟩
        rw [List.getElem?_concat_length, ht, hp]
      · rintro ⟨i, hi, he, -⟩
        obtain rfl : ps.length = i := by omega
        rw [List.getElem?_concat_length, Option.some_inj] at hi
        rw [hi]
        exact ⟨⟨rfl, rfl⟩, fun _ => by omega⟩
    · -- an old message stays unless the compaction of this publish reaches it
      rw [if_neg hm, h.stored]
      constructor
      · rintro ⟨⟨i, hi, he, hr⟩, hc⟩
        have hlt := (List.getElem?_eq_some_iff.mp hi).1
        have hr' := (removed_succ_lt_iff ps.length m.seq.toNat (by omega)).mpr hc
        exact ⟨i, by rw [List.getElem?_append_left hlt, hi], he, by omega⟩
      · rintro ⟨i, hi, he, hr⟩
        have hlt := (List.getElem?_eq_some_iff.mp hi).1
        rw [List.length_append, List.length_singleton] at hlt
        have hne : i ≠ ps.length := by
          rintro rfl
          exact hm (UInt64.toNat_inj.mp (by rw [he, hnext]))
        have hlt' : i < ps.length := by omega
        have hle := removed_le_succ ps.length
        rw [List.getElem?_append_left hlt'] at hi
        refine ⟨⟨i, hi, he, by omega⟩, ?_⟩
        exact (removed_succ_lt_iff ps.length m.seq.toNat (by omega)).mp (by omega)

theorem retained_published (ps : List (Bytes × Bytes)) (hlen : ps.length < 2 ^ 64) :
    Retained (published ps) ps := by
  induction ps using List.reverseRecOn with
  | nil =>
    refine ⟨rfl, rfl, fun m => iff_of_false ?_ (by simp)⟩
    change ¬ ContractStore.empty.Holds m
    simp [ContractStore.Holds, ContractStore.empty]
  | append_singleton ps p ih =>
    rw [List.length_append, List.length_singleton] at hlen
    exact retained_snoc ps p hlen (ih (by omega))

/-- A message of the topic is beyond the reach of the replay and still stored. -/
def Unreachable (ps : List (Bytes × Bytes)) (topic : Bytes) : Prop :=
  ∃ i payload, ps[i]? = some (topic, payload) ∧ maxStoredMessages.toNat ≤ i ∧ removed ps.length ≤ i

theorem replaysAll_iff (b : Broker ContractStore) (topic : Bytes) (ho : b.persistence = true) :
    ReplaysAll b topic ↔ ∀ m, b.db.Holds m → m.topic = topic → m.seq ≤ maxStoredMessages := by
  constructor
  · intro h m hm ht
    exact ((mem_replayMessages b topic m).mp (h.complete m hm ht)).2.2.2
  · intro h
    refine ⟨?_, inOrder_replayMessages b topic 0⟩
    intro m hm ht
    exact (mem_replayMessages b topic m).mpr ⟨ho, hm, ht, h m hm ht⟩

/-- The replay is complete exactly as long as no stored message of the topic has a number above
`MAX_STORED_MESSAGES`: it asks for the first numbers, not for those that are retained. Among the
publishes this is a message behind the first `MAX_STORED_MESSAGES` of all topics that no
compaction has removed. -/
theorem full_replay_iff (ps : List (Bytes × Bytes)) (topic : Bytes) :
    (ReplaysAll (published ps) topic ↔
      ∀ m, (published ps).db.Holds m → m.topic = topic → m.seq ≤ maxStoredMessages) ∧
    (ps.length < 2 ^ 64 → (ReplaysAll (published ps) topic ↔ ¬ Unreachable ps topic)) := by
  have hiff := replaysAll_iff (published ps) topic (persistence_published ps)
  refine ⟨hiff, fun hlen => ?_⟩
  have h := retained_published ps hlen
  rw [hiff]
  constructor
  · -- the message itself is stored, with a number above the window
    rintro hall ⟨i, payload, hi, hmax, hr⟩
    have hlt := (List.getElem?_eq_some_iff.mp hi).1
    have hnat : (UInt64.ofNat (i + 1)).toNat = i + 1 := UInt64.toNat_ofNat_of_lt' (by change i + 1 < 2 ^ 64; omega)
    have hle := hall ⟨UInt64.ofNat (i + 1), topic, payload⟩ ((h.stored _).mpr ⟨i, hi, hnat, hr⟩) rfl
    rw [UInt64.le_iff_toNat_le, hnat] at hle
    omega
  · intro hnone m hm ht
    obtain ⟨i, hi, he, hr⟩ := (h.stored m).mp hm
    by_contra hgt
    rw [UInt64.le_iff_toNat_le, he] at hgt
    exact hnone ⟨i, m.payload, by rw [hi, ht], by omega, hr⟩

/-- After one message more than the window, the newest one is not replayed. -/
theorem newest_not_replayed :
    ¬ ReplaysAll (published (List.replicate 100001 (lit "t", lit "x"))) (lit "t") := by
  have hlen : (List.replicate 100001 (lit "t", lit "x")).length = 100001 := List.length_replicate
  rw [replaysAll_iff _ _ (persistence_published _)]
  intro hall
  have hget : (List.replicate 100001 (lit "t", lit "x"))[100000]? = some (lit "t", lit "x") := by
    rw [List.getElem?_replicate, if_pos (by omega)]
  have hstored := (retained_published _ (by rw [hlen]; omega)).stored ⟨100001, lit "t", lit "x"⟩
  have hle := hall _ (hstored.mpr ⟨100000, hget, rfl, by rw [hlen, removed_eq]; omega⟩) rfl
  rw [UInt64.le_iff_toNat_le] at hle
  revert hle
  decide

end Runs

section Matching

/-- Everything that is stored, in ascending order. -/
def stored (db : ContractStore) : List StoredMessage :=
  db.messages.toList.map fun e => ⟨e.1, e.2.1, e.2.2⟩

theorem mem_stored (db : ContractStore) (m : StoredMessage) : m ∈ stored db ↔ db.Holds m := by
  rw [stored, List.mem_map, ContractStore.Holds, ← TreeMap.mem_toList_iff_getElem?_eq_some]
  constructor
  · rintro ⟨e, he, rfl⟩
    exact he
  · exact fun h => ⟨_, h, rfl⟩

/-- A replay from the start on a store whose numbers lie in the window: the filter on topics is
all that is left. -/
theorem replayMessages_eq (b : Broker ContractStore) (topic : Bytes) (ho : b.persistence = true)
    (hids : ∀ m, b.db.Holds m → 1 ≤ m.seq ∧ m.seq ≤ maxStoredMessages) :
    b.replayMessages topic 0 = (stored b.db).filter fun m => decide (m.topic = topic) := by
  have hrange : b.db.loadRange 0 maxStoredMessages = stored b.db := by
    rw [ContractStore.loadRange, stored, List.filter_eq_self.mpr]
    rintro ⟨seq, t, p⟩ he
    have hm := hids ⟨seq, t, p⟩ ((mem_stored b.db _).mp (List.mem_map.mpr ⟨_, he, rfl⟩))
    rw [Bool.and_eq_true, decide_eq_true_eq, decide_eq_true_eq]
    exact ⟨UInt64.zero_le, hm.2⟩
  rw [Broker.replayMessages, if_pos ho, UInt64.zero_add]
  exact congrArg (List.filter _) hrange

/-- What a publish is sent to, for a session that is subscribed to `pattern` alone. -/
theorem mem_recipients_iff (b : Broker ContractStore) (f : PublishFaults Unit) (s : SessionId)
    (pattern topic payload : Bytes) (hs : ∀ t, b.Subscribed s t ↔ t = pattern) :
    s ∈ (b.publish f topic payload).2.2 ↔ topic = pattern ∨ pattern = lit "#" := by
  rw [(Broker.publish_recipients f b topic payload).1, Broker.recipients, List.mem_append,
    Broker.mem_subscribersOf, Broker.mem_subscribersOf, hs, hs]
  exact or_congr_right eq_comm

/-- The replay of a subscription to `pattern` is what live delivery would have sent to a session
with that subscription, unless `pattern` is the wildcard: publishing looks the wildcard up, the
replay compares it with the topics. -/
theorem replay_matches_live_iff (b : Broker ContractStore) (ho : b.persistence = true)
    (hids : ∀ m, b.db.Holds m → 1 ≤ m.seq ∧ m.seq ≤ maxStoredMessages) (s : SessionId)
    (pattern : Bytes) (live : StoredMessage → Broker ContractStore) (f : PublishFaults Unit)
    (hlive : ∀ m t, (live m).Subscribed s t ↔ t = pattern) :
    b.replayMessages pattern 0 =
        (stored b.db).filter (fun m => decide (s ∈ ((live m).publish f m.topic m.payload).2.2)) ↔
      pattern ≠ lit "#" ∨ ∀ m, b.db.Holds m → m.topic = lit "#" := by
  have hsent : ∀ m, s ∈ ((live m).publish f m.topic m.payload).2.2 ↔
      m.topic = pattern ∨ pattern = lit "#" :=
    fun m => mem_recipients_iff (live m) f s pattern m.topic m.payload (hlive m)
  rw [replayMessages_eq b pattern ho hids]
  constructor
  · intro h
    by_cases hp : pattern = lit "#"
    · right
      intro m hm
      have hin : m ∈ (stored b.db).filter
          (fun m => decide (s ∈ ((live m).publish f m.topic m.payload).2.2)) :=
        List.mem_filter.mpr ⟨(mem_stored b.db m).mpr hm, decide_eq_true ((hsent m).mpr (Or.inr hp))⟩
      rw [← h, List.mem_filter, decide_eq_true_eq] at hin
      rw [← hp]
      exact hin.2
    · exact Or.inl hp
  · -- the two filters agree on every stored message
    intro h
    apply List.filter_congr
    intro m hm
    rw [decide_eq_decide, hsent m]
    rcases h with hp | hall
    · rw [or_iff_left hp]
    · constructor
      · exact Or.inl
      · rintro (ht | hp)
        · exact ht
        · rw [hp, hall m ((mem_stored b.db m).mp hm)]

/-- A broker on an empty store whose only subscription is that of session 1. -/
def subscribedTo (pattern : Bytes) : Broker ContractStore :=
  ((Broker.start ContractStore.empty).subscribe 1 pattern).1

theorem subscribed_subscribedTo (pattern t : Bytes) :
    (subscribedTo pattern).Subscribed 1 t ↔ t = pattern := by
  have hnone := Broker.not_subscribed_start ContractStore.empty 1 t
  rw [subscribedTo, Broker.subscribed_subscribe, or_iff_left hnone, and_iff_left rfl]
  exact eq_comm

/-- Two topics are stored: the replay of one of them is what was sent live. -/
theorem replay_matches_live_topic :
    (published [(lit "t", lit "x"), (lit "u", lit "y")]).replayMessages (lit "t") 0 =
      (stored (published [(lit "t", lit "x"), (lit "u", lit "y")]).db).filter
        fun m => decide (1 ∈ ((subscribedTo (lit "t")).publish ⟨(), (), ()⟩ m.topic m.payload).2.2) := by
  have hids : ∀ m ∈ stored (published [(lit "t", lit "x"), (lit "u", lit "y")]).db,
      1 ≤ m.seq ∧ m.seq ≤ maxStoredMessages := by decide
  exact (replay_matches_live_iff _ (persistence_published _)
    (fun m hm => hids m ((mem_stored _ m).mpr hm)) 1 (lit "t") (fun _ => subscribedTo (lit "t"))
    ⟨(), (), ()⟩ fun _ t => subscribed_subscribedTo (lit "t") t).mpr (Or.inl (by decide))

/-- A subscriber of the wildcard is sent the message on `t` live and not in its replay. -/
theorem wildcard_not_replayed :
    (∀ m, (published [(lit "t", lit "x")]).db.Holds m → 1 ≤ m.seq ∧ m.seq ≤ maxStoredMessages) ∧
    (∀ t, (subscribedTo (lit "#")).Subscribed 1 t ↔ t = lit "#") ∧
    (published [(lit "t", lit "x")]).replayMessages (lit "#") 0 ≠
      (stored (published [(lit "t", lit "x")]).db).filter
        fun m => decide (1 ∈ ((subscribedTo (lit "#")).publish ⟨(), (), ()⟩ m.topic m.payload).2.2) := by
  have hids : ∀ m ∈ stored (published [(lit "t", lit "x")]).db,
      1 ≤ m.seq ∧ m.seq ≤ maxStoredMessages := by decide
  exact ⟨fun m hm => hids m ((mem_stored _ m).mpr hm), subscribed_subscribedTo (lit "#"), by decide⟩

end Matching

end FullReplay

end MetricMQ
