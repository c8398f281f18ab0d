import MetricMQ.BigEndian
import MetricMQ.Subscriptions

/-! The gauges that are kept beside the subscription table: what they show, and in which runs
that is the number they are named after. -/
namespace MetricMQ

open ByteString BigEndian Std Machine SetTable

namespace Metrics

variable (m : Metrics) (topic t : Bytes)

theorem getD_incrementTopicSubscribers :
    (m.incrementTopicSubscribers topic).topicSubscribers.getD t 0 =
      if topic = t then m.topicSubscribers.getD t 0 + 1 else m.topicSubscribers.getD t 0 := by
  rw [incrementTopicSubscribers]
  dsimp only
  rw [TreeMap.getD_insert]
  by_cases ht : topic = t
  · rw [if_pos ht, if_pos (by rw [ht]; exact ReflCmp.compare_self), ht]
  · rw [if_neg ht, if_neg (by rwa [LawfulEqCmp.compare_eq_iff_eq])]

/-- An entry that would fall to zero is erased, and then reads as zero. -/
theorem getD_decrementTopicSubscribers (h : 0 < (m.topicSubscribers.getD topic 0).toInt) :
    ((m.decrementTopicSubscribers topic).topicSubscribers.getD t 0).toInt =
      if topic = t then (m.topicSubscribers.getD t 0).toInt - 1
      else (m.topicSubscribers.getD t 0).toInt := by
  rw [decrementTopicSubscribers]
  cases hn : m.topicSubscribers[topic]? with
  | none =>
    rw [TreeMap.getD_eq_getD_getElem?, hn] at h
    cases h
  | some n =>
    have hget : m.topicSubscribers.getD topic 0 = n := by
      rw [TreeMap.getD_eq_getD_getElem?, hn]
      rfl
    rw [hget] at h
    -- one less than a positive number does not wrap
    have hlt := n.toInt_lt
    have hsub : (n - 1).toInt = n.toInt - 1 := by
      rw [Int64.toInt_sub]
      exact Int.bmod_eq_of_le (by change _ ≤ n.toInt - 1; omega) (by change n.toInt - 1 < _; omega)
    dsimp only
    split_ifs with hle ht ht
    · rw [TreeMap.getD_erase, if_pos (by rw [ht]; exact ReflCmp.compare_self), ← ht, hget]
      rw [Int64.le_iff_toInt_le, hsub] at hle
      change n.toInt - 1 ≤ 0 at hle
      change (0 : ℤ) = _
      omega
    · rw [TreeMap.getD_erase, if_neg (by rwa [LawfulEqCmp.compare_eq_iff_eq])]
    · rw [TreeMap.getD_insert, if_pos (by rw [ht]; exact ReflCmp.compare_self), ← ht, hget, hsub]
    · rw [TreeMap.getD_insert, if_neg (by rwa [LawfulEqCmp.compare_eq_iff_eq])]

end Metrics

namespace Broker

section Global

variable {σ ε : Type} [Storage σ ε]

/-- The pairs of a topic and a session that is subscribed to it. -/
def subscriptions (b : Broker σ) : Set (Bytes × SessionId) := {p | b.Subscribed p.2 p.1}

/-- `active_subscribers` and `topic_count` show what they are named after. -/
def GaugesMatch (b : Broker σ) : Prop :=
  b.metrics.activeSubscribers.toInt = b.subscriptions.ncard ∧
    b.metrics.topicCount.toInt = {t | ∃ s, b.Subscribed s t}.ncard

/-- A new pair is one of at most `INT_MAX`. -/
def CountFits (b : Broker σ) : Method ε → Prop
  | .subscribe session topic => b.Subscribed session topic ∨ b.subscriptions.ncard + 1 < 2 ^ 31
  | _ => True

/-- The gauges were set after the last change of the table. -/
structure GaugesSet (b : Broker σ) : Prop where
  subscribers : b.metrics.activeSubscribers = (countTotalSubscribers b.topicSubscribers).toInt64
  topics : b.metrics.topicCount = Int64.ofNat b.topicSubscribers.size
  noEmpty : NoEmpty b.topicSubscribers

theorem countTotalSubscribers_dropIfEmpty (subs : Subscriptions) (topic : Bytes) :
    countTotalSubscribers (dropIfEmpty subs topic) = countTotalSubscribers subs := by
  rw [countTotalSubscribers, countTotalSubscribers, ← ncard_related, ← ncard_related]
  congr 2
  ext p
  exact related_dropIfEmpty p.2 subs topic p.1

section Steps

variable (hash : HashOrder) (b : Broker σ)

/-- The topic gauge is left alone when a topic keeps other subscribers: their number is the
same. -/
theorem gaugesSet_unsubscribe (session : SessionId) (topic : Bytes) (h : b.GaugesSet) :
    (b.unsubscribe session topic).GaugesSet := by
  have hne := b.noEmpty_unsubscribe session topic h.noEmpty
  rw [unsubscribe] at hne ⊢
  cases htopic : b.topicSubscribers[topic]? with
  | none => exact h
  | some set =>
    rw [htopic] at hne
    have hdec : ∀ m : Metrics, (m.decrementTopicSubscribers topic).topicCount = m.topicCount := by
      intro m
      rw [Metrics.decrementTopicSubscribers]
      split
      · rfl
      · split_ifs <;> rfl
    refine ⟨?_, ?_, hne⟩
    · dsimp only
      rw [countTotalSubscribers_dropIfEmpty]
      split_ifs <;> rfl
    · dsimp only
      split_ifs with he
      · rfl
      · -- the topic stays in the table, and so does the number of topics
        have hkey : b.topicSubscribers.contains topic = true := by
          rw [TreeMap.contains_eq_isSome_getElem?, htopic]
          rfl
        have hdrop : dropSubscriber session b.topicSubscribers topic =
            b.topicSubscribers.insert topic (set.erase session) := by
          rw [dropSubscriber, htopic]
        have hstay : dropIfEmpty (dropSubscriber session b.topicSubscribers topic) topic =
            dropSubscriber session b.topicSubscribers topic := by
          rw [dropIfEmpty, hdrop, TreeMap.getElem?_insert_self]
          exact if_neg he
        rw [hstay, hdrop, TreeMap.size_insert, if_pos hkey, ← h.topics]
        exact hdec _

theorem gaugesSet_perform (m : Method ε) (h : b.GaugesSet) : (b.perform hash m).GaugesSet := by
  have hne := b.noEmpty_perform hash m h.noEmpty
  have hother : m.touchesTable = false → (b.perform hash m).GaugesSet := by
    intro hm
    obtain ⟨htable, hsubs, htopics, -⟩ := b.perform_topicSubscribers hash m hm
    refine ⟨?_, ?_, hne⟩
    · rw [hsubs, htable, h.subscribers]
    · rw [htopics, htable, h.topics]
  cases m with
  | subscribe session topic => exact ⟨rfl, rfl, hne⟩
  | unsubscribe session topic => exact b.gaugesSet_unsubscribe session topic h
  | removeSession session => exact ⟨rfl, rfl, hne⟩
  | accept | publish | handleAck | registerClient | unregisterClient | stop => exact hother rfl

/-- The `int` of `countTotalSubscribers` is the only thing that can go wrong. -/
theorem gaugesMatch_iff (h : b.GaugesSet) : b.GaugesMatch ↔ b.subscriptions.ncard < 2 ^ 31 := by
  have hpairs : b.subscriptions.ncard = (b.topicSubscribers.values.map TreeSet.size).sum :=
    ncard_related b.topicSubscribers
  have hkeys : {t | ∃ s, b.Subscribed s t}.ncard = b.topicSubscribers.size :=
    ncard_keys b.topicSubscribers h.noEmpty
  have hle := size_le_sum b.topicSubscribers h.noEmpty
  rw [GaugesMatch, h.subscribers, h.topics, hkeys, countTotalSubscribers, ← hpairs,
    Int32.toInt_toInt64, Int32.toInt_ofNat']
  rw [← hpairs] at hle
  constructor
  · -- an `int` is below `2 ^ 31` whatever was added up in it
    rintro ⟨hsubs, -⟩
    have hlt := Int.bmod_lt (x := (b.subscriptions.ncard : ℤ)) (m := Int32.size) (by decide)
    rw [hsubs, Int32.size] at hlt
    omega
  · intro hlt
    refine ⟨?_, Int64.toInt_ofNat_of_lt (by omega)⟩
    rw [← Int32.toInt_ofNat', Int32.toInt_ofNat_of_lt hlt]

theorem subscriptions_subscribe (session : SessionId) (topic : Bytes) :
    (b.subscribe session topic).1.subscriptions = insert (topic, session) b.subscriptions := by
  ext ⟨t, s⟩
  rw [Set.mem_insert_iff, Prod.mk.injEq, @eq_comm _ t, @eq_comm _ s]
  exact b.subscribed_subscribe session s topic t

theorem subscriptions_perform_subset (m : Method ε) (h : ∀ s t, m ≠ .subscribe s t) :
    (b.perform hash m).subscriptions ⊆ b.subscriptions := by
  rintro ⟨t, s⟩ hs
  exact (((b.subscribed_perform hash m s t).mp hs).resolve_left (h s t)).1

/-- A call keeps the number of pairs below the limit unless it adds the one too many. -/
theorem ncard_subscriptions_perform (m : Method ε) (h : b.subscriptions.ncard < 2 ^ 31) :
    (b.perform hash m).subscriptions.ncard < 2 ^ 31 ↔ b.CountFits m := by
  have hfinite : b.subscriptions.Finite := finite_related b.topicSubscribers
  -- no other call adds a pair
  have hother : (∀ s t, m ≠ .subscribe s t) → (b.perform hash m).subscriptions.ncard < 2 ^ 31 :=
    fun hm => (Set.ncard_le_ncard (b.subscriptions_perform_subset hash m hm) hfinite).trans_lt h
  cases m with
  | subscribe session topic =>
    rw [perform, subscriptions_subscribe, CountFits]
    change _ ↔ (topic, session) ∈ b.subscriptions ∨ _
    by_cases hs : (topic, session) ∈ b.subscriptions
    · rw [Set.insert_eq_of_mem hs]
      exact iff_of_true h (Or.inl hs)
    · rw [Set.ncard_insert_of_notMem hs hfinite]
      exact ⟨Or.inr, fun h => h.resolve_left hs⟩
  | unsubscribe | removeSession | accept | publish | handleAck | registerClient | unregisterClient
  | stop => exact iff_of_true (hother (by simp)) trivial

end Steps

theorem gaugesSet_start (db : σ) : (Broker.start db).GaugesSet := ⟨rfl, rfl, noEmpty_start db⟩

theorem gaugesSet_after (hash : HashOrder) (db : σ) (ms : List (Method ε)) :
    ((Broker.start db).after hash ms).GaugesSet :=
  run_invariant (fun b _ => b.GaugesSet) (fun b _ m hb _ => b.gaugesSet_perform hash m hb)
    (Broker.start db) [] ms (gaugesSet_start db) (meets_true _ ms)

/-- After every call of a run both gauges show the state, as long as there are not more pairs
than an `int` counts. -/
theorem global_gauges_match_iff (hash : HashOrder) (db : σ) (ms : List (Method ε)) :
    (∀ pre, pre <+: ms → ((Broker.start db).after hash pre).GaugesMatch) ↔
      Meets (methodStep hash) CountFits (Broker.start db) ms := by
  have hzero : (Broker.start db).GaugesMatch := by
    rw [gaugesMatch_iff _ (gaugesSet_start db)]
    have hempty : (Broker.start db).subscriptions = ∅ := by
      ext ⟨t, s⟩
      exact iff_of_false (not_subscribed_start db s t) id
    rw [hempty, Set.ncard_empty]
    norm_num
  refine forall_prefix_iff_meets GaugesSet GaugesMatch (fun b m hb => b.gaugesSet_perform hash m hb)
    ?_ _ ms (gaugesSet_start db) hzero
  intro b m hb hmatch
  change (b.perform hash m).GaugesMatch ↔ b.CountFits m
  rw [gaugesMatch_iff _ (b.gaugesSet_perform hash m hb)]
  exact b.ncard_subscriptions_perform hash m ((b.gaugesMatch_iff hb).mp hmatch)

/-- One session subscribes to `n` topics. -/
def manyTopics (n : ℕ) : List (Method Unit) :=
  .accept 0 :: (List.range n).map fun i => .subscribe 0 (bytes32 (UInt32.ofNat i))

theorem bytes32_ofNat_inj (i j : ℕ) (hi : i < 2 ^ 32) (hj : j < 2 ^ 32)
    (h : bytes32 (UInt32.ofNat i) = bytes32 (UInt32.ofNat j)) : i = j := by
  have hv : UInt32.ofNat i = UInt32.ofNat j := by
    obtain ⟨a0, a1, a2, a3, ha, hi⟩ := be32_bytes32 (UInt32.ofNat i)
    obtain ⟨b0, b1, b2, b3, hb, hj⟩ := be32_bytes32 (UInt32.ofNat j)
    rw [ha, hb] at h
    simp only [List.cons.injEq] at h
    rw [← hi, ← hj, h.1, h.2.1, h.2.2.1, h.2.2.2.1]
  rw [← UInt32.toNat_inj, UInt32.toNat_ofNat_of_lt' hi, UInt32.toNat_ofNat_of_lt' hj] at hv
  exact hv

theorem subscribed_manyTopics (hash : HashOrder) (n : ℕ) (s : SessionId) (t : Bytes) :
    ((Broker.start ContractStore.empty).after hash (manyTopics n)).Subscribed s t ↔
      ∃ i < n, (bytes32 (UInt32.ofNat i), 0) = (t, s) := by
  induction n with
  | zero =>
    refine iff_of_false ?_ (by simp)
    have hzero : manyTopics 0 = [] ++ [.accept 0] := rfl
    rw [hzero, after_snoc, subscribed_perform]
    simp [after_nil, not_subscribed_start]
  | succ n ih =>
    rw [manyTopics, List.range_succ, List.map_append, ← List.cons_append, ← manyTopics, List.map_cons,
      List.map_nil, after_snoc, subscribed_perform, ih]
    simp only [Method.subscribe.injEq, reduceCtorEq, ne_eq, not_false_eq_true, and_true, Prod.mk.injEq,
      Nat.lt_succ_iff_lt_or_eq, or_and_right, exists_or, exists_eq_left]
    rw [or_comm, and_comm (a := 0 = s)]

theorem ncard_manyTopics (hash : HashOrder) (n : ℕ) (hn : n ≤ 2 ^ 32) :
    ((Broker.start ContractStore.empty).after hash (manyTopics n)).subscriptions.ncard = n := by
  classical
  have hset : ((Broker.start ContractStore.empty).after hash (manyTopics n)).subscriptions =
      ↑((Finset.range n).image fun i => (bytes32 (UInt32.ofNat i), (0 : SessionId))) := by
    ext ⟨t, s⟩
    rw [Finset.coe_image, Set.mem_image]
    refine (subscribed_manyTopics hash n s t).trans ?_
    simp only [Finset.coe_range, Set.mem_Iio]
  rw [hset, Set.ncard_coe_finset, Finset.card_image_of_injOn, Finset.card_range]
  intro i hi j hj h
  rw [Finset.coe_range, Set.mem_Iio] at hi hj
  exact bytes32_ofNat_inj i j (by omega) (by omega) (Prod.mk.inj h).1

/-- One pair more than an `int` counts. -/
theorem gauge_wraps :
    ¬ ((Broker.start ContractStore.empty).after ⟨id, fun _ _ => Iff.rfl⟩
      (manyTopics (2 ^ 31))).GaugesMatch := by
  have hset := gaugesSet_after (ε := Unit) ⟨id, fun _ _ => Iff.rfl⟩ ContractStore.empty (manyTopics (2 ^ 31))
  rw [gaugesMatch_iff _ hset, ncard_manyTopics _ _ (by omega)]
  exact lt_irrefl _

end Global

section PerTopic

variable {σ ε : Type} [Storage σ ε]

def subscribersTo (b : Broker σ) (t : Bytes) : Set SessionId := {s | b.Subscribed s t}

/-- What is exported for a topic, and nothing for a topic without an entry, is the number of its
subscribers. -/
def TopicGaugesMatch (b : Broker σ) : Prop :=
  ∀ t, (b.metrics.topicSubscribers.getD t 0).toInt = (b.subscribersTo t).ncard

/-- The calls that change the table the way they change the gauge: nobody subscribes twice,
whoever unsubscribes from a topic of others is one of them, and who disconnects has left all
its topics before. -/
def MovesGauge (b : Broker σ) : Method ε → Prop
  | .subscribe session topic =>
    ¬ b.Subscribed session topic ∧ (b.subscribersTo topic).ncard + 1 < 2 ^ 63
  | .unsubscribe session topic => (∃ s, b.Subscribed s topic) → b.Subscribed session topic
  | .removeSession session => ∀ topic, ¬ b.Subscribed session topic
  | _ => True

variable (hash : HashOrder) (b : Broker σ) (session : SessionId) (topic t : Bytes)

theorem finite_subscribersTo : (b.subscribersTo t).Finite := by
  have hsub : b.subscribersTo t ⊆ Prod.snd '' b.subscriptions := fun s hs => ⟨(t, s), hs, rfl⟩
  exact ((finite_related b.topicSubscribers).image _).subset hsub

theorem subscribersTo_subscribe :
    (b.subscribe session topic).1.subscribersTo t =
      if topic = t then insert session (b.subscribersTo t) else b.subscribersTo t := by
  ext s
  refine (b.subscribed_subscribe session s topic t).trans ?_
  split_ifs with ht
  · rw [Set.mem_insert_iff, @eq_comm _ s]
    exact or_congr_left (and_iff_right ht)
  · exact or_iff_right fun hh => ht hh.1

theorem subscribersTo_unsubscribe :
    (b.unsubscribe session topic).subscribersTo t =
      if topic = t then b.subscribersTo t \ {session} else b.subscribersTo t := by
  ext s
  refine (b.subscribed_unsubscribe session s topic t).trans ?_
  split_ifs with ht
  · rw [Set.mem_sdiff, Set.mem_singleton_iff, @eq_comm _ s]
    exact and_congr_right fun _ => not_congr (and_iff_right ht)
  · exact and_iff_left fun hh => ht hh.1

theorem subscribersTo_removeSession :
    (b.removeSession session).subscribersTo t = b.subscribersTo t \ {session} := by
  ext s
  rw [Set.mem_sdiff, Set.mem_singleton_iff, @eq_comm _ s]
  exact b.subscribed_removeSession session s t

theorem topicGauges_subscribe (h : b.TopicGaugesMatch) :
    (b.subscribe session topic).1.TopicGaugesMatch ↔ b.MovesGauge (.subscribe session topic : Method ε) := by
  have hgauge : ∀ t, (b.subscribe session topic).1.metrics.topicSubscribers.getD t 0 = _ :=
    b.metrics.incrementSubscriptions.getD_incrementTopicSubscribers topic
  have hrow := b.subscribersTo_subscribe (ε := ε) session topic
  have hb := h topic
  constructor
  · intro h'
    have hb' := h' topic
    rw [hgauge, if_pos rfl, hrow, if_pos rfl] at hb'
    change (b.metrics.topicSubscribers.getD topic 0 + 1).toInt = _ at hb'
    by_cases hs : session ∈ b.subscribersTo topic
    · -- the gauge has moved, the table has not
      rw [Set.insert_eq_of_mem hs, ← hb, Int64.toInt_inj, Int64.add_eq_left] at hb'
      cases hb'
    · have hlt := (b.metrics.topicSubscribers.getD topic 0 + 1).toInt_lt
      rw [hb', Set.ncard_insert_of_notMem hs (b.finite_subscribersTo topic)] at hlt
      exact ⟨hs, by omega⟩
  · rintro ⟨hs, hlt⟩ t
    change session ∉ b.subscribersTo topic at hs
    rw [hgauge, hrow]
    split_ifs with ht
    · subst ht
      rw [Set.ncard_insert_of_notMem hs (b.finite_subscribersTo topic), Int64.toInt_add]
      change ((b.metrics.topicSubscribers.getD topic 0).toInt + 1).bmod (2 ^ 64) = _
      rw [hb, Int.bmod_eq_of_le (by omega) (by omega)]
      rfl
    · exact h t

omit [Storage σ ε] in
theorem topicGauges_unsubscribe (hne : NoEmpty b.topicSubscribers) (h : b.TopicGaugesMatch) :
    (b.unsubscribe session topic).TopicGaugesMatch ↔
      b.MovesGauge (.unsubscribe session topic : Method ε) := by
  by_cases hex : ∃ s, b.Subscribed s topic
  · have hpos : 0 < (b.subscribersTo topic).ncard := by
      obtain ⟨s, hs⟩ := hex
      exact Set.ncard_pos (b.finite_subscribersTo topic) |>.mpr ⟨s, hs⟩
    have hb := h topic
    have hgauge : ∀ t, ((b.unsubscribe session topic).metrics.topicSubscribers.getD t 0).toInt =
        if topic = t then ((b.subscribersTo t).ncard : ℤ) - 1 else (b.subscribersTo t).ncard := by
      intro t
      obtain ⟨s, set, hset, -⟩ := hex
      have hdec := b.metrics.incrementUnsubscriptions.getD_decrementTopicSubscribers topic t
        (by change 0 < (b.metrics.topicSubscribers.getD topic 0).toInt; omega)
      rw [← h t, (b.unsubscribe_topicMaps session topic set hset).2]
      split_ifs at hdec ⊢ <;> exact hdec
    have hrow := b.subscribersTo_unsubscribe session topic
    constructor
    · intro h' _
      by_contra hs
      change session ∉ b.subscribersTo topic at hs
      have hb' := h' topic
      rw [hgauge, if_pos rfl, hrow, if_pos rfl, Set.sdiff_singleton_eq_self hs] at hb'
      omega
    · intro hm t
      have hs : session ∈ b.subscribersTo topic := hm hex
      rw [hgauge, hrow]
      split_ifs with ht
      · subst ht
        rw [Set.ncard_sdiff_singleton_of_mem hs]
        omega
      · rfl
  · -- the topic is not in the table, and nothing happens
    have hnone : b.topicSubscribers[topic]? = none := by
      rw [Option.eq_none_iff_forall_ne_some]
      intro set hset
      obtain ⟨s, hs⟩ := TreeSet.isEmpty_eq_false_iff_exists_mem.mp (hne topic set hset)
      exact hex ⟨s, set, hset, hs⟩
    have hsame : b.unsubscribe session topic = b := by rw [unsubscribe, hnone]
    rw [hsame]
    exact iff_of_true h fun hh => absurd hh hex

omit [Storage σ ε] in
theorem topicGauges_removeSession (h : b.TopicGaugesMatch) :
    (b.removeSession session).TopicGaugesMatch ↔ b.MovesGauge (.removeSession session : Method ε) := by
  have hrow := b.subscribersTo_removeSession session
  -- the loop over the sets does not know of the gauges
  have hgauge := (b.removeSession_topicMaps session).2
  constructor
  · intro h' topic hs
    change session ∈ b.subscribersTo topic at hs
    have hb' := h' topic
    rw [hgauge, h topic, hrow, Set.ncard_sdiff_singleton_of_mem hs] at hb'
    have hpos := Set.ncard_pos (b.finite_subscribersTo topic) |>.mpr ⟨session, hs⟩
    omega
  · intro hm t
    have hs : session ∉ b.subscribersTo t := hm t
    rw [hgauge, h t, hrow, Set.sdiff_singleton_eq_self hs]

/-- A call keeps the gauges of all topics right exactly when it changes them as it changes the
table. -/
theorem topicGauges_perform (m : Method ε) (hne : NoEmpty b.topicSubscribers)
    (h : b.TopicGaugesMatch) : (b.perform hash m).TopicGaugesMatch ↔ b.MovesGauge m := by
  have hother : m.touchesTable = false → (b.perform hash m).TopicGaugesMatch := by
    intro hm t
    obtain ⟨htable, -, -, hgauge⟩ := b.perform_topicSubscribers hash m hm
    rw [hgauge, h t, subscribersTo, subscribersTo]
    simp only [Subscribed, htable]
  cases m with
  | subscribe session topic => exact b.topicGauges_subscribe session topic h
  | unsubscribe session topic => exact b.topicGauges_unsubscribe session topic hne h
  | removeSession session => exact b.topicGauges_removeSession session h
  | accept | publish | handleAck | registerClient | unregisterClient | stop =>
    exact iff_of_true (hother rfl) trivial

/-- The gauge of a topic is moved beside the table and not read off it, so it is right in all
states of a run exactly when every call of the run moves both alike. -/
theorem topic_gauges_match_iff (db : σ) (ms : List (Method ε)) :
    (∀ pre, pre <+: ms → ((Broker.start db).after hash pre).TopicGaugesMatch) ↔
      Meets (methodStep hash) MovesGauge (Broker.start db) ms := by
  have hzero : (Broker.start db).TopicGaugesMatch := by
    intro t
    have hempty : (Broker.start db).subscribersTo t = ∅ := by
      ext s
      exact iff_of_false (not_subscribed_start db s t) id
    rw [hempty, Set.ncard_empty]
    simp [start]
  refine forall_prefix_iff_meets (fun b => NoEmpty b.topicSubscribers) TopicGaugesMatch
    (fun b m hb => b.noEmpty_perform hash m hb) ?_ _ ms (noEmpty_start db) hzero
  intro b m hb h
  exact b.topicGauges_perform hash m hb h

theorem ncard_subscribersTo : (b.subscribersTo t).ncard = (b.topicSubscribers.getD t ∅).size :=
  ncard_row b.topicSubscribers t

/-- A repeated subscribe is counted twice, a session that disconnects stays counted, and a
session that leaves a topic it is not on is taken off it. -/
theorem topic_gauges_drift :
    ¬ ((Broker.start ContractStore.empty).after ⟨id, fun _ _ => Iff.rfl⟩
      ([.accept 1, .subscribe 1 (lit "t"), .subscribe 1 (lit "t")] : List (Method Unit))).TopicGaugesMatch ∧
    ¬ ((Broker.start ContractStore.empty).after ⟨id, fun _ _ => Iff.rfl⟩
      ([.accept 1, .subscribe 1 (lit "t"), .removeSession 1] : List (Method Unit))).TopicGaugesMatch ∧
    ¬ ((Broker.start ContractStore.empty).after ⟨id, fun _ _ => Iff.rfl⟩
      ([.accept 1, .accept 2, .subscribe 1 (lit "t"), .unsubscribe 2 (lit "t")] :
        List (Method Unit))).TopicGaugesMatch := by
  refine ⟨fun h => ?_, fun h => ?_, fun h => ?_⟩ <;>
    · have ht := h (lit "t")
      rw [ncard_subscribersTo] at ht
      revert ht
      decide

end PerTopic

end Broker

end MetricMQ
