import MetricMQ.Methods
import MetricMQ.SetTable

/-! The subscription table. It is meant to be the relation of who is subscribed to what; here
is what each method does to that relation, whom a publish reaches, and that the table holds
neither topics without subscribers nor sessions that are gone. -/
namespace MetricMQ

open ByteString Std Machine SetTable

namespace Broker

section Table

variable (session s : SessionId) (subs : Subscriptions) (topic t : Bytes)

theorem related_insert :
    Related (subs.insert topic ((subs.getD topic ∅).insert session)) t s ↔
      (topic = t ∧ session = s) ∨ Related subs t s := by
  rw [Related, TreeMap.getElem?_insert]
  by_cases ht : topic = t
  · subst ht
    rw [if_pos ReflCmp.compare_self, related_iff_mem_getD]
    constructor
    · rintro ⟨set, hset, hs⟩
      rw [← Option.some_inj.mp hset, TreeSet.mem_insert, LawfulEqCmp.compare_eq_iff_eq] at hs
      exact hs.imp (fun h => ⟨rfl, h⟩) id
    · intro h
      refine ⟨_, rfl, ?_⟩
      rw [TreeSet.mem_insert, LawfulEqCmp.compare_eq_iff_eq]
      exact h.imp And.right id
  · rw [if_neg (by rwa [LawfulEqCmp.compare_eq_iff_eq])]
    exact ⟨Or.inr, fun h => h.resolve_left fun h => ht h.1⟩

theorem related_dropSubscriber :
    Related (dropSubscriber session subs topic) t s ↔
      Related subs t s ∧ ¬ (topic = t ∧ session = s) := by
  rw [dropSubscriber]
  cases hset : subs[topic]? with
  | none =>
    refine ⟨fun h => ⟨h, ?_⟩, And.left⟩
    rintro ⟨rfl, -⟩
    obtain ⟨set, h, -⟩ := h
    rw [hset] at h
    cases h
  | some set =>
    rw [Related, TreeMap.getElem?_insert]
    by_cases ht : topic = t
    · subst ht
      rw [if_pos ReflCmp.compare_self, Related, hset]
      constructor
      · rintro ⟨_, hset', hs⟩
        rw [← Option.some_inj.mp hset', TreeSet.mem_erase, ne_eq, LawfulEqCmp.compare_eq_iff_eq] at hs
        exact ⟨⟨set, rfl, hs.2⟩, fun h => hs.1 h.2⟩
      · rintro ⟨⟨_, hset', hs⟩, hne⟩
        rw [← Option.some_inj.mp hset'] at hs
        refine ⟨_, rfl, ?_⟩
        rw [TreeSet.mem_erase, ne_eq, LawfulEqCmp.compare_eq_iff_eq]
        exact ⟨fun h => hne ⟨rfl, h⟩, hs⟩
    · rw [if_neg (by rwa [LawfulEqCmp.compare_eq_iff_eq])]
      exact ⟨fun h => ⟨h, fun hh => ht hh.1⟩, And.left⟩

/-- What is left under a topic was there before, and is not empty at the topic itself. -/
theorem getElem?_dropIfEmpty (set : TreeSet SessionId) :
    (dropIfEmpty subs topic)[t]? = some set ↔
      subs[t]? = some set ∧ (topic = t → set.isEmpty = false) := by
  rw [dropIfEmpty]
  cases htopic : subs[topic]? with
  | none =>
    refine ⟨fun h => ⟨h, ?_⟩, And.left⟩
    rintro rfl
    rw [htopic] at h
    cases h
  | some set' =>
    dsimp only
    split_ifs with he
    · rw [TreeMap.getElem?_erase]
      by_cases ht : topic = t
      · subst ht
        rw [if_pos ReflCmp.compare_self, htopic]
        constructor
        · intro h
          cases h
        · rintro ⟨hset, hf⟩
          rw [Option.some_inj.mp hset, hf rfl] at he
          cases he
      · rw [if_neg (by rwa [LawfulEqCmp.compare_eq_iff_eq])]
        exact ⟨fun h => ⟨h, fun hh => absurd hh ht⟩, And.left⟩
    · refine ⟨fun h => ⟨h, ?_⟩, And.left⟩
      rintro rfl
      rw [htopic] at h
      rw [← Option.some_inj.mp h]
      exact Bool.not_eq_true _ ▸ he

theorem related_dropIfEmpty : Related (dropIfEmpty subs topic) t s ↔ Related subs t s := by
  constructor
  · rintro ⟨set, hset, hs⟩
    exact ⟨set, ((getElem?_dropIfEmpty subs topic t set).mp hset).1, hs⟩
  · rintro ⟨set, hset, hs⟩
    refine ⟨set, (getElem?_dropIfEmpty subs topic t set).mpr ⟨hset, fun _ => ?_⟩, hs⟩
    exact TreeSet.isEmpty_eq_false_iff_exists_mem.mpr ⟨s, hs⟩

/-- The two loops of `removeSession`. -/
theorem related_foldl_dropSubscriber (topics : List Bytes) :
    Related (topics.foldl (dropSubscriber session) subs) t s ↔
      Related subs t s ∧ ¬ (t ∈ topics ∧ session = s) := by
  induction topics generalizing subs with
  | nil => simp
  | cons topic topics ih =>
    rw [List.foldl_cons, ih, related_dropSubscriber, and_assoc, ← not_or, ← or_and_right,
      List.mem_cons, @eq_comm _ t topic]

theorem getElem?_foldl_dropIfEmpty (topics : List Bytes) (set : TreeSet SessionId) :
    (topics.foldl dropIfEmpty subs)[t]? = some set ↔
      subs[t]? = some set ∧ (t ∈ topics → set.isEmpty = false) := by
  induction topics generalizing subs with
  | nil => simp
  | cons topic topics ih =>
    rw [List.foldl_cons, ih, getElem?_dropIfEmpty, and_assoc, List.mem_cons, or_imp, @eq_comm _ t topic]

theorem related_foldl_dropIfEmpty (topics : List Bytes) :
    Related (topics.foldl dropIfEmpty subs) t s ↔ Related subs t s := by
  induction topics generalizing subs with
  | nil => rfl
  | cons topic topics ih => rw [List.foldl_cons, ih, related_dropIfEmpty]

end Table

section Methods

variable {σ ε : Type} [Storage σ ε]

/-- `topic_subscribers_` has the session under the topic. -/
def Subscribed (b : Broker σ) (s : SessionId) (t : Bytes) : Prop := Related b.topicSubscribers t s

theorem mem_subscribersOf (b : Broker σ) (s : SessionId) (t : Bytes) :
    s ∈ b.subscribersOf t ↔ b.Subscribed s t := by
  rw [subscribersOf, Subscribed, Related]
  cases b.topicSubscribers[t]? with
  | none => simp
  | some set => simp

section Tables

variable (b : Broker σ) (session s : SessionId) (topic t : Bytes)

theorem subscribed_subscribe :
    (b.subscribe session topic).1.Subscribed s t ↔ (topic = t ∧ session = s) ∨ b.Subscribed s t :=
  related_insert session s b.topicSubscribers topic t

theorem subscribed_unsubscribe :
    (b.unsubscribe session topic).Subscribed s t ↔ b.Subscribed s t ∧ ¬ (topic = t ∧ session = s) := by
  rw [unsubscribe]
  cases htopic : b.topicSubscribers[topic]? with
  | none =>
    have hnone := related_dropSubscriber session s b.topicSubscribers topic t
    rwa [dropSubscriber, htopic] at hnone
  | some set =>
    dsimp only
    rw [Subscribed, related_dropIfEmpty, related_dropSubscriber]
    rfl

theorem subscribed_removeSession :
    (b.removeSession session).Subscribed s t ↔ b.Subscribed s t ∧ session ≠ s := by
  rw [removeSession, Subscribed]
  dsimp only
  rw [related_foldl_dropIfEmpty, related_foldl_dropSubscriber, not_and]
  refine and_congr_right fun h => ?_
  -- a session that is subscribed to the topic is found on the way
  obtain ⟨set, hset, -⟩ := h
  have hkey : t ∈ b.topicSubscribers.keys := by
    rw [TreeMap.mem_keys, TreeMap.mem_iff_isSome_getElem?, hset]
    rfl
  exact ⟨fun hh => hh hkey, fun hh _ => hh⟩

end Tables

section NoEmpty

variable (b : Broker σ) (session : SessionId) (topic : Bytes)

theorem noEmpty_subscribe (h : NoEmpty b.topicSubscribers) :
    NoEmpty (b.subscribe session topic).1.topicSubscribers := by
  intro t set hset
  change (b.topicSubscribers.insert topic _)[t]? = some set at hset
  rw [TreeMap.getElem?_insert] at hset
  split_ifs at hset
  · rw [← Option.some_inj.mp hset]
    exact TreeSet.isEmpty_eq_false_iff_exists_mem.mpr ⟨session, TreeSet.mem_insert_self⟩
  · exact h t set hset

theorem noEmpty_unsubscribe (h : NoEmpty b.topicSubscribers) :
    NoEmpty (b.unsubscribe session topic).topicSubscribers := by
  rw [unsubscribe]
  cases htopic : b.topicSubscribers[topic]? with
  | none => exact h
  | some set =>
    intro t set' hset
    obtain ⟨hset, hne⟩ := (getElem?_dropIfEmpty _ topic t set').mp hset
    by_cases ht : topic = t
    · exact hne ht
    · rw [dropSubscriber, htopic, TreeMap.getElem?_insert,
        if_neg (by rwa [LawfulEqCmp.compare_eq_iff_eq])] at hset
      exact h t set' hset

/-- The second loop of `removeSession` goes over all topics that are left. -/
theorem noEmpty_removeSession : NoEmpty (b.removeSession session).topicSubscribers := by
  intro t set hset
  obtain ⟨hset, hne⟩ := (getElem?_foldl_dropIfEmpty _ t _ set).mp hset
  apply hne
  rw [TreeMap.mem_keys, TreeMap.mem_iff_isSome_getElem?, hset]
  rfl

end NoEmpty

section Perform

variable (hash : HashOrder) (b : Broker σ) (m : Method ε)

/-- Everything a call can do to the relation. -/
theorem subscribed_perform (s : SessionId) (t : Bytes) :
    (b.perform hash m).Subscribed s t ↔
      m = .subscribe s t ∨ b.Subscribed s t ∧ m ≠ .unsubscribe s t ∧ m ≠ .removeSession s := by
  cases m with
  | subscribe s' t' =>
    rw [perform, subscribed_subscribe]
    simp [and_comm]
  | unsubscribe s' t' =>
    rw [perform, subscribed_unsubscribe]
    simp [and_comm]
  | removeSession s' =>
    rw [perform, subscribed_removeSession]
    simp
  | accept | publish | handleAck | registerClient | unregisterClient | stop =>
    rw [Subscribed, (b.perform_topicSubscribers hash _ rfl).1]
    simp [Subscribed]

theorem noEmpty_perform (h : NoEmpty b.topicSubscribers) :
    NoEmpty (b.perform hash m).topicSubscribers := by
  cases m with
  | subscribe s' t' => exact b.noEmpty_subscribe s' t' h
  | unsubscribe s' t' => exact b.noEmpty_unsubscribe s' t' h
  | removeSession s' => exact b.noEmpty_removeSession s'
  | accept | publish | handleAck | registerClient | unregisterClient | stop =>
    rw [(b.perform_topicSubscribers hash _ rfl).1]
    exact h

end Perform

end Methods

section Runs

variable {σ ε : Type} [Storage σ ε]

/-- The calls that decide whether `s` is subscribed to `t`. -/
def concerns (s : SessionId) (t : Bytes) : Method ε → Bool
  | .subscribe s' t' | .unsubscribe s' t' => s' = s && t' = t
  | .removeSession s' => s' = s
  | _ => false

/-- A session subscribes while it is in `sessions_`. -/
def SubscribesLive (b : Broker σ) : Method ε → Prop
  | .subscribe session _ => session ∈ b.sessions
  | _ => True

instance decidableSubscribesLive (b : Broker σ) : DecidablePred (SubscribesLive (ε := ε) b)
  | .subscribe session _ => inferInstanceAs (Decidable (session ∈ b.sessions))
  | .accept _ | .unsubscribe _ _ | .publish _ _ _ | .handleAck _ _ _ | .registerClient _ _
  | .unregisterClient _ | .removeSession _ | .stop => isTrue trivial

variable (hash : HashOrder) (b : Broker σ)

/-- The table holds what the last call on a session and a topic left. -/
theorem subscribed_after_iff (ms : List (Method ε)) (s : SessionId) (t : Bytes)
    (h0 : ¬ b.Subscribed s t) :
    (b.after hash ms).Subscribed s t ↔ (ms.filter (concerns s t)).getLast? = some (.subscribe s t) := by
  induction ms using List.reverseRecOn with
  | nil => exact iff_of_false h0 (by simp)
  | append_singleton ms m ih =>
    rw [after_snoc, subscribed_perform, ih, List.filter_append]
    rw [List.filter_singleton]
    cases hm : concerns s t m with
    | true =>
      -- this call is the last one
      rw [cond_true, List.getLast?_concat]
      cases m with
      | subscribe s' t' =>
        have hst : s' = s ∧ t' = t := by simpa [concerns] using hm
        simp [hst]
      | unsubscribe s' t' =>
        have hst : s' = s ∧ t' = t := by simpa [concerns] using hm
        simp [hst]
      | removeSession s' =>
        have hs : s' = s := by simpa [concerns] using hm
        simp [hs]
      | accept | publish | handleAck | registerClient | unregisterClient | stop => cases hm
    | false =>
      rw [cond_false, List.append_nil]
      have hne : m ≠ .subscribe s t ∧ m ≠ .unsubscribe s t ∧ m ≠ .removeSession s := by
        refine ⟨?_, ?_, ?_⟩ <;>
          · rintro rfl
            simp [concerns] at hm
      simp [hne]

theorem mem_sessions_perform (m : Method ε) (s : SessionId) (hs : s ∈ b.sessions)
    (hm : m ≠ .removeSession s) : s ∈ (b.perform hash m).sessions := by
  cases m with
  | accept session =>
    rcases b.accept_frame (ε := ε) hash session with h | h
    · rw [h]
      exact hs
    · rw [h]
      exact List.mem_append_left _ hs
  | removeSession session =>
    refine List.mem_filter.mpr ⟨hs, ?_⟩
    have hne : s ≠ session := fun he => hm (by rw [he])
    simpa using hne
  | unsubscribe session topic =>
    rw [perform, unsubscribe]
    cases b.topicSubscribers[topic]? with
    | none => exact hs
    | some set => exact hs
  | publish f topic payload =>
    obtain ⟨db, h⟩ := b.publish_frame f topic payload
    rw [perform, h]
    exact hs
  | registerClient c session =>
    obtain ⟨acks, marks, h⟩ := b.registerClient_frame hash c session
    rw [perform, h]
    exact hs
  | subscribe | handleAck | unregisterClient | stop => exact hs

theorem mem_sessions_after (ms : List (Method ε)) (s : SessionId) (hs : s ∈ b.sessions)
    (hms : .removeSession s ∉ ms) : s ∈ (b.after hash ms).sessions := by
  induction ms using List.reverseRecOn with
  | nil => exact hs
  | append_singleton ms m ih =>
    rw [List.mem_append, List.mem_singleton, not_or] at hms
    rw [after_snoc]
    exact mem_sessions_perform hash _ m s (ih hms.1) (Ne.symm hms.2)

/-- Every session in the table is in `sessions_`. -/
def SubscribersLive (b : Broker σ) : Prop := ∀ s t, b.Subscribed s t → s ∈ b.sessions

theorem subscribersLive_perform (m : Method ε) (h : b.SubscribersLive) (hm : b.SubscribesLive m) :
    (b.perform hash m).SubscribersLive := by
  intro s t hs
  rcases (subscribed_perform hash b m s t).mp hs with rfl | ⟨hs, -, hne⟩
  · exact mem_sessions_perform hash b _ s hm (by simp)
  · exact mem_sessions_perform hash b m s (h s t hs) hne

theorem not_subscribed_start (db : σ) (s : SessionId) (t : Bytes) :
    ¬ (Broker.start db).Subscribed s t := by
  rintro ⟨set, hset, -⟩
  simp [start] at hset

theorem subscribersLive_after (db : σ) (ms : List (Method ε))
    (h : Meets (methodStep hash) SubscribesLive (Broker.start db) ms) :
    ((Broker.start db).after hash ms).SubscribersLive :=
  run_invariant (fun b _ => b.SubscribersLive)
    (fun b _ m hb hm => subscribersLive_perform hash b m hb hm) (Broker.start db) [] ms
    (fun s t hs => absurd hs (not_subscribed_start db s t)) h

theorem noEmpty_start (db : σ) : NoEmpty (Broker.start db).topicSubscribers := by
  intro t set hset
  simp [start] at hset

theorem noEmpty_after (db : σ) (ms : List (Method ε)) :
    NoEmpty ((Broker.start db).after hash ms).topicSubscribers :=
  run_invariant (fun b _ => NoEmpty b.topicSubscribers)
    (fun b _ m hb _ => noEmpty_perform hash b m hb) (Broker.start db) [] ms (noEmpty_start db)
    (meets_true _ ms)

/-- In every run in which sessions subscribe only while they are in `sessions_`, the table is
the relation that the last call on a session and a topic left, no topic is kept without
subscribers, and no publish reaches a session that was removed. -/
theorem subscription_table_refines (db : σ) (ms : List (Method ε))
    (h : Meets (methodStep hash) SubscribesLive (Broker.start db) ms) :
    (∀ s t, ((Broker.start db).after hash ms).Subscribed s t ↔
      (ms.filter (concerns s t)).getLast? = some (.subscribe s t)) ∧
    (∀ (t : Bytes) (set : TreeSet SessionId),
      ((Broker.start db).after hash ms).topicSubscribers[t]? = some set → set.isEmpty = false) ∧
    (∀ s t, ((Broker.start db).after hash ms).Subscribed s t →
      s ∈ ((Broker.start db).after hash ms).sessions) ∧
    ∀ topic, ∀ s ∈ ((Broker.start db).after hash ms).recipients topic,
      s ∈ ((Broker.start db).after hash ms).sessions := by
  have hlive := subscribersLive_after hash db ms h
  refine ⟨?_, noEmpty_after hash db ms, hlive, ?_⟩
  · exact fun s t => subscribed_after_iff hash _ ms s t (not_subscribed_start db s t)
  · intro topic s hs
    rcases List.mem_append.mp hs with hs | hs
    · exact hlive s topic ((mem_subscribersOf _ s topic).mp hs)
    · exact hlive s (lit "#") ((mem_subscribersOf _ s _).mp hs)

/-- Two sessions; one of them subscribes twice, one leaves a topic it is not on, one is removed. -/
theorem subscription_table_refines_two_sessions :
    (∀ s t, ((Broker.start ContractStore.empty).after ⟨id, fun _ _ => Iff.rfl⟩
        [.accept 1, .accept 2, .subscribe 1 (lit "t"), .subscribe 1 (lit "t"), .subscribe 2 (lit "#"),
          .unsubscribe 2 (lit "t"), .removeSession 1]).Subscribed s t ↔
      ([.accept 1, .accept 2, .subscribe 1 (lit "t"), .subscribe 1 (lit "t"), .subscribe 2 (lit "#"),
          .unsubscribe 2 (lit "t"), .removeSession 1].filter (concerns s t)).getLast? =
        some (.subscribe s t : Method Unit)) ∧
    ((Broker.start ContractStore.empty).after ⟨id, fun _ _ => Iff.rfl⟩
        [.accept 1, .accept 2, .subscribe 1 (lit "t"), .subscribe 1 (lit "t"), .subscribe 2 (lit "#"),
          .unsubscribe 2 (lit "t"), .removeSession 1]).recipients (lit "t") = [2] :=
  ⟨(subscription_table_refines _ _ _ (by decide)).1, by decide⟩

end Runs

end Broker

end MetricMQ
