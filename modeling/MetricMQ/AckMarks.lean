import MetricMQ.Methods

/-! The high-water mark of a client. It is kept three times, as an entry of `last_ack_seq_`, in
the bounded set of the client and, with `save_ack`, in the storage; here is that the two in
memory agree and what they are the highest of. -/
namespace MetricMQ

open ByteString Std Machine

/-- The mark of a client among acknowledgements: the highest one, or zero if there are none. -/
def IsMark (acked : List (Bytes × UInt64)) (c : Bytes) (mark : UInt64) : Prop :=
  (∀ s, (c, s) ∈ acked → s ≤ mark) ∧ ((c, mark) ∈ acked ∨ mark = 0 ∧ ∀ s, (c, s) ∉ acked)

def Method.touchesAcks {ε : Type} : Method ε → Bool
  | .handleAck _ _ _ | .registerClient _ _ => true
  | _ => false

namespace Broker

variable {σ ε : Type} [Storage σ ε]

section Calls

variable (hash : HashOrder) (b : Broker σ) (c d : Bytes) (session : SessionId)

/-- The set of a client; the map makes an empty one at the first access. -/
def acksOf (b : Broker σ) (c : Bytes) : BoundedAckSet := b.clientAcks.getD c .empty

/-- `last_ack_seq_` is the mark that the set of the client keeps. -/
def MarksAgree (b : Broker σ) : Prop := ∀ c, b.getLastAck c = (b.acksOf c).maxSeq

theorem isAcked_eq (s : UInt64) : b.isAcked c s = (b.acksOf c).contains s := by
  rw [isAcked, acksOf, TreeMap.getD_eq_getD_getElem?]
  cases b.clientAcks[c]? with
  | none => simp [BoundedAckSet.empty]
  | some acks => rfl

/-- The other methods leave the acknowledgement state in memory alone. -/
theorem perform_acks (m : Method ε) (h : m.touchesAcks = false) :
    (b.perform hash m).clientAcks = b.clientAcks ∧ (b.perform hash m).lastAckSeq = b.lastAckSeq := by
  cases m with
  | handleAck | registerClient => cases h
  | accept session =>
    rcases b.accept_frame (ε := ε) hash session with h | h
    · rw [h]
      exact ⟨rfl, rfl⟩
    · rw [h]
      exact ⟨rfl, rfl⟩
  | unsubscribe session topic =>
    rw [perform, unsubscribe]
    cases b.topicSubscribers[topic]? with
    | none => exact ⟨rfl, rfl⟩
    | some set => exact ⟨rfl, rfl⟩
  | publish f topic payload =>
    obtain ⟨db, h⟩ := b.publish_frame f topic payload
    rw [perform, h]
    exact ⟨rfl, rfl⟩
  | subscribe | unregisterClient | removeSession | stop => exact ⟨rfl, rfl⟩

theorem acksOf_handleAck (err : ε) (n : UInt64) :
    (b.handleAck err c n).acksOf d = if c = d then (b.acksOf d).insert n else b.acksOf d := by
  rw [acksOf, handleAck, TreeMap.getD_insert]
  by_cases hd : c = d
  · rw [if_pos hd, if_pos (by rw [hd]; exact ReflCmp.compare_self), hd, acksOf]
  · rw [if_neg hd, if_neg (by rwa [LawfulEqCmp.compare_eq_iff_eq]), acksOf]

/-- The storage is open: what it knows is added to what is in memory. -/
theorem registerClient_open (ho : b.persistence = true) :
    b.registerClient hash c session =
      { b with
        clientSessions := b.clientSessions.insert c session
        clientAcks := b.clientAcks.insert c
          ((b.acksOf c).insertAll (hash.iterate (Storage.loadAcks b.db c)))
        lastAckSeq :=
          if ((b.acksOf c).insertAll (hash.iterate (Storage.loadAcks b.db c))).isEmpty then b.lastAckSeq
          else b.lastAckSeq.insert c
            ((b.acksOf c).insertAll (hash.iterate (Storage.loadAcks b.db c))).maxSeq } := by
  rw [registerClient]
  dsimp only
  rw [if_pos ho]
  rfl

theorem registerClient_closed (ho : ¬ b.persistence = true) :
    b.registerClient hash c session =
      { b with clientSessions := b.clientSessions.insert c session } := by
  rw [registerClient]
  dsimp only
  rw [if_neg ho]

theorem acksOf_registerClient :
    (b.registerClient hash c session).acksOf d =
      if b.persistence = true ∧ c = d then
        (b.acksOf d).insertAll (hash.iterate (Storage.loadAcks b.db d))
      else b.acksOf d := by
  by_cases ho : b.persistence = true
  · rw [registerClient_open hash b c session ho]
    by_cases hd : c = d
    · subst hd
      rw [if_pos (show b.persistence = true ∧ c = c from ⟨ho, rfl⟩)]
      exact TreeMap.getD_insert_self
    · rw [if_neg fun h : b.persistence = true ∧ c = d => hd h.2, acksOf, TreeMap.getD_insert,
        if_neg (by rwa [LawfulEqCmp.compare_eq_iff_eq]), acksOf]
  · rw [registerClient_closed hash b c session ho, if_neg fun h => ho h.1]
    rfl

/-- A call puts into the set of a client the acknowledgements that it brings, and no others. -/
theorem acksOf_perform (m : Method ε) :
    ∃ l, (∀ s, s ∈ l ↔ (c, s) ∈ b.acksIn m) ∧ (b.perform hash m).acksOf c = (b.acksOf c).insertAll l := by
  have hother : m.touchesAcks = false → b.acksIn m = [] →
      ∃ l, (∀ s, s ∈ l ↔ (c, s) ∈ b.acksIn m) ∧
        (b.perform hash m).acksOf c = (b.acksOf c).insertAll l := by
    intro hm hin
    refine ⟨[], by simp [hin], ?_⟩
    rw [acksOf, (b.perform_acks hash m hm).1]
    rfl
  cases m with
  | handleAck err d n =>
    rw [perform, acksOf_handleAck]
    by_cases hd : d = c
    · exact ⟨[n], by simp [acksIn, hd], by rw [if_pos hd]; rfl⟩
    · exact ⟨[], by simp [acksIn, Ne.symm hd], by rw [if_neg hd]; rfl⟩
  | registerClient d session =>
    rw [perform, acksOf_registerClient, acksIn]
    by_cases hd : b.persistence = true ∧ d = c
    · refine ⟨hash.iterate (Storage.loadAcks b.db c), ?_, by rw [if_pos hd]⟩
      intro s
      rw [hash.mem_iterate, if_pos hd.1, hd.2]
      simp
    · refine ⟨[], ?_, by rw [if_neg hd]; rfl⟩
      intro s
      split_ifs with ho
      · have hne : d ≠ c := fun he => hd ⟨ho, he⟩
        simp [hne]
      · simp
  | accept | subscribe | unsubscribe | publish | unregisterClient | removeSession | stop =>
    exact hother rfl rfl

theorem marksAgree_handleAck (err : ε) (n : UInt64) (h : b.MarksAgree) :
    (b.handleAck err c n).MarksAgree := by
  intro d
  rw [acksOf_handleAck, getLastAck, handleAck, TreeMap.getD_insert]
  by_cases hd : c = d
  · subst hd
    rw [if_pos ReflCmp.compare_self, if_pos rfl, BoundedAckSet.maxSeq_insert, ← h c, getLastAck]
  · rw [if_neg (by rwa [LawfulEqCmp.compare_eq_iff_eq]), if_neg hd]
    exact h d

/-- The mark is only written when the set is not empty; an empty set has seen nothing. -/
theorem marksAgree_registerClient (h : b.MarksAgree) : (b.registerClient hash c session).MarksAgree := by
  intro d
  rw [acksOf_registerClient]
  by_cases ho : b.persistence = true
  · rw [registerClient_open hash b c session ho, getLastAck]
    by_cases hd : c = d
    · subst hd
      rw [if_pos (show b.persistence = true ∧ c = c from ⟨ho, rfl⟩)]
      dsimp only
      split_ifs with he
      · -- nothing loaded and nothing known: both marks are zero
        have hzero := BoundedAckSet.maxSeq_empty _ (BoundedAckSet.order_of_isEmpty _ he)
        have hle := BoundedAckSet.maxSeq_le_insertAll (hash.iterate (Storage.loadAcks b.db c)) (b.acksOf c)
        rw [hzero, ← h c] at hle
        rw [hzero]
        exact UInt64.le_antisymm hle UInt64.zero_le
      · rw [TreeMap.getD_insert_self]
    · rw [if_neg fun hh : b.persistence = true ∧ c = d => hd hh.2, ← h d, getLastAck]
      dsimp only
      split_ifs
      · rfl
      · rw [TreeMap.getD_insert, if_neg (by rwa [LawfulEqCmp.compare_eq_iff_eq])]
  · rw [registerClient_closed hash b c session ho, if_neg fun hh => ho hh.1]
    exact h d

theorem marksAgree_perform (m : Method ε) (h : b.MarksAgree) : (b.perform hash m).MarksAgree := by
  have hother : m.touchesAcks = false → (b.perform hash m).MarksAgree := by
    intro hm d
    obtain ⟨hacks, hlast⟩ := b.perform_acks hash m hm
    rw [getLastAck, acksOf, hacks, hlast]
    exact h d
  cases m with
  | handleAck err c n => exact b.marksAgree_handleAck c err n h
  | registerClient c session => exact b.marksAgree_registerClient hash c session h
  | accept | subscribe | unsubscribe | publish | unregisterClient | removeSession | stop =>
    exact hother rfl

end Calls

section Runs

variable (hash : HashOrder)

theorem marksAgree_start (db : σ) : (Broker.start db).MarksAgree := by
  intro c
  simp [getLastAck, acksOf, start, BoundedAckSet.empty]

/-- The set of a client has seen the acknowledgements that came to the broker, whatever of them
it still holds. -/
theorem acksOf_after (db : σ) (ms : List (Method ε)) (c : Bytes) :
    ∃ l, (∀ s, s ∈ l ↔ (c, s) ∈ (run (methodStep hash) (Broker.start db) ms).2) ∧
      ((Broker.start db).after hash ms).acksOf c = BoundedAckSet.empty.insertAll l := by
  refine run_invariant (fun b acked => ∃ l, (∀ s, s ∈ l ↔ (c, s) ∈ acked) ∧
    b.acksOf c = BoundedAckSet.empty.insertAll l) ?_ (Broker.start db) [] ms ⟨[], by simp, rfl⟩
    (meets_true _ ms)
  rintro b acked m ⟨l, hl, hb⟩ -
  obtain ⟨l', hl', hb'⟩ := b.acksOf_perform hash c m
  refine ⟨l ++ l', ?_, ?_⟩
  · intro s
    rw [List.mem_append, List.mem_append, hl, hl']
    rfl
  · rw [BoundedAckSet.insertAll_append, ← hb]
    exact hb'

theorem MarksAgree.after {b : Broker σ} (h : b.MarksAgree) (ms : List (Method ε)) :
    (b.after hash ms).MarksAgree :=
  run_invariant (fun b _ => b.MarksAgree) (fun b _ m hb _ => b.marksAgree_perform hash m hb)
    b [] ms h (meets_true _ ms)

theorem marksAgree_after (db : σ) (ms : List (Method ε)) : ((Broker.start db).after hash ms).MarksAgree :=
  (marksAgree_start db).after hash ms

theorem isMark_maxSeq (acked : List (Bytes × UInt64)) (c : Bytes) (l : List UInt64)
    (hl : ∀ s, s ∈ l ↔ (c, s) ∈ acked) : IsMark acked c (BoundedAckSet.empty.insertAll l).maxSeq := by
  have hle := (BoundedAckSet.maxSeq_insertAll_le_iff l .empty _).mp (Std.le_refl _)
  refine ⟨fun s hs => hle.2 s ((hl s).mpr hs), ?_⟩
  cases hempty : l with
  | nil =>
    refine Or.inr ⟨rfl, fun s hs => ?_⟩
    rw [← hl, hempty] at hs
    cases hs
  | cons n l' =>
    rw [← hempty]
    rcases BoundedAckSet.maxSeq_insertAll_eq l .empty with hzero | hmem
    · -- only zero was acknowledged
      have hn : n ∈ l := hempty ▸ List.mem_cons_self
      have hn0 : n = (BoundedAckSet.empty.insertAll l).maxSeq := by
        refine UInt64.le_antisymm (hle.2 n hn) ?_
        rw [hzero]
        exact UInt64.zero_le
      exact Or.inl ((hl _).mp (hn0 ▸ hn))
    · exact Or.inl ((hl _).mp hmem)

theorem getLastAck_le_perform (b : Broker σ) (m : Method ε) (c : Bytes) (h : b.MarksAgree) :
    b.getLastAck c ≤ (b.perform hash m).getLastAck c := by
  obtain ⟨l, -, hb⟩ := b.acksOf_perform hash c m
  rw [h c, b.marksAgree_perform hash m h c, hb]
  exact BoundedAckSet.maxSeq_le_insertAll l _

theorem getLastAck_le_after (db : σ) (ms more : List (Method ε)) (c : Bytes) :
    ((Broker.start db).after hash ms).getLastAck c ≤
      ((Broker.start db).after hash (ms ++ more)).getLastAck c := by
  induction more using List.reverseRecOn with
  | nil =>
    rw [List.append_nil]
    exact UInt64.le_refl _
  | append_singleton more m ih =>
    rw [← List.append_assoc, after_snoc]
    exact UInt64.le_trans ih (getLastAck_le_perform hash _ m c (marksAgree_after hash db _))

theorem isMark_getLastAck (db : σ) (ms : List (Method ε)) (c : Bytes) :
    IsMark (run (methodStep hash) (Broker.start db) ms).2 c
      (((Broker.start db).after hash ms).getLastAck c) := by
  obtain ⟨l, hl, hset⟩ := acksOf_after hash db ms c
  rw [marksAgree_after hash db ms c, hset]
  exact isMark_maxSeq _ c l hl

/-- In every state of a process the mark of a client is that of its set, it is the highest of
all acknowledgements the client made or the storage gave back, it only grows, and nothing above
it counts as acknowledged. -/
theorem ack_mark_invariant (db : σ) (ms more : List (Method ε)) (c : Bytes) :
    ((Broker.start db).after hash ms).getLastAck c =
      (((Broker.start db).after hash ms).clientAcks.getD c .empty).maxSeq ∧
    IsMark (run (methodStep hash) (Broker.start db) ms).2 c
      (((Broker.start db).after hash ms).getLastAck c) ∧
    ((Broker.start db).after hash ms).getLastAck c ≤
      ((Broker.start db).after hash (ms ++ more)).getLastAck c ∧
    ∀ s, ((Broker.start db).after hash ms).getLastAck c < s →
      ((Broker.start db).after hash ms).isAcked c s = false := by
  have hmark := marksAgree_after hash db ms c
  refine ⟨hmark, isMark_getLastAck hash db ms c, getLastAck_le_after hash db ms more c, ?_⟩
  intro s hs
  rw [isAcked_eq, BoundedAckSet.contains_eq, decide_eq_false_iff_not]
  intro hm
  rw [hmark] at hs
  exact absurd hs (UInt64.not_lt.mpr (BoundedAckSet.le_maxSeq _ s hm))

end Runs

end Broker

end MetricMQ
