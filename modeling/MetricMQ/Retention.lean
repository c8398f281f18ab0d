import MetricMQ.Publishing

/-! Which messages the compaction leaves in the store. The broker counts what it has published
since it was started and compacts at every multiple of `COMPACT_EVERY`; its sequence counter
and the one in the store go on across restarts. -/
namespace MetricMQ

open ByteString Std LmdbStorage Machine

namespace Broker

section Compaction

variable (b : Broker LmdbFile) (topic payload : Bytes)

/-- The publish that comes next runs the compaction. -/
def CompactionDue : Prop :=
  (b.publishCount + 1) % compactEvery = 0 ∧ maxStoredMessages < b.currentSequence + 1

theorem persist_publishCount (f : PublishFaults (Option MdbError)) :
    (b.persist f topic payload).publishCount = b.publishCount + 1 := by
  obtain ⟨db, h, -⟩ := persist_cases f b topic payload
  rw [h]

theorem persist_of_due (f : PublishFaults (Option MdbError)) (ho : b.persistence = true)
    (h : b.CompactionDue) : (b.persist f topic payload).db =
      Storage.purgeOldAcks f.purge (Storage.compact f.compact (savedDb f b topic payload)
        (b.currentSequence + 1 - maxStoredMessages)) (b.currentSequence + 1 - maxStoredMessages) := by
  rw [persist_db f b topic payload ho]
  exact if_pos h

theorem persist_of_not_due (f : PublishFaults (Option MdbError)) (ho : b.persistence = true)
    (h : ¬ b.CompactionDue) : (b.persist f topic payload).db = savedDb f b topic payload := by
  rw [persist_db f b topic payload ho]
  exact if_neg h

end Compaction

end Broker

namespace Retention

open Publishing

/-- Calls whose transactions all commit. -/
inductive Input
  | publish (topic payload : Bytes)
  | handleAck (clientId : Bytes) (sequence : UInt64)
  | restart

/-- A publish puts out the number it returned. -/
def step (b : Broker LmdbFile) : Input → Broker LmdbFile × List UInt64
  | .publish topic payload =>
    let r := b.publish noFaults topic payload
    (r.1, [r.2.1])
  | .handleAck clientId sequence => (b.handleAck none clientId sequence, [])
  -- the constructor reads `last_seq` back and counts publishes from zero
  | .restart => (Broker.start b.db, [])

def published : List Input → ℕ
  | [] => 0
  | .publish _ _ :: is => published is + 1
  | .handleAck _ _ :: is | .restart :: is => published is

/-- How many publishes the process that is running at the end has handled, if the first one
had handled `n` before. -/
def handled : ℕ → List Input → ℕ
  | n, [] => n
  | n, .publish _ _ :: is => handled (n + 1) is
  | n, .handleAck _ _ :: is => handled n is
  | _, .restart :: is => handled 0 is

/-- The message records are those of the numbers in `(k, current_sequence_]`. -/
structure Window (b : Broker LmdbFile) (k : ℕ) : Prop where
  stored : ∀ key, msgTag <+: key → ((∃ v, b.db.store[key]? = some v) ↔
    ∃ s : UInt64, key = msgKey s ∧ k < s.toNat ∧ s.toNat ≤ b.currentSequence.toNat)
  newest : k ≤ b.currentSequence.toNat - maxStoredMessages.toNat

/-- The same for the keys of the numbers alone, which is enough by the schema. -/
def HoldsAbove (store : Store) (k cur : ℕ) : Prop :=
  ∀ s : UInt64, (∃ v, store[msgKey s]? = some v) ↔ k < s.toNat ∧ s.toNat ≤ cur

theorem window_of_holdsAbove (b : Broker LmdbFile) (k : ℕ)
    (h : HoldsAbove b.db.store k b.currentSequence.toNat)
    (hk : k ≤ b.currentSequence.toNat - maxStoredMessages.toNat) : Window b k := by
  refine ⟨?_, hk⟩
  intro key htag
  constructor
  · rintro ⟨v, hv⟩
    rcases b.db.schema key v hv with rfl | ⟨s, rfl⟩ | ⟨c, s, rfl⟩
    · exact absurd htag not_msgTag_lastSeqKey
    · exact ⟨s, rfl, (h s).mp ⟨v, hv⟩⟩
    · exact absurd htag (not_msgTag_ackKey c s)
  · rintro ⟨s, rfl, hs⟩
    exact (h s).mpr hs

/-- What holds between two calls; `n` is the number of publishes of this process. -/
structure Inv (b : Broker LmdbFile) (k n : ℕ) : Prop where
  isOpen : b.persistence = true
  synced : getLastSeq b.db.store = b.currentSequence
  count : b.publishCount.toNat = n
  countLe : n ≤ b.currentSequence.toNat
  stored : HoldsAbove b.db.store k b.currentSequence.toNat
  newest : k ≤ b.currentSequence.toNat - maxStoredMessages.toNat
  bounded : compactEvery.toNat ≤ n →
    b.currentSequence.toNat - k ≤ maxStoredMessages.toNat + n % compactEvery.toNat

section Publish

variable {b : Broker LmdbFile} {k n : ℕ} (topic payload : Bytes)

theorem toNat_nextCount (h : Inv b k n) (hlt : b.currentSequence.toNat + 1 < 2 ^ 64) :
    (b.publishCount + 1).toNat = n + 1 := by
  have hle := h.countLe
  rw [toNat_next _ (by rw [h.count]; omega), h.count]

theorem compactionDue_iff (h : Inv b k n) (hlt : b.currentSequence.toNat + 1 < 2 ^ 64) :
    b.CompactionDue ↔ (n + 1) % compactEvery.toNat = 0 ∧
      maxStoredMessages.toNat < b.currentSequence.toNat + 1 := by
  rw [Broker.CompactionDue, ← UInt64.toNat_inj, UInt64.toNat_mod, toNat_nextCount h hlt,
    UInt64.lt_iff_toNat_lt, toNat_next _ hlt]
  rfl

/-- The records after the `save` of a publish. -/
theorem holdsAbove_saved (h : Inv b k n) (hlt : b.currentSequence.toNat + 1 < 2 ^ 64) :
    HoldsAbove (b.savedDb noFaults topic payload).store k (b.currentSequence.toNat + 1) := by
  intro s
  have hdb : (b.savedDb noFaults topic payload).store =
      save none b.db.store (b.currentSequence + 1) topic payload := by
    rw [Broker.savedDb, h.isOpen]
    rfl
  have hk := h.newest
  -- the key comes from the counter in the store, which is the broker's
  rw [hdb, getElem?_save, if_neg (msgKey_ne_lastSeqKey s).symm, nextSeq_eq, h.synced]
  split_ifs with hs
  · rw [← msgKey_injective hs, toNat_next _ hlt]
    exact ⟨fun _ => ⟨by omega, le_rfl⟩, fun _ => ⟨_, rfl⟩⟩
  · have hne : s.toNat ≠ b.currentSequence.toNat + 1 := by
      rw [← toNat_next _ hlt]
      exact fun he => hs (congrArg msgKey (UInt64.toNat_inj.mp he).symm)
    rw [h.stored s]
    omega

theorem holdsAbove_compacted (store : Store) (t : UInt64) (cur : ℕ) (ht : t ≠ 0) (hk : k ≤ t.toNat)
    (h : HoldsAbove store k cur) :
    HoldsAbove (purgeOldAcks none (compact none store t) t) t.toNat cur := by
  intro s
  have hs := h s
  -- the purge of acknowledgements does not reach message keys
  rw [purgeOldAcks_of_not_ack _ _ _ _ (not_ackTag_msgKey s), compact_msgKey]
  split_ifs with hle
  · have := UInt64.le_iff_toNat_le.mp hle.2
    simp only [exists_false, false_iff]
    omega
  · have : ¬ s.toNat ≤ t.toNat := fun hh => hle ⟨ht, UInt64.le_iff_toNat_le.mpr hh⟩
    rw [hs]
    omega

/-- A publish keeps the counters in step; what is left to show is the window. -/
theorem inv_of_window (h : Inv b k n) (hlt : b.currentSequence.toNat + 1 < 2 ^ 64) (k' : ℕ)
    (hstored : HoldsAbove (b.persist noFaults topic payload).db.store k' (b.currentSequence.toNat + 1))
    (hnewest : k' ≤ b.currentSequence.toNat + 1 - maxStoredMessages.toNat)
    (hbounded : compactEvery.toNat ≤ n + 1 →
      b.currentSequence.toNat + 1 - k' ≤ maxStoredMessages.toNat + (n + 1) % compactEvery.toNat) :
    Inv (b.publish noFaults topic payload).1 k' (n + 1) := by
  have hcur := Broker.publish_currentSequence noFaults b topic payload
  have hnext := toNat_next _ hlt
  have hle := h.countLe
  refine ⟨?_, ?_, ?_, ?_, ?_, ?_, ?_⟩
  · rw [Broker.publish_persistence]
    exact h.isOpen
  · rw [Broker.publish_db, hcur, Broker.persist_getLastSeq, Broker.savedDb, h.isOpen, ← h.synced,
      ← nextSeq_eq]
    exact Broker.getLastSeq_save topic payload b.db.store (nextSeq b.db.store)
  · change (b.persist noFaults topic payload).publishCount.toNat = n + 1
    rw [Broker.persist_publishCount, toNat_nextCount h hlt]
  · rw [hcur, hnext]
    omega
  · rw [Broker.publish_db, hcur, hnext]
    exact hstored
  · rw [hcur, hnext]
    exact hnewest
  · rw [hcur, hnext]
    exact hbounded

theorem inv_publish (h : Inv b k n) (hlt : b.currentSequence.toNat + 1 < 2 ^ 64) :
    ∃ k', Inv (b.publish noFaults topic payload).1 k' (n + 1) := by
  have hsaved := holdsAbove_saved topic payload h hlt
  have hk := h.newest
  have hmax : maxStoredMessages.toNat = 100000 := rfl
  have hevery : compactEvery.toNat = 1000 := rfl
  by_cases hdue : b.CompactionDue
  · -- everything up to the threshold goes, and the window is as small as it gets
    obtain ⟨-, hgt⟩ := (compactionDue_iff h hlt).mp hdue
    have ht : (b.currentSequence + 1 - maxStoredMessages).toNat =
        b.currentSequence.toNat + 1 - maxStoredMessages.toNat := by
      rw [UInt64.toNat_sub_of_le _ _ (Std.le_of_lt hdue.2), toNat_next _ hlt]
    have ht0 : b.currentSequence + 1 - maxStoredMessages ≠ 0 := by
      intro he
      rw [he] at ht
      change 0 = _ at ht
      omega
    refine ⟨_, inv_of_window topic payload h hlt _ ?_ (Nat.le_of_eq ht) ?_⟩
    · rw [b.persist_of_due topic payload noFaults h.isOpen hdue]
      exact holdsAbove_compacted _ _ _ ht0 (by omega) hsaved
    · rw [ht]
      omega
  · have hnot := fun hh => hdue ((compactionDue_iff h hlt).mpr hh)
    have hb := h.bounded
    refine ⟨k, inv_of_window topic payload h hlt k ?_ (by omega) ?_⟩
    · rw [b.persist_of_not_due topic payload noFaults h.isOpen hdue]
      exact hsaved
    · rw [hmax] at hk hb hnot ⊢
      rw [hevery] at hb hnot ⊢
      intro hn
      by_cases hm : (n + 1) % 1000 = 0
      · -- a due compaction is left out only while all messages fit
        have hfew : ¬ 100000 < b.currentSequence.toNat + 1 := fun hg => hnot ⟨hm, hg⟩
        omega
      · have hprev := hb (by omega)
        omega

end Publish

section Runs

variable {b : Broker LmdbFile} {k n : ℕ}

theorem inv_handleAck (c : Bytes) (s : UInt64) (h : Inv b k n) :
    Inv (b.handleAck none c s) k n := by
  have hstore : (b.handleAck none c s).db.store = saveAck none b.db.store c s := by
    rw [Broker.handleAck]
    dsimp only
    rw [if_pos h.isOpen]
    rfl
  refine ⟨h.isOpen, ?_, h.count, h.countLe, ?_, h.newest, h.bounded⟩
  · rw [hstore, Broker.getLastSeq_congr b.db.store]
    · exact h.synced
    · rw [getElem?_saveAck, if_neg (ackKey_ne_lastSeqKey c s)]
  · intro m
    rw [hstore, getElem?_saveAck, if_neg (ackKey_ne_msgKey c s m)]
    exact h.stored m

/-- A new process finds the same numbers and has published nothing. -/
theorem inv_restart (h : Inv b k n) : Inv (Broker.start b.db) k 0 := by
  have hcur : (Broker.start b.db).currentSequence = b.currentSequence := h.synced
  refine ⟨rfl, rfl, rfl, Nat.zero_le _, ?_, ?_, ?_⟩
  · rw [hcur]
    exact h.stored
  · rw [hcur]
    exact h.newest
  · intro h0
    exact absurd h0 (by decide)

theorem inv_run (is : List Input) (h : Inv b k n)
    (hroom : b.currentSequence.toNat + published is < 2 ^ 64) :
    (run step b is).1.currentSequence.toNat = b.currentSequence.toNat + published is ∧
      ∃ k', Inv (run step b is).1 k' (handled n is) := by
  -- the counter grows by one for each publish of the run, so it never wraps around
  induction is generalizing b k n with
  | nil => exact ⟨rfl, k, h⟩
  | cons i is ih =>
    rw [run]
    cases i with
    | publish topic payload =>
      rw [published] at hroom ⊢
      obtain ⟨k', hk'⟩ := inv_publish topic payload h (by omega)
      have hnext : (b.publish noFaults topic payload).1.currentSequence.toNat =
          b.currentSequence.toNat + 1 := by
        rw [Broker.publish_currentSequence, toNat_next _ (by omega)]
      obtain ⟨hcur, hinv⟩ := ih hk' (by omega)
      refine ⟨?_, hinv⟩
      rw [step, hcur]
      omega
    | handleAck c s => exact ih (inv_handleAck c s h) hroom
    | restart =>
      have hcur : (Broker.start b.db).currentSequence = b.currentSequence := h.synced
      rw [published] at hroom ⊢
      rw [← hcur] at hroom ⊢
      exact ih (inv_restart h) hroom

theorem inv_start : Inv (Broker.start LmdbFile.empty) 0 0 := by
  have hcur : (Broker.start LmdbFile.empty).currentSequence.toNat = 0 := by decide
  refine ⟨rfl, rfl, rfl, Nat.zero_le _, ?_, Nat.zero_le _, fun h => absurd h (by decide)⟩
  intro s
  rw [hcur]
  constructor
  · rintro ⟨v, hv⟩
    change (∅ : Store)[msgKey s]? = some v at hv
    rw [TreeMap.getElem?_emptyc] at hv
    cases hv
  · omega

/-- In every run of fewer than 2^64 publishes, any acknowledgements and any restarts from an
empty store, the stored messages are a window of the newest ones, the counter in the store is
the broker's, and a process that has compacted once keeps the window below its bound. -/
theorem retention_window (is : List Input) (hcount : published is < 2 ^ 64) :
    ∃ k, Window (run step (Broker.start LmdbFile.empty) is).1 k ∧
      (0 < published is →
        storedLastSeq (run step (Broker.start LmdbFile.empty) is).1.db.store =
          some (run step (Broker.start LmdbFile.empty) is).1.currentSequence) ∧
      (compactEvery.toNat ≤ handled 0 is →
        (run step (Broker.start LmdbFile.empty) is).1.currentSequence.toNat - k <
          maxStoredMessages.toNat + compactEvery.toNat) := by
  have h0 : (Broker.start LmdbFile.empty).currentSequence.toNat = 0 := by decide
  obtain ⟨hcur, k, h⟩ := inv_run is inv_start (by omega)
  refine ⟨k, window_of_holdsAbove _ k h.stored h.newest, ?_, ?_⟩
  · intro hpos
    have hlast := h.synced
    rw [getLastSeq] at hlast
    cases hs : storedLastSeq (run step (Broker.start LmdbFile.empty) is).1.db.store with
    | some m =>
      rw [hs] at hlast
      exact congrArg some hlast
    | none =>
      -- no `last_seq` record: the counter is at zero, and nothing was published
      rw [hs] at hlast
      rw [← hlast] at hcur
      change 0 = _ at hcur
      omega
  · intro hn
    have hb := h.bounded hn
    have hm : handled 0 is % compactEvery.toNat < compactEvery.toNat := Nat.mod_lt _ (by decide)
    omega

/-- Two processes, the second of which has handled a thousand publishes. -/
theorem retention_window_second_process :
    ∃ k, Window (run step (Broker.start LmdbFile.empty)
        (.publish (lit "t") (lit "a") :: .handleAck (lit "c") 1 :: .restart ::
          List.replicate 1000 (.publish (lit "t") (lit "b")))).1 k ∧
      (run step (Broker.start LmdbFile.empty)
        (.publish (lit "t") (lit "a") :: .handleAck (lit "c") 1 :: .restart ::
          List.replicate 1000 (.publish (lit "t") (lit "b")))).1.currentSequence.toNat - k < 101000 := by
  obtain ⟨k, hw, -, hb⟩ := retention_window (.publish (lit "t") (lit "a") :: .handleAck (lit "c") 1 ::
    .restart :: List.replicate 1000 (.publish (lit "t") (lit "b"))) (by decide +kernel)
  exact ⟨k, hw, hb (by decide +kernel)⟩

end Runs

end Retention

end MetricMQ
