import MetricMQ.Broker
import MetricMQ.Machine

/-! `Broker::publish` and restarts over the LMDB storage. The broker numbers messages with its
own counter, the storage with the one it keeps; the two agree as long as no transaction
that saves a message fails. -/
namespace MetricMQ

open ByteString Std

/-- The next number, as long as the counter does not wrap around. -/
theorem toNat_next (n : UInt64) (h : n.toNat + 1 < 2 ^ 64) : (n + 1).toNat = n.toNat + 1 := by
  rw [UInt64.toNat_add]
  exact Nat.mod_eq_of_lt h

namespace Broker

section Persist

variable {σ ε : Type} [Storage σ ε] (f : PublishFaults ε) (b : Broker σ) (topic payload : Bytes)

/-- The database after the `save` of a publish, before any compaction. -/
def savedDb : σ :=
  if b.persistence then Storage.save f.save b.db (b.currentSequence + 1) topic payload else b.db

/-- A publish changes the two counters and the database, and the database by the save and at
most one compaction below the new number. -/
theorem persist_cases : ∃ db, persist f b topic payload =
    { b with currentSequence := b.currentSequence + 1, publishCount := b.publishCount + 1, db := db } ∧
    (db = savedDb f b topic payload ∨
      b.persistence = true ∧ maxStoredMessages < b.currentSequence + 1 ∧
      db = Storage.purgeOldAcks f.purge (Storage.compact f.compact (savedDb f b topic payload)
        (b.currentSequence + 1 - maxStoredMessages)) (b.currentSequence + 1 - maxStoredMessages)) := by
  let b' : Broker σ := { b with
    currentSequence := b.currentSequence + 1
    publishCount := b.publishCount + 1
    db := savedDb f b topic payload }
  have hp : persist f b topic payload =
      if b'.publishCount % compactEvery = 0 then runCompactionIfDue f b' else b' := rfl
  rw [hp]
  by_cases hc : b'.publishCount % compactEvery = 0
  · rw [if_pos hc, runCompactionIfDue]
    -- the guard of `runCompactionIfDue`
    by_cases hd : (!b'.persistence || decide (b'.currentSequence ≤ maxStoredMessages)) = true
    · rw [if_pos hd]
      exact ⟨_, rfl, Or.inl rfl⟩
    · rw [if_neg hd]
      rw [Bool.not_eq_true, Bool.or_eq_false_iff, Bool.not_eq_false', decide_eq_false_iff_not] at hd
      exact ⟨_, rfl, Or.inr ⟨hd.1, Std.not_le.mp hd.2, rfl⟩⟩
  · rw [if_neg hc]
    exact ⟨_, rfl, Or.inl rfl⟩

/-- The database after a publish, with the exact condition of the compaction. -/
theorem persist_db (ho : b.persistence = true) : (persist f b topic payload).db =
    if (b.publishCount + 1) % compactEvery = 0 ∧ maxStoredMessages < b.currentSequence + 1 then
      Storage.purgeOldAcks f.purge (Storage.compact f.compact (savedDb f b topic payload)
        (b.currentSequence + 1 - maxStoredMessages)) (b.currentSequence + 1 - maxStoredMessages)
    else savedDb f b topic payload := by
  by_cases hc : (b.publishCount + 1) % compactEvery = 0
  · by_cases hlt : maxStoredMessages < b.currentSequence + 1
    · have hd : (!b.persistence || decide (b.currentSequence + 1 ≤ maxStoredMessages)) = false := by
        rw [ho, Bool.not_true, Bool.false_or, decide_eq_false_iff_not]
        exact Std.not_le.mpr hlt
      rw [if_pos ⟨hc, hlt⟩]
      simp only [persist, if_pos hc, runCompactionIfDue, hd, Bool.false_eq_true, ↓reduceIte]
      rfl
    · have hd : (!b.persistence || decide (b.currentSequence + 1 ≤ maxStoredMessages)) = true := by
        rw [ho, Bool.not_true, Bool.false_or, decide_eq_true_eq]
        exact Std.not_lt.mp hlt
      rw [if_neg fun h => hlt h.2]
      simp only [persist, if_pos hc, runCompactionIfDue, hd, ↓reduceIte]
      rfl
  · rw [if_neg fun h => hc h.1]
    simp only [persist, if_neg hc]
    rfl

@[simp] theorem persist_currentSequence :
    (persist f b topic payload).currentSequence = b.currentSequence + 1 := by
  obtain ⟨db, h, -⟩ := persist_cases f b topic payload
  rw [h]

@[simp] theorem persist_persistence : (persist f b topic payload).persistence = b.persistence := by
  obtain ⟨db, h, -⟩ := persist_cases f b topic payload
  rw [h]

@[simp] theorem persist_topicSubscribers :
    (persist f b topic payload).topicSubscribers = b.topicSubscribers := by
  obtain ⟨db, h, -⟩ := persist_cases f b topic payload
  rw [h]

@[simp] theorem publish_seq : (publish f b topic payload).2.1 = b.currentSequence + 1 :=
  persist_currentSequence f b topic payload

@[simp] theorem publish_currentSequence :
    (publish f b topic payload).1.currentSequence = b.currentSequence + 1 :=
  persist_currentSequence f b topic payload

@[simp] theorem publish_persistence : (publish f b topic payload).1.persistence = b.persistence :=
  persist_persistence f b topic payload

/-- A publish does not change who is subscribed. -/
theorem publish_recipients :
    (publish f b topic payload).2.2 = b.recipients topic ∧
      ∀ t, (publish f b topic payload).1.recipients t = b.recipients t := by
  have h : ∀ t, (persist f b topic payload).recipients t = b.recipients t := by
    intro t
    simp only [recipients, subscribersOf, persist_topicSubscribers]
  exact ⟨h topic, h⟩

@[simp] theorem publish_db : (publish f b topic payload).1.db = (persist f b topic payload).db := rfl

end Persist

section Lmdb

open LmdbStorage

variable (f : PublishFaults (Option MdbError)) (b : Broker LmdbFile) (topic payload : Bytes)

theorem getLastSeq_congr (store store' : Store) (h : store'[lastSeqKey]? = store[lastSeqKey]?) :
    getLastSeq store' = getLastSeq store := by
  rw [getLastSeq, storedLastSeq, h]
  rfl

theorem getLastSeq_compact (err : Option MdbError) (store : Store) (t : UInt64) :
    getLastSeq (compact err store t) = getLastSeq store :=
  getLastSeq_congr _ _ (compact_of_not_msg err store t lastSeqKey not_msgTag_lastSeqKey)

theorem getLastSeq_purgeOldAcks (err : Option MdbError) (store : Store) (t : UInt64) :
    getLastSeq (purgeOldAcks err store t) = getLastSeq store :=
  getLastSeq_congr _ _ (purgeOldAcks_of_not_ack err store t lastSeqKey not_ackTag_lastSeqKey)

theorem getLastSeq_save (store : Store) (seq : UInt64) :
    getLastSeq (save none store seq topic payload) = nextSeq store := by
  rw [getLastSeq, storedLastSeq, getElem?_save, if_pos rfl]
  simp

/-- The store's own counter after a publish. -/
theorem persist_getLastSeq : getLastSeq (persist f b topic payload).db.store =
    getLastSeq (savedDb f b topic payload).store := by
  obtain ⟨db, h, hdb | ⟨-, -, hdb⟩⟩ := persist_cases f b topic payload
  · rw [h, hdb]
  · rw [h, hdb]
    exact (getLastSeq_purgeOldAcks _ _ _).trans (getLastSeq_compact _ _ _)

/-- The compaction of a publish touches only messages outside the retention window. -/
theorem persist_msgKey (s : UInt64) :
    (persist f b topic payload).db.store[msgKey s]? = (savedDb f b topic payload).store[msgKey s]? ∨
      s.toNat + maxStoredMessages.toNat ≤ (b.currentSequence + 1).toNat := by
  obtain ⟨db, h, hdb | ⟨-, hlt, hdb⟩⟩ := persist_cases f b topic payload
  · exact Or.inl (by rw [h, hdb])
  · by_cases hs : s ≤ b.currentSequence + 1 - maxStoredMessages
    · right
      have h1 := UInt64.le_iff_toNat_le.mp hs
      have h2 := UInt64.lt_iff_toNat_lt.mp hlt
      rw [UInt64.toNat_sub_of_le _ _ (Std.le_of_lt hlt)] at h1
      omega
    · left
      rw [h, hdb]
      change (purgeOldAcks f.purge (compact f.compact _ _) _)[msgKey s]? = _
      rw [purgeOldAcks_of_not_ack _ _ _ _ (not_ackTag_msgKey s)]
      cases f.compact with
      | some e => rw [compact_some]
      | none => rw [compact_msgKey, if_neg fun hh => hs hh.2]

end Lmdb

end Broker

namespace Publishing

open LmdbStorage Machine

inductive Input
  | publish (faults : PublishFaults (Option MdbError)) (topic payload : Bytes)
  | restart

/-- What a publish returned, and whether its `save` committed. -/
structure Published where
  seq : UInt64
  topic : Bytes
  payload : Bytes
  committed : Bool

def step (b : Broker LmdbFile) : Input → Broker LmdbFile × List Published
  | .publish faults topic payload =>
    let r := b.publish faults topic payload
    (r.1, [⟨r.2.1, topic, payload, faults.save.isNone⟩])
  | .restart => (Broker.start b.db, [])

/-- No number is returned twice, and a committed message is found under the number returned
for it until the compaction of a later publish has removed it. -/
def NumbersSound (store : Store) (outs : List Published) : Prop :=
  (outs.map Published.seq).Nodup ∧ ∀ p ∈ outs, p.committed = true →
    store[msgKey p.seq]? = some (msgData p.topic p.payload) ∨
      ∃ q ∈ outs, p.seq.toNat + maxStoredMessages.toNat ≤ q.seq.toNat

/-- How far a run has gone: the counters agree; a save has failed; a restart followed. -/
inductive Phase
  | synced
  | failing
  | restarted
deriving DecidableEq

def nextPhase : Phase → Input → Option Phase
  | .synced, .publish faults _ _ => if faults.save.isNone then some .synced else some .failing
  | .synced, .restart => some .synced
  | .failing, .publish faults _ _ => if faults.save.isNone then none else some .failing
  | .failing, .restart => some .restarted
  | .restarted, .publish _ _ _ => none
  | .restarted, .restart => some .restarted

/-- After a failed save only publishes whose save fails too, and after a restart none. -/
def NoPublishAfterLoss : Phase → List Input → Prop
  | _, [] => True
  | ph, i :: is =>
    match nextPhase ph i with
    | none => False
    | some ph' => NoPublishAfterLoss ph' is

instance decidableNoPublishAfterLoss : (ph : Phase) → (is : List Input) →
    Decidable (NoPublishAfterLoss ph is)
  | _, [] => isTrue trivial
  | ph, i :: is => by
    unfold NoPublishAfterLoss
    exact match nextPhase ph i with
      | none => isFalse id
      | some ph' => decidableNoPublishAfterLoss ph' is

def publishCount : List Input → ℕ
  | [] => 0
  | .publish _ _ _ :: is => publishCount is + 1
  | .restart :: is => publishCount is

structure Inv (ph : Phase) (b : Broker LmdbFile) (outs : List Published) : Prop where
  isOpen : b.persistence = true
  sound : NumbersSound b.db.store outs
  below : ph ≠ .restarted → ∀ p ∈ outs, p.seq.toNat ≤ b.currentSequence.toNat
  synced : ph = .synced → b.currentSequence = getLastSeq b.db.store

/-- A number above all earlier ones keeps the list of numbers free of repetitions. -/
theorem nodup_snoc (outs : List Published) (p : Published)
    (hn : (outs.map Published.seq).Nodup) (hp : ∀ q ∈ outs, q.seq.toNat < p.seq.toNat) :
    ((outs ++ [p]).map Published.seq).Nodup := by
  rw [List.map_append, List.map_singleton, List.nodup_append_comm, List.singleton_append,
    List.nodup_cons]
  refine ⟨?_, hn⟩
  intro hm
  obtain ⟨q, hq, he⟩ := List.mem_map.mp hm
  have := hp q hq
  rw [he] at this
  omega

/-- What one publish adds: a larger number, and under it the message if the save commits. -/
theorem sound_publish (b : Broker LmdbFile) (outs : List Published)
    (f : PublishFaults (Option MdbError)) (topic payload : Bytes)
    (hs : NumbersSound b.db.store outs)
    (hb : ∀ p ∈ outs, p.seq.toNat ≤ b.currentSequence.toNat)
    (hlt : b.currentSequence.toNat + 1 < 2 ^ 64) (ho : b.persistence = true)
    (hsync : f.save = none → b.currentSequence = getLastSeq b.db.store) :
    NumbersSound (b.persist f topic payload).db.store
      (outs ++ [⟨b.currentSequence + 1, topic, payload, f.save.isNone⟩]) := by
  have hnext := toNat_next b.currentSequence hlt
  have hdb : (b.savedDb f topic payload).store =
      save f.save b.db.store (b.currentSequence + 1) topic payload := by
    rw [Broker.savedDb, ho]
    rfl
  refine ⟨nodup_snoc outs _ hs.1 fun q hq => ?_, ?_⟩
  · have := hb q hq
    dsimp only
    omega
  intro p hp hc
  -- a record that the compaction of this publish may touch is below the new number
  rcases b.persist_msgKey f topic payload p.seq with hkey | hfar
  · rw [hkey, hdb]
    rcases List.mem_append.mp hp with hp | hp
    · rcases hs.2 p hp hc with hold | ⟨q, hq, hqp⟩
      · left
        cases hsave : f.save with
        | some e => exact hold
        | none =>
          have hne : nextSeq b.db.store ≠ p.seq := by
            intro he
            have := hb p hp
            rw [← he, nextSeq_eq, ← hsync hsave, hnext] at this
            omega
          rw [getElem?_save, if_neg (msgKey_ne_lastSeqKey _).symm,
            if_neg fun hk => hne (msgKey_injective hk)]
          exact hold
      · exact Or.inr ⟨q, List.mem_append_left _ hq, hqp⟩
    · obtain rfl := List.mem_singleton.mp hp
      left
      have hsave : f.save = none := Option.isNone_iff_eq_none.mp hc
      rw [hsave, getElem?_save, if_neg (msgKey_ne_lastSeqKey _).symm, nextSeq_eq, ← hsync hsave,
        if_pos rfl]
  · exact Or.inr ⟨_, List.mem_append_right _ (List.mem_singleton.mpr rfl), hfar⟩

theorem inv_publish (ph ph' : Phase) (b : Broker LmdbFile) (outs : List Published)
    (f : PublishFaults (Option MdbError)) (topic payload : Bytes)
    (hn : nextPhase ph (.publish f topic payload) = some ph') (h : Inv ph b outs)
    (hlt : b.currentSequence.toNat + 1 < 2 ^ 64) :
    Inv ph' (step b (.publish f topic payload)).1
      (outs ++ (step b (.publish f topic payload)).2) := by
  have hph : ph ≠ .restarted := by
    rintro rfl
    cases hn
  -- a save commits only while the counters agree
  have hsync : f.save = none → ph = .synced ∧ ph' = .synced := by
    intro hf
    cases ph with
    | synced => exact ⟨rfl, by simpa [nextPhase, hf] using hn.symm⟩
    | failing => simp [nextPhase, hf] at hn
    | restarted => exact absurd rfl hph
  have hnext := toNat_next b.currentSequence hlt
  have hsound := sound_publish b outs f topic payload h.sound (h.below hph) hlt h.isOpen
    fun hf => h.synced (hsync hf).1
  rw [step, Broker.publish_seq]
  refine ⟨?_, hsound, ?_, ?_⟩
  · rw [Broker.publish_persistence]
    exact h.isOpen
  · intro _ p hp
    rw [Broker.publish_currentSequence, hnext]
    rcases List.mem_append.mp hp with hp | hp
    · have := h.below hph p hp
      omega
    · obtain rfl := List.mem_singleton.mp hp
      exact Nat.le_of_eq hnext
  · rintro rfl
    have hf : f.save = none := by
      cases ph with
      | synced | failing =>
        cases hf : f.save with
        | none => rfl
        | some e => simp [nextPhase, hf] at hn
      | restarted => exact absurd rfl hph
    rw [Broker.publish_currentSequence, Broker.publish_db, Broker.persist_getLastSeq,
      Broker.savedDb, h.isOpen, h.synced (hsync hf).1]
    change _ = getLastSeq (save f.save b.db.store (getLastSeq b.db.store + 1) topic payload)
    rw [hf, Broker.getLastSeq_save, nextSeq_eq]

theorem inv_restart (ph ph' : Phase) (b : Broker LmdbFile) (outs : List Published)
    (hn : nextPhase ph .restart = some ph') (h : Inv ph b outs) :
    Inv ph' (step b .restart).1 (outs ++ (step b .restart).2) := by
  rw [step, List.append_nil]
  refine ⟨rfl, h.sound, ?_, fun _ => rfl⟩
  intro hr p hp
  cases ph with
  | synced =>
    have := h.below (by decide) p hp
    rw [h.synced rfl] at this
    exact this
  | failing => exact absurd (Option.some_inj.mp hn).symm hr
  | restarted => exact absurd (Option.some_inj.mp hn).symm hr

/-- The numbers that are still to come do not wrap around. -/
def RoomFor (ph : Phase) (b : Broker LmdbFile) (is : List Input) : Prop :=
  ph ≠ .restarted → b.currentSequence.toNat + publishCount is < 2 ^ 64

theorem sound_run (ph : Phase) (b : Broker LmdbFile) (outs : List Published) (is : List Input)
    (h : Inv ph b outs) (hok : NoPublishAfterLoss ph is) (hroom : RoomFor ph b is) :
    NumbersSound (run step b is).1.db.store (outs ++ (run step b is).2) := by
  -- the phase of the run is that of its last step; the room shrinks with every publish
  induction is generalizing ph b outs with
  | nil =>
    rw [run, List.append_nil]
    exact h.sound
  | cons i is ih =>
    cases hn : nextPhase ph i with
    | none => simp only [NoPublishAfterLoss, hn] at hok
    | some ph' =>
      simp only [NoPublishAfterLoss, hn] at hok
      rw [run, ← List.append_assoc]
      cases i with
      | publish f topic payload =>
        have hph : ph ≠ .restarted := by
          rintro rfl
          cases hn
        have hlt := hroom hph
        rw [publishCount] at hlt
        refine ih ph' _ _ (inv_publish ph ph' b outs f topic payload hn h (by omega)) hok ?_
        intro _
        rw [step, Broker.publish_currentSequence, toNat_next _ (by omega)]
        omega
      | restart =>
        refine ih ph' _ _ (inv_restart ph ph' b outs hn h) hok ?_
        intro hr
        cases ph with
        | synced =>
          have hlt := hroom (by decide)
          rw [h.synced rfl, publishCount] at hlt
          exact hlt
        | failing => exact absurd (Option.some_inj.mp hn).symm hr
        | restarted => exact absurd (Option.some_inj.mp hn).symm hr

/-- In every run of fewer than 2^64 publishes, any restarts and any failing compactions, with
no publish after a lost message, the numbers are sound. -/
theorem sequence_numbers_sound (is : List Input) (hok : NoPublishAfterLoss .synced is)
    (hcount : publishCount is < 2 ^ 64) :
    NumbersSound (run step (Broker.start LmdbFile.empty) is).1.db.store
      (run step (Broker.start LmdbFile.empty) is).2 := by
  have hinit : Inv .synced (Broker.start LmdbFile.empty) [] :=
    ⟨rfl, ⟨List.nodup_nil, by simp⟩, by simp, fun _ => rfl⟩
  have h0 : (Broker.start LmdbFile.empty).currentSequence.toNat = 0 := by decide
  apply sound_run .synced _ [] is hinit hok
  intro _
  omega

def noFaults : PublishFaults (Option MdbError) := ⟨none, none, none⟩

/-- Two messages, a restart, a third message, and a failing save at the end. -/
theorem sequence_numbers_sound_run :
    NumbersSound
      (run step (Broker.start LmdbFile.empty)
        [.publish noFaults (lit "t") (lit "a"), .publish noFaults (lit "t") (lit "b"), .restart,
          .publish noFaults (lit "u") (lit "c"), .publish ⟨some .commit, none, none⟩ (lit "t") (lit "d"),
          .restart]).1.db.store
      (run step (Broker.start LmdbFile.empty)
        [.publish noFaults (lit "t") (lit "a"), .publish noFaults (lit "t") (lit "b"), .restart,
          .publish noFaults (lit "u") (lit "c"), .publish ⟨some .commit, none, none⟩ (lit "t") (lit "d"),
          .restart]).2 :=
  sequence_numbers_sound _ (by decide) (by decide)

/-- A failed commit and a restart: the number of the lost message is given out again. -/
theorem sequence_number_reused :
    ¬ NumbersSound
      (run step (Broker.start LmdbFile.empty)
        [.publish ⟨some .commit, none, none⟩ (lit "t") (lit "a"), .restart,
          .publish noFaults (lit "t") (lit "b")]).1.db.store
      (run step (Broker.start LmdbFile.empty)
        [.publish ⟨some .commit, none, none⟩ (lit "t") (lit "a"), .restart,
          .publish noFaults (lit "t") (lit "b")]).2 := by
  rintro ⟨hn, -⟩
  exact absurd hn (by decide)

end Publishing

end MetricMQ
