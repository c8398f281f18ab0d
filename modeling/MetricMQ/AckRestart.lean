import MetricMQ.AckMarks
import MetricMQ.Retention

/-! Acknowledgements across a restart, over the LMDB storage. In memory the mark of a client
stays for good; in the store an acknowledgement is removed once the compaction of everybody's
publishes has passed its number. -/
namespace MetricMQ

open ByteString Std LmdbStorage Machine

namespace AckRestart

/-- The calls of a process that acknowledges and publishes, all transactions of which commit;
no client id has a colon. -/
def Commits : Method (Option MdbError) → Prop
  | .publish faults _ _ => faults = ⟨none, none, none⟩
  | .handleAck err c _ => err = none ∧ 58 ∉ c
  | .registerClient c _ => 58 ∉ c
  | _ => False

instance : DecidablePred Commits
  | .publish ⟨none, none, none⟩ _ _ => isTrue rfl
  | .publish ⟨some _, _, _⟩ _ _ => isFalse (by simp [Commits])
  | .publish ⟨none, some _, _⟩ _ _ => isFalse (by simp [Commits])
  | .publish ⟨none, none, some _⟩ _ _ => isFalse (by simp [Commits])
  | .handleAck none c _ => inferInstanceAs (Decidable (_ ∧ 58 ∉ c))
  | .handleAck (some _) _ _ => isFalse (by simp [Commits])
  | .registerClient c _ => inferInstanceAs (Decidable (58 ∉ c))
  | .accept _ | .subscribe _ _ | .unsubscribe _ _ | .unregisterClient _ | .removeSession _
  | .stop => isFalse id

/-- The process: started on an empty store, after a run of calls. -/
def process (hash : HashOrder) (ms : List (Method (Option MdbError))) : Broker LmdbFile :=
  (Broker.start LmdbFile.empty).after hash ms

/-- The broker is stopped and started again on the same file, and the client comes back. -/
def resumed (hash : HashOrder) (b : Broker LmdbFile) (c : Bytes) (session : SessionId) :
    Broker LmdbFile :=
  (Broker.start b.stop.db).registerClient hash c session

/-- The call does not remove the acknowledgement of `n` from the store. -/
def Keeps (n : UInt64) (b : Broker LmdbFile) : Method (Option MdbError) → Prop
  | .publish _ _ _ => ¬ (b.CompactionDue ∧ n ≤ b.currentSequence + 1 - maxStoredMessages)
  | _ => True

/-- The acknowledgement is in the store. -/
def Stored (c : Bytes) (n : UInt64) (b : Broker LmdbFile) : Prop :=
  ∃ v, b.db.store[ackKey c n]? = some v

section Steps

variable (hash : HashOrder) (b : Broker LmdbFile) (c : Bytes) (n : UInt64)

theorem stored_handleAck (d : Bytes) (k : UInt64) (ho : b.persistence = true) :
    Stored c n (b.handleAck none d k) ↔ (d = c ∧ k = n) ∨ Stored c n b := by
  rw [Stored, Broker.handleAck]
  dsimp only
  rw [if_pos ho]
  change (∃ v, (saveAck none b.db.store d k)[ackKey c n]? = some v) ↔ _
  rw [getElem?_saveAck]
  by_cases hk : ackKey d k = ackKey c n
  · rw [if_pos hk]
    exact iff_of_true ⟨_, rfl⟩ (Or.inl (ackKey_injective d c k n hk))
  · rw [if_neg hk]
    refine ⟨Or.inr, fun h => h.resolve_left ?_⟩
    rintro ⟨rfl, rfl⟩
    exact hk rfl

/-- A publish removes acknowledgements only by the purge behind a compaction. -/
theorem stored_publish (topic payload : Bytes) (ho : b.persistence = true) :
    Stored c n (b.publish ⟨none, none, none⟩ topic payload).1 ↔
      Stored c n b ∧ Keeps n b (.publish ⟨none, none, none⟩ topic payload) := by
  -- the save writes a message and the counter
  have hsaved : (b.savedDb ⟨none, none, none⟩ topic payload).store[ackKey c n]? =
      b.db.store[ackKey c n]? := by
    rw [Broker.savedDb, if_pos ho]
    change (save none b.db.store (b.currentSequence + 1) topic payload)[ackKey c n]? = _
    rw [getElem?_save, if_neg (ackKey_ne_lastSeqKey c n).symm, if_neg (ackKey_ne_msgKey c n _).symm]
  rw [Stored, Stored, Keeps, Broker.publish_db]
  by_cases hdue : b.CompactionDue
  · rw [b.persist_of_due topic payload _ ho hdue]
    change (∃ v, (purgeOldAcks none (compact none (b.savedDb ⟨none, none, none⟩ topic payload).store
      (b.currentSequence + 1 - maxStoredMessages)) _)[ackKey c n]? = some v) ↔ _
    -- a purge up to zero would do nothing
    have hne : b.currentSequence + 1 - maxStoredMessages ≠ 0 := by
      intro hzero
      rw [UInt64.sub_eq_iff_eq_add, UInt64.zero_add] at hzero
      exact absurd hdue.2 (hzero ▸ UInt64.lt_irrefl _)
    rw [purgeOldAcks_ackKey, compact_of_not_msg _ _ _ _ (not_msgTag_ackKey c n), hsaved]
    by_cases hn : n ≤ b.currentSequence + 1 - maxStoredMessages
    · rw [if_pos ⟨hne, hn⟩]
      exact iff_of_false (by simp) fun h => h.2 ⟨hdue, hn⟩
    · rw [if_neg fun h => hn h.2]
      exact ⟨fun h => ⟨h, fun hh => hn hh.2⟩, And.left⟩
  · rw [b.persist_of_not_due topic payload _ ho hdue, hsaved]
    exact ⟨fun h => ⟨h, fun hh => hdue hh.1⟩, And.left⟩

theorem persistence_perform (m : Method (Option MdbError)) (hm : Commits m) :
    (b.perform hash m).persistence = b.persistence := by
  cases m with
  | publish faults topic payload => exact b.publish_persistence faults topic payload
  | handleAck err d k => rfl
  | registerClient d session =>
    obtain ⟨acks, marks, h⟩ := b.registerClient_frame hash d session
    rw [Broker.perform, h]
  | accept | subscribe | unsubscribe | unregisterClient | removeSession | stop => exact hm.elim

/-- Everything a call can do to an acknowledgement in the store. -/
theorem stored_perform (m : Method (Option MdbError)) (hm : Commits m) (ho : b.persistence = true) :
    Stored c n (b.perform hash m) ↔ m = .handleAck none c n ∨ Stored c n b ∧ Keeps n b m := by
  cases m with
  | publish faults topic payload =>
    rw [Commits] at hm
    subst hm
    rw [Broker.perform, stored_publish b c n topic payload ho]
    simp
  | handleAck err d k =>
    obtain ⟨rfl, -⟩ := hm
    rw [Broker.perform, stored_handleAck b c n d k ho]
    simp [Keeps]
  | registerClient d session =>
    obtain ⟨acks, marks, h⟩ := b.registerClient_frame hash d session
    rw [Broker.perform, h]
    simp [Keeps, Stored]
  | accept | subscribe | unsubscribe | unregisterClient | removeSession | stop => exact hm.elim

end Steps

section Runs

variable (hash : HashOrder) (ms : List (Method (Option MdbError)))

theorem process_snoc (m : Method (Option MdbError)) :
    process hash (ms ++ [m]) = (process hash ms).perform hash m := Broker.after_snoc hash _ ms m

theorem meets_commits (h : ∀ m ∈ ms, Commits m) :
    Meets (Broker.methodStep hash) (fun b m => Commits m ∧ b.persistence = true)
      (Broker.start LmdbFile.empty) ms := by
  refine meets_of_invariant (fun b => b.persistence = true) ?_ _ ms rfl ((meets_iff_forall _ ms).mpr h)
  intro b m ho hm
  exact ⟨⟨hm, ho⟩, (persistence_perform hash b m hm).trans ho⟩

/-- An acknowledgement is in the store when it was made and no publish has purged it since. -/
theorem stored_iff_since (h : ∀ m ∈ ms, Commits m) (c : Bytes) (n : UInt64) :
    Stored c n (process hash ms) ↔
      Since (Broker.methodStep hash) (fun _ m => m = .handleAck none c n) (Keeps n)
        (Broker.start LmdbFile.empty) ms := by
  refine iff_since (Stored c n) (fun b m hm => stored_perform hash b c n m hm.1 hm.2) _ ms ?_
    (meets_commits hash ms h)
  rintro ⟨v, hv⟩
  change (∅ : Store)[ackKey c n]? = some v at hv
  simp at hv

theorem made_of_stored (h : ∀ m ∈ ms, Commits m) (c : Bytes) (n : UInt64)
    (hs : Stored c n (process hash ms)) : .handleAck none c n ∈ ms := by
  obtain ⟨pre, m, post, hms, rfl, -⟩ := (stored_iff_since hash ms h c n).mp hs
  rw [hms]
  simp

theorem mem_loadAcks_process (h : ∀ m ∈ ms, Commits m) (c : Bytes) (n : UInt64) :
    n ∈ Storage.loadAcks (process hash ms).db c ↔ Stored c n (process hash ms) := by
  refine (mem_loadAcks_ackKey _ (process hash ms).db.schema c n).trans ?_
  refine or_iff_left ?_
  -- the keys of longer ids belong to clients with a colon
  rintro ⟨x, s, hs, -⟩
  have hm := h _ (made_of_stored hash ms h _ s hs)
  exact hm.2 (by simp)

theorem persistence_process (h : ∀ m ∈ ms, Commits m) : (process hash ms).persistence = true := by
  refine run_invariant (C := fun _ m => Commits m) (fun b _ => b.persistence = true) ?_
    (Broker.start LmdbFile.empty) [] ms rfl ((meets_iff_forall _ ms).mpr h)
  intro b _ m ho hm
  exact (persistence_perform hash b m hm).trans ho

/-- What came to the broker, made or read back, are the acknowledgements of the run. -/
theorem mem_trace_iff (h : ∀ m ∈ ms, Commits m) (c : Bytes) (n : UInt64) :
    (c, n) ∈ (run (Broker.methodStep hash) (Broker.start LmdbFile.empty) ms).2 ↔
      .handleAck none c n ∈ ms := by
  induction ms using List.reverseRecOn with
  | nil => exact iff_of_false List.not_mem_nil List.not_mem_nil
  | append_singleton ms m ih =>
    have hpre : ∀ m ∈ ms, Commits m := fun m' hm' => h m' (List.mem_append_left _ hm')
    have hm : Commits m := h m (List.mem_append_right _ (List.mem_singleton.mpr rfl))
    -- what a registration reads back was made earlier in the run
    have hnew : (c, n) ∈ (process hash ms).acksIn m →
        .handleAck none c n ∈ ms ∨ .handleAck none c n = m := by
      intro hin
      cases m with
      | handleAck err d k =>
        obtain ⟨rfl, rfl⟩ := Prod.mk.inj (List.mem_singleton.mp hin)
        rw [hm.1]
        exact Or.inr rfl
      | registerClient d session =>
        rw [Broker.acksIn, if_pos (persistence_process hash ms hpre)] at hin
        obtain ⟨k, hk, he⟩ := List.mem_map.mp hin
        obtain ⟨rfl, rfl⟩ := Prod.mk.inj he
        exact Or.inl (made_of_stored hash ms hpre d k ((mem_loadAcks_process hash ms hpre d k).mp hk))
      | publish => cases hin
      | accept | subscribe | unsubscribe | unregisterClient | removeSession | stop => exact hm.elim
    rw [run_append, List.mem_append, List.mem_append, ih hpre, List.mem_singleton]
    change _ ∨ (c, n) ∈ (process hash ms).acksIn m ++ [] ↔ _
    rw [List.append_nil]
    constructor
    · exact fun hh => hh.elim Or.inl hnew
    · rintro (hh | rfl)
      · exact Or.inl hh
      · exact Or.inr (List.mem_singleton.mpr rfl)

/-- The highest number the client has acknowledged in the run. -/
def Highest (ms : List (Method (Option MdbError))) (c : Bytes) (n : UInt64) : Prop :=
  .handleAck none c n ∈ ms ∧ ∀ k, .handleAck none c k ∈ ms → k ≤ n

variable (hash' : HashOrder) (c : Bytes) (session : SessionId)

theorem isMark_resumed (h : ∀ m ∈ ms, Commits m) :
    (∀ n, Stored c n (process hash ms) → n ≤ (resumed hash' (process hash ms) c session).getLastAck c) ∧
      (Stored c ((resumed hash' (process hash ms) c session).getLastAck c) (process hash ms) ∨
        (resumed hash' (process hash ms) c session).getLastAck c = 0) := by
  have hmark := Broker.isMark_getLastAck hash' (process hash ms).db
    [(.registerClient c session : Method (Option MdbError))] c
  have htrace : ∀ n, (c, n) ∈ (run (Broker.methodStep hash') (Broker.start (process hash ms).db)
      [(.registerClient c session : Method (Option MdbError))]).2 ↔ Stored c n (process hash ms) := by
    intro n
    rw [← mem_loadAcks_process hash ms h c n]
    change (c, n) ∈ (Storage.loadAcks (process hash ms).db c).map (Prod.mk c) ++ [] ↔ _
    simp
  change IsMark _ c ((resumed hash' (process hash ms) c session).getLastAck c) at hmark
  refine ⟨fun n hn => hmark.1 n ((htrace n).mpr hn), ?_⟩
  exact hmark.2.imp (htrace _).mp And.left

/-- The mark comes back when it is zero or its own acknowledgement is still in the store. -/
theorem resumed_eq_iff_stored (h : ∀ m ∈ ms, Commits m) :
    (resumed hash' (process hash ms) c session).getLastAck c = (process hash ms).getLastAck c ↔
      (process hash ms).getLastAck c = 0 ∨
        Stored c ((process hash ms).getLastAck c) (process hash ms) := by
  obtain ⟨hge, hmem⟩ := isMark_resumed hash ms hash' c session h
  have hmark := Broker.isMark_getLastAck hash LmdbFile.empty ms c
  change IsMark _ c ((process hash ms).getLastAck c) at hmark
  -- the store gives nothing back that was not made
  have hle : (resumed hash' (process hash ms) c session).getLastAck c ≤ (process hash ms).getLastAck c := by
    rcases hmem with hs | hz
    · exact hmark.1 _ ((mem_trace_iff hash ms h c _).mpr (made_of_stored hash ms h c _ hs))
    · rw [hz]
      exact UInt64.zero_le
  constructor
  · intro he
    rw [he] at hmem
    exact hmem.symm
  · rintro (hz | hs)
    · rw [hz] at hle ⊢
      exact UInt64.le_antisymm hle UInt64.zero_le
    · exact UInt64.le_antisymm hle (hge _ hs)

theorem getLastAck_process (h : ∀ m ∈ ms, Commits m) :
    (process hash ms).getLastAck c = 0 ∨ Highest ms c ((process hash ms).getLastAck c) := by
  have hmark := Broker.isMark_getLastAck hash LmdbFile.empty ms c
  change IsMark _ c ((process hash ms).getLastAck c) at hmark
  rcases hmark.2 with hm | hz
  · refine Or.inr ⟨(mem_trace_iff hash ms h c _).mp hm, ?_⟩
    exact fun k hk => hmark.1 k ((mem_trace_iff hash ms h c k).mpr hk)
  · exact Or.inl hz.1

theorem eq_getLastAck_of_highest (h : ∀ m ∈ ms, Commits m) (n : UInt64) (hn : Highest ms c n) :
    n = (process hash ms).getLastAck c := by
  have hmark := Broker.isMark_getLastAck hash LmdbFile.empty ms c
  change IsMark _ c ((process hash ms).getLastAck c) at hmark
  have hle := hmark.1 n ((mem_trace_iff hash ms h c n).mpr hn.1)
  rcases getLastAck_process hash ms c h with hz | hh
  · rw [hz] at hle ⊢
    exact UInt64.le_antisymm hle UInt64.zero_le
  · exact UInt64.le_antisymm hle (hn.2 _ hh.1)

/-- A client gets its mark back after a restart exactly when its highest acknowledgement is zero
or has been made after the last publish that purged its number. -/
theorem ack_survives_restart_iff (h : ∀ m ∈ ms, Commits m) :
    (resumed hash' (process hash ms) c session).getLastAck c = (process hash ms).getLastAck c ↔
      ∀ n, Highest ms c n → n = 0 ∨
        Since (Broker.methodStep hash) (fun _ m => m = .handleAck none c n) (Keeps n)
          (Broker.start LmdbFile.empty) ms := by
  rw [resumed_eq_iff_stored hash ms hash' c session h]
  simp only [← stored_iff_since hash ms h]
  constructor
  · intro hh n hn
    rw [eq_getLastAck_of_highest hash ms c h n hn]
    exact hh
  · intro hh
    exact (getLastAck_process hash ms c h).elim Or.inl fun hn => hh _ hn

end Runs

section Examples

def publishOnT : Method (Option MdbError) := .publish ⟨none, none, none⟩ (lit "t") (lit "a")

theorem ack_survives_restart_at_once :
    (∀ m ∈ [.registerClient (lit "c") 0, publishOnT, .handleAck none (lit "c") 1], Commits m) ∧
    ∀ n, Highest [.registerClient (lit "c") 0, publishOnT, .handleAck none (lit "c") 1] (lit "c") n →
      n = 0 ∨ Since (Broker.methodStep ⟨id, fun _ _ => Iff.rfl⟩)
        (fun _ m => m = .handleAck none (lit "c") n) (Keeps n) (Broker.start LmdbFile.empty)
        [.registerClient (lit "c") 0, publishOnT, .handleAck none (lit "c") 1] :=
  ⟨by decide, (ack_survives_restart_iff ⟨id, fun _ _ => Iff.rfl⟩ _ ⟨id, fun _ _ => Iff.rfl⟩ (lit "c") 1
    (by decide)).mp (by decide)⟩

/-- A client acknowledges the first message, and others publish on. -/
def publishesAfterAck (k : ℕ) : List (Method (Option MdbError)) :=
  [publishOnT, .handleAck none (lit "c") 1] ++ List.replicate k publishOnT

theorem commits_publishesAfterAck (k : ℕ) : ∀ m ∈ publishesAfterAck k, Commits m := by
  have hfirst : ∀ m ∈ [publishOnT, .handleAck none (lit "c") 1], Commits m := by decide
  intro m hm
  rcases List.mem_append.mp hm with hm | hm
  · exact hfirst m hm
  · rw [List.eq_of_mem_replicate hm]
    rfl

theorem publishesAfterAck_succ (k : ℕ) :
    publishesAfterAck (k + 1) = publishesAfterAck k ++ [publishOnT] := by
  rw [publishesAfterAck, List.replicate_succ', ← List.append_assoc, publishesAfterAck]

theorem counters_publishesAfterAck (hash : HashOrder) (k : ℕ) :
    (process hash (publishesAfterAck k)).currentSequence = UInt64.ofNat (k + 1) ∧
      (process hash (publishesAfterAck k)).publishCount = UInt64.ofNat (k + 1) := by
  induction k with
  | zero => exact ⟨rfl, rfl⟩
  | succ k ih =>
    rw [publishesAfterAck_succ, process_snoc]
    obtain ⟨db, hp⟩ := (process hash (publishesAfterAck k)).publish_frame
      (⟨none, none, none⟩ : PublishFaults (Option MdbError)) (lit "t") (lit "a")
    change ((process hash (publishesAfterAck k)).publish _ _ _).1.currentSequence = _ ∧
      ((process hash (publishesAfterAck k)).publish _ _ _).1.publishCount = _
    rw [hp]
    dsimp only
    rw [ih.1, ih.2, UInt64.ofNat_add (k + 1) 1]
    exact ⟨rfl, rfl⟩

theorem highest_publishesAfterAck (k : ℕ) : Highest (publishesAfterAck k) (lit "c") 1 := by
  constructor
  · simp [publishesAfterAck]
  · intro n hn
    simp [publishesAfterAck, publishOnT, List.mem_replicate] at hn
    rw [hn]
    exact UInt64.le_refl 1

/-- The compaction at the 101000th publish purges the acknowledgement of message 1. -/
theorem ack_lost_by_compaction :
    (resumed ⟨id, fun _ _ => Iff.rfl⟩
      (process ⟨id, fun _ _ => Iff.rfl⟩ (publishesAfterAck 100999)) (lit "c") 0).getLastAck (lit "c") ≠
    (process ⟨id, fun _ _ => Iff.rfl⟩ (publishesAfterAck 100999)).getLastAck (lit "c") := by
  have hcommits := commits_publishesAfterAck 100999
  rw [ne_eq, resumed_eq_iff_stored _ _ _ _ _ hcommits,
    ← eq_getLastAck_of_highest _ _ _ hcommits 1 (highest_publishesAfterAck 100999)]
  rintro (hz | hs)
  · cases hz
  · obtain ⟨hseq, hcount⟩ := counters_publishesAfterAck ⟨id, fun _ _ => Iff.rfl⟩ 100998
    rw [publishesAfterAck_succ 100998, process_snoc,
      stored_perform _ _ _ _ publishOnT rfl
        (persistence_process _ _ (commits_publishesAfterAck 100998))] at hs
    have hkeeps := (hs.resolve_left (by simp [publishOnT])).2
    refine hkeeps ⟨⟨?_, ?_⟩, ?_⟩
    · rw [hcount]
      decide
    · rw [hseq]
      decide
    · rw [hseq]
      decide

end Examples

end AckRestart

end MetricMQ
