import MetricMQ.StoreSchema

/-! What `load_acks` returns. The key of an acknowledgement determines its client and its
sequence, but the prefix scan also meets the keys of clients whose id continues with a
colon, and `stoull` reads a number off those too. -/
namespace MetricMQ.LmdbStorage

open ByteString SortedCursor Std

/-- The acknowledgements saved and not purged since; a threshold of zero purges nothing. -/
def ackStep (live : List (Bytes × UInt64)) : Op → List (Bytes × UInt64)
  | .saveAck none clientId seq => (clientId, seq) :: live
  | .purgeOldAcks none maxSeq =>
    if maxSeq = 0 then live else live.filter fun a => !decide (a.2 ≤ maxSeq)
  | _ => live

def liveAcks (ops : List Op) : List (Bytes × UInt64) := ops.foldl ackStep []

/-- The store holds exactly the live acknowledgements. -/
def AckView (store : Store) (live : List (Bytes × UInt64)) : Prop :=
  ∀ c s, (∃ v, store[ackKey c s]? = some v) ↔ (c, s) ∈ live

theorem ackView_save (err : Option MdbError) (store : Store) (live : List (Bytes × UInt64))
    (seq : UInt64) (topic payload : Bytes) (h : AckView store live) :
    AckView (save err store seq topic payload) live := by
  cases err with
  | some e => exact h
  | none =>
    intro c s
    rw [getElem?_save, if_neg (ackKey_ne_lastSeqKey c s).symm,
      if_neg (ackKey_ne_msgKey c s _).symm]
    exact h c s

theorem ackView_saveAck (err : Option MdbError) (store : Store) (live : List (Bytes × UInt64))
    (c : Bytes) (s : UInt64) (h : AckView store live) :
    AckView (saveAck err store c s) (ackStep live (.saveAck err c s)) := by
  cases err with
  | some e => exact h
  | none =>
    intro d n
    rw [getElem?_saveAck, ackStep, List.mem_cons, ← h d n]
    by_cases hk : ackKey c s = ackKey d n
    · obtain ⟨rfl, rfl⟩ := ackKey_injective c d s n hk
      simp
    · have hne : (d, n) ≠ (c, s) := by
        rintro he
        obtain ⟨rfl, rfl⟩ := Prod.mk.inj he
        exact hk rfl
      rw [if_neg hk]
      simp only [hne, false_or]

theorem ackView_purgeOldAcks (err : Option MdbError) (store : Store)
    (live : List (Bytes × UInt64)) (t : UInt64) (h : AckView store live) :
    AckView (purgeOldAcks err store t) (ackStep live (.purgeOldAcks err t)) := by
  cases err with
  | some e =>
    rw [purgeOldAcks_some]
    exact h
  | none =>
    intro c s
    rw [purgeOldAcks_ackKey, ackStep]
    by_cases ht : t = 0
    · rw [if_neg fun hh => hh.1 ht, if_pos ht]
      exact h c s
    · rw [if_neg ht, List.mem_filter, ← h c s]
      by_cases hs : s ≤ t
      · rw [if_pos ⟨ht, hs⟩]
        simp [hs]
      · rw [if_neg fun hh => hs hh.2]
        simp [hs]

theorem ackView_apply (store : Store) (live : List (Bytes × UInt64)) (op : Op)
    (h : AckView store live) : AckView (apply store op) (ackStep live op) := by
  cases op with
  | save err seq topic payload => exact ackView_save err store live seq topic payload h
  | saveAck err c s => exact ackView_saveAck err store live c s h
  | compact err t =>
    intro c s
    rw [apply, compact_of_not_msg err store t _ (not_msgTag_ackKey c s)]
    exact h c s
  | purgeOldAcks err t => exact ackView_purgeOldAcks err store live t h

theorem ackView_build (ops : List Op) : AckView (build ops) (liveAcks ops) := by
  have hrun : ∀ (ops : List Op) store live, AckView store live →
      AckView (ops.foldl apply store) (ops.foldl ackStep live) := by
    intro ops
    induction ops with
    | nil => exact fun _ _ h => h
    | cons op ops ih => exact fun store live h => ih _ _ (ackView_apply store live op h)
  apply hrun ops ∅ []
  intro c s
  rw [TreeMap.getElem?_emptyc]
  simp

/-- The keys a scan for `c` meets: its own, and those of clients whose id is `c:x`. -/
theorem ackTagOf_append_eq_ackKey (c r d : Bytes) (s : UInt64)
    (h : ackTagOf c ++ r = ackKey d s) :
    (d = c ∧ r = toDecimal s.toNat) ∨ ∃ x, d = c ++ 58 :: x ∧ r = x ++ 58 :: toDecimal s.toNat := by
  simp only [ackKey, ackTagOf, List.append_assoc, List.append_cancel_left_eq,
    List.singleton_append] at h
  rcases List.append_eq_append_iff.mp h with ⟨a, rfl, ha⟩ | ⟨a, rfl, ha⟩
  · cases a with
    | nil => exact Or.inl ⟨List.append_nil c, List.cons_inj_right 58 |>.mp ha⟩
    | cons b x =>
      obtain ⟨rfl, hr⟩ := List.cons.inj ha
      exact Or.inr ⟨x, rfl, hr⟩
  · cases a with
    | nil => exact Or.inl ⟨(List.append_nil d).symm, (List.cons_inj_right 58 |>.mp ha).symm⟩
    | cons b x =>
      -- the decimal text would hold a colon
      obtain ⟨-, hr⟩ := List.cons.inj ha
      have hm : (58 : UInt8) ∈ toDecimal s.toNat := by
        rw [hr]
        simp
      exact absurd hm (not_mem_toDecimal s.toNat 58 (by decide))

theorem mem_loadAcks (store : Store) (c : Bytes) (n : UInt64) :
    n ∈ loadAcks store c ↔
      ∃ r v, store[ackTagOf c ++ r]? = some v ∧ stoull r = some n := by
  rw [loadAcks, List.mem_filterMap]
  constructor
  · rintro ⟨⟨k, v⟩, hm, hn⟩
    obtain ⟨hv, r, rfl⟩ := (mem_prefixScan store _ k v).mp hm
    rw [List.drop_left] at hn
    exact ⟨r, v, hv, hn⟩
  · rintro ⟨r, v, hv, hn⟩
    refine ⟨(ackTagOf c ++ r, v), (mem_prefixScan store _ _ v).mpr ⟨hv, List.prefix_append _ _⟩, ?_⟩
    rw [List.drop_left]
    exact hn

/-- The sequences read for `c`: its own, and the numbers found in longer client ids. -/
theorem mem_loadAcks_ackKey (store : Store) (hs : Schema store) (c : Bytes) (n : UInt64) :
    n ∈ loadAcks store c ↔ (∃ v, store[ackKey c n]? = some v) ∨
      ∃ x s, (∃ v, store[ackKey (c ++ 58 :: x) s]? = some v) ∧ stoull x = some n := by
  rw [mem_loadAcks]
  constructor
  · rintro ⟨r, v, hr, hn⟩
    have hhead : (ackTagOf c ++ r).head? = some 97 := rfl
    rcases hs _ v hr with hk | ⟨s, hk⟩ | ⟨d, s, hk⟩
    · rw [hk] at hhead
      exact absurd hhead (by decide)
    · rw [hk, head_msgKey] at hhead
      exact absurd hhead (by decide)
    · rw [hk] at hr
      -- the key is one of `c`, or of a client whose id continues behind a colon
      rcases ackTagOf_append_eq_ackKey c r d s hk with ⟨rfl, rfl⟩ | ⟨x, rfl, rfl⟩
      · rw [stoull_toDecimal, Option.some_inj] at hn
        exact Or.inl ⟨v, hn ▸ hr⟩
      · rw [stoull_append_stop x _ 58 (by decide) (by decide) (by decide) (by decide)] at hn
        exact Or.inr ⟨x, s, ⟨v, hr⟩, hn⟩
  · rintro (⟨v, hr⟩ | ⟨x, s, ⟨v, hr⟩, hn⟩)
    · exact ⟨_, v, hr, stoull_toDecimal n⟩
    · refine ⟨x ++ 58 :: toDecimal s.toNat, v, ?_, ?_⟩
      · rw [← hr]
        simp only [ackKey, ackTagOf, List.append_assoc, List.cons_append, List.nil_append]
      · rw [stoull_append_stop x _ 58 (by decide) (by decide) (by decide) (by decide), hn]

theorem mem_loadAcks_iff (store : Store) (live : List (Bytes × UInt64)) (hs : Schema store)
    (hv : AckView store live) (c : Bytes) (n : UInt64) :
    n ∈ loadAcks store c ↔
      (c, n) ∈ live ∨ ∃ x s, (c ++ 58 :: x, s) ∈ live ∧ stoull x = some n := by
  rw [mem_loadAcks_ackKey store hs, hv c n]
  refine or_congr_right (exists_congr fun x => exists_congr fun s => ?_)
  rw [hv (c ++ 58 :: x) s]

/-- `load_acks` returns a client's own acknowledgements and nothing else. -/
def AckIsolation (ops : List Op) (c : Bytes) : Prop :=
  ∀ n, n ∈ loadAcks (build ops) c ↔ (c, n) ∈ liveAcks ops

/-- Isolation holds exactly when no live acknowledgement of a client `c:x` has a number
in `x` that `c` has not acknowledged itself. -/
theorem ack_isolation_iff (ops : List Op) (c : Bytes) :
    AckIsolation ops c ↔
      ∀ x s n, (c ++ 58 :: x, s) ∈ liveAcks ops → stoull x = some n → (c, n) ∈ liveAcks ops := by
  have hmem := mem_loadAcks_iff (build ops) (liveAcks ops) (schema_build ops) (ackView_build ops) c
  constructor
  · intro h x s n hlive hn
    exact (h n).mp ((hmem n).mpr (Or.inr ⟨x, s, hlive, hn⟩))
  · intro h n
    rw [hmem n]
    constructor
    · rintro (hlive | ⟨x, s, hlive, hn⟩)
      · exact hlive
      · exact h x s n hlive hn
    · exact Or.inl

/-- One acknowledgement of client `a:7` makes message 7 acknowledged for client `a`. -/
theorem ack_isolation_fails_for_colon :
    ¬ AckIsolation [.saveAck none (lit "a:7") 3] (lit "a") := by
  intro h
  have h7 := (h 7).mp (by decide)
  exact absurd h7 (by decide)

end MetricMQ.LmdbStorage
