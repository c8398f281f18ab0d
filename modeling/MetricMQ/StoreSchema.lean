import MetricMQ.LmdbStorage

/-! The key space of the store: the three kinds of keys never clash, every reachable store
holds only such keys, and what each call changes. -/
namespace MetricMQ.LmdbStorage

open ByteString BigEndian SortedCursor Std

theorem msgData_eq (topic payload : Bytes) : msgData topic payload = topic ++ payload := by
  rw [msgData, ofCString]
  exact congrArg (· ++ payload) (List.append_nil topic)

@[simp] theorem nativeValue_nativeBytes (n : UInt64) : nativeValue (nativeBytes n) = some n := by
  obtain ⟨b0, b1, b2, b3, b4, b5, b6, b7, hb, hn⟩ := be64_bytes64 n
  rw [nativeBytes, hb]
  exact congrArg some hn

theorem nextSeq_eq (store : Store) : nextSeq store = getLastSeq store + 1 := by
  rw [nextSeq, getLastSeq]
  cases storedLastSeq store <;> rfl

section Keys

theorem msgKey_injective : Function.Injective msgKey := by
  intro a b h
  exact UInt64.toNat_inj.mp (toDecimal_injective (List.append_cancel_left h))

theorem head_msgKey (s : UInt64) : (msgKey s).head? = some 109 := rfl

theorem head_ackKey (c : Bytes) (s : UInt64) : (ackKey c s).head? = some 97 := rfl

theorem head_lastSeqKey : lastSeqKey.head? = some 108 := rfl

theorem msgKey_ne_lastSeqKey (s : UInt64) : msgKey s ≠ lastSeqKey := by
  intro h
  have hh := congrArg List.head? h
  rw [head_msgKey, head_lastSeqKey] at hh
  exact absurd hh (by decide)

theorem ackKey_ne_lastSeqKey (c : Bytes) (s : UInt64) : ackKey c s ≠ lastSeqKey := by
  intro h
  have hh := congrArg List.head? h
  rw [head_ackKey, head_lastSeqKey] at hh
  exact absurd hh (by decide)

theorem ackKey_ne_msgKey (c : Bytes) (n s : UInt64) : ackKey c n ≠ msgKey s := by
  intro h
  have hh := congrArg List.head? h
  rw [head_msgKey, head_ackKey] at hh
  exact absurd hh (by decide)

/-- The last colon of an acknowledgement key separates the sequence. -/
theorem rfind_ackKey (c : Bytes) (s : UInt64) : rfind (ackKey c s) 58 = some (4 + c.length) := by
  have hk : ackKey c s = (ackTag ++ c) ++ 58 :: toDecimal s.toNat := by
    simp only [ackKey, ackTagOf, List.append_assoc, List.singleton_append]
  rw [hk, rfind_append_cons _ _ 58 (not_mem_toDecimal s.toNat 58 (by decide)),
    List.length_append]
  rfl

theorem ackKey_injective (c d : Bytes) (m n : UInt64) (h : ackKey c m = ackKey d n) :
    c = d ∧ m = n := by
  have hl : c.length = d.length := by
    have hr := rfind_ackKey c m
    rw [h, rfind_ackKey d n, Option.some_inj] at hr
    omega
  simp only [ackKey, ackTagOf, List.append_assoc, List.append_cancel_left_eq] at h
  obtain ⟨rfl, ht⟩ := List.append_inj h hl
  exact ⟨rfl, UInt64.toNat_inj.mp (toDecimal_injective (List.append_cancel_left ht))⟩

theorem msgTag_msgKey (s : UInt64) : msgTag <+: msgKey s := List.prefix_append _ _

theorem ackTag_ackKey (c : Bytes) (s : UInt64) : ackTag <+: ackKey c s := by
  simp only [ackKey, ackTagOf, List.append_assoc]
  exact List.prefix_append _ _

@[simp] theorem msgSeqOf_msgKey (s : UInt64) : msgSeqOf (msgKey s) = some s :=
  stoull_toDecimal s

@[simp] theorem ackSeqOf_ackKey (c : Bytes) (s : UInt64) : ackSeqOf (ackKey c s) = some s := by
  have hd : (ackKey c s).drop (4 + c.length + 1) = toDecimal s.toNat := by
    have hl : 4 + c.length + 1 = (ackTagOf c).length := by
      simp only [ackTagOf, List.length_append, List.length_singleton]
      rfl
    rw [hl, ackKey, List.drop_left]
  rw [ackSeqOf, rfind_ackKey]
  dsimp only
  rw [if_pos (by omega), hd, stoull_toDecimal]

theorem head_of_tag (tag k : Bytes) (c : UInt8) (ht : tag.head? = some c) (h : tag <+: k) :
    k.head? = some c := by
  obtain ⟨r, rfl⟩ := h
  rw [List.head?_append, ht]
  rfl

theorem not_msgTag_ackKey (c : Bytes) (s : UInt64) : ¬ msgTag <+: ackKey c s := by
  intro h
  have hh := head_of_tag msgTag _ 109 rfl h
  rw [head_ackKey] at hh
  exact absurd hh (by decide)

theorem not_ackTag_msgKey (s : UInt64) : ¬ ackTag <+: msgKey s := by
  intro h
  have hh := head_of_tag ackTag _ 97 rfl h
  rw [head_msgKey] at hh
  exact absurd hh (by decide)

theorem not_msgTag_lastSeqKey : ¬ msgTag <+: lastSeqKey := by
  intro h
  exact absurd (head_of_tag msgTag _ 109 rfl h) (by decide)

theorem not_ackTag_lastSeqKey : ¬ ackTag <+: lastSeqKey := by
  intro h
  exact absurd (head_of_tag ackTag _ 97 rfl h) (by decide)

end Keys

section Lookup

theorem getElem?_insert_eq (store : Store) (k a v : Bytes) :
    (store.insert k v)[a]? = if k = a then some v else store[a]? := by
  rw [TreeMap.getElem?_insert]
  simp only [Std.LawfulEqCmp.compare_eq_iff_eq]

theorem mem_keysUpTo (store : Store) (tag : Bytes) (maxSeq : UInt64)
    (seqOf : Bytes → Option UInt64) (k : Bytes) :
    k ∈ keysUpTo maxSeq seqOf (prefixScan store tag) ↔
      (∃ v, store[k]? = some v) ∧ tag <+: k ∧ ∃ s, seqOf k = some s ∧ s ≤ maxSeq := by
  have hk : k ∈ (prefixScan store tag).map Prod.fst ↔ (∃ v, store[k]? = some v) ∧ tag <+: k := by
    simp only [List.mem_map, Prod.exists, exists_and_right, exists_eq_right, mem_prefixScan]
  rw [keysUpTo, List.mem_filter, hk, and_assoc]
  cases seqOf k <;> simp

theorem getElem?_save (store : Store) (seq : UInt64) (topic payload k : Bytes) :
    (save none store seq topic payload)[k]? =
      if lastSeqKey = k then some (nativeBytes (nextSeq store))
      else if msgKey (nextSeq store) = k then some (msgData topic payload) else store[k]? := by
  rw [save, getElem?_insert_eq, getElem?_insert_eq]

theorem getElem?_saveAck (store : Store) (c : Bytes) (s : UInt64) (k : Bytes) :
    (saveAck none store c s)[k]? = if ackKey c s = k then some (lit "1") else store[k]? := by
  rw [saveAck, getElem?_insert_eq]

/-- A compaction takes keys away and changes no value. -/
theorem getElem?_deleteUpTo (store : Store) (tag : Bytes) (t : UInt64)
    (seqOf : Bytes → Option UInt64) (k : Bytes) (s : UInt64) (htag : tag <+: k)
    (hs : seqOf k = some s) :
    (eraseAll store (keysUpTo t seqOf (prefixScan store tag)))[k]? =
      if s ≤ t then none else store[k]? := by
  rw [getElem?_eraseAll]
  by_cases hst : s ≤ t
  · rw [if_pos hst]
    by_cases hk : ∃ v, store[k]? = some v
    · rw [if_pos ((mem_keysUpTo _ _ _ _ _).mpr ⟨hk, htag, s, hs, hst⟩)]
    · have hn : store[k]? = none := by
        rw [Option.eq_none_iff_forall_ne_some]
        exact fun v hv => hk ⟨v, hv⟩
      rw [hn, ite_self]
  · rw [if_neg hst, if_neg]
    intro hm
    obtain ⟨-, -, s', hs', hle⟩ := (mem_keysUpTo _ _ _ _ _).mp hm
    rw [hs, Option.some_inj] at hs'
    exact hst (hs' ▸ hle)

theorem getElem?_deleteUpTo_of_not_tag (store : Store) (tag : Bytes) (t : UInt64)
    (seqOf : Bytes → Option UInt64) (k : Bytes) (htag : ¬ tag <+: k) :
    (eraseAll store (keysUpTo t seqOf (prefixScan store tag)))[k]? = store[k]? := by
  rw [getElem?_eraseAll, if_neg]
  intro hm
  exact htag ((mem_keysUpTo _ _ _ _ _).mp hm).2.1

theorem compact_eq (store : Store) (t : UInt64) (ht : t ≠ 0) : compact none store t =
    eraseAll store (keysUpTo t msgSeqOf (prefixScan store msgTag)) := if_neg ht

theorem purgeOldAcks_eq (store : Store) (t : UInt64) (ht : t ≠ 0) : purgeOldAcks none store t =
    eraseAll store (keysUpTo t ackSeqOf (prefixScan store ackTag)) := if_neg ht

theorem compact_msgKey (store : Store) (t s : UInt64) :
    (compact none store t)[msgKey s]? = if t ≠ 0 ∧ s ≤ t then none else store[msgKey s]? := by
  by_cases ht : t = 0
  · rw [compact, if_pos ht, if_neg fun h => h.1 ht]
  · rw [compact_eq store t ht,
      getElem?_deleteUpTo store msgTag t msgSeqOf _ s (msgTag_msgKey s) (msgSeqOf_msgKey s)]
    simp only [ne_eq, ht, not_false_eq_true, true_and]

theorem purgeOldAcks_ackKey (store : Store) (t : UInt64) (c : Bytes) (s : UInt64) :
    (purgeOldAcks none store t)[ackKey c s]? =
      if t ≠ 0 ∧ s ≤ t then none else store[ackKey c s]? := by
  by_cases ht : t = 0
  · rw [purgeOldAcks, if_pos ht, if_neg fun h => h.1 ht]
  · rw [purgeOldAcks_eq store t ht,
      getElem?_deleteUpTo store ackTag t ackSeqOf _ s (ackTag_ackKey c s) (ackSeqOf_ackKey c s)]
    simp only [ne_eq, ht, not_false_eq_true, true_and]

theorem compact_some (e : MdbError) (store : Store) (t : UInt64) :
    compact (some e) store t = store := ite_self store

theorem purgeOldAcks_some (e : MdbError) (store : Store) (t : UInt64) :
    purgeOldAcks (some e) store t = store := ite_self store

theorem compact_of_not_msg (err : Option MdbError) (store : Store) (t : UInt64) (k : Bytes)
    (hk : ¬ msgTag <+: k) : (compact err store t)[k]? = store[k]? := by
  cases err with
  | some e => rw [compact_some]
  | none =>
    by_cases ht : t = 0
    · rw [compact, if_pos ht]
    · rw [compact_eq store t ht, getElem?_deleteUpTo_of_not_tag _ _ _ _ _ hk]

theorem purgeOldAcks_of_not_ack (err : Option MdbError) (store : Store) (t : UInt64) (k : Bytes)
    (hk : ¬ ackTag <+: k) : (purgeOldAcks err store t)[k]? = store[k]? := by
  cases err with
  | some e => rw [purgeOldAcks_some]
  | none =>
    by_cases ht : t = 0
    · rw [purgeOldAcks, if_pos ht]
    · rw [purgeOldAcks_eq store t ht, getElem?_deleteUpTo_of_not_tag _ _ _ _ _ hk]

theorem eraseAll_subset (store : Store) (keys : List Bytes) (k v : Bytes)
    (h : (eraseAll store keys)[k]? = some v) : store[k]? = some v := by
  rw [getElem?_eraseAll] at h
  split_ifs at h
  exact h

theorem compact_subset (err : Option MdbError) (store : Store) (t : UInt64) (k v : Bytes)
    (h : (compact err store t)[k]? = some v) : store[k]? = some v := by
  cases err with
  | some e => rwa [compact_some] at h
  | none =>
    by_cases ht : t = 0
    · rwa [compact, if_pos ht] at h
    · rw [compact_eq store t ht] at h
      exact eraseAll_subset store _ k v h

theorem purgeOldAcks_subset (err : Option MdbError) (store : Store) (t : UInt64) (k v : Bytes)
    (h : (purgeOldAcks err store t)[k]? = some v) : store[k]? = some v := by
  cases err with
  | some e => rwa [purgeOldAcks_some] at h
  | none =>
    by_cases ht : t = 0
    · rwa [purgeOldAcks, if_pos ht] at h
    · rw [purgeOldAcks_eq store t ht] at h
      exact eraseAll_subset store _ k v h

end Lookup

/-- Every key is the counter, a message or an acknowledgement. -/
def Schema (store : Store) : Prop :=
  ∀ k v, store[k]? = some v →
    k = lastSeqKey ∨ (∃ s, k = msgKey s) ∨ ∃ c s, k = ackKey c s

theorem schema_empty : Schema ∅ := by
  intro k v h
  rw [TreeMap.getElem?_emptyc] at h
  cases h

/-- What one call does to a schema: it keeps it. -/
theorem schema_apply (store : Store) (op : Op) (hs : Schema store) : Schema (apply store op) := by
  cases op with
  | save err seq topic payload =>
    cases err with
    | some e => exact hs
    | none =>
      intro k v h
      rw [apply, getElem?_save] at h
      split_ifs at h with h1 h2
      · exact Or.inl h1.symm
      · exact Or.inr (Or.inl ⟨_, h2.symm⟩)
      · exact hs k v h
  | saveAck err c s =>
    cases err with
    | some e => exact hs
    | none =>
      intro k v h
      rw [apply, getElem?_saveAck] at h
      split_ifs at h with h1
      · exact Or.inr (Or.inr ⟨c, s, h1.symm⟩)
      · exact hs k v h
  | compact err t => exact fun k v h => hs k v (compact_subset err store t k v h)
  | purgeOldAcks err t => exact fun k v h => hs k v (purgeOldAcks_subset err store t k v h)

theorem schema_foldl (ops : List Op) (store : Store) (hs : Schema store) :
    Schema (ops.foldl apply store) := by
  induction ops generalizing store with
  | nil => exact hs
  | cons op ops ih => exact ih _ (schema_apply store op hs)

theorem schema_build (ops : List Op) : Schema (build ops) := schema_foldl ops ∅ schema_empty

section Compaction

/-- The store after a call that removes the keys of `dead` and leaves every other entry. -/
def RemovesExactly (dead : Set Bytes) (before after : Store) : Prop :=
  ∀ k, (k ∈ dead → after[k]? = none) ∧ (k ∉ dead → after[k]? = before[k]?)

/-- What has to be checked for a deletion: the dead keys go, and of the kinds of keys that a store
has, those that are not dead stay. -/
theorem removesExactly_of_schema (before after : Store) (hs : Schema before) (dead : Set Bytes)
    (hsub : ∀ (k : Bytes) v, after[k]? = some v → before[k]? = some v)
    (hdead : ∀ k ∈ dead, after[k]? = none)
    (hlast : after[lastSeqKey]? = before[lastSeqKey]?)
    (hmsg : ∀ s, msgKey s ∉ dead → after[msgKey s]? = before[msgKey s]?)
    (hack : ∀ c s, ackKey c s ∉ dead → after[ackKey c s]? = before[ackKey c s]?) :
    RemovesExactly dead before after := by
  intro k
  refine ⟨hdead k, fun hk => ?_⟩
  cases hb : before[k]? with
  | some v =>
    rw [← hb]
    rcases hs k v hb with rfl | ⟨s, rfl⟩ | ⟨c, s, rfl⟩
    · exact hlast
    · exact hmsg s hk
    · exact hack c s hk
  | none =>
    -- nothing comes into being by a deletion
    rw [Option.eq_none_iff_forall_ne_some]
    intro v hv
    have hbefore := hsub k v hv
    rw [hb] at hbefore
    cases hbefore

theorem compact_removes (store : Store) (hs : Schema store) (t : UInt64) (ht : t ≠ 0) :
    RemovesExactly {k | ∃ s, s ≤ t ∧ k = msgKey s} store (compact none store t) := by
  apply removesExactly_of_schema store _ hs _ (compact_subset none store t)
  · rintro k ⟨s, hst, rfl⟩
    rw [compact_msgKey, if_pos ⟨ht, hst⟩]
  · exact compact_of_not_msg none store t _ not_msgTag_lastSeqKey
  · intro s hk
    rw [compact_msgKey, if_neg fun h => hk ⟨s, h.2, rfl⟩]
  · intro c s _
    exact compact_of_not_msg none store t _ (not_msgTag_ackKey c s)

theorem purgeOldAcks_removes (store : Store) (hs : Schema store) (t : UInt64) (ht : t ≠ 0) :
    RemovesExactly {k | ∃ c s, s ≤ t ∧ k = ackKey c s} store (purgeOldAcks none store t) := by
  apply removesExactly_of_schema store _ hs _ (purgeOldAcks_subset none store t)
  · rintro k ⟨c, s, hst, rfl⟩
    rw [purgeOldAcks_ackKey, if_pos ⟨ht, hst⟩]
  · exact purgeOldAcks_of_not_ack none store t _ not_ackTag_lastSeqKey
  · intro s _
    exact purgeOldAcks_of_not_ack none store t _ (not_ackTag_msgKey s)
  · intro c s hk
    rw [purgeOldAcks_ackKey, if_neg fun h => hk ⟨c, s, h.2, rfl⟩]

/-- In every reachable store, compaction up to `t` removes the messages up to `t`, purging the
acknowledgements up to `t` of every client, and neither touches anything else. -/
theorem compaction_exact (ops : List Op) (t : UInt64) (ht : 1 ≤ t) :
    RemovesExactly {k | ∃ s, s ≤ t ∧ k = msgKey s} (build ops) (compact none (build ops) t) ∧
      RemovesExactly {k | ∃ c s, s ≤ t ∧ k = ackKey c s} (build ops)
        (purgeOldAcks none (build ops) t) := by
  have ht0 : t ≠ 0 := by
    rintro rfl
    exact absurd ht (by decide)
  exact ⟨compact_removes _ (schema_build ops) t ht0, purgeOldAcks_removes _ (schema_build ops) t ht0⟩

/-- A client whose id ends in a colon and a digit: message 1 and acknowledgement 1 go, the
acknowledgement of 2 stays. -/
theorem compaction_exact_colon :
    let store := build [.save none 0 (lit "t") (lit "p"), .saveAck none (lit "a:7") 1,
      .saveAck none (lit "a:1") 2]
    (compact none store 1)[msgKey 1]? = none ∧
      (purgeOldAcks none store 1)[ackKey (lit "a:7") 1]? = none ∧
      (purgeOldAcks none store 1)[ackKey (lit "a:1") 2]? = store[ackKey (lit "a:1") 2]? := by
  intro store
  obtain ⟨hm, ha⟩ := compaction_exact [.save none 0 (lit "t") (lit "p"), .saveAck none (lit "a:7") 1,
    .saveAck none (lit "a:1") 2] 1 (by decide)
  refine ⟨(hm _).1 ⟨1, by decide, rfl⟩, (ha _).1 ⟨_, 1, by decide, rfl⟩, (ha _).2 ?_⟩
  rintro ⟨c, s, hs, hk⟩
  obtain ⟨-, rfl⟩ := ackKey_injective _ _ _ _ hk
  exact absurd hs (by decide)

end Compaction

end MetricMQ.LmdbStorage
