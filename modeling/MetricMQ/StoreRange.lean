import MetricMQ.StoreSchema

/-! What `load_range` returns: the records its cursor meets in key order, cut at the first NUL.
The key order is the order of decimal texts, not of numbers, and the values carry no
separator. -/
namespace MetricMQ.LmdbStorage

open ByteString SortedCursor Std

/-- The order in which the cursor meets two message ids. -/
def KeyLT (a b : UInt64) : Prop := compare (msgKey a) (msgKey b) = .lt

instance (a b : UInt64) : Decidable (KeyLT a b) := inferInstanceAs (Decidable (_ = _))

theorem KeyLT.asymm {a b : UInt64} (h : KeyLT a b) : ¬ KeyLT b a := by
  intro h'
  rw [KeyLT, OrientedOrd.eq_swap, h] at h'
  cases h'

/-- The split at the first NUL of a stored value. -/
def decodeRecord (r : UInt64 × Bytes) : Option StoredMessage :=
  (find r.2 0).map fun sep => ⟨r.1, r.2.take sep, r.2.drop (sep + 1)⟩

/-- The messages from a key on, with their ids read off. -/
def cursorRecords (store : Store) (fromSeq : UInt64) : List (UInt64 × Bytes) :=
  (setRange store (msgKey fromSeq)).filterMap fun e => (msgSeqOf e.1).map (·, e.2)

/-- A key that is not below a message key is none of the other two kinds. -/
theorem not_lt_msgKey_head (k : Bytes) (s : UInt64) (c : UInt8) (hk : k.head? = some c)
    (hc : c < 109) : compare k (msgKey s) = .lt := by
  cases k with
  | nil => cases hk
  | cons d k =>
    obtain rfl : d = c := Option.some_inj.mp hk
    have hm : msgKey s = 109 :: (msgKey s).tail := rfl
    have hd : compare d 109 = .lt := by
      rw [Std.compare_eq_lt]
      exact hc
    rw [hm, List.compare_cons_cons, hd]
    rfl

theorem setRange_msgKey (store : Store) (fromSeq : UInt64) (hs : Schema store) :
    setRange store (msgKey fromSeq) =
      (cursorRecords store fromSeq).map fun r => (msgKey r.1, r.2) := by
  have hkeys : ∀ e ∈ setRange store (msgKey fromSeq), ∃ s, e.1 = msgKey s := by
    rintro ⟨k, v⟩ he
    obtain ⟨hv, hk⟩ := (mem_setRange store _ k v).mp he
    rcases hs k v hv with rfl | h | ⟨c, s, rfl⟩
    · exact absurd (not_lt_msgKey_head lastSeqKey fromSeq 108 head_lastSeqKey (by decide)) hk
    · exact h
    · exact absurd (not_lt_msgKey_head (ackKey c s) fromSeq 97 (head_ackKey c s) (by decide)) hk
  rw [cursorRecords]
  generalize setRange store (msgKey fromSeq) = l at hkeys
  induction l with
  | nil => rfl
  | cons e l ih =>
    obtain ⟨k, v⟩ := e
    obtain ⟨s, hk⟩ := hkeys (k, v) List.mem_cons_self
    obtain rfl : k = msgKey s := hk
    rw [List.filterMap_cons, msgSeqOf_msgKey, Option.map_some, List.map_cons,
      ← ih fun e he => hkeys e (List.mem_cons_of_mem _ he)]

theorem mem_cursorRecords (store : Store) (fromSeq s : UInt64) (v : Bytes) (hs : Schema store) :
    (s, v) ∈ cursorRecords store fromSeq ↔ store[msgKey s]? = some v ∧ ¬ KeyLT s fromSeq := by
  rw [KeyLT, ← mem_setRange, setRange_msgKey store fromSeq hs, List.mem_map]
  constructor
  · exact fun h => ⟨(s, v), h, rfl⟩
  · rintro ⟨⟨s', v'⟩, h, he⟩
    obtain ⟨hk, rfl⟩ := Prod.mk.inj he
    rwa [← msgKey_injective hk]

theorem cursorRecords_pairwise (store : Store) (fromSeq : UInt64) (hs : Schema store) :
    (cursorRecords store fromSeq).Pairwise fun a b => KeyLT a.1 b.1 := by
  have h := setRange_pairwise store (msgKey fromSeq)
  rw [setRange_msgKey store fromSeq hs, List.pairwise_map] at h
  exact h

/-- The cursor loop on message keys: it stops at the first id above the bound. -/
theorem scanRange_records (toSeq : UInt64) (l : List (UInt64 × Bytes)) :
    scanRange toSeq (l.map fun r => (msgKey r.1, r.2)) =
      some ((l.takeWhile fun r => r.1 ≤ toSeq).filterMap decodeRecord) := by
  induction l with
  | nil => rfl
  | cons r l ih =>
    obtain ⟨s, v⟩ := r
    have htag : (msgKey s).take 4 = msgTag := rfl
    have hseq : stoull ((msgKey s).drop 4) = some s := msgSeqOf_msgKey s
    rw [List.map_cons, scanRange, if_neg (not_not_intro htag), hseq]
    dsimp only
    by_cases hle : s ≤ toSeq
    · rw [if_neg (by simpa using hle), List.takeWhile_cons_of_pos (by simpa using hle),
        List.filterMap_cons, decodeRecord, ih]
      cases find v 0 <;> rfl
    · rw [if_pos (by simpa using hle), List.takeWhile_cons_of_neg (by simpa using hle)]
      rfl

/-- `load_range` never throws on a store its own calls have built. -/
theorem loadRange_eq (store : Store) (fromSeq toSeq : UInt64) (hs : Schema store) :
    loadRange store fromSeq toSeq =
      some (((cursorRecords store fromSeq).takeWhile fun r => r.1 ≤ toSeq).filterMap
        decodeRecord) := by
  rw [loadRange, setRange_msgKey store fromSeq hs, scanRange_records]

/-- The keys the loop of `load_range` reads a record from. -/
def visitRange (toSeq : UInt64) : List (Bytes × Bytes) → List Bytes
  | [] => []
  | (key, _) :: rest =>
    if key.take 4 ≠ msgTag then visitRange toSeq rest
    else
      match stoull (key.drop 4) with
      | none => []
      | some seqId => if seqId > toSeq then [] else key :: visitRange toSeq rest

def CursorReaches (store : Store) (fromSeq toSeq s : UInt64) : Prop :=
  msgKey s ∈ visitRange toSeq (setRange store (msgKey fromSeq))

instance (store : Store) (fromSeq toSeq s : UInt64) : Decidable (CursorReaches store fromSeq toSeq s) :=
  inferInstanceAs (Decidable (_ ∈ _))

theorem visitRange_records (toSeq : UInt64) (l : List (UInt64 × Bytes)) :
    visitRange toSeq (l.map fun r => (msgKey r.1, r.2)) =
      (l.takeWhile fun r => r.1 ≤ toSeq).map fun r => msgKey r.1 := by
  induction l with
  | nil => rfl
  | cons r l ih =>
    obtain ⟨s, v⟩ := r
    have htag : (msgKey s).take 4 = msgTag := rfl
    have hseq : stoull ((msgKey s).drop 4) = some s := msgSeqOf_msgKey s
    rw [List.map_cons, visitRange, if_neg (not_not_intro htag), hseq]
    dsimp only
    by_cases hle : s ≤ toSeq
    · rw [if_neg (by simpa using hle), List.takeWhile_cons_of_pos (by simpa using hle), ih,
        List.map_cons]
    · rw [if_pos (by simpa using hle), List.takeWhile_cons_of_neg (by simpa using hle)]
      rfl

/-- The cursor reaches a stored id unless it starts behind it or meets a larger id than the
bound first. -/
theorem cursorReaches_iff (store : Store) (fromSeq toSeq s : UInt64) (hs : Schema store) :
    CursorReaches store fromSeq toSeq s ↔
      (∃ v, store[msgKey s]? = some v) ∧ ¬ KeyLT s fromSeq ∧ s ≤ toSeq ∧
        ∀ s' v', store[msgKey s']? = some v' → ¬ KeyLT s' fromSeq → KeyLT s' s → s' ≤ toSeq := by
  have hmem : ∀ v, (s, v) ∈ (cursorRecords store fromSeq).takeWhile (fun r => r.1 ≤ toSeq) ↔
      (store[msgKey s]? = some v ∧ ¬ KeyLT s fromSeq) ∧ s ≤ toSeq ∧
        ∀ s' v', store[msgKey s']? = some v' → ¬ KeyLT s' fromSeq → KeyLT s' s → s' ≤ toSeq := by
    intro v
    rw [mem_takeWhile_iff _ _ (cursorRecords_pairwise store fromSeq hs) fun a b h => h.asymm,
      mem_cursorRecords store fromSeq s v hs]
    simp only [decide_eq_true_eq, Prod.forall, mem_cursorRecords store fromSeq _ _ hs, and_imp]
  rw [CursorReaches, setRange_msgKey store fromSeq hs, visitRange_records, List.mem_map]
  constructor
  · rintro ⟨⟨s', v⟩, hm, hk⟩
    obtain rfl : s' = s := msgKey_injective hk
    obtain ⟨⟨hv, hlt⟩, hle⟩ := (hmem v).mp hm
    exact ⟨⟨v, hv⟩, hlt, hle⟩
  · rintro ⟨⟨v, hv⟩, hlt, hle⟩
    exact ⟨(s, v), (hmem v).mpr ⟨⟨hv, hlt⟩, hle⟩, rfl⟩

/-- Every record `load_range` returns was reached and is a stored value cut at its first NUL. -/
theorem mem_loadRange (store : Store) (fromSeq toSeq : UInt64) (msgs : List StoredMessage)
    (m : StoredMessage) (hs : Schema store) (h : loadRange store fromSeq toSeq = some msgs) :
    m ∈ msgs ↔ CursorReaches store fromSeq toSeq m.seq ∧
      0 ∉ m.topic ∧ store[msgKey m.seq]? = some (m.topic ++ 0 :: m.payload) := by
  rw [loadRange_eq store fromSeq toSeq hs, Option.some_inj] at h
  rw [← h, List.mem_filterMap]
  constructor
  · rintro ⟨⟨s, v⟩, hm, hd⟩
    obtain ⟨sep, hf, rfl⟩ := Option.map_eq_some_iff.mp hd
    have hr : CursorReaches store fromSeq toSeq s := by
      rw [CursorReaches, setRange_msgKey store fromSeq hs, visitRange_records, List.mem_map]
      exact ⟨(s, v), hm, rfl⟩
    obtain ⟨hsplit, hn⟩ := find_eq_some_split v 0 sep hf
    refine ⟨hr, hn, ?_⟩
    have hv := ((mem_cursorRecords store fromSeq s v hs).mp ((List.takeWhile_prefix _).subset hm)).1
    rw [hv]
    exact congrArg some hsplit
  · rintro ⟨hr, hn, hv⟩
    rw [CursorReaches, setRange_msgKey store fromSeq hs, visitRange_records, List.mem_map] at hr
    obtain ⟨⟨s, v⟩, hm, hk⟩ := hr
    obtain rfl : s = m.seq := msgKey_injective hk
    have hv' := ((mem_cursorRecords store fromSeq _ v hs).mp ((List.takeWhile_prefix _).subset hm)).1
    rw [hv, Option.some_inj] at hv'
    subst hv'
    refine ⟨_, hm, ?_⟩
    have hf := find_append_cons m.topic m.payload 0 hn
    rw [decodeRecord, hf]
    simp only [Option.map_some, List.take_left, List.drop_left, ← List.drop_drop,
      List.drop_succ_cons, List.drop_zero]

section Content

/-- Every `load_range` that reaches the record of a committed `save` returns it as it was
saved. -/
def ContentRoundTrip (ops : List Op) (seq : UInt64) (topic payload : Bytes) : Prop :=
  ∀ fromSeq toSeq,
    CursorReaches (save none (build ops) seq topic payload) fromSeq toSeq (nextSeq (build ops)) →
    ∃ msgs, loadRange (save none (build ops) seq topic payload) fromSeq toSeq = some msgs ∧
      ⟨nextSeq (build ops), topic, payload⟩ ∈ msgs

theorem getElem?_saved (store : Store) (seq : UInt64) (topic payload : Bytes) :
    (save none store seq topic payload)[msgKey (nextSeq store)]? = some (topic ++ payload) := by
  rw [getElem?_save, if_neg (msgKey_ne_lastSeqKey _).symm, if_pos rfl, msgData_eq]

theorem cursorReaches_self (store : Store) (s : UInt64) (v : Bytes) (hs : Schema store)
    (hv : store[msgKey s]? = some v) : CursorReaches store s s s := by
  rw [cursorReaches_iff store s s s hs]
  refine ⟨⟨v, hv⟩, fun h => h.asymm h, Std.le_refl s, ?_⟩
  intro s' _ _ h1 h2
  exact absurd h2 h1

/-- What is found in place of a saved record: the payload has lost its part up to the first
NUL to the topic. -/
theorem loadRange_saved (store : Store) (hs : Schema store) (seq : UInt64) (topic payload : Bytes)
    (fromSeq toSeq : UInt64) (msgs : List StoredMessage) (m : StoredMessage)
    (h : loadRange (save none store seq topic payload) fromSeq toSeq = some msgs)
    (hm : m ∈ msgs) (hseq : m.seq = nextSeq store) :
    m.topic ++ 0 :: m.payload = topic ++ payload := by
  have hs' : Schema (save none store seq topic payload) :=
    schema_apply store (.save none seq topic payload) hs
  obtain ⟨-, -, hv⟩ := (mem_loadRange _ fromSeq toSeq msgs m hs' h).mp hm
  rw [hseq, getElem?_saved, Option.some_inj] at hv
  exact hv.symm

/-- No record comes back as it was saved: the value has no separator. -/
theorem content_round_trip_never (ops : List Op) (seq : UInt64) (topic payload : Bytes) :
    ¬ ContentRoundTrip ops seq topic payload := by
  intro h
  have hs := schema_build ops
  have hs' : Schema (save none (build ops) seq topic payload) :=
    schema_apply (build ops) (.save none seq topic payload) hs
  -- the narrowest range that reaches the record
  obtain ⟨msgs, hl, hm⟩ := h (nextSeq (build ops)) (nextSeq (build ops))
    (cursorReaches_self _ _ _ hs' (getElem?_saved (build ops) seq topic payload))
  have hlen := congrArg List.length
    (loadRange_saved (build ops) hs seq topic payload _ _ msgs _ hl hm rfl)
  simp only [List.length_append, List.length_cons] at hlen
  omega

/-- A text payload is not returned at all. -/
theorem content_round_trip_fails_on_text :
    (0 : UInt8) ∉ lit "news" ∧ ¬ ContentRoundTrip [] 1 (lit "news") (lit "hello") := by
  refine ⟨by decide, ?_⟩
  intro h
  obtain ⟨msgs, hl, hm⟩ := h 0 10 (by decide)
  have hnone : loadRange (save none (build []) 1 (lit "news") (lit "hello")) 0 10 = some [] := by
    decide
  rw [hnone, Option.some_inj] at hl
  rw [← hl] at hm
  cases hm

end Content

section Contract

/-- A stored id whose value the decoder does not skip. -/
def HasRecord (store : Store) (s : UInt64) : Prop := ∃ v, store[msgKey s]? = some v ∧ 0 ∈ v

def IsStored (store : Store) (s : UInt64) : Prop := ∃ v, store[msgKey s]? = some v

/-- The documented contract: the ids in the range, each once and ascending. -/
def LoadRangeContract (store : Store) (fromSeq toSeq : UInt64) : Prop :=
  ∃ msgs, loadRange store fromSeq toSeq = some msgs ∧
    (msgs.map StoredMessage.seq).Pairwise (· < ·) ∧
    ∀ s, s ∈ msgs.map StoredMessage.seq ↔ HasRecord store s ∧ fromSeq ≤ s ∧ s ≤ toSeq

/-- The key order agrees with the numeric order as far as the range needs it. -/
structure KeyOrderFits (store : Store) (fromSeq toSeq : UInt64) : Prop where
  /-- no id of the range sorts before the start or behind an id above the range -/
  reached : ∀ s, HasRecord store s → fromSeq ≤ s → s ≤ toSeq → ¬ KeyLT s fromSeq ∧
    ∀ s', IsStored store s' → ¬ KeyLT s' fromSeq → KeyLT s' s → s' ≤ toSeq
  /-- a smaller id sorts before the start, or behind an id that ends the loop -/
  noStray : ∀ s, HasRecord store s → s < fromSeq → s ≤ toSeq → KeyLT s fromSeq ∨
    ∃ s', IsStored store s' ∧ ¬ KeyLT s' fromSeq ∧ KeyLT s' s ∧ toSeq < s'
  /-- the ids of the range sort as they count -/
  ordered : ∀ s s', HasRecord store s → HasRecord store s' → fromSeq ≤ s → s < s' → s' ≤ toSeq →
    KeyLT s s'

theorem hasRecord_iff_split (store : Store) (s : UInt64) :
    HasRecord store s ↔ ∃ topic payload, 0 ∉ topic ∧
      store[msgKey s]? = some (topic ++ 0 :: payload) := by
  constructor
  · rintro ⟨v, hv, h0⟩
    cases hf : find v 0 with
    | none => exact absurd h0 ((find_eq_none_iff v 0).mp hf)
    | some sep =>
      obtain ⟨hsplit, hn⟩ := find_eq_some_split v 0 sep hf
      exact ⟨v.take sep, v.drop (sep + 1), hn, by rw [hv, ← hsplit]⟩
  · rintro ⟨topic, payload, -, hv⟩
    exact ⟨_, hv, by simp⟩

theorem mem_loadRange_seq (store : Store) (fromSeq toSeq : UInt64) (msgs : List StoredMessage)
    (hs : Schema store) (h : loadRange store fromSeq toSeq = some msgs) (s : UInt64) :
    s ∈ msgs.map StoredMessage.seq ↔
      CursorReaches store fromSeq toSeq s ∧ HasRecord store s := by
  rw [List.mem_map, hasRecord_iff_split]
  constructor
  · rintro ⟨m, hm, rfl⟩
    obtain ⟨hr, hn, hv⟩ := (mem_loadRange store fromSeq toSeq msgs m hs h).mp hm
    exact ⟨hr, m.topic, m.payload, hn, hv⟩
  · rintro ⟨hr, topic, payload, hn, hv⟩
    exact ⟨⟨s, topic, payload⟩,
      (mem_loadRange store fromSeq toSeq msgs _ hs h).mpr ⟨hr, hn, hv⟩, rfl⟩

theorem loadRange_keyOrder (store : Store) (fromSeq toSeq : UInt64) (msgs : List StoredMessage)
    (hs : Schema store) (h : loadRange store fromSeq toSeq = some msgs) :
    (msgs.map StoredMessage.seq).Pairwise KeyLT := by
  rw [loadRange_eq store fromSeq toSeq hs, Option.some_inj] at h
  rw [← h, List.pairwise_map]
  have hp := (cursorRecords_pairwise store fromSeq hs).sublist
    (List.takeWhile_sublist fun r => decide (r.1 ≤ toSeq))
  refine hp.filterMap decodeRecord ?_
  rintro a b hab m hm m' hm'
  obtain ⟨-, -, rfl⟩ := Option.map_eq_some_iff.mp hm
  obtain ⟨-, -, rfl⟩ := Option.map_eq_some_iff.mp hm'
  exact hab

theorem KeyOrderFits.of_contract (store : Store) (fromSeq toSeq : UInt64) (hs : Schema store)
    (h : LoadRangeContract store fromSeq toSeq) : KeyOrderFits store fromSeq toSeq := by
  obtain ⟨msgs, hl, hasc, hmem⟩ := h
  have hreach : ∀ s, HasRecord store s → fromSeq ≤ s → s ≤ toSeq →
      CursorReaches store fromSeq toSeq s := by
    intro s hr h1 h2
    exact ((mem_loadRange_seq store fromSeq toSeq msgs hs hl s).mp ((hmem s).mpr ⟨hr, h1, h2⟩)).1
  refine ⟨?_, ?_, ?_⟩
  · intro s hr h1 h2
    obtain ⟨-, hk, -, hb⟩ := (cursorReaches_iff store fromSeq toSeq s hs).mp (hreach s hr h1 h2)
    exact ⟨hk, fun s' ⟨v', hv'⟩ => hb s' v' hv'⟩
  · intro s hr hlt hle
    by_contra hno
    rw [not_or] at hno
    -- nothing keeps the cursor from the smaller id, so it would be returned
    have hc : CursorReaches store fromSeq toSeq s := by
      obtain ⟨v, hv, -⟩ := hr
      refine (cursorReaches_iff store fromSeq toSeq s hs).mpr ⟨⟨v, hv⟩, hno.1, hle, ?_⟩
      intro s' v' hv' h1 h2
      by_contra h3
      exact hno.2 ⟨s', ⟨v', hv'⟩, h1, h2, Std.not_le.mp h3⟩
    have hin := (hmem s).mp ((mem_loadRange_seq store fromSeq toSeq msgs hs hl s).mpr ⟨hc, hr⟩)
    exact absurd hin.2.1 (Std.not_le.mpr hlt)
  · intro s s' hr hr' h1 h2 h3
    have hle : s ≤ toSeq := Std.le_trans (Std.le_of_lt h2) h3
    have hle' : fromSeq ≤ s' := Std.le_trans h1 (Std.le_of_lt h2)
    have hboth := hasc.and (loadRange_keyOrder store fromSeq toSeq msgs hs hl)
    have hsym : Std.Symm fun a b : UInt64 => (a < b → KeyLT a b) ∧ (b < a → KeyLT b a) :=
      ⟨fun a b hab => ⟨hab.2, hab.1⟩⟩
    have hpair := hboth.imp (S := fun a b => (a < b → KeyLT a b) ∧ (b < a → KeyLT b a))
      fun hab => ⟨fun _ => hab.2, fun hba => absurd hba (Std.not_lt.mpr (Std.le_of_lt hab.1))⟩
    have hall := hpair.forall_of_forall
      fun x _ => ⟨fun h => absurd h Std.lt_irrefl, fun h => absurd h Std.lt_irrefl⟩
    exact (hall ((hmem s).mpr ⟨hr, h1, hle⟩) ((hmem s').mpr ⟨hr', hle', h3⟩)).1 h2

theorem KeyOrderFits.contract (store : Store) (fromSeq toSeq : UInt64) (hs : Schema store)
    (h : KeyOrderFits store fromSeq toSeq) : LoadRangeContract store fromSeq toSeq := by
  obtain ⟨msgs, hl⟩ : ∃ msgs, loadRange store fromSeq toSeq = some msgs :=
    ⟨_, loadRange_eq store fromSeq toSeq hs⟩
  -- the loop meets every record of the range and none from below it
  have hmem : ∀ s, s ∈ msgs.map StoredMessage.seq ↔ HasRecord store s ∧ fromSeq ≤ s ∧ s ≤ toSeq := by
    intro s
    rw [mem_loadRange_seq store fromSeq toSeq msgs hs hl s, cursorReaches_iff store fromSeq toSeq s hs]
    constructor
    · rintro ⟨⟨-, hk, hle, hb⟩, hr⟩
      refine ⟨hr, ?_, hle⟩
      by_contra hlt
      rcases h.noStray s hr (Std.not_le.mp hlt) hle with hk' | ⟨s', ⟨v', hv'⟩, h1, h2, h3⟩
      · exact hk hk'
      · exact absurd (hb s' v' hv' h1 h2) (Std.not_le.mpr h3)
    · rintro ⟨hr, h1, h2⟩
      obtain ⟨hk, hb⟩ := h.reached s hr h1 h2
      have hst : ∃ v, store[msgKey s]? = some v := ⟨hr.choose, hr.choose_spec.1⟩
      exact ⟨⟨hst, hk, h2, fun s' v' hv' => hb s' ⟨v', hv'⟩⟩, hr⟩
  refine ⟨msgs, hl, ?_, hmem⟩
  apply (loadRange_keyOrder store fromSeq toSeq msgs hs hl).imp_of_mem
  intro a b ha hb hab
  obtain ⟨hra, -, ha2⟩ := (hmem a).mp ha
  obtain ⟨hrb, hb1, -⟩ := (hmem b).mp hb
  by_contra hlt
  by_cases hba : b < a
  · exact hab.asymm (h.ordered b a hrb hra hb1 hba ha2)
  · obtain rfl : a = b := Std.le_antisymm (Std.not_lt.mp hba) (Std.not_lt.mp hlt)
    exact hab.asymm hab

/-- `load_range` keeps its contract exactly when the key order fits the range. -/
theorem load_range_contract_iff (ops : List Op) (fromSeq toSeq : UInt64) :
    LoadRangeContract (build ops) fromSeq toSeq ↔ KeyOrderFits (build ops) fromSeq toSeq :=
  ⟨KeyOrderFits.of_contract _ _ _ (schema_build ops), KeyOrderFits.contract _ _ _ (schema_build ops)⟩

/-- Ten messages: from the second on, the tenth is not returned, since its key sorts first. -/
theorem load_range_contract_fails_at_ten :
    ¬ LoadRangeContract (build (List.replicate 10 (.save none 0 (lit "t") [0]))) 2 10 := by
  rintro ⟨msgs, hl, -, hmem⟩
  have hten : (10 : UInt64) ∈ msgs.map StoredMessage.seq :=
    (hmem 10).mpr ⟨⟨[116, 0], by decide, by decide⟩, by decide, by decide⟩
  have hids : (loadRange (build (List.replicate 10 (.save none 0 (lit "t") [0]))) 2 10).map
      (·.map StoredMessage.seq) = some [2, 3, 4, 5, 6, 7, 8, 9] := by decide
  rw [hl, Option.map_some, Option.some_inj] at hids
  rw [hids] at hten
  exact absurd hten (by decide)

end Contract

end MetricMQ.LmdbStorage
