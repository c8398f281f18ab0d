import MetricMQ.StoreRange
import MetricMQ.StoreAcks

/-! What the broker uses of its persistence layer, with two instances: the LMDB storage as it
is written, and a storage that does what `LmdbStorage.hpp` documents. -/
namespace MetricMQ

open ByteString SortedCursor Std

/-- The calls of `Broker` on `persistence_`; `ε` says how a write transaction may fail. -/
class Storage (σ : Type) (ε : outParam Type) where
  save : ε → σ → UInt64 → Bytes → Bytes → σ
  loadRange : σ → UInt64 → UInt64 → List StoredMessage
  getLastSeq : σ → UInt64
  saveAck : ε → σ → Bytes → UInt64 → σ
  loadAcks : σ → Bytes → List UInt64
  compact : ε → σ → UInt64 → σ
  purgeOldAcks : ε → σ → UInt64 → σ

/-- A database file as the storage itself writes it: on such a store no scan throws. -/
structure LmdbFile where
  store : Store
  schema : LmdbStorage.Schema store

namespace LmdbFile

def empty : LmdbFile := ⟨∅, LmdbStorage.schema_empty⟩

def apply (file : LmdbFile) (op : LmdbStorage.Op) : LmdbFile :=
  ⟨LmdbStorage.apply file.store op, LmdbStorage.schema_apply file.store op file.schema⟩

theorem loadRange_isSome (file : LmdbFile) (fromSeq toSeq : UInt64) :
    (LmdbStorage.loadRange file.store fromSeq toSeq).isSome := by
  rw [LmdbStorage.loadRange_eq file.store fromSeq toSeq file.schema]
  rfl

end LmdbFile

instance : Storage LmdbFile (Option MdbError) where
  save err file seq topic payload := file.apply (.save err seq topic payload)
  loadRange file fromSeq toSeq :=
    (LmdbStorage.loadRange file.store fromSeq toSeq).get (file.loadRange_isSome fromSeq toSeq)
  getLastSeq file := LmdbStorage.getLastSeq file.store
  saveAck err file clientId seq := file.apply (.saveAck err clientId seq)
  loadAcks file clientId := LmdbStorage.loadAcks file.store clientId
  compact err file maxSeq := file.apply (.compact err maxSeq)
  purgeOldAcks err file maxSeq := file.apply (.purgeOldAcks err maxSeq)

/-- The documented contract: records under the sequence they were saved with, ranges in
ascending order with topic and payload intact, acknowledgements per client. -/
structure ContractStore where
  messages : TreeMap UInt64 (Bytes × Bytes)
  acks : List (Bytes × UInt64)
  lastSeq : UInt64

namespace ContractStore

def empty : ContractStore := ⟨∅, [], 0⟩

def loadRange (s : ContractStore) (fromSeq toSeq : UInt64) : List StoredMessage :=
  (s.messages.toList.filter fun e => decide (fromSeq ≤ e.1) && decide (e.1 ≤ toSeq)).map
    fun e => ⟨e.1, e.2.1, e.2.2⟩

def loadAcks (s : ContractStore) (clientId : Bytes) : List UInt64 :=
  (s.acks.filter fun a => decide (a.1 = clientId)).map Prod.snd

def compact (s : ContractStore) (maxSeq : UInt64) : ContractStore :=
  { s with messages := eraseAll s.messages (s.messages.keys.filter fun k => decide (k ≤ maxSeq)) }

def purgeOldAcks (s : ContractStore) (maxSeq : UInt64) : ContractStore :=
  { s with acks := s.acks.filter fun a => !decide (a.2 ≤ maxSeq) }

end ContractStore

instance : Storage ContractStore Unit where
  save _ s seq topic payload :=
    { s with messages := s.messages.insert seq (topic, payload), lastSeq := seq }
  loadRange := ContractStore.loadRange
  getLastSeq s := s.lastSeq
  saveAck _ s clientId seq := { s with acks := (clientId, seq) :: s.acks }
  loadAcks := ContractStore.loadAcks
  compact _ s maxSeq := s.compact maxSeq
  purgeOldAcks _ s maxSeq := s.purgeOldAcks maxSeq

namespace ContractStore

/-- The record of a message, if it is stored. -/
def Holds (s : ContractStore) (m : StoredMessage) : Prop :=
  s.messages[m.seq]? = some (m.topic, m.payload)

theorem mem_loadRange (s : ContractStore) (fromSeq toSeq : UInt64) (m : StoredMessage) :
    m ∈ s.loadRange fromSeq toSeq ↔ s.Holds m ∧ fromSeq ≤ m.seq ∧ m.seq ≤ toSeq := by
  rw [loadRange, List.mem_map, Holds]
  constructor
  · rintro ⟨⟨k, t, p⟩, hm, rfl⟩
    obtain ⟨he, hk⟩ := List.mem_filter.mp hm
    rw [Bool.and_eq_true, decide_eq_true_eq, decide_eq_true_eq] at hk
    exact ⟨TreeMap.mem_toList_iff_getElem?_eq_some.mp he, hk⟩
  · rintro ⟨he, hk⟩
    refine ⟨(m.seq, m.topic, m.payload), List.mem_filter.mpr ⟨?_, ?_⟩, rfl⟩
    · exact TreeMap.mem_toList_iff_getElem?_eq_some.mpr he
    · simpa using hk

/-- Ranges are ascending, so no record comes twice. -/
theorem loadRange_nodup (s : ContractStore) (fromSeq toSeq : UInt64) :
    ((s.loadRange fromSeq toSeq).map StoredMessage.seq).Nodup := by
  rw [loadRange, List.map_map]
  have hk : s.messages.toList.Pairwise fun a b => a.1 ≠ b.1 := by
    apply (TreeMap.ordered_keys_toList (t := s.messages)).imp
    intro a b hab he
    rw [he, Std.ReflOrd.compare_self] at hab
    cases hab
  exact List.pairwise_map.mpr (hk.filter _)

theorem mem_loadAcks (s : ContractStore) (c : Bytes) (n : UInt64) :
    n ∈ s.loadAcks c ↔ (c, n) ∈ s.acks := by
  rw [loadAcks, List.mem_map]
  constructor
  · rintro ⟨⟨d, m⟩, hm, rfl⟩
    obtain ⟨ha, hd⟩ := List.mem_filter.mp hm
    rw [decide_eq_true_eq] at hd
    exact hd ▸ ha
  · exact fun h => ⟨(c, n), List.mem_filter.mpr ⟨h, by simp⟩, rfl⟩

end ContractStore

end MetricMQ
