import MetricMQ.Machine
import MetricMQ.KeyStore

/-! The ids a `TrustedKeyStore` assigns. Here a key carries its time stamps too, so that an
entry that stays unchanged keeps all of its fields; `KeyStore` is this store without them. -/
namespace MetricMQ

open ByteString Machine Std

/-- `TrustedKey` with the times of its registration and of its last use. -/
structure StampedKey extends TrustedKey where
  registeredAt : UInt64
  lastUsed : UInt64

structure StampedKeyStore where
  keys : TreeMap UInt32 StampedKey := ∅
  nextKeyId : UInt32 := 1

namespace StampedKeyStore

/-- The entry both overloads of `register_key` put in. -/
def newKey (now : UInt64) (keyId : UInt32) (publicKey : PublicKey) (deviceName allowedTopics : Bytes) :
    StampedKey where
  publicKey := publicKey
  keyId := keyId
  deviceName := deviceName
  allowedTopics := allowedTopics
  enabled := true
  registeredAt := now
  lastUsed := 0

def registerKey (st : StampedKeyStore) (now : UInt64) (publicKey : PublicKey)
    (deviceName allowedTopics : Bytes) : StampedKeyStore × UInt32 :=
  let keyId := st.nextKeyId
  ({ keys := st.keys.insert keyId (newKey now keyId publicKey deviceName allowedTopics)
     nextKeyId := st.nextKeyId + 1 }, keyId)

def registerKeyAs (st : StampedKeyStore) (now : UInt64) (keyId : UInt32) (publicKey : PublicKey)
    (deviceName allowedTopics : Bytes) : StampedKeyStore × Bool :=
  if st.keys.contains keyId then (st, false)
  else
    ({ keys := st.keys.insert keyId (newKey now keyId publicKey deviceName allowedTopics)
       -- `key_id + 1` in 32 bits
       nextKeyId := if keyId ≥ st.nextKeyId then keyId + 1 else st.nextKeyId }, true)

def setEnabled (st : StampedKeyStore) (keyId : UInt32) (enabled : Bool) : StampedKeyStore × Bool :=
  match st.keys[keyId]? with
  | none => (st, false)
  | some key => ({ st with keys := st.keys.insert keyId { key with enabled := enabled } }, true)

def removeKey (st : StampedKeyStore) (keyId : UInt32) : StampedKeyStore × Bool :=
  ({ st with keys := st.keys.erase keyId }, st.keys.contains keyId)

def clear (_st : StampedKeyStore) : StampedKeyStore := {}

def touch (st : StampedKeyStore) (now : UInt64) (keyId : UInt32) : StampedKeyStore :=
  match st.keys[keyId]? with
  | none => st
  | some key => { st with keys := st.keys.insert keyId { key with lastUsed := now } }

/-- A call on the store with the time at which it runs, where it reads the clock. -/
inductive Call
  | registerKey (now : UInt64) (publicKey : PublicKey) (deviceName allowedTopics : Bytes)
  | registerKeyAs (now : UInt64) (keyId : UInt32) (publicKey : PublicKey)
      (deviceName allowedTopics : Bytes)
  | setEnabled (keyId : UInt32) (enabled : Bool)
  | removeKey (keyId : UInt32)
  | clear
  | touch (now : UInt64) (keyId : UInt32)

/-- The store after a call, and the id it assigned, if any. -/
def step (st : StampedKeyStore) : Call → StampedKeyStore × List UInt32
  | .registerKey now publicKey deviceName allowedTopics =>
    let r := st.registerKey now publicKey deviceName allowedTopics
    (r.1, [r.2])
  | .registerKeyAs now keyId publicKey deviceName allowedTopics =>
    ((st.registerKeyAs now keyId publicKey deviceName allowedTopics).1, [])
  | .setEnabled keyId enabled => ((st.setEnabled keyId enabled).1, [])
  | .removeKey keyId => ((st.removeKey keyId).1, [])
  | .clear => (st.clear, [])
  | .touch now keyId => (st.touch now keyId, [])

section Lookup

variable (st : StampedKeyStore) (now : UInt64) (id k : UInt32)

theorem getElem?_insert (key : StampedKey) :
    (st.keys.insert k key)[id]? = if k = id then some key else st.keys[id]? := by
  rw [TreeMap.getElem?_insert]
  simp only [Std.LawfulEqCmp.compare_eq_iff_eq]

theorem getElem?_erase : (st.keys.erase k)[id]? = if k = id then none else st.keys[id]? := by
  rw [TreeMap.getElem?_erase]
  simp only [Std.LawfulEqCmp.compare_eq_iff_eq]

theorem contains_iff : st.keys.contains k = true ↔ ∃ key, st.keys[k]? = some key := by
  rw [TreeMap.contains_eq_isSome_getElem?, Option.isSome_iff_exists]

end Lookup

section Simulation

/-- The store with time stamps and the one without hold the same keys. -/
def Forgets (st : StampedKeyStore) (ks : TrustedKeyStore) : Prop :=
  (∀ id : UInt32, ks.keys[id]? = st.keys[id]?.map StampedKey.toTrustedKey) ∧
    ks.nextKeyId = st.nextKeyId

/-- The call on the store without time stamps; `touch` writes nothing there. -/
def Call.toOp : Call → Option TrustedKeyStore.Op
  | .registerKey _ publicKey deviceName allowedTopics =>
    some (.registerKey publicKey deviceName allowedTopics)
  | .registerKeyAs _ keyId publicKey deviceName allowedTopics =>
    some (.registerKeyAs keyId publicKey deviceName allowedTopics)
  | .setEnabled keyId enabled => some (.setEnabled keyId enabled)
  | .removeKey keyId => some (.removeKey keyId)
  | .clear => some .clear
  | .touch _ _ => none

theorem forgets_empty : Forgets {} {} := by
  refine ⟨fun id => ?_, rfl⟩
  rw [TreeMap.getElem?_emptyc, TreeMap.getElem?_emptyc]
  rfl

theorem forgets_insert (st : StampedKeyStore) (ks : TrustedKeyStore) (h : Forgets st ks) (k n : UInt32)
    (key : StampedKey) :
    Forgets ⟨st.keys.insert k key, n⟩ ⟨ks.keys.insert k key.toTrustedKey, n⟩ := by
  refine ⟨fun id => ?_, rfl⟩
  rw [TreeMap.getElem?_insert, TreeMap.getElem?_insert, h.1 id]
  split_ifs <;> rfl

theorem contains_eq_of_forgets (st : StampedKeyStore) (ks : TrustedKeyStore) (h : Forgets st ks)
    (k : UInt32) : ks.keys.contains k = st.keys.contains k := by
  rw [TreeMap.contains_eq_isSome_getElem?, TreeMap.contains_eq_isSome_getElem?, h.1 k,
    Option.isSome_map]

/-- `TrustedKeyStore` follows the store with time stamps call by call. -/
theorem forgets_step (st : StampedKeyStore) (ks : TrustedKeyStore) (h : Forgets st ks) (c : Call) :
    Forgets (st.step c).1 ((c.toOp.map ks.apply).getD ks) := by
  cases c with
  | registerKey now publicKey deviceName allowedTopics =>
    have hi := forgets_insert st ks h st.nextKeyId (st.nextKeyId + 1)
      (newKey now st.nextKeyId publicKey deviceName allowedTopics)
    simp only [step, registerKey, Call.toOp, Option.map_some, Option.getD_some, TrustedKeyStore.apply,
      TrustedKeyStore.registerKey, h.2]
    exact hi
  | registerKeyAs now keyId publicKey deviceName allowedTopics =>
    simp only [step, registerKeyAs, Call.toOp, Option.map_some, Option.getD_some, TrustedKeyStore.apply,
      TrustedKeyStore.registerKeyAs, contains_eq_of_forgets st ks h, h.2]
    split_ifs
    · exact h
    · exact forgets_insert st ks h keyId (keyId + 1) (newKey now keyId publicKey deviceName allowedTopics)
    · exact forgets_insert st ks h keyId st.nextKeyId
        (newKey now keyId publicKey deviceName allowedTopics)
  | setEnabled keyId enabled =>
    simp only [step, setEnabled, Call.toOp, Option.map_some, Option.getD_some, TrustedKeyStore.apply,
      TrustedKeyStore.setEnabled, h.1 keyId, h.2]
    cases hk : st.keys[keyId]? with
    | none => exact h
    | some key => exact forgets_insert st ks h keyId st.nextKeyId { key with enabled := enabled }
  | removeKey keyId =>
    refine ⟨fun id => ?_, h.2⟩
    simp only [step, removeKey, Call.toOp, Option.map_some, Option.getD_some, TrustedKeyStore.apply,
      TrustedKeyStore.removeKey, TreeMap.getElem?_erase, h.1 id]
    split_ifs <;> rfl
  | clear => exact forgets_empty
  | touch now keyId =>
    simp only [step, touch, Call.toOp, Option.map_none, Option.getD_none]
    cases hk : st.keys[keyId]? with
    | none => exact h
    | some key =>
      refine ⟨fun id => ?_, h.2⟩
      rw [getElem?_insert, h.1 id]
      split_ifs with hid
      · rw [← hid, hk]
        rfl
      · rfl

/-- After any calls, the store without time stamps holds the same keys. -/
theorem forgets_run (calls : List Call) : Forgets (run step {} calls).1
    ((calls.filterMap Call.toOp).foldl TrustedKeyStore.apply {}) := by
  induction calls using List.reverseRecOn with
  | nil => exact forgets_empty
  | append_singleton calls c ih =>
    have h := forgets_step _ _ ih c
    rw [run_snoc, List.filterMap_append, List.foldl_append]
    cases c <;> exact h

end Simulation

section Freshness

/-- An automatic registration now gets an id no key has and leaves every entry as it is. -/
def AssignsFresh (st : StampedKeyStore) : Prop :=
  ∀ now publicKey deviceName allowedTopics,
    st.keys[(st.registerKey now publicKey deviceName allowedTopics).2]? = none ∧
      ∀ (id : UInt32) key, st.keys[id]? = some key →
        (st.registerKey now publicKey deviceName allowedTopics).1.keys[id]? = some key

/-- The call puts in a key under the largest id; `next_key_id_` becomes zero. -/
def RegistersLast (st : StampedKeyStore) : Call → Prop
  | .registerKey _ _ _ _ => st.nextKeyId = 0xffffffff
  | .registerKeyAs _ keyId _ _ _ => keyId = 0xffffffff ∧ st.keys[keyId]? = none
  | _ => False

/-- The invariant of the counter while it has not wrapped. -/
def CounterAbove (st : StampedKeyStore) : Prop :=
  ∀ (id : UInt32) key, st.keys[id]? = some key → id < st.nextKeyId

theorem counterAbove_empty : CounterAbove {} := by
  intro id key h
  rw [TreeMap.getElem?_emptyc] at h
  cases h

theorem lt_add_one_of_ne (n : UInt32) (h : n ≠ 0xffffffff) : n < n + 1 := by
  have hn := n.toNat_lt
  have hne : n.toNat ≠ 4294967295 := fun he => h (UInt32.toNat_inj.mp he)
  rw [UInt32.lt_iff_toNat_lt, UInt32.toNat_add, UInt32.toNat_one]
  omega

/-- A new entry under `k` keeps the invariant when the new counter passes `k` and the old
one. -/
theorem counterAbove_insert (st : StampedKeyStore) (h : CounterAbove st) (k n : UInt32)
    (key : StampedKey) (hk : k < n) (hn : st.nextKeyId ≤ n) :
    CounterAbove ⟨st.keys.insert k key, n⟩ := by
  intro id key' hid
  rw [getElem?_insert] at hid
  split_ifs at hid with he
  · exact he ▸ hk
  · exact UInt32.lt_of_lt_of_le (h id key' hid) hn

/-- An entry rewritten in place keeps it. -/
theorem counterAbove_update (st : StampedKeyStore) (h : CounterAbove st) (k : UInt32)
    (key key' : StampedKey) (hk : st.keys[k]? = some key) :
    CounterAbove { st with keys := st.keys.insert k key' } :=
  counterAbove_insert st h k st.nextKeyId key' (h k key hk) (UInt32.le_refl _)

theorem counterAbove_step (st : StampedKeyStore) (h : CounterAbove st) (c : Call)
    (hc : ¬ RegistersLast st c) : CounterAbove (st.step c).1 := by
  cases c with
  | registerKey now publicKey deviceName allowedTopics =>
    have hlt := lt_add_one_of_ne st.nextKeyId hc
    exact counterAbove_insert st h _ _ _ hlt (UInt32.le_of_lt hlt)
  | registerKeyAs now keyId publicKey deviceName allowedTopics =>
    simp only [step, registerKeyAs]
    by_cases hin : st.keys.contains keyId = true
    · rw [if_pos hin]
      exact h
    · rw [if_neg hin]
      have hnone : st.keys[keyId]? = none := by
        rw [Option.eq_none_iff_forall_ne_some]
        exact fun key hkey => hin ((contains_iff st keyId).mpr ⟨key, hkey⟩)
      have hlt := lt_add_one_of_ne keyId fun he => hc ⟨he, hnone⟩
      -- the counter passes the new id, or is above it already
      by_cases hge : keyId ≥ st.nextKeyId
      · rw [if_pos hge]
        exact counterAbove_insert st h _ _ _ hlt (UInt32.le_trans hge (UInt32.le_of_lt hlt))
      · rw [if_neg hge]
        exact counterAbove_insert st h _ _ _ (UInt32.not_le.mp hge) (UInt32.le_refl _)
  | setEnabled keyId enabled =>
    simp only [step, setEnabled]
    cases hk : st.keys[keyId]? with
    | none => exact h
    | some key => exact counterAbove_update st h keyId key _ hk
  | removeKey keyId =>
    intro id key hid
    simp only [step, removeKey, getElem?_erase] at hid
    split_ifs at hid
    exact h id key hid
  | clear => exact counterAbove_empty
  | touch now keyId =>
    simp only [step, touch]
    cases hk : st.keys[keyId]? with
    | none => exact h
    | some key => exact counterAbove_update st h keyId key _ hk

theorem assignsFresh_of_counterAbove (st : StampedKeyStore) (h : CounterAbove st) :
    AssignsFresh st := by
  intro now publicKey deviceName allowedTopics
  have hfree : st.keys[st.nextKeyId]? = none := by
    rw [Option.eq_none_iff_forall_ne_some]
    exact fun key hkey => UInt32.lt_irrefl _ (h _ key hkey)
  refine ⟨hfree, fun id key hid => ?_⟩
  -- an entry under the new id would be one the store has
  have hne : st.nextKeyId ≠ id := by
    rintro rfl
    rw [hfree] at hid
    cases hid
  simp only [registerKey, getElem?_insert, if_neg hne, hid]

theorem counterAbove_run (st : StampedKeyStore) (calls : List Call) (h : CounterAbove st)
    (hc : Meets step (fun st c => ¬ RegistersLast st c) st calls) :
    CounterAbove (run step st calls).1 :=
  run_invariant (fun st _ => CounterAbove st)
    (fun st _ c hst hc => counterAbove_step st hst c hc) st [] calls h hc

/-- Assigned ids are fresh as long as no key was put in under the largest id, since the store
was made or last cleared. -/
theorem assignsFresh_until_wrap (calls : List Call)
    (h : Meets step (fun st c => ¬ RegistersLast st c) {} calls ∨
      Since step (fun _ c => c = .clear) (fun st c => ¬ RegistersLast st c) {} calls) :
    AssignsFresh (run step {} calls).1 := by
  apply assignsFresh_of_counterAbove
  rcases h with h | ⟨pre, c, post, rfl, rfl, h⟩
  · exact counterAbove_run {} calls counterAbove_empty h
  · -- clearing empties the store, whatever happened before
    have hclear : (run step {} (pre ++ [Call.clear])).1 = {} := by
      rw [run_snoc]
      rfl
    rw [hclear] at h
    rw [List.append_cons, run_state_append, hclear]
    exact counterAbove_run {} post counterAbove_empty h

/-- A key under the largest id and a clear after it: the next id is free again. -/
theorem assignsFresh_after_clear :
    AssignsFresh (run step {} [.registerKeyAs 0 0xffffffff (Vector.replicate 32 0) [] [], .clear,
      .registerKey 0 (Vector.replicate 32 1) [] []]).1 := by
  apply assignsFresh_until_wrap
  refine Or.inr ⟨[.registerKeyAs 0 0xffffffff (Vector.replicate 32 0) [] []], .clear,
    [.registerKey 0 (Vector.replicate 32 1) [] []], rfl, rfl, ?_, trivial⟩
  intro h
  exact absurd (show (1 : UInt32) = 0xffffffff from h) (by decide)

/-- Behind the largest id the counter starts over at zero: the id it assigns then is that of
the first key. -/
theorem not_assignsFresh_wrapped :
    ¬ AssignsFresh (run step {} [.registerKey 0 (Vector.replicate 32 0) [] [],
      .registerKeyAs 0 0xffffffff (Vector.replicate 32 1) [] [],
      .registerKey 0 (Vector.replicate 32 2) [] []]).1 := by
  intro h
  have hfree := congrArg Option.isNone (h 0 (Vector.replicate 32 3) [] []).1
  exact absurd hfree (by decide)

end Freshness

end StampedKeyStore

end MetricMQ
