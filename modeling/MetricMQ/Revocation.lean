import MetricMQ.Turns

/-! How long a key is trusted. Over any run of the whole system a key id is trusted exactly while
nothing has revoked it since the last operation that entrusted it, and a signed publish is accepted
only if its key id is trusted when its thread looks it up first. -/
namespace MetricMQ

open ByteString Std Machine

namespace TrustedKeyStore

variable (id : UInt32) (ks : TrustedKeyStore)

def isTrusted : Bool :=
  match ks.keys[id]? with
  | none => false
  | some key => key.enabled

/-- The operation puts an enabled key under the id, or enables the one that is there. An assigned id
may be in use. -/
def entrusts : Op → Bool
  | .registerKey _ _ _ => ks.nextKeyId = id
  | .registerKeyAs keyId _ _ _ => decide (keyId = id) && !ks.keys.contains id
  | .setEnabled keyId enabled => decide (keyId = id) && enabled && ks.keys.contains id
  | .removeKey _ | .clear => false

/-- The operation disables the key of the id or takes it out. -/
def revokes : Op → Bool
  | .setEnabled keyId enabled => decide (keyId = id) && !enabled
  | .removeKey keyId => keyId = id
  | .clear => true
  | .registerKey _ _ _ | .registerKeyAs _ _ _ _ => false

theorem isTrusted_insert (keyId : UInt32) (key : TrustedKey) (next : UInt32) :
    isTrusted id { keys := ks.keys.insert keyId key, nextKeyId := next } =
      if keyId = id then key.enabled else ks.isTrusted id := by
  rw [isTrusted, TreeMap.getElem?_insert]
  simp only [LawfulEqCmp.compare_eq_iff_eq]
  by_cases h : keyId = id
  · rw [if_pos h, if_pos h]
  · rw [if_neg h, if_neg h, isTrusted]

theorem isTrusted_of_not_contains (h : ks.keys.contains id = false) : ks.isTrusted id = false := by
  rw [TreeMap.contains_eq_isSome_getElem?, Option.isSome_eq_false_iff, Option.isNone_iff_eq_none] at h
  rw [isTrusted, h]

/-- One operation: everything that makes an id trusted, or ends that. -/
theorem isTrusted_apply (op : Op) :
    (ks.apply op).isTrusted id = true ↔
      ks.entrusts id op = true ∨ ks.isTrusted id = true ∧ revokes id op = false := by
  cases op with
  | registerKey publicKey deviceName allowedTopics =>
    -- the key takes the place of any other one under this id
    rw [apply, registerKey, isTrusted_insert, entrusts, revokes]
    by_cases h : ks.nextKeyId = id <;> simp [h]
  | registerKeyAs keyId publicKey deviceName allowedTopics =>
    rw [apply, registerKeyAs, entrusts, revokes]
    by_cases hc : ks.keys.contains keyId = true
    · -- an id in use is refused
      rw [if_pos hc]
      by_cases h : keyId = id
      · rw [h] at hc
        simp [hc]
      · simp [h]
    · rw [if_neg hc]
      dsimp only
      rw [isTrusted_insert]
      by_cases h : keyId = id
      · rw [h, Bool.not_eq_true] at hc
        simp [h, hc]
      · simp [h]
  | setEnabled keyId enabled =>
    rw [apply, setEnabled, entrusts, revokes]
    cases hk : ks.keys[keyId]? with
    -- an id that is not there is neither enabled nor disabled
    | none =>
      have hnone : ks.keys.contains keyId = false := by
        rw [TreeMap.contains_eq_isSome_getElem?, hk]
        rfl
      by_cases h : keyId = id
      · rw [h] at hnone
        simp [ks.isTrusted_of_not_contains id hnone, hnone]
      · simp [h]
    | some key =>
      have hsome : ks.keys.contains keyId = true := by
        rw [TreeMap.contains_eq_isSome_getElem?, hk]
        rfl
      dsimp only
      rw [isTrusted_insert]
      by_cases h : keyId = id
      · rw [h] at hsome
        cases enabled <;> simp [h, hsome]
      · simp [h]
  | removeKey keyId =>
    rw [apply, removeKey, isTrusted, entrusts, revokes]
    dsimp only
    rw [TreeMap.getElem?_erase]
    simp only [LawfulEqCmp.compare_eq_iff_eq]
    by_cases h : keyId = id
    · simp [h]
    · simp [h, isTrusted]
  | clear => simp [apply, clear, isTrusted, entrusts, revokes]

/-- A signature is checked against a trusted key only. -/
theorem isTrusted_of_verifyWithKey (verify : Verify) (message : Bytes) (signature : Signature)
    (h : ks.verifyWithKey verify id message signature = true) : ks.isTrusted id = true := by
  rw [verifyWithKey] at h
  rw [isTrusted]
  cases hk : ks.keys[id]? with
  | none =>
    rw [hk] at h
    cases h
  | some key =>
    rw [hk] at h
    dsimp only at h ⊢
    cases he : key.enabled with
    | true => rfl
    | false => simp [he] at h

end TrustedKeyStore

section Runs

variable {σ ε : Type} [Storage σ ε] (verify : Verify) (hash : HashOrder) (id : UInt32)

/-- An operation of the key store that entrusts the id. -/
def Entrusts (w : World σ) : Input ε → Prop
  | .keyStore (.change op) => w.keys.entrusts id op = true
  | _ => False

/-- No operation that revokes the id, and no restart: the store is not kept in a file. -/
def KeepsTrust (_ : World σ) : Input ε → Prop
  | .keyStore (.change op) => TrustedKeyStore.revokes id op = false
  | .restart => False
  | _ => True

theorem keys_recvStep (w : World σ) (s : SessionId) (chunk : Bytes) : (w.recvStep s chunk).keys = w.keys := by
  rcases w.recvStep_set s chunk with h | ⟨conn, h⟩
  · rw [h]
  · rw [h, World.set]

theorem keys_hangupStep (w : World σ) (s : SessionId) : (w.hangupStep s).keys = w.keys := by
  rcases w.hangupStep_set s with h | ⟨conn, h⟩
  · rw [h]
  · rw [h, World.set]

theorem keys_acceptStep (w : World σ) (s : SessionId) : (w.acceptStep s).keys = w.keys := by
  rw [World.acceptStep]
  cases w.connections[s]? with
  | some conn => rfl
  | none => cases w.broker.acceptSession s <;> rfl

theorem keys_threadStep (w : World σ) (s : SessionId) (faults : Faults ε) :
    (w.threadStep verify hash s faults).1.keys = w.keys := by
  have hcase := World.stepCase_thread verify hash w s faults
  generalize (w.threadStep verify hash s faults).1 = w' at hcase ⊢
  generalize (w.threadStep verify hash s faults).2 = outs at hcase
  cases hcase with
  | nothing | worked | dispatched => rfl

/-- One step of the system. -/
theorem isTrusted_step (w : World σ) (i : Input ε) :
    (w.step verify hash i).1.keys.isTrusted id = true ↔
      Entrusts id w i ∨ w.keys.isTrusted id = true ∧ KeepsTrust id w i := by
  cases i with
  | keyStore access =>
    cases access with
    | change op => exact w.keys.isTrusted_apply id op
    | lookup s => simp [World.step, World.keysAfter, Entrusts, KeepsTrust]
  | restart =>
    have hnone : (w.step verify hash (.restart : Input ε)).1.keys.isTrusted id = false := rfl
    simp [hnone, Entrusts, KeepsTrust]
  | accept s =>
    rw [World.step, keys_acceptStep]
    simp [Entrusts, KeepsTrust]
  | recv s chunk =>
    rw [World.step, keys_recvStep]
    simp [Entrusts, KeepsTrust]
  | hangup s =>
    rw [World.step, keys_hangupStep]
    simp [Entrusts, KeepsTrust]
  | thread s faults =>
    rw [World.step, keys_threadStep]
    simp [Entrusts, KeepsTrust]
  | stop => simp [World.step, Entrusts, KeepsTrust]

omit [Storage σ ε] in
theorem nextItem_eq_some (w : World σ) (session : SessionId) (h : (w.nextItem session).isSome = true) :
    ∃ conn, w.connections[session]? = some conn ∧ conn.pending = [] ∧ conn.next ≠ none := by
  rw [World.nextItem] at h
  cases hconn : w.connections[session]? with
  | none =>
    rw [hconn] at h
    cases h
  | some conn =>
    rw [hconn] at h
    dsimp only at h
    split_ifs at h with hp
    · rw [Option.isSome_map] at h
      exact ⟨conn, rfl, List.isEmpty_iff.mp hp, Option.isSome_iff_ne_none.mp h⟩
    · cases h

/-- A thread that has an item before it stands still as long as what it has looked up is kept: its
next step is the one that handles the item. -/
theorem stands_of_looked (w : World σ) (i : Input ε) (session : SessionId)
    (hnext : (w.nextItem session).isSome = true)
    (hl : (w.step verify hash i).1.looked[session]? ≠ none) :
    (w.step verify hash i).1.connections[session]? = w.connections[session]? ∧
      dispatchedBy session (w.step verify hash i).2 = [] := by
  obtain ⟨conn, hconn, hp, hitem⟩ := nextItem_eq_some w session hnext
  have hbusy : World.waiting conn = false := by
    rw [← Bool.not_eq_true, waiting_iff]
    exact fun hw => hitem hw.2.2
  by_cases ha : i.actor = some session
  · cases i with
    | accept s =>
      obtain rfl := Option.some_inj.mp ha
      rw [World.step, World.acceptStep, hconn]
      exact ⟨hconn, rfl⟩
    | recv s chunk =>
      obtain rfl := Option.some_inj.mp ha
      rw [World.step, World.recvStep, hconn]
      dsimp only
      rw [hbusy, Bool.not_false, Bool.true_or, Bool.true_or, if_pos rfl]
      exact ⟨hconn, rfl⟩
    | hangup s =>
      obtain rfl := Option.some_inj.mp ha
      rw [World.step, World.hangupStep, hconn]
      dsimp only
      rw [hbusy, if_neg Bool.false_ne_true]
      exact ⟨hconn, rfl⟩
    | thread s faults =>
      obtain rfl := Option.some_inj.mp ha
      obtain ⟨⟨item, r⟩, hnext⟩ := Option.ne_none_iff_exists'.mp hitem
      cases hc : conn.closing with
      | true =>
        rw [World.step, World.threadStep, hconn]
        dsimp only
        rw [hp, hc]
        exact ⟨hconn, rfl⟩
      | false =>
        -- the step that handles the item ends the lookup
        rw [World.step, w.threadStep_of_next verify hash s faults conn item r hconn hp hc hnext,
          World.dispatchStep] at hl
        exact absurd TreeMap.getElem?_erase_self hl
    | keyStore | stop | restart => cases ha
  · have hsame : SameConnection session w i := by
      cases i with
      | accept s => exact fun he => ha (congrArg some he)
      | restart => exact absurd TreeMap.getElem?_emptyc hl
      | recv | hangup | thread | keyStore | stop => trivial
    obtain ⟨hstays, hitems, -⟩ := w.untouched_step session verify hash i ha hsame
    exact ⟨hstays, hitems⟩

/-- After the run `js` the session's thread looks its next item up: up to the end of the run `is` it
stays where it is and handles nothing. -/
structure LooksUpAfter (start : World σ) (session : SessionId) (js is : List (Input ε)) : Prop where
  before : js <+: is
  stands : (run (World.step verify hash) start js).1.connections[session]? =
    (run (World.step verify hash) start is).1.connections[session]?
  handles : dispatchedBy session (run (World.step verify hash) (run (World.step verify hash) start js).1
    (is.drop js.length)).2 = []

variable {verify hash} in
theorem LooksUpAfter.refl (start : World σ) (session : SessionId) (is : List (Input ε)) :
    LooksUpAfter verify hash start session is is := by
  refine ⟨List.prefix_rfl, rfl, ?_⟩
  rw [List.drop_length]
  rfl

variable {verify hash} in
theorem LooksUpAfter.snoc {start : World σ} {session : SessionId} {js is : List (Input ε)}
    (h : LooksUpAfter verify hash start session js is) (i : Input ε)
    (hstays : ((run (World.step verify hash) start is).1.step verify hash i).1.connections[session]? =
      (run (World.step verify hash) start is).1.connections[session]?)
    (hnone : dispatchedBy session ((run (World.step verify hash) start is).1.step verify hash i).2 = []) :
    LooksUpAfter verify hash start session js (is ++ [i]) := by
  obtain ⟨post, rfl⟩ := h.before
  have hhandles := h.handles
  rw [List.drop_left] at hhandles
  refine ⟨List.prefix_append_of_prefix h.before, ?_, ?_⟩
  · rw [run_snoc, hstays]
    exact h.stands
  · rw [List.append_assoc, List.drop_left, run_outputs_snoc, ← run_state_append, dispatchedBy,
      List.filterMap_append]
    exact List.append_eq_nil_iff.mpr ⟨hhandles, hnone⟩

/-- What a thread has looked up is the key store of the moment when it did so. -/
theorem looked_run (start : World σ) (hstart : ∀ s : SessionId, start.looked[s]? = none)
    (is : List (Input ε)) (session : SessionId) (ks : TrustedKeyStore)
    (h : (run (World.step verify hash) start is).1.looked[session]? = some ks) :
    ((run (World.step verify hash) start is).1.nextItem session).isSome = true ∧
      ∃ js, LooksUpAfter verify hash start session js is ∧
        ks = (run (World.step verify hash) start js).1.keys := by
  induction is using List.reverseRecOn with
  | nil => exact absurd h (by rw [run, hstart]; simp)
  | append_singleton is i ih =>
    rw [run_snoc] at h ⊢
    -- looked up before, or in this step
    have hbefore : ((run (World.step verify hash) start is).1.nextItem session).isSome = true ∧
        ∃ js, LooksUpAfter verify hash start session js is ∧
          ks = (run (World.step verify hash) start js).1.keys := by
      rcases World.looked_step session verify hash _ i ks h with hold | ⟨rfl, hnext⟩
      · exact ih hold
      · exact ⟨hnext, is, .refl start session is, rfl⟩
    obtain ⟨hnext, js, hjs, hks⟩ := hbefore
    obtain ⟨hstays, hnone⟩ := stands_of_looked verify hash _ i session hnext (by rw [h]; simp)
    refine ⟨?_, js, hjs.snoc i hstays hnone, hks⟩
    rw [World.nextItem, hstays]
    exact hnext

/-- The key store of the first lookup is that of the moment when the thread made it. -/
theorem verifying_of_dispatched (start : World σ) (hstart : ∀ s : SessionId, start.looked[s]? = none)
    (is : List (Input ε)) (i : Input ε) (session : SessionId) (item : Dispatch) (keys : KeyLookups)
    (h : .dispatched session item keys ∈
      ((run (World.step verify hash) start is).1.step verify hash i).2) :
    ∃ js, LooksUpAfter verify hash start session js is ∧
      keys.verifying = (run (World.step verify hash) start js).1.keys := by
  rcases (run (World.step verify hash) start is).1.step_outputs verify hash i with he | ⟨s, it, he⟩ |
    ⟨s, faults, conn, task, rest, -, -, -, he, -⟩
  · rw [he] at h
    cases h
  · rw [he, List.mem_singleton, Output.dispatched.injEq] at h
    obtain ⟨rfl, -, rfl⟩ := h
    rw [World.lookups]
    cases hl : (run (World.step verify hash) start is).1.looked[session]? with
    | none => exact ⟨is, .refl start session is, rfl⟩
    | some ks => exact (looked_run verify hash start hstart is session ks hl).2
  · rw [he] at h
    exact absurd h (dispatched_not_mem_exec hash _ faults s task session item keys)

/-- The keys of a run follow the operations on them: an id is trusted when one of them has entrusted
it and none has revoked it since, and a signed publish is accepted only if its key id was trusted
when its thread looked it up first. -/
structure TrustFollows (db : σ) : Prop where
  trusted : ∀ (is : List (Input ε)) (id : UInt32),
    (run (World.step verify hash) (World.start db) is).1.keys.isTrusted id = true ↔
      Since (World.step verify hash) (Entrusts id) (KeepsTrust id) (World.start db) is
  accepted : ∀ (is : List (Input ε)) (i : Input ε) (session : SessionId) (f : BinaryFrame)
    (keys : KeyLookups),
    .dispatched session (.frame f) keys ∈
      (World.step verify hash (run (World.step verify hash) (World.start db) is).1 i).2 →
    f.command = .signedPublish → Session.acceptsPublish verify keys f = true →
      ∃ js, LooksUpAfter verify hash (World.start db) session js is ∧
        Since (World.step verify hash) (Entrusts f.keyId) (KeepsTrust f.keyId) (World.start db) js

theorem isTrusted_iff_since (db : σ) (is : List (Input ε)) :
    (run (World.step verify hash) (World.start db) is).1.keys.isTrusted id = true ↔
      Since (World.step verify hash) (Entrusts id) (KeepsTrust id) (World.start db) is := by
  refine iff_since (A := fun _ _ => True) (fun w : World σ => w.keys.isTrusted id = true)
    (fun w i _ => isTrusted_step verify hash id w i) (World.start db) is ?_ (meets_true _ is)
  -- a new process knows no keys
  simp [World.start, TrustedKeyStore.isTrusted]

theorem trust_follows (db : σ) : TrustFollows verify hash db where
  trusted := fun is id => isTrusted_iff_since verify hash id db is
  accepted := by
    intro is i session f keys hm hf ha
    have hnone : ∀ s : SessionId, (World.start db).looked[s]? = none := fun _ => TreeMap.getElem?_emptyc
    obtain ⟨js, hjs, hkeys⟩ := verifying_of_dispatched verify hash _ hnone is i session _ keys hm
    refine ⟨js, hjs, ?_⟩
    rw [← isTrusted_iff_since, ← hkeys]
    rw [Session.acceptsPublish, hf, Bool.and_eq_true] at ha
    exact keys.verifying.isTrusted_of_verifyWithKey f.keyId verify _ f.signature ha.1

end Runs

end MetricMQ
