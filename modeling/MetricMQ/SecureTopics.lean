import MetricMQ.Handlers
import MetricMQ.World

/-! Topics under `secure/` are for signed publishes. The binary handler rejects an unsigned
publish there; the RESP handler has no such check, and a signed publish takes the scope of its key
from a second lookup, at which the key may be gone. -/
namespace MetricMQ

open ByteString Std Machine

/-- A signed frame of the session, authorized when its key was looked up first, was dispatched before
and asked for this publish. -/
def SignedSource (verify : Verify) (tr : List Output) (session : SessionId) (topic data : Bytes) :
    Prop :=
  ∃ f keys n, .dispatched session (.frame f) keys ∈ tr ∧ f.command = .signedPublish ∧
    f.topic = topic ∧ Authorized verify keys.verifying f ∧
    data = BinaryProtocol.serialize (.signedMessage f.topic f.payload f.signature f.keyId n)

/-- Every message that reached `Broker::publish` on a secure topic had a signed source. -/
def SecureTopicsSigned (verify : Verify) (tr : List Output) : Prop :=
  ∀ pre session topic data seq, pre ++ [.published session topic data seq] <+: tr →
    Session.isSecure topic = true → SignedSource verify pre session topic data

theorem SignedSource.mono {verify : Verify} {tr : List Output} {session : SessionId}
    {topic data : Bytes} (h : SignedSource verify tr session topic data) (outs : List Output) :
    SignedSource verify (tr ++ outs) session topic data := by
  obtain ⟨f, keys, n, hm, hrest⟩ := h
  exact ⟨f, keys, n, List.mem_append_left outs hm, hrest⟩

/-- A RESP PUBLISH on a secure topic. -/
def respPublishesSecure : RespValue → Bool
  | .array [head, arg, _] =>
    decide (Session.toUpper head.asString = lit "PUBLISH") && Session.isSecure arg.asString
  | _ => false

/-- A signed publish on a secure topic whose key has another scope at the second lookup than at the
first, or is gone by then: the second lookup lets it pass, and the first would not have. -/
def scopeLifted (keys : KeyLookups) (f : BinaryFrame) : Bool :=
  decide (f.command = .signedPublish) && Session.isSecure f.topic &&
    Session.topicAuthorized keys.authorizing f && !Session.topicAuthorized keys.verifying f

/-- The two ways past the check of a secure topic. -/
def Dispatch.unchecked (keys : KeyLookups) : Dispatch → Bool
  | .frame f => scopeLifted keys f
  | .command v => respPublishesSecure v

/-- The step handles neither a RESP PUBLISH on a secure topic nor a signed publish there whose key
changes its scope, or goes, between the two lookups. -/
def ChecksSecure {σ ε : Type} (w : World σ) : Input ε → Prop
  | .thread session _ => (w.nextItem session).any (Dispatch.unchecked (w.lookups session)) = false
  | _ => True

instance {σ ε : Type} (w : World σ) : (i : Input ε) → Decidable (ChecksSecure w i)
  | .thread session _ =>
    inferInstanceAs (Decidable ((w.nextItem session).any (Dispatch.unchecked (w.lookups session)) = false))
  | .accept _ | .recv _ _ | .hangup _ | .keyStore _ | .stop | .restart => isTrue trivial

section Proof

variable {σ ε : Type} (verify : Verify) (hash : HashOrder)

/-- Pending publishes on secure topics have a signed source. -/
def PendingSigned (tr : List Output) (session : SessionId) (conn : Connection) : Prop :=
  ∀ topic data, .call (.publish topic data) ∈ conn.pending → Session.isSecure topic = true →
    SignedSource verify tr session topic data

/-- What passes both checks, and would have passed the second one at the first lookup, was authorized
then. -/
theorem authorized_of_passesChecks (keys : KeyLookups) (f : BinaryFrame)
    (h : PassesChecks verify keys f) (hc : f.command = .signedPublish)
    (hs : Session.isSecure f.topic = true) (hl : scopeLifted keys f = false) :
    Authorized verify keys.verifying f := by
  obtain ⟨⟨key, hk, he, hv⟩, hscope⟩ := h
  refine ⟨key, hk, he, hv, ?_⟩
  have hsecond : Session.topicAuthorized keys.authorizing f = true :=
    Session.topicAuthorized_of_scopeCovers f keys.authorizing hscope
  rw [scopeLifted, hs, hsecond, hc] at hl
  exact Session.scopeCovers_of_topicAuthorized f keys.verifying (by simpa using hl) key hk

theorem pendingSigned_dispatch (w : World σ) (tr : List Output) (session : SessionId)
    (conn : Connection) (faults : Faults ε) (item : Dispatch) (r : Receiver)
    (hC : ChecksSecure w (.thread session faults))
    (hconn : w.connections[session]? = some conn) (hpending : conn.pending = [])
    (hnext : conn.next = some (item, r)) :
    PendingSigned verify (tr ++ [.dispatched session item (w.lookups session)]) session
      { conn with
        toSession :=
          (Session.handle verify (w.lookups session) { conn.toSession with toReceiver := r } item).1
        pending := (Session.handle verify (w.lookups session)
          { conn.toSession with toReceiver := r } item).2.map .call } := by
  intro topic data hm hs
  rw [World.mem_map_call] at hm
  -- this is the item that the condition speaks of
  have hn : w.nextItem session = some item := by
    simp only [World.nextItem, hconn, hpending, List.isEmpty_nil, ↓reduceIte, hnext, Option.map_some]
  rw [ChecksSecure, hn, Option.any_some] at hC
  cases item with
  | frame f =>
    obtain ⟨rfl, -, ⟨hopen, -⟩ | ⟨hcmd, hpass, hdata⟩⟩ :=
      Session.publish_mem_handleBinaryFrame verify _ _ f topic data hm
    · rw [hopen] at hs
      cases hs
    · exact ⟨f, _, _, List.mem_append_right _ (List.mem_singleton.mpr rfl), hcmd, rfl,
        authorized_of_passesChecks verify _ f hpass hcmd hs hC, hdata⟩
  | command v =>
    obtain ⟨head, arg, payload, rfl, hcmd, rfl, -⟩ :=
      Session.publish_mem_handleCommand _ v topic data hm
    rw [Dispatch.unchecked, respPublishesSecure, hcmd, hs] at hC
    exact absurd hC (by decide)

variable [Storage σ ε]

theorem pendingSigned_invariant :
    World.ConnectionInvariant verify (fun (w : World σ) (i : Input ε) => ChecksSecure w i)
      (PendingSigned verify) where
  mono := fun tr outs s c h topic data hm hs => (h topic data hm hs).mono outs
  fresh := by
    intro tr s topic data hm
    cases hm
  received := fun tr s c chunk r h _ _ => h
  overflowed := fun w tr s c chunk _ _ _ _ topic data hm =>
    absurd (World.mem_map_call.mp hm) (c.toSession.not_publish_overflowCalls topic data)
  hungUp := fun tr s c _ topic data hm =>
    absurd (World.mem_map_call.mp hm) (c.toSession.not_publish_exitCalls topic data)
  worked := by
    intro w tr s c faults task rest _ _ hp h topic data hm hs
    rcases List.mem_append.mp hm with hm | hm
    · exact absurd hm (w.not_call_followUp task _)
    · exact h topic data (hp ▸ List.mem_cons_of_mem task hm) hs
  dispatched := fun w tr s c faults item r hC hconn hp hn _ =>
    pendingSigned_dispatch verify w tr s c faults item r hC hconn hp hn

theorem secureTopicsSigned_step (w : World σ) (tr : List Output) (i : Input ε)
    (hpending : ∀ s c, w.connections[s]? = some c → PendingSigned verify tr s c)
    (h : SecureTopicsSigned verify tr) :
    SecureTopicsSigned verify (tr ++ (w.step verify hash i).2) := by
  intro pre session topic data seq hpre hs
  rcases snoc_prefix_append _ _ _ _ hpre with hold | ⟨pre', rfl, hnew⟩
  · exact h pre session topic data seq hold hs
  · have hm : .published session topic data seq ∈ (w.step verify hash i).2 :=
      hnew.subset (List.mem_append_right _ (List.mem_singleton.mpr rfl))
    rcases w.step_outputs verify hash i with he | ⟨s, item, he⟩ |
      ⟨s, faults, conn, task, rest, -, hconn, hp, he, -⟩
    · rw [he] at hm
      cases hm
    · rw [he] at hm
      simp at hm
    · rw [he] at hm
      obtain ⟨rfl, rfl, -⟩ := w.published_mem_exec hash faults s session task topic data seq hm
      have hsrc := hpending session conn hconn topic data (hp ▸ List.mem_cons_self) hs
      exact hsrc.mono pre'

/-- In every run that takes neither way past the check, secure topics are signed-only. -/
theorem secureTopicsSigned_run (db : σ) (is : List (Input ε))
    (h : Meets (World.step verify hash) ChecksSecure (World.start db) is) :
    SecureTopicsSigned verify (run (World.step verify hash) (World.start db) is).2 := by
  let I : World σ → List Output → Prop := fun w tr =>
    (∀ s c, w.connections[s]? = some c → PendingSigned verify tr s c) ∧ SecureTopicsSigned verify tr
  have hstep : ∀ w tr (i : Input ε), I w tr → ChecksSecure w i →
      I (w.step verify hash i).1 (tr ++ (w.step verify hash i).2) := by
    intro w tr i hI hC
    exact ⟨(pendingSigned_invariant verify).step w tr i hC hI.1,
      secureTopicsSigned_step verify hash w tr i hI.1 hI.2⟩
  have hinit : I (World.start db) [] := by
    constructor
    · intro s c hc
      simp [World.start] at hc
    · intro pre session topic data seq hp
      simp at hp
  exact (run_invariant I hstep (World.start db) [] is hinit h).2

end Proof

section Runs

open World

/-- One RESP client publishes on `secure/x`. -/
def respSecureRun : List (Input (Option MdbError)) :=
  [.accept 0, .recv 0 (lit "*3\r\n$7\r\nPUBLISH\r\n$8\r\nsecure/x\r\n$1\r\na\r\n"),
    .thread 0 allCommit, .thread 0 allCommit]

/-- A frame on `secure/x`, signed with key 1. -/
def secureFrame : BinaryFrame :=
  .signedPublish (lit "secure/x") (lit "a") (Vector.replicate 64 7) 1 5

/-- One binary client publishes on `secure/x` with a registered key. -/
def signedSecureRun : List (Input (Option MdbError)) :=
  [.keyStore (.change (.registerKey (Vector.replicate 32 1) [] (lit "secure/*"))), .accept 0,
    .recv 0 (BinaryProtocol.serialize secureFrame), .thread 0 allCommit, .thread 0 allCommit]

/-- The same with a key for the sensors only, which is removed while the frame is handled. -/
def removedKeyRun : List (Input (Option MdbError)) :=
  [.keyStore (.change (.registerKey (Vector.replicate 32 1) [] (lit "sensors/*"))), .accept 0,
    .recv 0 (BinaryProtocol.serialize secureFrame), .keyStore (.lookup 0),
    .keyStore (.change (.removeKey 1)), .thread 0 allCommit, .thread 0 allCommit]

def reportsSecurePublish : Output → Bool
  | .published _ topic _ _ => Session.isSecure topic
  | _ => false

/-- A frame is dispatched that was authorized at the first lookup. -/
def dispatchesAuthorized (verify : Verify) : Output → Bool
  | .dispatched _ (.frame f) keys =>
    keys.verifying.verifyWithKey verify f.keyId (f.topic ++ f.payload) f.signature &&
      Session.topicAuthorized keys.verifying f
  | _ => false

/-- A secure publish without any authorized frame has no signed source. -/
theorem not_secureTopicsSigned (verify : Verify) (tr : List Output)
    (hp : tr.any reportsSecurePublish = true) (hf : tr.any (dispatchesAuthorized verify) = false) :
    ¬ SecureTopicsSigned verify tr := by
  intro h
  obtain ⟨o, ho, hsec⟩ := List.any_eq_true.mp hp
  obtain ⟨pre, post, rfl⟩ := List.append_of_mem ho
  cases o with
  | published session topic data seq =>
    have hpre : pre ++ [.published session topic data seq] <+:
        pre ++ .published session topic data seq :: post := ⟨post, by simp⟩
    obtain ⟨f, keys, n, hm, -, -, hauth, -⟩ := h pre session topic data seq hpre hsec
    apply List.any_eq_false.mp hf _ (List.mem_append_left _ hm)
    rw [dispatchesAuthorized, Bool.and_eq_true]
    exact (authorized_iff_checks verify keys.verifying f).mp hauth
  | dispatched | sent => cases hsec

/-- Both ways past the check: a RESP PUBLISH, and a key that goes between its two lookups. -/
theorem secureTopicsSigned_fails :
    ¬ SecureTopicsSigned (fun _ _ _ => true)
      (run (World.step (fun _ _ _ => true) insertionOrder) (World.start LmdbFile.empty)
        respSecureRun).2 ∧
    ¬ SecureTopicsSigned (fun _ _ _ => true)
      (run (World.step (fun _ _ _ => true) insertionOrder) (World.start LmdbFile.empty)
        removedKeyRun).2 :=
  ⟨not_secureTopicsSigned _ _ (by decide) (by decide),
    not_secureTopicsSigned _ _ (by decide) (by decide)⟩

theorem secureTopicsSigned_signed_run :
    (run (World.step (fun _ _ _ => true) insertionOrder) (World.start LmdbFile.empty)
        signedSecureRun).2.any reportsSecurePublish = true ∧
      SecureTopicsSigned (fun _ _ _ => true)
        (run (World.step (fun _ _ _ => true) insertionOrder) (World.start LmdbFile.empty)
          signedSecureRun).2 :=
  ⟨by decide, secureTopicsSigned_run _ _ _ _ (by decide)⟩

end Runs

end MetricMQ
