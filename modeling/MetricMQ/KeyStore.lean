import MetricMQ.BinaryProtocol
import Mathlib.Tactic.Ring

/-! `TrustedKeyStore`. The Ed25519 check is a parameter; the time stamps of a key are left
out, since nothing reads them. -/
namespace MetricMQ

open ByteString Std

abbrev PublicKey := Vector UInt8 32

/-- `crypto::verify`: message, signature and public key. -/
abbrev Verify := Bytes → Signature → PublicKey → Bool

structure TrustedKey where
  publicKey : PublicKey
  keyId : UInt32
  deviceName : Bytes
  allowedTopics : Bytes
  enabled : Bool := true

structure TrustedKeyStore where
  keys : TreeMap UInt32 TrustedKey := ∅
  nextKeyId : UInt32 := 1

namespace TrustedKeyStore

/-- `register_key` with an id assigned by the store. -/
def registerKey (ks : TrustedKeyStore) (publicKey : PublicKey) (deviceName allowedTopics : Bytes) :
    TrustedKeyStore × UInt32 :=
  let keyId := ks.nextKeyId
  ({ keys := ks.keys.insert keyId ⟨publicKey, keyId, deviceName, allowedTopics, true⟩
     nextKeyId := ks.nextKeyId + 1 }, keyId)

/-- `register_key` with an id given by the caller. -/
def registerKeyAs (ks : TrustedKeyStore) (keyId : UInt32) (publicKey : PublicKey)
    (deviceName allowedTopics : Bytes) : TrustedKeyStore × Bool :=
  -- an id in use is refused, also that of a disabled key
  if ks.keys.contains keyId then (ks, false)
  else
    ({ keys := ks.keys.insert keyId ⟨publicKey, keyId, deviceName, allowedTopics, true⟩
       -- assigned ids stay above the given ones
       nextKeyId := if keyId ≥ ks.nextKeyId then keyId + 1 else ks.nextKeyId }, true)

def getKeyInfo (ks : TrustedKeyStore) (keyId : UInt32) : Option TrustedKey := ks.keys[keyId]?

def verifyWithKey (verify : Verify) (ks : TrustedKeyStore) (keyId : UInt32) (message : Bytes)
    (signature : Signature) : Bool :=
  match ks.keys[keyId]? with
  | none => false
  | some key => if !key.enabled then false else verify message signature key.publicKey

def setEnabled (ks : TrustedKeyStore) (keyId : UInt32) (enabled : Bool) : TrustedKeyStore × Bool :=
  match ks.keys[keyId]? with
  | none => (ks, false)
  | some key => ({ ks with keys := ks.keys.insert keyId { key with enabled := enabled } }, true)

def removeKey (ks : TrustedKeyStore) (keyId : UInt32) : TrustedKeyStore × Bool :=
  ({ ks with keys := ks.keys.erase keyId }, ks.keys.contains keyId)

def clear (_ks : TrustedKeyStore) : TrustedKeyStore := {}

inductive Op
  | registerKey (publicKey : PublicKey) (deviceName allowedTopics : Bytes)
  | registerKeyAs (keyId : UInt32) (publicKey : PublicKey) (deviceName allowedTopics : Bytes)
  | setEnabled (keyId : UInt32) (enabled : Bool)
  | removeKey (keyId : UInt32)
  | clear

def apply (ks : TrustedKeyStore) : Op → TrustedKeyStore
  | .registerKey publicKey deviceName allowedTopics =>
    (ks.registerKey publicKey deviceName allowedTopics).1
  | .registerKeyAs keyId publicKey deviceName allowedTopics =>
    (ks.registerKeyAs keyId publicKey deviceName allowedTopics).1
  | .setEnabled keyId enabled => (ks.setEnabled keyId enabled).1
  | .removeKey keyId => (ks.removeKey keyId).1
  | .clear => ks.clear

end TrustedKeyStore

/-- The scope check of a signed publish: everything, a prefix ending in a star, or one topic. -/
def topicAllowed (allowed topic : Bytes) : Bool :=
  if allowed = lit "*" ∨ allowed = lit "#" then true
  else if allowed.length ≥ 2 ∧ allowed.getLast? = some 42 then
    (allowed.take (allowed.length - 1)).isPrefixOf topic
  else decide (topic = allowed)

end MetricMQ
