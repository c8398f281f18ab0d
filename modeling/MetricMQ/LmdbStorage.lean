import MetricMQ.ByteString
import MetricMQ.BigEndian
import MetricMQ.SortedCursor

/-! `LmdbStorage`: messages under `msg:<seq>`, acknowledgements under `ack:<client>:<seq>` and
the counter `last_seq`, in one LMDB database. LMDB itself is a map on byte strings whose
cursor walks the keys in lexicographic order; a write transaction that meets an error
changes nothing. -/
namespace MetricMQ

open ByteString BigEndian SortedCursor Std

abbrev Store := TreeMap Bytes Bytes

/-- Where a write transaction fails; the calls leave the store alone in every case. -/
inductive MdbError
  | txnBegin
  | cursorOpen
  | put
  | putLastSeq
  | commit
deriving DecidableEq

structure StoredMessage where
  seq : UInt64
  topic : Bytes
  payload : Bytes
deriving DecidableEq

namespace LmdbStorage

def lastSeqKey : Bytes := lit "last_seq"
def msgTag : Bytes := lit "msg:"
def ackTag : Bytes := lit "ack:"

def msgKey (seq : UInt64) : Bytes := msgTag ++ toDecimal seq.toNat

def ackTagOf (clientId : Bytes) : Bytes := ackTag ++ clientId ++ [58]

def ackKey (clientId : Bytes) (seq : UInt64) : Bytes := ackTagOf clientId ++ toDecimal seq.toNat

/-- The bytes a string literal contributes when it is passed as `const char*`. -/
def ofCString (literal : Bytes) : Bytes := literal.takeWhile (· != 0)

/-- `topic + "\x00" + payload`. -/
def msgData (topic payload : Bytes) : Bytes := topic ++ ofCString [0] ++ payload

/-- `memcpy` of a `uint64_t` on a little-endian machine. -/
def nativeBytes (n : UInt64) : Bytes := (bytes64 n).reverse

/-- `memcpy` into a `uint64_t`, guarded by the size of the value. -/
def nativeValue : Bytes → Option UInt64
  | [b0, b1, b2, b3, b4, b5, b6, b7] => some (be64 b7 b6 b5 b4 b3 b2 b1 b0)
  | _ => none

def storedLastSeq (store : Store) : Option UInt64 := store[lastSeqKey]?.bind nativeValue

def getLastSeq (store : Store) : UInt64 := (storedLastSeq store).getD 0

def nextSeq (store : Store) : UInt64 :=
  match storedLastSeq store with
  | some n => n + 1
  | none => 1

/-- The argument `seq` is not used: the key comes from the counter in the store. -/
def save (err : Option MdbError) (store : Store) (_seq : UInt64) (topic payload : Bytes) : Store :=
  match err with
  | some _ => store
  | none =>
    -- two puts in one transaction
    (store.insert (msgKey (nextSeq store)) (msgData topic payload)).insert lastSeqKey
      (nativeBytes (nextSeq store))

/-- The cursor loop of `load_range`; `none` is the exception of an unguarded `stoull`. -/
def scanRange (toSeq : UInt64) : List (Bytes × Bytes) → Option (List StoredMessage)
  | [] => some []
  | (key, val) :: rest =>
    -- keys of other kinds do not end the walk
    if key.take 4 ≠ msgTag then scanRange toSeq rest
    else
      match stoull (key.drop 4) with
      | none => none
      | some seqId =>
        -- the first id above the range ends it
        if seqId > toSeq then some []
        else
          match find val 0 with
          -- a value without a separator is left out
          | none => scanRange toSeq rest
          | some sep => (scanRange toSeq rest).map (⟨seqId, val.take sep, val.drop (sep + 1)⟩ :: ·)

def loadRange (store : Store) (fromSeq toSeq : UInt64) : Option (List StoredMessage) :=
  scanRange toSeq (setRange store (msgKey fromSeq))

def saveAck (err : Option MdbError) (store : Store) (clientId : Bytes) (seq : UInt64) : Store :=
  match err with
  | some _ => store
  | none => store.insert (ackKey clientId seq) (lit "1")

/-- The sequences in the order in which the cursor meets them; malformed keys are skipped. -/
def loadAcks (store : Store) (clientId : Bytes) : List UInt64 :=
  (prefixScan store (ackTagOf clientId)).filterMap
    fun e => stoull (e.1.drop (ackTagOf clientId).length)

/-- The keys of a scan that a compaction deletes: those whose sequence is at most `maxSeq`. -/
def keysUpTo (maxSeq : UInt64) (seqOf : Bytes → Option UInt64) (entries : List (Bytes × Bytes)) :
    List Bytes :=
  (entries.map Prod.fst).filter fun k =>
    match seqOf k with
    | some seq => seq ≤ maxSeq
    | none => false

def msgSeqOf (key : Bytes) : Option UInt64 := stoull (key.drop 4)

def ackSeqOf (key : Bytes) : Option UInt64 :=
  match rfind key 58 with
  | some lastColon => if lastColon > 3 then stoull (key.drop (lastColon + 1)) else none
  | none => none

def compact (err : Option MdbError) (store : Store) (maxSeqToDelete : UInt64) : Store :=
  if maxSeqToDelete = 0 then store
  else
    match err with
    | some _ => store
    | none => eraseAll store (keysUpTo maxSeqToDelete msgSeqOf (prefixScan store msgTag))

def purgeOldAcks (err : Option MdbError) (store : Store) (maxSeqToDelete : UInt64) : Store :=
  if maxSeqToDelete = 0 then store
  else
    match err with
    | some _ => store
    | none => eraseAll store (keysUpTo maxSeqToDelete ackSeqOf (prefixScan store ackTag))

/-- A writing call with the error its transaction meets, if any. -/
inductive Op
  | save (err : Option MdbError) (seq : UInt64) (topic payload : Bytes)
  | saveAck (err : Option MdbError) (clientId : Bytes) (seq : UInt64)
  | compact (err : Option MdbError) (maxSeqToDelete : UInt64)
  | purgeOldAcks (err : Option MdbError) (maxSeqToDelete : UInt64)

def apply (store : Store) : Op → Store
  | .save err seq topic payload => save err store seq topic payload
  | .saveAck err clientId seq => saveAck err store clientId seq
  | .compact err maxSeq => compact err store maxSeq
  | .purgeOldAcks err maxSeq => purgeOldAcks err store maxSeq

/-- The store after a list of calls on an empty database. -/
def build (ops : List Op) : Store := ops.foldl apply ∅

end LmdbStorage

end MetricMQ
