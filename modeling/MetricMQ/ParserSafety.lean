import MetricMQ.BinaryCodec

/-! The binary parser on arbitrary buffers: it returns, no read leaves the buffer, no sum of sizes
wraps, and what it accepts is settled by the bytes it consumes. -/
namespace MetricMQ

open ByteString BigEndian

namespace BinaryProtocol

section Words

/-- `buffer[i]` with an index of type `size_t`. -/
def byteAt (buffer : Bytes) (i : UInt64) : Except Fault UInt8 :=
  match buffer[i.toNat]? with
  | none => .error .outOfRange
  | some c => .ok c

def readUint16At (buffer : Bytes) (offset : UInt64) : Except Fault UInt16 :=
  if (offset + 2).toNat > buffer.length then .error .underflow
  else do
    return be16 (← byteAt buffer offset) (← byteAt buffer (offset + 1))

def readUint32At (buffer : Bytes) (offset : UInt64) : Except Fault UInt32 :=
  if (offset + 4).toNat > buffer.length then .error .underflow
  else do
    return be32 (← byteAt buffer offset) (← byteAt buffer (offset + 1))
      (← byteAt buffer (offset + 2)) (← byteAt buffer (offset + 3))

def readUint64At (buffer : Bytes) (offset : UInt64) : Except Fault UInt64 :=
  if (offset + 8).toNat > buffer.length then .error .underflow
  else do
    return be64 (← byteAt buffer offset) (← byteAt buffer (offset + 1))
      (← byteAt buffer (offset + 2)) (← byteAt buffer (offset + 3))
      (← byteAt buffer (offset + 4)) (← byteAt buffer (offset + 5))
      (← byteAt buffer (offset + 6)) (← byteAt buffer (offset + 7))

/-- `takeField` together with the offset behind the field. -/
def takeFieldAt (buffer : Bytes) (offset len : UInt64) : Except Fault (Bytes × UInt64) :=
  if len > 0 then do
    let field ← substrE buffer offset.toNat len.toNat
    return (field, offset + len)
  else .ok ([], offset)

/-- `total_size`, a sum of `size_t`. -/
def totalSize (command : BinaryCommand) (topicLen : UInt16) (payloadLen : UInt32) : UInt64 :=
  UInt64.ofNat minFrameSize + topicLen.toUInt64 + payloadLen.toUInt64 +
    UInt64.ofNat (trailerSize command)

/-- `parseBody` in words; besides the frame and its size it returns the final offset. -/
def parseBodyAt (buffer : Bytes) (frame : BinaryFrame) (topicLen : UInt16) (payloadLen : UInt32)
    (offset : UInt64) : Except Fault (Option (BinaryFrame × UInt64 × UInt64)) :=
  let total := totalSize frame.command topicLen payloadLen
  if buffer.length < total.toNat then .ok none
  else do
    let (topic, offset) ← takeFieldAt buffer offset topicLen.toUInt64
    let (payload, offset) ← takeFieldAt buffer offset payloadLen.toUInt64
    let frame := { frame with topic := topic, payload := payload }
    if frame.command.isSignedCmd then
      -- the copy has no length check of its own
      let signature ← copySignature buffer offset.toNat
      let offset := offset + UInt64.ofNat signatureSize
      let keyId ← readUint32At buffer offset
      let offset := offset + UInt64.ofNat keyIdSize
      return some ({ frame with signature := signature, keyId := keyId, isSigned := true }, total, offset)
    else return some (frame, total, offset)

/-- `BinaryProtocol::parse` with its offset and sizes as the words they are. -/
def parseAt (buffer : Bytes) : Except Fault (Option (BinaryFrame × UInt64 × UInt64)) :=
  if buffer.length < minFrameSize then .ok none
  else do
    let offset : UInt64 := 0
    let version ← byteAt buffer offset
    let offset := offset + 1
    -- nothing behind another version is read
    if version ≠ binaryProtocolVersion then return none
    let command ← byteAt buffer offset
    let offset := offset + 1
    let sequence ← readUint64At buffer offset
    let offset := offset + 8
    let topicLen ← readUint16At buffer offset
    let offset := offset + 2
    let payloadLen ← readUint32At buffer offset
    let offset := offset + 4
    -- both limits are checked before the lengths are added up
    if topicLen > maxTopicLen then return none
    if payloadLen > maxPayloadLen then return none
    parseBodyAt buffer { version := version, command := .ofByte command, sequence := sequence }
      topicLen payloadLen offset

theorem toNat_add_small (offset k : UInt64) (h : offset.toNat + k.toNat < 2 ^ 64) :
    (offset + k).toNat = offset.toNat + k.toNat := by
  rw [UInt64.toNat_add, Nat.mod_eq_of_lt h]

theorem byteAt_eq (buffer : Bytes) (i : UInt64) (h : i.toNat < buffer.length) :
    byteAt buffer i = .ok (buffer.getD i.toNat 0) := by
  rw [byteAt, List.getElem?_eq_getElem h, List.getD_eq_getElem?_getD, List.getElem?_eq_getElem h]
  rfl

theorem byteAt_add_eq (buffer : Bytes) (offset k : UInt64) (h : offset.toNat + k.toNat < 2 ^ 64)
    (hb : offset.toNat + k.toNat < buffer.length) :
    byteAt buffer (offset + k) = .ok (buffer.getD (offset.toNat + k.toNat) 0) := by
  have hk := toNat_add_small offset k h
  rw [byteAt_eq _ _ (by omega), hk]

theorem readUint16At_eq (buffer : Bytes) (offset : UInt64) (h : offset.toNat + 2 < 2 ^ 64) :
    readUint16At buffer offset = readUint16 buffer offset.toNat := by
  have h2 : (offset + 2).toNat = offset.toNat + 2 := toNat_add_small offset 2 h
  rw [readUint16At, readUint16, h2]
  split_ifs with hb
  · rfl
  · have h1 := byteAt_add_eq buffer offset 1 (by change _ + 1 < _; omega) (by change _ + 1 < _; omega)
    rw [byteAt_eq _ _ (by omega), h1]
    rfl

theorem readUint32At_eq (buffer : Bytes) (offset : UInt64) (h : offset.toNat + 4 < 2 ^ 64) :
    readUint32At buffer offset = readUint32 buffer offset.toNat := by
  have h4 : (offset + 4).toNat = offset.toNat + 4 := toNat_add_small offset 4 h
  rw [readUint32At, readUint32, h4]
  split_ifs with hb
  · rfl
  · have hk (k : UInt64) (hk : k.toNat < 4) :=
      byteAt_add_eq buffer offset k (by omega) (by omega)
    rw [byteAt_eq _ _ (by omega), hk 1 (by decide), hk 2 (by decide), hk 3 (by decide)]
    rfl

theorem readUint64At_eq (buffer : Bytes) (offset : UInt64) (h : offset.toNat + 8 < 2 ^ 64) :
    readUint64At buffer offset = readUint64 buffer offset.toNat := by
  have h8 : (offset + 8).toNat = offset.toNat + 8 := toNat_add_small offset 8 h
  rw [readUint64At, readUint64, h8]
  split_ifs with hb
  · rfl
  · have hk (k : UInt64) (hk : k.toNat < 8) :=
      byteAt_add_eq buffer offset k (by omega) (by omega)
    rw [byteAt_eq _ _ (by omega), hk 1 (by decide), hk 2 (by decide), hk 3 (by decide), hk 4 (by decide),
      hk 5 (by decide), hk 6 (by decide), hk 7 (by decide)]
    rfl

theorem takeFieldAt_eq (buffer : Bytes) (offset len : UInt64) :
    takeFieldAt buffer offset len =
      (takeField buffer offset.toNat len.toNat).map fun field => (field, offset + len) := by
  rw [takeFieldAt, takeField]
  by_cases h : len.toNat > 0
  · have hl : len > 0 := UInt64.lt_iff_toNat_lt.mpr h
    rw [if_pos hl, if_pos h]
    cases substrE buffer offset.toNat len.toNat <;> rfl
  · have hz : len = 0 := UInt64.toNat_inj.mp (by change _ = 0; omega)
    subst hz
    rw [UInt64.add_zero]
    rfl

/-- The offsets behind the topic, the payload and the signature: the lengths of the header are
words of 16 and 32 bits, so no addition wraps. -/
theorem toNat_offsets (topicLen : UInt16) (payloadLen : UInt32) :
    (UInt64.ofNat minFrameSize + topicLen.toUInt64).toNat = minFrameSize + topicLen.toNat ∧
    (UInt64.ofNat minFrameSize + topicLen.toUInt64 + payloadLen.toUInt64).toNat =
      minFrameSize + topicLen.toNat + payloadLen.toNat ∧
    (UInt64.ofNat minFrameSize + topicLen.toUInt64 + payloadLen.toUInt64 +
      UInt64.ofNat signatureSize).toNat =
      minFrameSize + topicLen.toNat + payloadLen.toNat + signatureSize := by
  have ht := topicLen.toNat_lt
  have hp := payloadLen.toNat_lt
  have hm : (UInt64.ofNat minFrameSize).toNat = minFrameSize := rfl
  have hs : (UInt64.ofNat signatureSize).toNat = signatureSize := rfl
  have hm' : minFrameSize = 16 := rfl
  have hs' : signatureSize = 64 := rfl
  simp only [UInt64.toNat_add, hm, hs, UInt16.toNat_toUInt64, UInt32.toNat_toUInt64]
  omega

theorem trailerSize_le (command : BinaryCommand) : trailerSize command ≤ 68 := by
  rw [trailerSize]
  split_ifs
  · exact le_rfl
  · exact Nat.zero_le 68

theorem toNat_totalSize (command : BinaryCommand) (topicLen : UInt16) (payloadLen : UInt32) :
    (totalSize command topicLen payloadLen).toNat =
      minFrameSize + topicLen.toNat + payloadLen.toNat + trailerSize command := by
  have ht := topicLen.toNat_lt
  have hp := payloadLen.toNat_lt
  have hs := trailerSize_le command
  have hs' : (UInt64.ofNat (trailerSize command)).toNat = trailerSize command :=
    UInt64.toNat_ofNat_of_lt' (lt_of_le_of_lt hs (by decide))
  rw [totalSize, UInt64.toNat_add, (toNat_offsets topicLen payloadLen).2.1, hs', minFrameSize]
  omega

/-- A result in words: size and final offset are the same number. -/
def inWords (r : BinaryFrame × ℕ) : BinaryFrame × UInt64 × UInt64 :=
  (r.1, UInt64.ofNat r.2, UInt64.ofNat r.2)

theorem parseBodyAt_eq (buffer : Bytes) (frame : BinaryFrame) (topicLen : UInt16) (payloadLen : UInt32) :
    parseBodyAt buffer frame topicLen payloadLen (UInt64.ofNat minFrameSize) =
      (parseBody buffer frame topicLen.toNat payloadLen.toNat).map (Option.map inWords) := by
  have ht := topicLen.toNat_lt
  have hp := payloadLen.toNat_lt
  have hm : (UInt64.ofNat minFrameSize).toNat = minFrameSize := rfl
  obtain ⟨htopic, hpayload, hsig⟩ := toNat_offsets topicLen payloadLen
  have htotal : totalSize frame.command topicLen payloadLen =
      UInt64.ofNat (minFrameSize + topicLen.toNat + payloadLen.toNat + trailerSize frame.command) := by
    rw [← toNat_totalSize, UInt64.ofNat_toNat]
  rw [parseBodyAt, parseBody]
  dsimp only
  rw [toNat_totalSize]
  by_cases hlen : buffer.length <
      minFrameSize + topicLen.toNat + payloadLen.toNat + trailerSize frame.command
  · rw [if_pos hlen, if_pos hlen]
    rfl
  -- from here on both versions read the same fields at the same places
  rw [if_neg hlen, if_neg hlen, takeFieldAt_eq, hm, UInt16.toNat_toUInt64]
  cases takeField buffer minFrameSize topicLen.toNat with
  | error e => rfl
  | ok topic =>
    simp only [Except.map, bind, Except.bind]
    rw [takeFieldAt_eq, htopic, UInt32.toNat_toUInt64]
    cases takeField buffer (minFrameSize + topicLen.toNat) payloadLen.toNat with
    | error e => rfl
    | ok payload =>
      simp only [Except.map]
      split_ifs with hs
      · rw [hpayload]
        cases copySignature buffer (minFrameSize + topicLen.toNat + payloadLen.toNat) with
        | error e => rfl
        | ok signature =>
          dsimp only
          rw [readUint32At_eq _ _ (by rw [hsig, minFrameSize, signatureSize]; omega), hsig]
          cases readUint32 buffer _ with
          | error e => rfl
          | ok keyId =>
            have hend : UInt64.ofNat minFrameSize + topicLen.toUInt64 + payloadLen.toUInt64 +
                UInt64.ofNat signatureSize + UInt64.ofNat keyIdSize =
                totalSize frame.command topicLen payloadLen := by
              rw [totalSize, trailerSize, if_pos hs, UInt64.ofNat_add, ← UInt64.add_assoc]
            dsimp only
            rw [hend, htotal]
            rfl
      · have hend : UInt64.ofNat minFrameSize + topicLen.toUInt64 + payloadLen.toUInt64 =
            totalSize frame.command topicLen payloadLen := by
          rw [totalSize, trailerSize, if_neg hs]
          exact (UInt64.add_zero _).symm
        rw [hend, htotal]
        rfl

theorem parseAt_map (b : Bytes) : parseAt b = (parseE b).map (Option.map inWords) := by
  rw [parseAt, parseE]
  by_cases hlen : b.length < minFrameSize
  · rw [if_pos hlen, if_pos hlen]
    rfl
  rw [if_neg hlen, if_neg hlen]
  have hm : minFrameSize = 16 := rfl
  have h0 : byteAt b 0 = .ok (b.getD 0 0) := byteAt_eq b 0 (by change 0 < _; omega)
  have h1 : byteAt b (0 + 1) = .ok (b.getD 1 0) := byteAt_eq b (0 + 1) (by change 1 < _; omega)
  have h2 : readUint64At b (0 + 1 + 1) = readUint64 b 2 := readUint64At_eq b (0 + 1 + 1) (by decide)
  have h10 : readUint16At b (0 + 1 + 1 + 8) = readUint16 b 10 :=
    readUint16At_eq b (0 + 1 + 1 + 8) (by decide)
  have h12 : readUint32At b (0 + 1 + 1 + 8 + 2) = readUint32 b 12 :=
    readUint32At_eq b (0 + 1 + 1 + 8 + 2) (by decide)
  dsimp only
  rw [h0, h1, h2, h10, h12]
  simp only [bind, Except.bind]
  by_cases hv : b.getD 0 0 ≠ binaryProtocolVersion
  · rw [if_pos hv, if_pos hv]
    rfl
  rw [if_neg hv, if_neg hv]
  cases readUint64 b 2 with
  | error e => rfl
  | ok sequence =>
    cases readUint16 b 10 with
    | error e => rfl
    | ok topicLen =>
      cases readUint32 b 12 with
      | error e => rfl
      | ok payloadLen =>
        dsimp only
        by_cases ht : topicLen > maxTopicLen
        · rw [if_pos ht, if_pos ht]
          rfl
        by_cases hp : payloadLen > maxPayloadLen
        · rw [if_neg ht, if_neg ht, if_pos hp, if_pos hp]
          rfl
        · rw [if_neg ht, if_neg ht, if_neg hp, if_neg hp]
          exact parseBodyAt_eq b _ topicLen payloadLen

theorem parseAt_eq (b : Bytes) : parseAt b = .ok ((parse b).map inWords) := by
  rw [parseAt_map, parseE_eq_ok]
  rfl

theorem consumed_lt (b : Bytes) (f : BinaryFrame) (n : ℕ) (h : parse b = some (f, n)) : n < 2 ^ 64 := by
  obtain ⟨hwf, rfl, -⟩ := parse_sound b f n h
  have ht : f.topic.length ≤ 256 := hwf.topic
  have hp : f.payload.length ≤ 16777216 := hwf.payload
  have hs := trailerSize_le f.command
  rw [length_serialize f hwf.signed, minFrameSize]
  omega

theorem parseAt_eq_some_iff (b : Bytes) (f : BinaryFrame) (total offset : UInt64) :
    parseAt b = .ok (some (f, total, offset)) ↔ parse b = some (f, total.toNat) ∧ offset = total := by
  rw [parseAt_eq, Except.ok.injEq, Option.map_eq_some_iff]
  constructor
  · rintro ⟨⟨g, n⟩, hp, he⟩
    have hn := consumed_lt b g n hp
    obtain ⟨rfl, rfl, rfl⟩ : g = f ∧ UInt64.ofNat n = total ∧ UInt64.ofNat n = offset := by
      simpa only [inWords, Prod.mk.injEq] using he
    rw [UInt64.toNat_ofNat_of_lt' hn]
    exact ⟨hp, rfl⟩
  · rintro ⟨hp, rfl⟩
    refine ⟨_, hp, ?_⟩
    rw [inWords, UInt64.ofNat_toNat]

/-- On every buffer `parse` returns without a fault and its size is computed without a wrap;
the size of an accepted frame is the offset behind it and depends on its bytes alone. -/
theorem parseAt_returns (b : Bytes) :
    (∃ result, parseAt b = .ok result) ∧
    (∀ command topicLen payloadLen, (totalSize command topicLen payloadLen).toNat =
      minFrameSize + topicLen.toNat + payloadLen.toNat + trailerSize command) ∧
    ∀ f n offset, parseAt b = .ok (some (f, n, offset)) →
      16 ≤ n.toNat ∧ n.toNat ≤ b.length ∧ n = offset ∧
        (∀ r, parseAt (b ++ r) = .ok (some (f, n, offset))) ∧
        ∀ p, p <+: b.take n.toNat → p ≠ b.take n.toNat → parseAt p = .ok none := by
  refine ⟨⟨_, parseAt_eq b⟩, toNat_totalSize, ?_⟩
  intro f n offset h
  obtain ⟨hp, he⟩ := (parseAt_eq_some_iff b f n offset).mp h
  obtain ⟨h16, hn⟩ := parse_progress b f n.toNat hp
  refine ⟨h16, hn, he.symm, ?_, ?_⟩
  · intro r
    exact (parseAt_eq_some_iff (b ++ r) f n offset).mpr ⟨parse_stable b r f n.toNat hp, he⟩
  · intro p hpre hne
    have hnone : parse p = none := parser.parse_beginning b f n.toNat hp p hpre hne
    rw [parseAt_eq, hnone]
    rfl

/-- A signed frame of 86 bytes with one byte behind it. -/
theorem parseAt_returns_signed :
    let b := serialize (.signedPublish (lit "t") (lit "p") (Vector.replicate 64 7) 3 9)
    parseAt (b ++ [1] ++ [2]) =
      .ok (some (.signedPublish (lit "t") (lit "p") (Vector.replicate 64 7) 3 9, 86, 86)) ∧
    parseAt (b.take 85) = .ok none := by
  intro b
  have hp : parse (b ++ [1]) =
      some (.signedPublish (lit "t") (lit "p") (Vector.replicate 64 7) 3 9, 86) :=
    parse_serialize_append _ ⟨rfl, by decide, by decide, rfl, by decide⟩ [1]
  have h := (parseAt_eq_some_iff _ _ 86 86).mpr ⟨hp, rfl⟩
  obtain ⟨-, -, -, hstable, hbegin⟩ := (parseAt_returns (b ++ [1])).2.2 _ _ _ h
  exact ⟨hstable [2], hbegin _ (by decide) (by decide)⟩

end Words

end BinaryProtocol

end MetricMQ
