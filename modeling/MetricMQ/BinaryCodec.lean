import MetricMQ.BinaryProtocol
import MetricMQ.StreamFraming

/-! `BinaryProtocol::parse` in closed form, and its two laws: a well-formed frame is read
back from its bytes, and the bytes it accepts are those of the frame it returns. -/
namespace MetricMQ.BinaryProtocol

open ByteString BigEndian

theorem takeField_eq (buffer : Bytes) (offset len : ℕ) (h : offset ≤ buffer.length) :
    takeField buffer offset len = .ok (substr buffer offset len) := by
  unfold takeField substrE
  split_ifs with hlen hoff
  · omega
  · rfl
  · have hz : len = 0 := by omega
    simp [substr, hz]

/-- The frame `parse` builds from a complete body, the bytes behind the header. -/
def decodeBody (frame : BinaryFrame) (topicLen payloadLen : ℕ) (body : Bytes) : BinaryFrame :=
  let offset := topicLen + payloadLen
  let frame := { frame with topic := body.take topicLen, payload := substr body topicLen payloadLen }
  if frame.command.isSignedCmd then
    { frame with
      signature := Vector.ofFn fun i => body.getD (offset + i) 0
      keyId := be32 (body.getD (offset + 64) 0) (body.getD (offset + 65) 0) (body.getD (offset + 66) 0)
        (body.getD (offset + 67) 0)
      isSigned := true }
  else frame

theorem parseBody_eq (header body : Bytes) (hh : header.length = minFrameSize) (frame : BinaryFrame)
    (topicLen payloadLen : ℕ) :
    parseBody (header ++ body) frame topicLen payloadLen =
      .ok (if topicLen + payloadLen + trailerSize frame.command ≤ body.length then
        some (decodeBody frame topicLen payloadLen body,
          minFrameSize + topicLen + payloadLen + trailerSize frame.command)
      else none) := by
  have hl : (header ++ body).length = minFrameSize + body.length := by rw [List.length_append, hh]
  have hget (i : ℕ) : (header ++ body).getD (minFrameSize + i) 0 = body.getD i 0 := by
    rw [List.getD_eq_getElem?_getD, List.getElem?_append_right (by omega), hh, Nat.add_sub_cancel_left,
      List.getD_eq_getElem?_getD]
  have hdrop (i : ℕ) : (header ++ body).drop (minFrameSize + i) = body.drop i := by
    rw [← hh, ← List.drop_drop, List.drop_left]
  -- one length check covers all the reads that follow
  unfold parseBody
  by_cases hc : topicLen + payloadLen + trailerSize frame.command ≤ body.length
  · rw [if_neg (by omega), if_pos hc]
    have ht : takeField (header ++ body) minFrameSize topicLen = .ok (body.take topicLen) := by
      rw [takeField_eq _ _ _ (by omega), substr, ← Nat.add_zero minFrameSize, hdrop, List.drop_zero]
    have hp : takeField (header ++ body) (minFrameSize + topicLen) payloadLen =
        .ok (substr body topicLen payloadLen) := by
      rw [takeField_eq _ _ _ (by omega), substr, hdrop, substr]
    by_cases hs : frame.command.isSignedCmd = true
    · have hsz : trailerSize frame.command = signatureSize + keyIdSize := if_pos hs
      have hcopy : copySignature (header ++ body) (minFrameSize + topicLen + payloadLen) =
          .ok (Vector.ofFn fun i => body.getD (topicLen + payloadLen + i) 0) := by
        rw [copySignature, if_neg (by simp only [signatureSize, keyIdSize] at *; omega)]
        simp only [Nat.add_assoc, hget]
      have hkey : readUint32 (header ++ body) (minFrameSize + topicLen + payloadLen + signatureSize) =
          .ok (be32 (body.getD (topicLen + payloadLen + 64) 0) (body.getD (topicLen + payloadLen + 65) 0)
            (body.getD (topicLen + payloadLen + 66) 0) (body.getD (topicLen + payloadLen + 67) 0)) := by
        rw [readUint32, if_neg (by simp only [signatureSize, keyIdSize] at *; omega)]
        simp only [signatureSize, Nat.add_assoc, hget]
      simp only [decodeBody, hs, ↓reduceIte, bind, Except.bind, ht, hp, hcopy, hkey]
      rfl
    · simp only [decodeBody, hs, ↓reduceIte, bind, Except.bind, ht, hp, Bool.false_eq_true]
      rfl
  · rw [if_pos (by omega), if_neg hc]

/-- The frames on which `serialize` and `parse` are inverse. -/
structure FrameWellFormed (f : BinaryFrame) : Prop where
  version : f.version = binaryProtocolVersion
  topic : f.topic.length ≤ maxTopicLen.toNat
  payload : f.payload.length ≤ maxPayloadLen.toNat
  signed : f.isSigned = f.command.isSignedCmd
  unsigned : f.isSigned = false → f.signature = Vector.replicate 64 0 ∧ f.keyId = 0

theorem parseE_short (b : Bytes) (h : b.length < minFrameSize) : parseE b = .ok none := by
  rw [parseE, if_pos h]

/-- `parse` in closed form on a buffer that holds a whole header. -/
theorem parseE_header (v c s0 s1 s2 s3 s4 s5 s6 s7 t0 t1 p0 p1 p2 p3 : UInt8) (body : Bytes) :
    parseE ([v, c, s0, s1, s2, s3, s4, s5, s6, s7, t0, t1, p0, p1, p2, p3] ++ body) =
      .ok (if v = binaryProtocolVersion ∧ be16 t0 t1 ≤ maxTopicLen ∧ be32 p0 p1 p2 p3 ≤ maxPayloadLen ∧
          (be16 t0 t1).toNat + (be32 p0 p1 p2 p3).toNat + trailerSize (.ofByte c) ≤ body.length then
        some (decodeBody { version := v, command := .ofByte c, sequence := be64 s0 s1 s2 s3 s4 s5 s6 s7 }
            (be16 t0 t1).toNat (be32 p0 p1 p2 p3).toNat body,
          minFrameSize + (be16 t0 t1).toNat + (be32 p0 p1 p2 p3).toNat + trailerSize (.ofByte c))
      else none) := by
  have hh : [v, c, s0, s1, s2, s3, s4, s5, s6, s7, t0, t1, p0, p1, p2, p3].length = minFrameSize := rfl
  have hlen : ¬([v, c, s0, s1, s2, s3, s4, s5, s6, s7, t0, t1, p0, p1, p2, p3] ++ body).length <
      minFrameSize := by
    rw [List.length_append, hh]
    omega
  have h64 : readUint64 ([v, c, s0, s1, s2, s3, s4, s5, s6, s7, t0, t1, p0, p1, p2, p3] ++ body) 2 =
      .ok (be64 s0 s1 s2 s3 s4 s5 s6 s7) := by
    rw [readUint64, if_neg (by rw [List.length_append, hh, minFrameSize]; omega)]
    rfl
  have h16 : readUint16 ([v, c, s0, s1, s2, s3, s4, s5, s6, s7, t0, t1, p0, p1, p2, p3] ++ body) 10 =
      .ok (be16 t0 t1) := by
    rw [readUint16, if_neg (by rw [List.length_append, hh, minFrameSize]; omega)]
    rfl
  have h32 : readUint32 ([v, c, s0, s1, s2, s3, s4, s5, s6, s7, t0, t1, p0, p1, p2, p3] ++ body) 12 =
      .ok (be32 p0 p1 p2 p3) := by
    rw [readUint32, if_neg (by rw [List.length_append, hh, minFrameSize]; omega)]
    rfl
  -- the three checks in the order of the source: version, topic length, payload length
  rw [parseE, if_neg hlen]
  by_cases hv : v = binaryProtocolVersion
  · have hv' : ¬([v, c, s0, s1, s2, s3, s4, s5, s6, s7, t0, t1, p0, p1, p2, p3] ++ body).getD 0 0 ≠
        binaryProtocolVersion := not_not.mpr hv
    dsimp only
    rw [if_neg hv', h64, h16, h32]
    simp only [bind, Except.bind]
    by_cases ht : be16 t0 t1 ≤ maxTopicLen
    · by_cases hp : be32 p0 p1 p2 p3 ≤ maxPayloadLen
      · rw [if_neg (UInt16.not_lt.mpr ht), if_neg (UInt32.not_lt.mpr hp), parseBody_eq _ _ hh]
        simp only [hv, ht, hp, true_and]
        rfl
      · rw [if_neg (UInt16.not_lt.mpr ht), if_pos (UInt32.not_le.mp hp), if_neg (fun h => hp h.2.2.1)]
        rfl
    · rw [if_pos (UInt16.not_le.mp ht), if_neg (fun h => ht h.2.1)]
      rfl
  · have hv' : ([v, c, s0, s1, s2, s3, s4, s5, s6, s7, t0, t1, p0, p1, p2, p3] ++ body).getD 0 0 ≠
        binaryProtocolVersion := hv
    dsimp only
    rw [if_pos hv', if_neg (fun h => hv h.1)]

theorem exists_cons_of_le {n : ℕ} {b : Bytes} (h : n + 1 ≤ b.length) :
    ∃ x t, b = x :: t ∧ n ≤ t.length := by
  cases b with
  | nil => simp at h
  | cons x t => exact ⟨x, t, rfl, by simpa using h⟩

theorem header_split (b : Bytes) (h : minFrameSize ≤ b.length) :
    ∃ v c s0 s1 s2 s3 s4 s5 s6 s7 t0 t1 p0 p1 p2 p3 body,
      b = [v, c, s0, s1, s2, s3, s4, s5, s6, s7, t0, t1, p0, p1, p2, p3] ++ body := by
  obtain ⟨v, b0, rfl, h0⟩ := exists_cons_of_le h
  obtain ⟨c, b1, rfl, h1⟩ := exists_cons_of_le h0
  obtain ⟨s0, b2, rfl, h2⟩ := exists_cons_of_le h1
  obtain ⟨s1, b3, rfl, h3⟩ := exists_cons_of_le h2
  obtain ⟨s2, b4, rfl, h4⟩ := exists_cons_of_le h3
  obtain ⟨s3, b5, rfl, h5⟩ := exists_cons_of_le h4
  obtain ⟨s4, b6, rfl, h6⟩ := exists_cons_of_le h5
  obtain ⟨s5, b7, rfl, h7⟩ := exists_cons_of_le h6
  obtain ⟨s6, b8, rfl, h8⟩ := exists_cons_of_le h7
  obtain ⟨s7, b9, rfl, h9⟩ := exists_cons_of_le h8
  obtain ⟨t0, b10, rfl, h10⟩ := exists_cons_of_le h9
  obtain ⟨t1, b11, rfl, h11⟩ := exists_cons_of_le h10
  obtain ⟨p0, b12, rfl, h12⟩ := exists_cons_of_le h11
  obtain ⟨p1, b13, rfl, h13⟩ := exists_cons_of_le h12
  obtain ⟨p2, b14, rfl, h14⟩ := exists_cons_of_le h13
  obtain ⟨p3, b15, rfl, h15⟩ := exists_cons_of_le h14
  exact ⟨_, _, _, _, _, _, _, _, _, _, _, _, _, _, _, _, _, rfl⟩

/-- No path of `parse` reaches a throw or an access outside the buffer. -/
theorem parseE_eq_ok (b : Bytes) : parseE b = .ok (parse b) := by
  by_cases h : b.length < minFrameSize
  · rw [parse, parseE_short b h]
  · obtain ⟨v, c, s0, s1, s2, s3, s4, s5, s6, s7, t0, t1, p0, p1, p2, p3, body, rfl⟩ :=
      header_split b (by omega)
    rw [parse, parseE_header]

def signedTrailer (f : BinaryFrame) : Bytes :=
  if f.isSigned then f.signature.toList ++ bytes32 f.keyId else []

theorem serialize_eq (f : BinaryFrame) :
    serialize f = [f.version, f.command.toByte] ++ bytes64 f.sequence ++
      bytes16 (UInt16.ofNat f.topic.length) ++ bytes32 (UInt32.ofNat f.payload.length) ++
      (f.topic ++ f.payload ++ signedTrailer f) := by
  unfold serialize signedTrailer
  split_ifs <;> simp only [writeUint16, writeUint32, writeUint64, List.append_assoc, List.append_nil]

theorem length_signedTrailer (f : BinaryFrame) (h : f.isSigned = f.command.isSignedCmd) :
    (signedTrailer f).length = trailerSize f.command := by
  unfold signedTrailer trailerSize
  rw [h]
  split_ifs
  · rw [List.length_append, Vector.length_toList, length_bytes32]
    rfl
  · rfl

theorem length_serialize (f : BinaryFrame) (h : f.isSigned = f.command.isSignedCmd) :
    (serialize f).length =
      minFrameSize + f.topic.length + f.payload.length + trailerSize f.command := by
  rw [serialize_eq, ← length_signedTrailer f h]
  simp only [List.length_append, length_bytes16, length_bytes32, length_bytes64, List.length_cons,
    List.length_nil, minFrameSize]
  omega

theorem decodeBody_encoded (f : BinaryFrame) (hf : FrameWellFormed f) (r : Bytes) :
    decodeBody { version := f.version, command := f.command, sequence := f.sequence }
      f.topic.length f.payload.length (f.topic ++ f.payload ++ signedTrailer f ++ r) = f := by
  have ht : (f.topic ++ f.payload ++ signedTrailer f ++ r).take f.topic.length = f.topic := by
    simp only [List.append_assoc, List.take_left]
  have hp : substr (f.topic ++ f.payload ++ signedTrailer f ++ r) f.topic.length f.payload.length =
      f.payload := by
    simp only [substr, List.append_assoc, List.drop_left, List.take_left]
  have hget (i : ℕ) : (f.topic ++ f.payload ++ signedTrailer f ++ r).getD
      (f.topic.length + f.payload.length + i) 0 = (signedTrailer f ++ r).getD i 0 := by
    rw [← List.length_append, List.append_assoc (f.topic ++ f.payload), List.getD_eq_getElem?_getD,
      List.getElem?_append_right (Nat.le_add_right _ _), Nat.add_sub_cancel_left,
      List.getD_eq_getElem?_getD]
  unfold decodeBody
  rw [ht, hp]
  -- the trailer is there exactly for the two signed commands
  by_cases hs : f.command.isSignedCmd = true
  · have hsig : f.isSigned = true := hf.signed.trans hs
    have htr : signedTrailer f = f.signature.toList ++ bytes32 f.keyId := if_pos hsig
    obtain ⟨k0, k1, k2, k3, hk, hke⟩ := be32_bytes32 f.keyId
    have hvec : (Vector.ofFn fun i : Fin 64 => (f.topic ++ f.payload ++ signedTrailer f ++ r).getD
        (f.topic.length + f.payload.length + i) 0) = f.signature := by
      apply Vector.ext
      intro i hi
      rw [Vector.getElem_ofFn, hget, htr, List.append_assoc, List.getD_eq_getElem?_getD,
        List.getElem?_append_left (by rw [Vector.length_toList]; exact hi)]
      simp [hi]
    have hkb (j : ℕ) : (signedTrailer f ++ r).getD (64 + j) 0 = ([k0, k1, k2, k3] ++ r).getD j 0 := by
      rw [htr, hk, List.append_assoc, List.getD_eq_getElem?_getD, List.getElem?_append_right
        (by rw [Vector.length_toList]; omega), Vector.length_toList, Nat.add_sub_cancel_left,
        List.getD_eq_getElem?_getD]
    dsimp only
    rw [if_pos hs, hvec, hget, hget, hget, hget]
    have h0 := hkb 0
    have h1 := hkb 1
    have h2 := hkb 2
    have h3 := hkb 3
    simp only [Nat.add_zero, Nat.reduceAdd] at h0 h1 h2 h3
    rw [h0, h1, h2, h3]
    simp only [List.cons_append, List.getD_cons_zero, List.getD_cons_succ, hke]
    cases f
    simp only at hsig
    simp only [hsig]
  · have hsig : f.isSigned = false := by rw [hf.signed]; simpa using hs
    obtain ⟨hz, hk⟩ := hf.unsigned hsig
    dsimp only
    rw [if_neg hs]
    cases f
    simp only at hsig hz hk
    simp only [hsig, hz, hk]

/-- A well-formed frame is read back from its bytes whatever follows them. -/
theorem parse_serialize_append (f : BinaryFrame) (hf : FrameWellFormed f) (r : Bytes) :
    parse (serialize f ++ r) = some (f, (serialize f).length) := by
  obtain ⟨s0, s1, s2, s3, s4, s5, s6, s7, hs, hse⟩ := be64_bytes64 f.sequence
  obtain ⟨t0, t1, ht, hte⟩ := be16_bytes16 (UInt16.ofNat f.topic.length)
  obtain ⟨p0, p1, p2, p3, hp, hpe⟩ := be32_bytes32 (UInt32.ofNat f.payload.length)
  have htl := hf.topic
  have hpl := hf.payload
  have htn : (be16 t0 t1).toNat = f.topic.length := by
    rw [hte, UInt16.toNat_ofNat']
    exact Nat.mod_eq_of_lt (lt_of_le_of_lt htl (by decide))
  have hpn : (be32 p0 p1 p2 p3).toNat = f.payload.length := by
    rw [hpe, UInt32.toNat_ofNat']
    exact Nat.mod_eq_of_lt (lt_of_le_of_lt hpl (by decide))
  have hb : serialize f ++ r = [f.version, f.command.toByte, s0, s1, s2, s3, s4, s5, s6, s7, t0, t1,
      p0, p1, p2, p3] ++ (f.topic ++ f.payload ++ signedTrailer f ++ r) := by
    rw [serialize_eq, hs, ht, hp]
    simp only [List.append_assoc, List.cons_append, List.nil_append]
  have hcond : f.version = binaryProtocolVersion ∧ be16 t0 t1 ≤ maxTopicLen ∧
      be32 p0 p1 p2 p3 ≤ maxPayloadLen ∧
      (be16 t0 t1).toNat + (be32 p0 p1 p2 p3).toNat + trailerSize (.ofByte f.command.toByte) ≤
        (f.topic ++ f.payload ++ signedTrailer f ++ r).length := by
    refine ⟨hf.version, ?_, ?_, ?_⟩
    · rw [UInt16.le_iff_toNat_le, htn]
      exact htl
    · rw [UInt32.le_iff_toNat_le, hpn]
      exact hpl
    · rw [htn, hpn, BinaryCommand.ofByte_toByte, ← length_signedTrailer f hf.signed]
      simp only [List.length_append]
      omega
  rw [parse, hb, parseE_header, if_pos hcond, htn, hpn, hse, BinaryCommand.ofByte_toByte,
    decodeBody_encoded f hf r, length_serialize f hf.signed]

theorem decodeBody_wellFormed (v c : UInt8) (seq : UInt64) (tl pl : ℕ) (body : Bytes)
    (hv : v = binaryProtocolVersion) (ht : tl ≤ maxTopicLen.toNat) (hp : pl ≤ maxPayloadLen.toNat) :
    FrameWellFormed (decodeBody { version := v, command := .ofByte c, sequence := seq } tl pl body) := by
  have htl : (body.take tl).length ≤ tl := List.length_take_le tl body
  have hpl : (substr body tl pl).length ≤ pl := List.length_take_le pl _
  unfold decodeBody
  dsimp only
  split_ifs with hs
  · exact ⟨hv, Nat.le_trans htl ht, Nat.le_trans hpl hp, hs.symm, fun h => absurd h (by simp)⟩
  · exact ⟨hv, Nat.le_trans htl ht, Nat.le_trans hpl hp, by simpa using hs, fun _ => ⟨rfl, rfl⟩⟩

theorem ofFn_getD (body : Bytes) (i n : ℕ) (h : i + n ≤ body.length) :
    List.ofFn (fun j : Fin n => body.getD (i + j) 0) = substr body i n := by
  apply List.ext_getElem
  · simp only [List.length_ofFn, substr, List.length_take, List.length_drop]
    omega
  · intro j h1 h2
    rw [List.length_ofFn] at h1
    simp only [List.getElem_ofFn, substr, List.getElem_take, List.getElem_drop]
    rw [List.getD_eq_getElem?_getD, List.getElem?_eq_getElem (by omega), Option.getD_some]

/-- A complete body is the topic, the payload and the trailer of the frame built from it. -/
theorem decodeBody_bytes (frame : BinaryFrame) (hu : frame.isSigned = false) (tl pl : ℕ) (body : Bytes)
    (h : tl + pl + trailerSize frame.command ≤ body.length) :
    body.take (tl + pl + trailerSize frame.command) =
      (decodeBody frame tl pl body).topic ++ (decodeBody frame tl pl body).payload ++
        signedTrailer (decodeBody frame tl pl body) := by
  unfold decodeBody trailerSize at *
  by_cases hs : frame.command.isSignedCmd = true
  · simp only [hs, ↓reduceIte, signatureSize, keyIdSize] at h
    have hsig : (Vector.ofFn fun i : Fin 64 => body.getD (tl + pl + i) 0).toList =
        substr body (tl + pl) 64 := by
      rw [Vector.toList_ofFn]
      exact ofFn_getD body (tl + pl) 64 (by omega)
    have hkey : bytes32 (be32 (body.getD (tl + pl + 64) 0) (body.getD (tl + pl + 65) 0)
        (body.getD (tl + pl + 66) 0) (body.getD (tl + pl + 67) 0)) = substr body (tl + pl + 64) 4 := by
      rw [bytes32_be32, ← ofFn_getD body (tl + pl + 64) 4 (by omega)]
      rfl
    simp only [hs, ↓reduceIte, signatureSize, keyIdSize, signedTrailer, hsig, hkey]
    calc
      body.take (tl + pl + 68) = substr body 0 (tl + pl + (64 + 4)) := rfl
      _ = substr body 0 tl ++ substr body tl pl ++
          (substr body (tl + pl) 64 ++ substr body (tl + pl + 64) 4) := by
        rw [substr_add, substr_add, substr_add, Nat.zero_add, Nat.zero_add]
  · simp only [hs, ↓reduceIte, Bool.false_eq_true, signedTrailer, hu, Nat.add_zero, List.append_nil]
    exact (substr_add body 0 tl pl).trans (by rw [Nat.zero_add]; rfl)

/-- What `parse` accepts is the serialization of the frame it returns. -/
theorem parse_sound (b : Bytes) (f : BinaryFrame) (n : ℕ) (h : parse b = some (f, n)) :
    FrameWellFormed f ∧ n = (serialize f).length ∧ ∃ r, b = serialize f ++ r := by
  have hlen : minFrameSize ≤ b.length := by
    by_contra hn
    rw [parse, parseE_short b (by omega)] at h
    contradiction
  obtain ⟨v, c, s0, s1, s2, s3, s4, s5, s6, s7, t0, t1, p0, p1, p2, p3, body, rfl⟩ := header_split b hlen
  rw [parse, parseE_header] at h
  dsimp only at h
  split_ifs at h with hc
  obtain ⟨hv, ht, hp, hb⟩ := hc
  let tl := (be16 t0 t1).toNat
  let pl := (be32 p0 p1 p2 p3).toNat
  let frame : BinaryFrame :=
    { version := v, command := .ofByte c, sequence := be64 s0 s1 s2 s3 s4 s5 s6 s7 }
  have hf : f = decodeBody frame tl pl body := by
    simp only [Option.some.injEq, Prod.mk.injEq] at h
    exact h.1.symm
  have hn : n = minFrameSize + tl + pl + trailerSize (.ofByte c) := by
    simp only [Option.some.injEq, Prod.mk.injEq] at h
    exact h.2.symm
  have hcmd : f.command = .ofByte c := by
    rw [hf]
    unfold decodeBody
    dsimp only
    split_ifs <;> rfl
  have hseq : f.sequence = be64 s0 s1 s2 s3 s4 s5 s6 s7 := by
    rw [hf]
    unfold decodeBody
    dsimp only
    split_ifs <;> rfl
  have htop : f.topic.length = tl := by
    have hl : (body.take tl).length = tl := by rw [List.length_take]; omega
    rw [hf]
    unfold decodeBody
    dsimp only
    split_ifs <;> exact hl
  have hpay : f.payload.length = pl := by
    have hl : (substr body tl pl).length = pl := by
      rw [substr, List.length_take, List.length_drop]
      omega
    rw [hf]
    unfold decodeBody
    dsimp only
    split_ifs <;> exact hl
  have hwf : FrameWellFormed f := by
    rw [hf]
    exact decodeBody_wellFormed v c _ tl pl body hv (UInt16.le_iff_toNat_le.mp ht)
      (UInt32.le_iff_toNat_le.mp hp)
  -- header and body are compared separately; what follows the body is the rest `r`
  have hbody := decodeBody_bytes frame rfl tl pl body hb
  refine ⟨hwf, ?_, body.drop (tl + pl + trailerSize frame.command), ?_⟩
  · rw [length_serialize f hwf.signed, htop, hpay, hcmd, hn]
  · rw [serialize_eq, hseq, bytes64_be64, htop, hpay, hcmd, BinaryCommand.toByte_ofByte,
      UInt16.ofNat_toNat, UInt32.ofNat_toNat, bytes16_be16, bytes32_be32, hwf.version, ← hv, hf, ← hbody]
    simp only [List.cons_append, List.nil_append, List.take_append_drop]

theorem parse_progress (b : Bytes) (f : BinaryFrame) (n : ℕ) (h : parse b = some (f, n)) :
    minFrameSize ≤ n ∧ n ≤ b.length := by
  obtain ⟨hwf, hn, r, rfl⟩ := parse_sound b f n h
  have hl := length_serialize f hwf.signed
  rw [List.length_append]
  omega

theorem parse_stable (b r : Bytes) (f : BinaryFrame) (n : ℕ) (h : parse b = some (f, n)) :
    parse (b ++ r) = some (f, n) := by
  obtain ⟨hwf, hn, t, rfl⟩ := parse_sound b f n h
  rw [List.append_assoc, hn]
  exact parse_serialize_append f hwf (t ++ r)

def parser : StreamFraming.StreamParser UInt8 BinaryFrame where
  parse := parse
  progress := fun b f n h => ⟨by have := (parse_progress b f n h).1; rw [minFrameSize] at this; omega,
    (parse_progress b f n h).2⟩
  stable := fun b r f n h => parse_stable b r f n h

theorem parser_parse : parser.parse = parse := rfl

/-- `serialize` and `parse` are inverse: a well-formed frame is read back whatever follows its
bytes, and the bytes that were consumed are those the frame is written as. -/
theorem serialize_parse_inverse :
    (∀ f, FrameWellFormed f → ∀ r, parse (serialize f ++ r) = some (f, (serialize f).length)) ∧
    ∀ b f n, parse b = some (f, n) → serialize f = b.take n := by
  refine ⟨fun f hf r => parse_serialize_append f hf r, ?_⟩
  intro b f n h
  obtain ⟨-, hn, r, rfl⟩ := parse_sound b f n h
  rw [hn, List.take_left]

/-- A signed frame with two bytes behind it, and a frame of an unknown command. -/
theorem serialize_parse_inverse_signed :
    parse (serialize (.signedPublish (lit "t") (lit "p") (Vector.replicate 64 7) 3 9) ++ [1, 2]) =
      some (.signedPublish (lit "t") (lit "p") (Vector.replicate 64 7) 3 9, 86) ∧
    serialize { command := .unnamed 0x7f (by decide), topic := lit "ab" } =
      ([1, 0x7f, 0, 0, 0, 0, 0, 0, 0, 0, 0, 2, 0, 0, 0, 0] ++ lit "ab" ++ [5]).take 18 := by
  constructor
  · exact serialize_parse_inverse.1 _ ⟨rfl, by decide, by decide, rfl, by decide⟩ [1, 2]
  · exact serialize_parse_inverse.2 _ _ _ (by decide)

end MetricMQ.BinaryProtocol
