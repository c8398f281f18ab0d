import MetricMQ.Clients

/-! The replies of a RESP session against the parser of the client, and the acknowledgement of
the RESP subscriber against the handler of the broker. -/
namespace MetricMQ

open ByteString

namespace Session

/-- A client reads the replies it is meant to read, unless an unknown command name holds a CRLF:
the error reply repeats the name on a line of its own. -/
theorem replies_unsplit_iff (s : Session) (b : Bytes) (v : RespValue) (n : ℕ)
    (hb : b.length ≤ maxRecvBuffer) (h : RespParser.parse b = some (v, n)) :
    written (handleCommand s v) = (replies v).map RespParser.serialize ∧
    ((∀ w ∈ replies v, RespParser.parse (RespParser.serialize w) =
      some (w, (RespParser.serialize w).length)) ↔ echoesCRLF v = false) := by
  refine ⟨written_handleCommand s v, ?_⟩
  rw [← wellFormed_replies_iff v (argsFit_of_parse b v n hb h)]
  -- a value that is read back is within the limits of the parser, and those are read back
  refine forall₂_congr fun w _ => ?_
  exact ⟨fun hp => RespParser.wellFormed_of_parse _ w _ hp, RespParser.parse_serialize w⟩

/-- A PING whose argument is a CRLF is answered in one value. -/
theorem replies_unsplit_ping :
    RespParser.parse (RespParser.serialize (.bulkString (lit "\r\n"))) =
      some (.bulkString (lit "\r\n"), (RespParser.serialize (.bulkString (lit "\r\n"))).length) :=
  (replies_unsplit_iff {} (lit "*2\r\n$4\r\nPING\r\n$2\r\n\r\n\r\n")
    (.array [.bulkString (lit "PING"), .bulkString (lit "\r\n")]) 22 (by decide) rfl).2.mpr rfl
    (.bulkString (lit "\r\n")) List.mem_cons_self

/-- A command named `X`, CRLF, `+OK` is answered by an error and a line that looks like a reply
of its own. -/
theorem reply_split_by_name :
    RespParser.parse (lit "*1\r\n$6\r\nX\r\n+OK\r\n") =
      some (.array [.bulkString (lit "X\r\n+OK")], 16) ∧
    ∃ w ∈ replies (.array [.bulkString (lit "X\r\n+OK")]), RespParser.parse (RespParser.serialize w) ≠
      some (w, (RespParser.serialize w).length) := by
  refine ⟨rfl, unknownCommand (lit "X\r\n+OK"), List.mem_cons_self, fun h => ?_⟩
  have hwf := RespParser.wellFormed_of_parse _ _ _ h
  exact absurd ((wellFormed_unknownCommand_iff _).mp hwf) (by decide)

end Session

section AckNumber

open Session

theorem length_toDecimal_le (n : UInt64) : (toDecimal n.toNat).length ≤ 20 := by
  rw [toDecimal, List.length_map, Nat.length_toDigits_le_iff (by decide) (by decide)]
  exact Nat.lt_trans n.toNat_lt (by decide)

theorem parse_sendAck (seq : UInt64) :
    RespParser.parse (Subscriber.sendAck seq) =
      some (RespParser.makeArray [lit "ACK", toDecimal seq.toNat], (Subscriber.sendAck seq).length) := by
  have hlen : (toDecimal seq.toNat).length ≤ maxBulkLen.toInt.toNat :=
    Nat.le_trans (length_toDecimal_le seq) (by decide)
  have hwf : RespParser.WellFormed (RespParser.makeArray [lit "ACK", toDecimal seq.toNat]) := by
    simp only [RespParser.makeArray, List.map_cons, List.map_nil, RespParser.WellFormed,
      RespParser.WellFormedAll, List.length_cons, List.length_nil]
    exact ⟨by decide, by decide, hlen, trivial⟩
  exact RespParser.parse_serialize _ hwf

/-- The number in the acknowledgement is a bulk string, and `asInteger` of that is zero. -/
theorem handleCommand_sendAck (s : Session) (hid : s.clientId ≠ []) (seq : UInt64) :
    handleCommand s (RespParser.makeArray [lit "ACK", toDecimal seq.toNat]) =
      [.handleAck s.clientId 0, sendResp (.simpleString (lit "OK"))] := by
  change respAck s [.bulkString (toDecimal seq.toNat)] = _
  rw [respAck, if_neg hid]
  rfl

/-- What the subscriber acknowledges reaches the broker for sequence zero only. -/
theorem ack_number_iff (s : Session) (hid : s.clientId ≠ []) (seq : UInt64) :
    (∃ v, RespParser.parse (Subscriber.sendAck seq) = some (v, (Subscriber.sendAck seq).length) ∧
      handleCommand s v = [.handleAck s.clientId seq, sendResp (.simpleString (lit "OK"))]) ↔
      seq = 0 := by
  constructor
  · rintro ⟨v, hv, hcalls⟩
    rw [parse_sendAck seq, Option.some_inj] at hv
    rw [← (Prod.mk.inj hv).1, handleCommand_sendAck s hid seq] at hcalls
    exact (Call.handleAck.inj (List.cons.inj hcalls).1).2.symm
  · rintro rfl
    exact ⟨_, parse_sendAck 0, handleCommand_sendAck s hid 0⟩

theorem ack_number_zero :
    ∃ v, RespParser.parse (Subscriber.sendAck 0) = some (v, (Subscriber.sendAck 0).length) ∧
      handleCommand { clientId := lit "c" } v =
        [.handleAck (lit "c") 0, sendResp (.simpleString (lit "OK"))] :=
  (ack_number_iff { clientId := lit "c" } (by decide) 0).mpr rfl

/-- The acknowledgement of message 5 acknowledges message 0. -/
theorem ack_number_lost :
    RespParser.parse (Subscriber.sendAck 5) =
      some (RespParser.makeArray [lit "ACK", lit "5"], (Subscriber.sendAck 5).length) ∧
    handleCommand { clientId := lit "c" } (RespParser.makeArray [lit "ACK", lit "5"]) ≠
      [.handleAck (lit "c") 5, sendResp (.simpleString (lit "OK"))] :=
  ⟨parse_sendAck 5, by decide⟩

end AckNumber

end MetricMQ
