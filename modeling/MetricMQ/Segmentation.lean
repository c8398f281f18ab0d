import MetricMQ.Session

/-! The receive loop does not see how its stream was cut. -/
namespace MetricMQ

open ByteString StreamFraming

def unknownParser : StreamParser UInt8 Dispatch where
  parse := parseFor .unknown
  progress := by
    intro b v n h
    cases h
  stable := by
    intro b r v n h
    cases h

def respDispatcher : StreamParser UInt8 Dispatch := RespParser.parser.map Dispatch.command

def binaryDispatcher : StreamParser UInt8 Dispatch := BinaryProtocol.parser.map Dispatch.frame

def dispatcher : ProtocolType → StreamParser UInt8 Dispatch
  | .unknown => unknownParser
  | .resp => respDispatcher
  | .binary => binaryDispatcher

theorem dispatcher_parse (p : ProtocolType) : (dispatcher p).parse = parseFor p := by
  cases p <;> rfl

/-- Frames come from binary connections only, commands from RESP connections only. -/
theorem parseFor_eq_some (p : ProtocolType) (b : Bytes) (item : Dispatch) (n : ℕ)
    (h : parseFor p b = some (item, n)) :
    (∃ v, p = .resp ∧ item = .command v ∧ RespParser.parse b = some (v, n)) ∨
      ∃ f, p = .binary ∧ item = .frame f ∧ BinaryProtocol.parse b = some (f, n) := by
  cases p with
  | unknown => cases h
  | resp =>
    obtain ⟨⟨v, m⟩, hv, he⟩ := Option.map_eq_some_iff.mp h
    obtain ⟨rfl, rfl⟩ := Prod.mk.inj he
    exact Or.inl ⟨v, rfl, rfl, hv⟩
  | binary =>
    obtain ⟨⟨f, m⟩, hf, he⟩ := Option.map_eq_some_iff.mp h
    obtain ⟨rfl, rfl⟩ := Prod.mk.inj he
    exact Or.inr ⟨f, rfl, rfl, hf⟩

/-- A first byte decides the protocol for good. -/
theorem detectProtocol_append (b r : Bytes) (hb : b ≠ []) :
    detectProtocol (b ++ r) = detectProtocol b := by
  cases b with
  | nil => exact absurd rfl hb
  | cons c b => rfl

/-- What a complete item takes of the bytes leaves fewer of them. -/
theorem parseFor_drop_lt {p : ProtocolType} {b : Bytes} {item : Dispatch} {n : ℕ}
    (h : parseFor p b = some (item, n)) : (b.drop n).length < b.length := by
  rw [← dispatcher_parse] at h
  obtain ⟨hn, hnb⟩ := (dispatcher p).progress b item n h
  rw [List.length_drop]
  omega

/-- Greedy parsing: the item at the front as long as there is a complete one, and what is left. -/
def parseGreedy (p : ProtocolType) (stream : Bytes) : List Dispatch × Bytes :=
  match _h : parseFor p stream with
  | none => ([], stream)
  | some (item, n) =>
    let rest := parseGreedy p (stream.drop n)
    (item :: rest.1, rest.2)
termination_by stream.length
decreasing_by exact parseFor_drop_lt _h

theorem parseGreedy_none (p : ProtocolType) (b : Bytes) (h : parseFor p b = none) :
    parseGreedy p b = ([], b) := by
  rw [parseGreedy]
  split
  · rfl
  · rename_i hs
    rw [h] at hs
    cases hs

theorem parseGreedy_some (p : ProtocolType) (b : Bytes) (item : Dispatch) (n : ℕ)
    (h : parseFor p b = some (item, n)) :
    parseGreedy p b = (item :: (parseGreedy p (b.drop n)).1, (parseGreedy p (b.drop n)).2) := by
  rw [parseGreedy]
  split
  · rename_i hn
    rw [h] at hn
    cases hn
  · rename_i item' n' hs
    obtain ⟨rfl, rfl⟩ := Prod.mk.inj (Option.some_inj.mp (h.symm.trans hs))
    rfl

/-- The drain loop with its guard and its bound parses greedily. -/
theorem drain_eq_parseGreedy (p : ProtocolType) (b : Bytes) :
    drain (parseFor p) b = parseGreedy p b := by
  induction hlen : b.length using Nat.strong_induction_on generalizing b with
  | _ k ih =>
    cases hp : parseFor p b with
    | none =>
      rw [parseGreedy_none p b hp, ← dispatcher_parse]
      rw [← dispatcher_parse] at hp
      exact drain_none _ b hp
    | some vn =>
      obtain ⟨item, n⟩ := vn
      have hlt := parseFor_drop_lt hp
      rw [parseGreedy_some p b item n hp, ← ih _ (hlen ▸ hlt) (b.drop n) rfl, ← dispatcher_parse]
      rw [← dispatcher_parse] at hp
      exact drain_some _ b item n hp

namespace Receiver

/-- A turn of the drain loop takes its item off the front of the buffer. -/
theorem next_eq_some (r r' : Receiver) (item : Dispatch) (h : r.next = some (item, r')) :
    ∃ n, parseFor r.protocol r.recvBuffer = some (item, n) ∧
      r' = { r with recvBuffer := r.recvBuffer.drop n } := by
  rw [next] at h
  split_ifs at h
  obtain ⟨⟨d, n⟩, hp, he⟩ := Option.map_eq_some_iff.mp h
  obtain ⟨rfl, rfl⟩ := Prod.mk.inj he
  exact ⟨n, hp, rfl⟩

/-- Greedy parsing of a whole stream, whose first byte decides the protocol. -/
def greedy (stream : Bytes) : List Dispatch × Receiver :=
  let protocol := detectProtocol stream
  let parsed := parseGreedy protocol stream
  (parsed.1, { protocol, recvBuffer := parsed.2 })

theorem drainAll_eq_greedy (stream : Bytes) :
    drainAll { protocol := detectProtocol stream, recvBuffer := stream } = greedy stream := by
  rw [drainAll, greedy]
  dsimp only
  rw [drain_eq_parseGreedy]

theorem drainAll_idle (r : Receiver) (h : parseFor r.protocol r.recvBuffer = none) :
    r.drainAll = ([], r) := by
  rw [← dispatcher_parse] at h
  rw [drainAll, ← dispatcher_parse, drain_none _ _ h]

/-- The drain loop is its turns, one after the other. -/
theorem drainAll_next (r : Receiver) :
    r.drainAll = match r.next with
      | none => ([], r)
      | some (item, r') => (item :: r'.drainAll.1, r'.drainAll.2) := by
  cases hn : r.next with
  | some p =>
    obtain ⟨item, r'⟩ := p
    obtain ⟨n, hp, rfl⟩ := r.next_eq_some r' item hn
    rw [← dispatcher_parse] at hp
    rw [drainAll, ← dispatcher_parse, drain_some _ _ _ _ hp]
    simp only [drainAll, dispatcher_parse]
  | none =>
    rw [next] at hn
    split_ifs at hn with hb
    · obtain ⟨p, b⟩ := r
      obtain rfl : b = [] := hb
      rfl
    · exact drainAll_idle r (Option.map_eq_none_iff.mp hn)

theorem drainAll_rest (r : Receiver) : parseFor r.protocol r.drainAll.2.recvBuffer = none := by
  have h := parse_drain_rest (dispatcher r.protocol) r.recvBuffer
  rw [dispatcher_parse] at h
  exact h

theorem drainAll_append (r : Receiver) (c : Bytes) :
    drainAll { r with recvBuffer := r.recvBuffer ++ c } =
      (r.drainAll.1 ++ (drainAll { r with recvBuffer := r.drainAll.2.recvBuffer ++ c }).1,
        (drainAll { r with recvBuffer := r.drainAll.2.recvBuffer ++ c }).2) := by
  have h := drain_append (dispatcher r.protocol) r.recvBuffer c
  rw [dispatcher_parse] at h
  simp only [drainAll, h]

/-- The protocol that a receiver will have found at the end of `stream`. -/
def finalProtocol (r : Receiver) (stream : Bytes) : ProtocolType :=
  if r.protocol = .unknown then detectProtocol (r.recvBuffer ++ stream) else r.protocol

/-- One chunk: draining it and then the rest of the stream is draining both at once. -/
theorem drainAll_receive (r r' : Receiver) (c stream : Bytes) (h : r.receive c = some r') :
    drainAll ⟨r.finalProtocol (c ++ stream), r.recvBuffer ++ (c ++ stream)⟩ =
      (r'.drainAll.1 ++ (drainAll ⟨r'.drainAll.2.finalProtocol stream,
          r'.drainAll.2.recvBuffer ++ stream⟩).1,
        (drainAll ⟨r'.drainAll.2.finalProtocol stream, r'.drainAll.2.recvBuffer ++ stream⟩).2) := by
  obtain ⟨p, b⟩ := r
  rw [receive] at h
  by_cases hg : b.length + c.length > maxRecvBuffer
  · rw [if_pos hg] at h
    cases h
  rw [if_neg hg] at h
  obtain rfl := Option.some_inj.mp h
  rw [← List.append_assoc]
  by_cases hp : p = .unknown
  · subst hp
    simp only [finalProtocol, ↓reduceIte, ← List.append_assoc]
    cases hd : detectProtocol (b ++ c) with
    | unknown =>
      -- nothing is dispatched before the protocol is known
      rw [drainAll_idle ⟨.unknown, b ++ c⟩ rfl]
      simp only [↓reduceIte, List.nil_append]
    | resp | binary =>
      have hne : b ++ c ≠ [] := by
        intro he
        rw [he] at hd
        cases hd
      rw [detectProtocol_append _ stream hne, hd, drainAll_append ⟨_, b ++ c⟩ stream]
      rfl
  · simp only [finalProtocol, if_neg hp]
    rw [drainAll_append ⟨p, b ++ c⟩ stream]
    simp only [drainAll, hp, ↓reduceIte]

/-- Between two turns of the loop: what is there is drained, and the protocol is the one of
the bytes seen so far. -/
structure Idle (r : Receiver) : Prop where
  drained : parseFor r.protocol r.recvBuffer = none
  detected : r.finalProtocol [] = r.protocol

theorem idle_drainAll (r r' : Receiver) (c : Bytes) (h : r.receive c = some r') :
    r'.drainAll.2.Idle := by
  refine ⟨drainAll_rest r', ?_⟩
  obtain ⟨p, b⟩ := r
  rw [receive] at h
  split_ifs at h with hg hp
  all_goals obtain rfl := Option.some_inj.mp h
  · rw [finalProtocol]
    split_ifs with hu
    · have hd : detectProtocol (b ++ c) = .unknown := hu
      rw [hd, drainAll_idle ⟨.unknown, b ++ c⟩ rfl, List.append_nil]
      exact hd
    · rfl
  · exact if_neg hp

theorem receiveAll_eq (chunks : List Bytes) (r r' : Receiver) (d : List Dispatch) (hr : r.Idle)
    (h : r.receiveAll chunks = some (d, r')) :
    (d, r') = drainAll ⟨r.finalProtocol chunks.flatten, r.recvBuffer ++ chunks.flatten⟩ := by
  induction chunks generalizing r d with
  | nil =>
    obtain ⟨rfl, rfl⟩ := Prod.mk.inj (Option.some_inj.mp h)
    rw [List.flatten_nil, hr.detected, List.append_nil, drainAll_idle _ hr.drained]
  | cons c chunks ih =>
    rw [receiveAll] at h
    cases hc : r.receive c with
    | none => simp only [hc, reduceCtorEq] at h
    | some r1 =>
      simp only [hc] at h
      obtain ⟨⟨d', r2⟩, hrest, he⟩ := Option.map_eq_some_iff.mp h
      obtain ⟨rfl, rfl⟩ := Prod.mk.inj he
      have hih := ih _ d' (idle_drainAll r r1 c hc) hrest
      rw [List.flatten_cons, drainAll_receive r r1 c chunks.flatten hc, ← hih]

/-- Two cuts of one stream that the size guard lets through give the same protocol, the same
dispatches and the same rest: those of parsing the stream at once. -/
theorem segmentation_independence (stream : Bytes) (cut cut' : List Bytes)
    (hcut : cut.flatten = stream) (hcut' : cut'.flatten = stream)
    (res res' : List Dispatch × Receiver) (h : receiveAll {} cut = some res)
    (h' : receiveAll {} cut' = some res') : res = res' ∧ res = greedy stream := by
  have hidle : Idle {} := ⟨rfl, rfl⟩
  have hres := receiveAll_eq cut {} res.2 res.1 hidle h
  have hres' := receiveAll_eq cut' {} res'.2 res'.1 hidle h'
  rw [hcut] at hres
  rw [hcut'] at hres'
  exact ⟨hres.trans hres'.symm, hres.trans (drainAll_eq_greedy stream)⟩

/-- A PING cut inside its length line, and byte for byte behind it. -/
theorem segmentation_independence_ping :
    receiveAll {} [lit "*1\r\n$", lit "4\r\nPING\r\n*"] =
        some ([.command (.array [.bulkString (lit "PING")])], ⟨.resp, lit "*"⟩) ∧
      receiveAll {} [lit "*1\r\n$4", lit "\r", lit "\n", lit "PI", lit "NG\r\n", lit "*"] =
        some ([.command (.array [.bulkString (lit "PING")])], ⟨.resp, lit "*"⟩) ∧
      greedy (lit "*1\r\n$4\r\nPING\r\n*") =
        ([.command (.array [.bulkString (lit "PING")])], ⟨.resp, lit "*"⟩) := by
  have h : receiveAll {} [lit "*1\r\n$", lit "4\r\nPING\r\n*"] =
      some ([.command (.array [.bulkString (lit "PING")])], ⟨.resp, lit "*"⟩) := by rfl
  have h' : receiveAll {} [lit "*1\r\n$4", lit "\r", lit "\n", lit "PI", lit "NG\r\n", lit "*"] =
      some ([.command (.array [.bulkString (lit "PING")])], ⟨.resp, lit "*"⟩) := by rfl
  have hboth := segmentation_independence (lit "*1\r\n$4\r\nPING\r\n*") _ _ (by decide) (by decide)
    _ _ h h'
  exact ⟨h, h', hboth.2.symm⟩

end Receiver

end MetricMQ
