import MetricMQ.Segmentation

/-! What the parsers reject. Both answer a rejected frame as they answer an incomplete one, and
the drain loops wait for more bytes in either case. -/
namespace MetricMQ

open ByteString StreamFraming

namespace RespParser

/-- The null length, or one within its limit. -/
def InLimit (limit n : Int64) : Prop := n = -1 ∨ 0 ≤ n ∧ n ≤ limit

/-- The lines that `parse` takes behind a type byte. -/
def LineFits : RespType → Bytes → Prop
  | .simpleString, _ | .error, _ => True
  | .integer, line => ∃ n, stoll line = some n
  | .bulkString, line => ∃ n, stoll line = some n ∧ InLimit maxBulkLen n
  | .array, line => ∃ n, stoll line = some n ∧ InLimit maxArrayCount n

/-- A line whose CRLF has not come yet: it fits so far, or with the first digit it lacks. -/
def LineBegun (type : RespType) (line : Bytes) : Prop :=
  LineFits type line ∨ LineFits type (line ++ lit "0")

/-- The unfinished values of the format. -/
inductive Begun : Bytes → Prop
  | empty : Begun []
  | line (t : UInt8) (type : RespType) (line : Bytes) (ht : RespType.ofByte t = some type)
      (hl : findCRLFIn line = none) (hb : LineBegun type line) : Begun (t :: line)
  | bulk (t : UInt8) (line body : Bytes) (len : Int64) (ht : RespType.ofByte t = some .bulkString)
      (hl : findCRLFIn line = none) (hs : stoll line = some len) (h0 : 0 ≤ len)
      (hm : len ≤ maxBulkLen) (hbody : body.length < len.toInt.toNat + 2) :
      Begun (t :: (line ++ crlf ++ body))
  | array (t : UInt8) (line : Bytes) (count : Int64) (elems : List Bytes) (tail : Bytes)
      (ht : RespType.ofByte t = some .array) (hl : findCRLFIn line = none)
      (hs : stoll line = some count) (h0 : 0 ≤ count) (hm : count ≤ maxArrayCount)
      (hn : elems.length < count.toInt.toNat) (helems : ∀ d ∈ elems, Accepts parse d)
      (htail : Begun tail) : Begun (t :: (line ++ crlf ++ (elems.flatten ++ tail)))

/-- An unfinished value is empty or starts with one of the type bytes. -/
theorem Begun.typeByte {b : Bytes} (h : Begun b) : b = [] ∨ (RespType.ofByte (b.headD 0)).isSome := by
  cases h with
  | empty => exact Or.inl rfl
  | line _ _ _ ht | bulk _ _ _ _ ht | array _ _ _ _ _ ht =>
    right
    rw [List.headD_cons, ht]
    rfl

section Completed

theorem accepts_iff (w : Bytes) : Accepts parse w ↔ ∃ v, parseE w = .ok (some (v, w.length)) := by
  simp only [Accepts, parseE_eq_ok, Except.ok.injEq]

theorem parseE_serialized_line (t : UInt8) (type : RespType) (line r : Bytes)
    (ht : RespType.ofByte t = some type) (hl : findCRLFIn line = none) :
    parseE (t :: (line ++ crlf ++ r)) =
      parseTyped parseE type (t :: (line ++ crlf ++ r)) line (line.length + 3) := by
  obtain ⟨hf, hk⟩ := findCRLFIn_line line r hl
  rw [parseE_line t _ type line.length ht hf, hk]

theorem length_line (t : UInt8) (line r : Bytes) :
    (t :: (line ++ crlf ++ r)).length = line.length + 3 + r.length := by
  simp only [List.length_cons, List.length_append, crlf, List.length_nil]
  omega

theorem accepts_bulk (t : UInt8) (line body : Bytes) (len : Int64)
    (ht : RespType.ofByte t = some .bulkString) (hl : findCRLFIn line = none)
    (hs : stoll line = some len) (h0 : 0 ≤ len) (hm : len ≤ maxBulkLen)
    (hbody : body.length = len.toInt.toNat + 2) : Accepts parse (t :: (line ++ crlf ++ body)) := by
  have hlen := length_line t line body
  rw [accepts_iff, parseE_serialized_line t _ line body ht hl, parseTyped,
    parseBulk_body _ _ _ len hs h0 hm (by omega)]
  exact ⟨_, by rw [hlen, hbody, Nat.add_assoc]⟩

/-- Accepted elements, as many as announced, make an accepted array. -/
theorem accepts_array (t : UInt8) (line : Bytes) (count : Int64) (elems : List Bytes)
    (ht : RespType.ofByte t = some .array) (hl : findCRLFIn line = none)
    (hs : stoll line = some count) (h0 : 0 ≤ count) (hm : count ≤ maxArrayCount)
    (hn : elems.length = count.toInt.toNat) (helems : ∀ d ∈ elems, Accepts parse d) :
    Accepts parse (t :: (line ++ crlf ++ elems.flatten)) := by
  -- what each element is read as, whatever follows it
  have hvalues : ∃ values, List.Forall₂
      (fun d v => ∀ r, parseE (d ++ r) = .ok (some (v, d.length))) elems values := by
    clear hn
    induction elems with
    | nil => exact ⟨[], .nil⟩
    | cons d elems ih =>
      obtain ⟨hd, hrest⟩ := List.forall_mem_cons.mp helems
      obtain ⟨values, hv⟩ := ih hrest
      obtain ⟨v, hdv⟩ := hd
      refine ⟨v :: values, .cons (fun r => ?_) hv⟩
      rw [parseE_eq_ok, parse_stable d r v _ hdv]
  obtain ⟨values, hv⟩ := hvalues
  have hlen := length_line t line elems.flatten
  have hdrop := drop_line t line elems.flatten
  have hall := parseElems_flatten (t :: (line ++ crlf ++ elems.flatten)) [] elems values []
    (line.length + 3) (by rw [hdrop, List.append_nil]) (by omega) hv
  rw [accepts_iff, parseE_serialized_line t _ line _ ht hl, parseTyped,
    parseArray_elems _ _ _ _ count hs h0 hm, ← hn, hall, ← hlen]
  exact ⟨_, rfl⟩

/-- A filler for the elements that are still to come. -/
def okLine : Bytes := lit "+\r\n"

theorem accepts_okLine : Accepts parse okLine := ⟨.simpleString [], rfl⟩

theorem accepts_replicate (n : ℕ) : ∀ d ∈ List.replicate n okLine, Accepts parse d := by
  intro d hd
  rw [List.eq_of_mem_replicate hd]
  exact accepts_okLine

/-- A complete line that fits can be continued. -/
theorem exists_accepts_line (t : UInt8) (type : RespType) (line : Bytes)
    (ht : RespType.ofByte t = some type) (hl : findCRLFIn line = none) (hf : LineFits type line) :
    ∃ more, Accepts parse (t :: (line ++ crlf ++ more)) := by
  have hlen := length_line t line []
  have hline := parseE_serialized_line t type line [] ht hl
  cases type with
  | simpleString =>
    refine ⟨[], (accepts_iff _).mpr ⟨.simpleString line, ?_⟩⟩
    rw [hline, hlen]
    rfl
  | error =>
    refine ⟨[], (accepts_iff _).mpr ⟨.error line, ?_⟩⟩
    rw [hline, hlen]
    rfl
  | integer =>
    obtain ⟨n, hs⟩ := hf
    refine ⟨[], (accepts_iff _).mpr ⟨.integer n, ?_⟩⟩
    rw [hline, hlen, parseTyped, parseInteger, hs]
    rfl
  | bulkString =>
    obtain ⟨n, hs, rfl | ⟨h0, hm⟩⟩ := hf
    · refine ⟨[], (accepts_iff _).mpr ⟨.null, ?_⟩⟩
      rw [hline, hlen, parseTyped, parseBulk, hs]
      rfl
    · exact ⟨List.replicate (n.toInt.toNat + 2) 0, accepts_bulk t line _ n ht hl hs h0 hm (by simp)⟩
  | array =>
    obtain ⟨n, hs, rfl | ⟨h0, hm⟩⟩ := hf
    · refine ⟨[], (accepts_iff _).mpr ⟨.null, ?_⟩⟩
      rw [hline, hlen, parseTyped, parseArray, hs]
      rfl
    · exact ⟨(List.replicate n.toInt.toNat okLine).flatten,
        accepts_array t line n _ ht hl hs h0 hm (by simp) (accepts_replicate _)⟩

/-- Every unfinished value can be finished. -/
theorem Begun.exists_accepts {b : Bytes} (h : Begun b) : ∃ more, Accepts parse (b ++ more) := by
  induction h with
  | empty => exact ⟨okLine, accepts_okLine⟩
  | line t type line ht hl hb =>
    rcases hb with hf | hf
    · obtain ⟨more, ha⟩ := exists_accepts_line t type line ht hl hf
      refine ⟨crlf ++ more, ?_⟩
      rwa [List.cons_append, ← List.append_assoc]
    · -- a sign or blanks, and no digit yet
      have hl' : findCRLFIn (line ++ lit "0") = none :=
        findCRLFIn_append_text line (lit "0") hl (by decide) (by decide)
      obtain ⟨more, ha⟩ := exists_accepts_line t type _ ht hl' hf
      refine ⟨lit "0" ++ (crlf ++ more), ?_⟩
      rwa [List.cons_append, ← List.append_assoc, ← List.append_assoc]
  | bulk t line body len ht hl hs h0 hm hbody =>
    refine ⟨List.replicate (len.toInt.toNat + 2 - body.length) 0, ?_⟩
    rw [List.cons_append, List.append_assoc (line ++ crlf)]
    apply accepts_bulk t line _ len ht hl hs h0 hm
    rw [List.length_append, List.length_replicate]
    omega
  | array t line count elems tail ht hl hs h0 hm hn helems _ ih =>
    -- the open element is completed, and fillers make up the count
    obtain ⟨more, ha⟩ := ih
    refine ⟨more ++ (List.replicate (count.toInt.toNat - elems.length - 1) okLine).flatten, ?_⟩
    have hall := accepts_array t line count
      (elems ++ [tail ++ more] ++ List.replicate (count.toInt.toNat - elems.length - 1) okLine)
      ht hl hs h0 hm (by
        simp only [List.length_append, List.length_singleton, List.length_replicate]
        omega) (by
        intro d hd
        rcases List.mem_append.mp hd with hd | hd
        · rcases List.mem_append.mp hd with hd | hd
          · exact helems d hd
          · rw [List.mem_singleton.mp hd]
            exact ha
        · exact accepts_replicate _ d hd)
    simpa only [List.cons_append, List.append_assoc, List.flatten_append, List.flatten_cons,
      List.flatten_nil, List.append_nil, List.nil_append] using hall

end Completed

section Cut

theorem local_parse : Local parser := by
  intro b v n h
  have ht := parseE_take b v n (by rw [parseE_eq_ok]; exact congrArg _ h) []
  rw [List.append_nil, parseE_eq_ok] at ht
  exact Except.ok.inj ht

/-- A number that fits leaves fitting numbers when its last digits are missing. -/
theorem InLimit.of_le {limit n m : Int64} (h : InLimit limit n)
    (hm : 0 ≤ m.toInt ∧ m.toInt ≤ n.toInt ∨ n.toInt ≤ m.toInt ∧ m.toInt ≤ 0) (hl : 0 ≤ limit) :
    InLimit limit m := by
  have hone : (-1 : Int64).toInt = -1 := by decide
  have hzero : (0 : Int64).toInt = 0 := by decide
  simp only [InLimit, ← Int64.toInt_inj, Int64.le_iff_toInt_le, hone, hzero] at h hl ⊢
  omega

theorem lineBegun_of_append (type : RespType) (x s : Bytes) (h : LineFits type (x ++ s)) :
    LineBegun type x := by
  cases type with
  | simpleString | error => exact Or.inl trivial
  | integer =>
    obtain ⟨n, hn⟩ := h
    rcases stoll_of_append x s n hn with h0 | ⟨m, hm, -⟩
    · exact Or.inr ⟨0, h0⟩
    · exact Or.inl ⟨m, hm⟩
  | bulkString | array =>
    obtain ⟨n, hn, hf⟩ := h
    rcases stoll_of_append x s n hn with h0 | ⟨m, hm, hle⟩
    -- no digit yet: a zero is within every limit
    · exact Or.inr ⟨0, h0, Or.inr ⟨Int64.le_refl 0, by decide⟩⟩
    · exact Or.inl ⟨m, hm, hf.of_le hle (by decide)⟩

theorem LineFits.append_cr {type : RespType} {line : Bytes} (h : LineFits type line) :
    LineFits type (line ++ [13]) := by
  have hs : ∀ n, stoll line = some n → stoll (line ++ [13]) = some n :=
    fun n hn => stoll_append_of_some line [] 13 n hn (by decide)
  cases type with
  | simpleString | error => trivial
  | integer =>
    obtain ⟨n, hn⟩ := h
    exact ⟨n, hs n hn⟩
  | bulkString | array =>
    obtain ⟨n, hn, hf⟩ := h
    exact ⟨n, hs n hn, hf⟩

theorem findCRLFIn_split (b : Bytes) (i : ℕ) (h : findCRLFIn b = some i) :
    b = b.take i ++ crlf ++ b.drop (i + 2) := by
  induction b generalizing i with
  | nil => cases h
  | cons c b ih =>
    rw [findCRLFIn] at h
    split_ifs at h with hc
    · obtain rfl := Option.some_inj.mp h
      cases b with
      | nil => simp at hc
      | cons d b =>
        obtain ⟨rfl, hd⟩ := hc
        rw [List.head?_cons, Option.some_inj] at hd
        rw [hd]
        rfl
    · obtain ⟨j, hj, rfl⟩ := Option.map_eq_some_iff.mp h
      rw [List.take_succ_cons, List.cons_append, List.cons_append, List.drop_succ_cons, ← ih j hj]

/-- The line of a longer text starts with all of an unfinished line, or lacks a final CR that
turned out to belong to the CRLF. -/
theorem line_of_append (b r : Bytes) (i : ℕ) (hb : findCRLFIn b = none)
    (h : findCRLFIn (b ++ r) = some i) :
    (∃ s, (b ++ r).take i = b ++ s) ∨ b = (b ++ r).take i ++ [13] := by
  rcases Nat.lt_or_ge i b.length with hi | hi
  · right
    have hlast : b.length = i + 1 := by
      by_contra hne
      have ht := findCRLFIn_take_of_le (b ++ r) i b.length h (by omega)
      rw [List.take_left, hb] at ht
      cases ht
    have hsplit := congrArg (List.take (i + 1)) (findCRLFIn_split (b ++ r) i h)
    rw [← hlast, List.take_left, hlast] at hsplit
    have hlen := findCRLFIn_bound (b ++ r) i h
    have htake : ((b ++ r).take i).length = i := by
      rw [List.length_take]
      omega
    rw [List.append_assoc, List.take_append, htake, List.take_of_length_le (by omega),
      Nat.add_sub_cancel_left] at hsplit
    exact hsplit
  · left
    refine ⟨r.take (i - b.length), ?_⟩
    rw [List.take_append, List.take_of_length_le hi]

theorem lineFits_of_parseTyped {p : Bytes → Except Fault (Option (RespValue × ℕ))} (type : RespType)
    (b line : Bytes) (next : ℕ) (v : RespValue) (n : ℕ)
    (h : parseTyped p type b line next = .ok (some (v, n))) : LineFits type line := by
  cases (parseTyped_iff type b line next v n).mp h with
  | simpleString | error => trivial
  | integer num hs => exact ⟨num, hs⟩
  | nullBulk hs | nullArray hs => exact ⟨-1, hs, Or.inl rfl⟩
  | bulk len hs h0 hm | array len hs h0 hm => exact ⟨len, hs, Or.inr ⟨h0, hm⟩⟩

/-- The first line, if it is cut off. -/
theorem begun_line (t : UInt8) (rest r : Bytes) (type : RespType) (i : ℕ) (v : RespValue) (n : ℕ)
    (ht : RespType.ofByte t = some type) (hrest : findCRLFIn rest = none)
    (hi : findCRLFIn (rest ++ r) = some i)
    (h : parseTyped parseE type (t :: (rest ++ r)) ((rest ++ r).take i) (i + 3) = .ok (some (v, n))) :
    Begun (t :: rest) := by
  have hf := lineFits_of_parseTyped type _ _ _ v n h
  refine .line t type rest ht hrest ?_
  rcases line_of_append rest r i hrest hi with ⟨s, hs⟩ | hs
  · rw [hs] at hf
    exact lineBegun_of_append type rest s hf
  · left
    rw [hs]
    exact hf.append_cr

/-- The elements of an array that is cut off: some are whole, and the next one is begun. -/
theorem begun_elems (b r : Bytes)
    (ih : ∀ u : Bytes, u.length < b.length → ∀ res, parseE (u ++ r) = .ok (some res) →
      parse u = none → Begun u)
    (count offset : ℕ) (arr : List RespValue) (res : RespValue × ℕ) (h0 : 0 < offset)
    (ho : offset ≤ b.length) (h : parseElems parseE (b ++ r) count offset arr = .ok (some res))
    (hb : parseElems parseE b count offset arr = .ok none) :
    ∃ (elems : List Bytes) (tail : Bytes), b.drop offset = elems.flatten ++ tail ∧
      elems.length < count ∧ (∀ d ∈ elems, Accepts parse d) ∧ Begun tail := by
  induction count generalizing offset arr with
  | zero => cases hb
  | succ count ihc =>
    have hd : (b.drop offset).length = b.length - offset := List.length_drop
    rw [parseElems_succ b count offset arr ho] at hb
    rw [parseElems_succ _ count offset arr (by rw [List.length_append]; omega),
      List.drop_append_of_le_length ho] at h
    cases hp : parse (b.drop offset) with
    | none =>
      cases hr : parseE (b.drop offset ++ r) with
      | error e => rw [hr] at h; cases h
      | ok o =>
        rcases o with _ | res'
        · rw [hr] at h; cases h
        · exact ⟨[], b.drop offset, rfl, Nat.succ_pos count, by simp, ih _ (by omega) res' hr hp⟩
    | some vm =>
      obtain ⟨elem, m⟩ := vm
      have hm := (parse_bounds _ elem m hp).2
      rw [parseE_eq_ok, parse_stable _ r elem m hp] at h
      rw [parseE_eq_ok, hp] at hb
      obtain ⟨elems, tail, he, hlt, hall, htail⟩ := ihc (offset + m) (arr ++ [elem]) (by omega) (by omega) h hb
      refine ⟨(b.drop offset).take m :: elems, tail, ?_, ?_, ?_, htail⟩
      · rw [List.flatten_cons, List.append_assoc, ← he, ← List.drop_drop, List.take_append_drop]
      · rw [List.length_cons]
        omega
      · exact List.forall_mem_cons.mpr ⟨local_parse.accepts_take _ elem m hp, hall⟩

/-- What follows a complete line, if it is cut off. -/
theorem begun_body (t : UInt8) (rest r : Bytes) (type : RespType) (j : ℕ) (v : RespValue) (n : ℕ)
    (ih : ∀ u : Bytes, u.length < (t :: rest).length → ∀ res, parseE (u ++ r) = .ok (some res) →
      parse u = none → Begun u)
    (ht : RespType.ofByte t = some type) (hj : findCRLFIn rest = some j)
    (hb : parse (t :: rest) = none)
    (h : parseTyped parseE type (t :: rest ++ r) (rest.take j) (j + 3) = .ok (some (v, n))) :
    Begun (t :: rest) := by
  have hbound := findCRLFIn_bound rest j hj
  have hlen : (t :: rest).length = rest.length + 1 := List.length_cons
  have hsplit := findCRLFIn_split rest j hj
  have hline := findCRLFIn_take rest j hj
  have hnone : parseTyped parseE type (t :: rest) (rest.take j) (j + 3) = .ok none := by
    rw [← parseE_line t rest type j ht hj, parseE_eq_ok, hb]
  have hnot : ∀ w m, ¬ Typed parseE (t :: rest) (rest.take j) (j + 3) type w m := by
    intro w m hw
    rw [← parseTyped_iff, hnone] at hw
    cases hw
  -- a case that does not read behind the line would have answered before
  cases (parseTyped_iff type _ _ _ v n).mp h with
  | simpleString => exact absurd .simpleString (hnot _ _)
  | error => exact absurd .error (hnot _ _)
  | integer num hs => exact absurd (.integer num hs) (hnot _ _)
  | nullBulk hs => exact absurd (.nullBulk hs) (hnot _ _)
  | nullArray hs => exact absurd (.nullArray hs) (hnot _ _)
  | bulk len hs h0 hm =>
    rw [hsplit]
    apply Begun.bulk t _ _ len ht hline hs h0 hm
    by_contra hle
    rw [List.length_drop] at hle
    exact hnot _ _ (.bulk len hs h0 hm (by omega))
  | array count hs h0 hm _ _ he =>
    rw [parseTyped, parseArray_elems _ _ _ _ count hs h0 hm] at hnone
    obtain ⟨elems, tail, hd, hn, hall, htail⟩ := begun_elems (t :: rest) r ih _ (j + 3) [] (v, n)
      (by omega) (by omega) he hnone
    rw [List.drop_succ_cons] at hd
    rw [hsplit, hd]
    exact .array t _ count elems tail ht hline hs h0 hm hn hall htail

/-- A buffer on which `parse` waits and that more bytes complete is an unfinished value. -/
theorem begun_of_parse_append (b r : Bytes) (res : RespValue × ℕ) (hb : parse b = none)
    (h : parseE (b ++ r) = .ok (some res)) : Begun b := by
  -- the elements of an array are shorter than the array
  induction hlen : b.length using Nat.strong_induction_on generalizing b res with
  | _ k ih =>
    cases b with
    | nil => exact .empty
    | cons t rest =>
      obtain ⟨t', rest', type, i, he, ht, hi, hp⟩ := parseE_eq_ok_some _ res h
      rw [List.cons_append] at he
      obtain ⟨rfl, rfl⟩ := List.cons.inj he
      cases hrest : findCRLFIn rest with
      | none => exact begun_line t rest r type i res.1 res.2 ht hrest hi hp
      | some j =>
        obtain rfl : j = i := by
          rw [findCRLFIn_append rest r j hrest] at hi
          exact Option.some_inj.mp hi
        have hbound := findCRLFIn_bound rest j hrest
        rw [List.take_append_of_le_length (by omega)] at hp
        refine begun_body t rest r type j res.1 res.2 ?_ ht hrest hb hp
        exact fun u hu res hr hu' => ih u.length (by omega) u res hu' hr rfl

/-- `parse` waits for good exactly when the buffer is not an unfinished value. -/
theorem unwedged_iff_begun (b : Bytes) (hb : parse b = none) : Unwedged parse b ↔ Begun b := by
  constructor
  · rintro (rfl | ⟨more, -, v, hv⟩)
    · exact .empty
    · exact begun_of_parse_append b more _ hb (by rw [parseE_eq_ok, hv])
  · intro h
    obtain ⟨more, v, hv⟩ := h.exists_accepts
    refine Or.inr ⟨more, ?_, v, hv⟩
    rintro rfl
    rw [List.append_nil, hb] at hv
    cases hv

end Cut

end RespParser

namespace BinaryProtocol

open BigEndian

/-- The two lengths of a header; bytes that have not come yet count as zero. -/
def headerTopicLen (b : Bytes) : UInt16 := be16 (b.getD 10 0) (b.getD 11 0)

def headerPayloadLen (b : Bytes) : UInt32 :=
  be32 (b.getD 12 0) (b.getD 13 0) (b.getD 14 0) (b.getD 15 0)

/-- A header of this version and within the limits, as far as it has come. -/
structure Begun (b : Bytes) : Prop where
  version : b.getD 0 binaryProtocolVersion = binaryProtocolVersion
  topic : headerTopicLen b ≤ maxTopicLen
  payload : headerPayloadLen b ≤ maxPayloadLen

theorem parse_isSome_iff (b : Bytes) (h : minFrameSize ≤ b.length) :
    (parse b).isSome ↔ b.getD 0 0 = binaryProtocolVersion ∧ headerTopicLen b ≤ maxTopicLen ∧
      headerPayloadLen b ≤ maxPayloadLen ∧
      minFrameSize + (headerTopicLen b).toNat + (headerPayloadLen b).toNat +
        trailerSize (.ofByte (b.getD 1 0)) ≤ b.length := by
  obtain ⟨v, c, s0, s1, s2, s3, s4, s5, s6, s7, t0, t1, p0, p1, p2, p3, body, rfl⟩ := header_split b h
  rw [parse, parseE_header]
  simp only [Option.isSome_ite]
  change v = binaryProtocolVersion ∧ be16 t0 t1 ≤ maxTopicLen ∧ be32 p0 p1 p2 p3 ≤ maxPayloadLen ∧ _ ↔
    v = binaryProtocolVersion ∧ be16 t0 t1 ≤ maxTopicLen ∧ be32 p0 p1 p2 p3 ≤ maxPayloadLen ∧
      minFrameSize + (be16 t0 t1).toNat + (be32 p0 p1 p2 p3).toNat + trailerSize (.ofByte c) ≤ _
  have hlen : ([v, c, s0, s1, s2, s3, s4, s5, s6, s7, t0, t1, p0, p1, p2, p3] ++ body).length =
      minFrameSize + body.length := by
    rw [List.length_append]
    rfl
  rw [hlen]
  simp only [Nat.add_assoc, Nat.add_le_add_iff_left]

theorem getD_append_le (b r : Bytes) (i : ℕ) : b.getD i 0 ≤ (b ++ r).getD i 0 := by
  rw [List.getD_eq_getElem?_getD, List.getD_eq_getElem?_getD]
  rcases Nat.lt_or_ge i b.length with hi | hi
  · rw [List.getElem?_append_left hi]
    exact UInt8.le_refl _
  · rw [List.getElem?_eq_none hi]
    exact UInt8.zero_le

theorem getD_append_replicate (b : Bytes) (n i : ℕ) : (b ++ List.replicate n 0).getD i 0 = b.getD i 0 := by
  rw [List.getD_eq_getElem?_getD, List.getD_eq_getElem?_getD]
  rcases Nat.lt_or_ge i b.length with hi | hi
  · rw [List.getElem?_append_left hi]
  · rw [List.getElem?_append_right hi, List.getElem?_eq_none hi, List.getElem?_replicate]
    split_ifs <;> rfl

/-- More bytes can only raise the lengths of a header. -/
theorem headerLens_append_le (b r : Bytes) :
    headerTopicLen b ≤ headerTopicLen (b ++ r) ∧ headerPayloadLen b ≤ headerPayloadLen (b ++ r) := by
  have hle : ∀ i, (b.getD i 0).toNat ≤ ((b ++ r).getD i 0).toNat :=
    fun i => UInt8.le_iff_toNat_le.mp (getD_append_le b r i)
  have h10 := hle 10
  have h11 := hle 11
  have h12 := hle 12
  have h13 := hle 13
  have h14 := hle 14
  have h15 := hle 15
  constructor
  · rw [UInt16.le_iff_toNat_le, headerTopicLen, headerTopicLen, toNat_be16, toNat_be16]
    omega
  · rw [UInt32.le_iff_toNat_le, headerPayloadLen, headerPayloadLen, toNat_be32, toNat_be32]
    omega

theorem local_parse : Local parser := by
  intro b f n h
  obtain ⟨hwf, hn, r, rfl⟩ := parse_sound b f n h
  have hs := parse_serialize_append f hwf []
  rw [hn, List.take_left]
  rwa [List.append_nil] at hs

theorem begun_of_parse_append (b r : Bytes) (h : (parse (b ++ r)).isSome) : Begun b := by
  have hlen : minFrameSize ≤ (b ++ r).length := by
    by_contra hn
    rw [parse, parseE_short _ (by omega)] at h
    cases h
  obtain ⟨hv, ht, hp, -⟩ := (parse_isSome_iff _ hlen).mp h
  obtain ⟨hle16, hle32⟩ := headerLens_append_le b r
  refine ⟨?_, UInt16.le_trans hle16 ht, UInt32.le_trans hle32 hp⟩
  cases b with
  | nil => rfl
  | cons v b => exact hv

/-- A header within the limits followed by enough bytes is a frame. -/
theorem Begun.exists_parse {b : Bytes} (h : Begun b) (hb : b ≠ []) :
    ∃ r, (parse (b ++ r)).isSome := by
  -- zero bytes do not raise the lengths, and these are enough for every header
  let n := minFrameSize + maxTopicLen.toNat + maxPayloadLen.toNat + (signatureSize + keyIdSize)
  refine ⟨List.replicate n 0, ?_⟩
  have ht : headerTopicLen (b ++ List.replicate n 0) = headerTopicLen b := by
    simp only [headerTopicLen, getD_append_replicate]
  have hp : headerPayloadLen (b ++ List.replicate n 0) = headerPayloadLen b := by
    simp only [headerPayloadLen, getD_append_replicate]
  have hv : (b ++ List.replicate n 0).getD 0 0 = binaryProtocolVersion := by
    cases b with
    | nil => exact absurd rfl hb
    | cons v b => exact h.version
  have hlen : (b ++ List.replicate n 0).length = b.length + n := by
    rw [List.length_append, List.length_replicate]
  have htrailer : ∀ c, trailerSize c ≤ signatureSize + keyIdSize := by
    intro c
    rw [trailerSize]
    split_ifs
    · exact le_rfl
    · exact Nat.zero_le _
  have hmin : minFrameSize ≤ (b ++ List.replicate n 0).length := by
    rw [hlen]
    omega
  rw [parse_isSome_iff _ hmin, ht, hp, hlen]
  have hbt := UInt16.le_iff_toNat_le.mp h.topic
  have hbp := UInt32.le_iff_toNat_le.mp h.payload
  have hc := htrailer (.ofByte ((b ++ List.replicate n 0).getD 1 0))
  exact ⟨hv, h.topic, h.payload, by omega⟩

/-- `parse` waits for good exactly when the header is not one it takes. -/
theorem unwedged_iff_begun (b : Bytes) (hb : parse b = none) : Unwedged parse b ↔ Begun b := by
  constructor
  · rintro (rfl | ⟨more, -, f, hf⟩)
    · exact ⟨rfl, by decide, by decide⟩
    · exact begun_of_parse_append b more (by rw [hf]; rfl)
  · intro h
    by_cases hne : b = []
    · exact Or.inl hne
    · obtain ⟨r, hr⟩ := h.exists_parse hne
      obtain ⟨⟨f, n⟩, hf⟩ := Option.isSome_iff_exists.mp hr
      exact unwedged_of_parse_append parser local_parse b r f n hb hf

end BinaryProtocol

/-- The unfinished frames of a protocol. -/
def Begun : ProtocolType → Bytes → Prop
  | .unknown, _ => False
  | .resp, b => RespParser.Begun b
  | .binary, b => BinaryProtocol.Begun b

theorem local_dispatcher (p : ProtocolType) : Local (dispatcher p) := by
  cases p with
  | unknown =>
    intro b v n h
    cases h
  | resp => exact RespParser.local_parse.map Dispatch.command
  | binary => exact BinaryProtocol.local_parse.map Dispatch.frame

theorem unwedged_iff_begun (p : ProtocolType) (hp : p ≠ .unknown) (b : Bytes)
    (hb : parseFor p b = none) : Unwedged (parseFor p) b ↔ Begun p b := by
  cases p with
  | unknown => exact absurd rfl hp
  | resp =>
    exact (unwedged_map RespParser.parser Dispatch.command b).trans
      (RespParser.unwedged_iff_begun b (Option.map_eq_none_iff.mp hb))
  | binary =>
    exact (unwedged_map BinaryProtocol.parser Dispatch.frame b).trans
      (BinaryProtocol.unwedged_iff_begun b (Option.map_eq_none_iff.mp hb))

namespace Receiver

theorem receiveAll_start (cut : List Bytes) (res : List Dispatch × Receiver)
    (h : receiveAll {} cut = some res) :
    res.2.protocol = detectProtocol cut.flatten ∧
      res.2.recvBuffer = (drain (parseFor (detectProtocol cut.flatten)) cut.flatten).2 := by
  have he := congrArg Prod.snd (receiveAll_eq cut {} res.2 res.1 ⟨rfl, rfl⟩ h)
  exact ⟨congrArg Receiver.protocol he, congrArg Receiver.recvBuffer he⟩

/-- However a stream is cut, the drain loop never stops in front of bytes it will not get past
exactly when the stream is whole frames and then the beginning of one. -/
theorem never_wedged_iff (cut : List Bytes) (res : List Dispatch × Receiver)
    (h : receiveAll {} cut = some res) (hp : res.2.protocol ≠ .unknown) :
    (∀ pre, pre <+: cut → ∀ r, receiveAll {} pre = some r →
      Unwedged (parseFor r.2.protocol) r.2.recvBuffer) ↔
    Framed (parseFor res.2.protocol) (Begun res.2.protocol) cut.flatten := by
  obtain ⟨hprotocol, hbuffer⟩ := receiveAll_start cut res h
  have hiff := unwedged_drain_iff (dispatcher (detectProtocol cut.flatten)) (local_dispatcher _)
    (Begun (detectProtocol cut.flatten)) (by
      rw [dispatcher_parse]
      exact unwedged_iff_begun _ (hprotocol ▸ hp)) cut.flatten
  rw [dispatcher_parse] at hiff
  rw [hprotocol, ← hiff]
  constructor
  · intro hall
    have hend := hall cut List.prefix_rfl res h
    rwa [hprotocol, hbuffer] at hend
  · rintro hend pre ⟨post, rfl⟩ r hr
    obtain ⟨hrp, hrb⟩ := receiveAll_start pre r hr
    rw [List.flatten_append] at hend
    -- the first byte fixes the protocol for good
    by_cases hne : pre.flatten = []
    · left
      rw [hrb, hne]
      rfl
    · rw [detectProtocol_append _ _ hne, ← dispatcher_parse] at hend
      rw [hrb, hrp, ← dispatcher_parse]
      exact unwedged_drain_of_append _ (local_dispatcher _) _ _ hend

/-- A PING and an array whose second element breaks off behind a minus sign. -/
theorem never_wedged_iff_ping :
    ∃ res, receiveAll {} [lit "*1\r\n$4\r\nPI", lit "NG\r\n*2\r\n:5\r\n$-"] = some res ∧
      ∀ pre, pre <+: [lit "*1\r\n$4\r\nPI", lit "NG\r\n*2\r\n:5\r\n$-"] →
        ∀ r, receiveAll {} pre = some r → Unwedged (parseFor r.2.protocol) r.2.recvBuffer := by
  have hs : (receiveAll {} [lit "*1\r\n$4\r\nPI", lit "NG\r\n*2\r\n:5\r\n$-"]).isSome := by decide
  obtain ⟨res, h⟩ := Option.isSome_iff_exists.mp hs
  have hresp : res.2.protocol = .resp := (receiveAll_start _ res h).1.trans rfl
  refine ⟨res, h, (never_wedged_iff _ res h (by rw [hresp]; decide)).mpr ?_⟩
  rw [hresp]
  refine ⟨[lit "*1\r\n$4\r\nPING\r\n"], lit "*2\r\n:5\r\n$-", by decide, ?_, rfl, ?_⟩
  · intro d hd
    rw [List.mem_singleton.mp hd]
    exact ⟨_, rfl⟩
  · have htail : RespParser.Begun (lit "$-") :=
      .line 36 .bulkString (lit "-") rfl rfl (Or.inr ⟨0, by decide, Or.inr ⟨by decide, by decide⟩⟩)
    refine .array 42 (lit "2") 2 [lit ":5\r\n"] (lit "$-") rfl rfl (by decide) (by decide) (by decide)
      (by decide) ?_ htail
    intro d hd
    rw [List.mem_singleton.mp hd]
    exact ⟨.integer 5, rfl⟩

/-- A receiver in front of rejected bytes dispatches nothing that comes behind them, as long as
the connection stays open. -/
theorem receiveAll_blocked (r : Receiver) (chunks : List Bytes) (res : List Dispatch × Receiver)
    (hp : r.protocol ≠ .unknown) (hnone : parseFor r.protocol r.recvBuffer = none)
    (hw : ¬ Unwedged (parseFor r.protocol) r.recvBuffer) (h : r.receiveAll chunks = some res) :
    res.1 = [] := by
  induction chunks generalizing r res with
  | nil =>
    obtain rfl := Option.some_inj.mp h
    rfl
  | cons c chunks ih =>
    have hstay : parseFor r.protocol (r.recvBuffer ++ c) = none := by
      cases hsome : parseFor r.protocol (r.recvBuffer ++ c) with
      | none => rfl
      | some vn =>
        rw [← dispatcher_parse] at hsome hnone hw
        exact absurd (unwedged_of_parse_append _ (local_dispatcher _) _ c vn.1 vn.2 hnone hsome) hw
    rw [receiveAll] at h
    cases hr : r.receive c with
    | none => simp only [hr, reduceCtorEq] at h
    | some r1 =>
      obtain rfl : r1 = { r with recvBuffer := r.recvBuffer ++ c } := by
        simp only [receive, if_neg hp] at hr
        split_ifs at hr
        exact (Option.some_inj.mp hr).symm
      simp only [hr, drainAll_idle ⟨r.protocol, r.recvBuffer ++ c⟩ hstay] at h
      obtain ⟨res', hrest, rfl⟩ := Option.map_eq_some_iff.mp h
      exact ih ⟨r.protocol, r.recvBuffer ++ c⟩ res' hp hstay (fun hb => hw hb.of_append) hrest

/-- A frame of another version, and inline text on a RESP connection: the valid PING behind
either is not dispatched, and no bytes that follow change that. -/
theorem rejected_frame_blocks :
    (∃ res, receiveAll {} [BinaryProtocol.serialize .ping,
        BinaryProtocol.serialize { BinaryFrame.ping with version := 2 },
        BinaryProtocol.serialize .ping] = some res ∧ res.2.protocol = .binary ∧ res.1.length = 1 ∧
      ¬ Unwedged (parseFor res.2.protocol) res.2.recvBuffer) ∧
    ∃ res, receiveAll {} [lit "*1\r\n$4\r\nPING\r\n", lit "PING\r\n",
        lit "*1\r\n$4\r\nPING\r\n"] = some res ∧ res.2.protocol = .resp ∧ res.1.length = 1 ∧
      ¬ Unwedged (parseFor res.2.protocol) res.2.recvBuffer := by
  constructor
  · refine ⟨_, rfl, rfl, rfl, ?_⟩
    intro h
    have hb := (unwedged_iff_begun .binary (by decide) _ (by decide)).mp h
    exact absurd hb.version (by decide)
  · refine ⟨_, rfl, rfl, rfl, ?_⟩
    intro h
    have hb := (unwedged_iff_begun .resp (by decide) _ (by decide)).mp h
    exact absurd hb.typeByte (by decide)

end Receiver

end MetricMQ
