import MetricMQ.RespParser
import MetricMQ.StreamFraming
import Mathlib.Data.List.Forall2

/-! `RespParser::parse` never faults, makes progress, keeps its answer when bytes are
appended, and reads back what `RespParser::serialize` writes. -/
namespace MetricMQ.RespParser

open ByteString StreamFraming

theorem findCRLFIn_bound (b : Bytes) (i : ℕ) (h : findCRLFIn b = some i) : i + 2 ≤ b.length := by
  induction b generalizing i with
  | nil => simp only [findCRLFIn, reduceCtorEq] at h
  | cons c b ih =>
    rw [findCRLFIn] at h
    split_ifs at h with hc
    · cases b with
      | nil => simp only [List.head?_nil, reduceCtorEq, and_false] at hc
      | cons d b =>
        rw [Option.some_inj] at h
        simp only [List.length_cons]
        omega
    · obtain ⟨j, hj, rfl⟩ := Option.map_eq_some_iff.mp h
      have := ih j hj
      simp only [List.length_cons]
      omega

theorem findCRLFIn_append (b r : Bytes) (i : ℕ) (h : findCRLFIn b = some i) :
    findCRLFIn (b ++ r) = some i := by
  induction b generalizing i with
  | nil => simp only [findCRLFIn, reduceCtorEq] at h
  | cons c b ih =>
    -- a CRLF needs its second byte, so `b` is not empty and its head is the head of `b ++ r`
    have hb : b ≠ [] := by
      rintro rfl
      simp [findCRLFIn] at h
    have hh : (b ++ r).head? = b.head? := List.head?_append_of_ne_nil b hb
    rw [findCRLFIn] at h
    rw [List.cons_append, findCRLFIn, hh]
    split_ifs at h ⊢ with hc
    · exact h
    · obtain ⟨j, hj, rfl⟩ := Option.map_eq_some_iff.mp h
      rw [ih j hj]
      rfl

theorem findCRLFIn_append_crlf (s r : Bytes) (h : findCRLFIn s = none) :
    findCRLFIn (s ++ 13 :: 10 :: r) = some s.length := by
  induction s with
  | nil => rfl
  | cons c s ih =>
    rw [findCRLFIn] at h
    split_ifs at h with hc
    rw [Option.map_eq_none_iff] at h
    have hn : ¬ (c = 13 ∧ (s ++ 13 :: 10 :: r).head? = some 10) := by
      cases s with
      | nil =>
        rintro ⟨-, h10⟩
        exact absurd (Option.some_inj.mp h10) (by decide)
      | cons d s => simpa only [List.cons_append, List.head?_cons] using hc
    rw [List.cons_append, findCRLFIn, if_neg hn, ih h]
    rfl

/-- A text without CR holds no CRLF. -/
theorem findCRLFIn_eq_none (s : Bytes) (h : 13 ∉ s) : findCRLFIn s = none := by
  induction s with
  | nil => rfl
  | cons c s ih =>
    simp only [List.mem_cons, not_or] at h
    rw [findCRLFIn, if_neg fun hc => h.1 hc.1.symm, ih h.2]
    rfl

theorem findCRLFIn_text_append (a b : Bytes) (ha : 13 ∉ a) (hb : findCRLFIn b = none) :
    findCRLFIn (a ++ b) = none := by
  induction a with
  | nil => exact hb
  | cons c a ih =>
    simp only [List.mem_cons, not_or] at ha
    rw [List.cons_append, findCRLFIn, if_neg fun hc => ha.1 hc.1.symm, ih ha.2]
    rfl

theorem findCRLFIn_append_text (a b : Bytes) (ha : findCRLFIn a = none)
    (hb : findCRLFIn b = none) (hh : b.head? ≠ some 10) : findCRLFIn (a ++ b) = none := by
  induction a with
  | nil => exact hb
  | cons c a ih =>
    rw [findCRLFIn] at ha
    split_ifs at ha with hc
    rw [Option.map_eq_none_iff] at ha
    have hn : ¬ (c = 13 ∧ (a ++ b).head? = some 10) := by
      cases a with
      | nil => exact fun h => hh h.2
      | cons d a => exact hc
    rw [List.cons_append, findCRLFIn, if_neg hn, ih ha]
    rfl

theorem readLine_cons (t : UInt8) (rest : Bytes) :
    readLine (t :: rest) = .ok ((findCRLFIn rest).map fun i => (rest.take i, i + 3)) := by
  rw [readLine, findCRLF, List.drop_succ_cons, List.drop_zero]
  cases hi : findCRLFIn rest with
  | none => rfl
  | some i =>
    have := findCRLFIn_bound rest i hi
    simp only [Option.map_some, substrE, List.length_cons, substr, List.drop_succ_cons,
      List.drop_zero, Nat.add_sub_cancel]
    rw [if_neg (by omega)]
    rfl

def typeByte : RespType → UInt8
  | .simpleString => 43
  | .error => 45
  | .integer => 58
  | .bulkString => 36
  | .array => 42

theorem ofByte_eq_some (t : UInt8) (type : RespType) (h : RespType.ofByte t = some type) :
    t = typeByte type := by
  rw [RespType.ofByte] at h
  split_ifs at h with h1 h2 h3 h4 h5 <;> obtain rfl := Option.some_inj.mp h <;> assumption

/-- With the line complete, `parse` is the case of its type byte. -/
theorem parseAux_line (k : ℕ) (t : UInt8) (rest : Bytes) (type : RespType) (i : ℕ)
    (ht : RespType.ofByte t = some type) (hi : findCRLFIn rest = some i) :
    parseAux (k + 1) (t :: rest) = parseTyped (parseAux k) type (t :: rest) (rest.take i) (i + 3) := by
  simp only [parseAux, ht, readLine_cons, hi, Option.map_some]
  rfl

theorem parseAux_eq_ok_some (k : ℕ) (b : Bytes) (res : RespValue × ℕ)
    (h : parseAux (k + 1) b = .ok (some res)) :
    ∃ t rest type i, b = t :: rest ∧ RespType.ofByte t = some type ∧ findCRLFIn rest = some i ∧
      parseTyped (parseAux k) type b (rest.take i) (i + 3) = .ok (some res) := by
  cases b with
  | nil => simp only [parseAux, Except.ok.injEq, reduceCtorEq] at h
  | cons t rest =>
    cases ht : RespType.ofByte t with
    | none => simp only [parseAux, ht, Except.ok.injEq, reduceCtorEq] at h
    | some type =>
      cases hi : findCRLFIn rest with
      | none =>
        simp only [parseAux, ht, readLine_cons, hi] at h
        cases h
      | some i => exact ⟨t, rest, type, i, rfl, ht, hi, parseAux_line k t rest type i ht hi ▸ h⟩

section Elements

variable {p q : Bytes → Except Fault (Option (RespValue × ℕ))}

/-- One turn of the element loop. -/
theorem parseElems_succ (b : Bytes) (count offset : ℕ) (arr : List RespValue)
    (ho : offset ≤ b.length) :
    parseElems p b (count + 1) offset arr = (p (b.drop offset)).bind fun r =>
      match r with
      | none => .ok none
      | some (elem, n) => parseElems p b count (offset + n) (arr ++ [elem]) := by
  have hs : substrE b offset (b.length - offset) = .ok (b.drop offset) := by
    rw [substrE, if_neg (by omega), substr, List.take_of_length_le (by rw [List.length_drop])]
  rw [parseElems, hs]
  change (p (b.drop offset)).bind _ = _
  congr 1

theorem parseElems_bounds (hp : ∀ b v n, p b = .ok (some (v, n)) → n ≤ b.length)
    (b : Bytes) (count offset : ℕ) (arr : List RespValue) (v : RespValue) (n : ℕ)
    (ho : offset ≤ b.length) (h : parseElems p b count offset arr = .ok (some (v, n))) :
    offset ≤ n ∧ n ≤ b.length := by
  induction count generalizing offset arr with
  | zero =>
    obtain ⟨rfl, rfl⟩ : RespValue.array arr = v ∧ offset = n := by simpa [parseElems] using h
    exact ⟨le_rfl, ho⟩
  | succ count ih =>
    rw [parseElems_succ b count offset arr ho] at h
    cases hr : p (b.drop offset) with
    | error e => rw [hr] at h; cases h
    | ok r =>
      rcases r with _ | ⟨elem, m⟩
      · rw [hr] at h; cases h
      · have hm := hp _ _ _ hr
        rw [List.length_drop] at hm
        rw [hr] at h
        obtain ⟨h1, h2⟩ := ih (offset + m) (arr ++ [elem]) (by omega) h
        exact ⟨by omega, h2⟩

theorem parseElems_total (hb : ∀ b v n, p b = .ok (some (v, n)) → n ≤ b.length) (b : Bytes)
    (hp : ∀ t : Bytes, t.length < b.length → ∃ o, p t = .ok o)
    (count offset : ℕ) (arr : List RespValue) (h0 : 0 < offset) (ho : offset ≤ b.length) :
    ∃ o, parseElems p b count offset arr = .ok o := by
  induction count generalizing offset arr with
  | zero => exact ⟨_, rfl⟩
  | succ count ih =>
    rw [parseElems_succ b count offset arr ho]
    obtain ⟨o, hr⟩ := hp (b.drop offset) (by rw [List.length_drop]; omega)
    rw [hr]
    rcases o with _ | ⟨elem, m⟩
    · exact ⟨none, rfl⟩
    · have hm := hb _ _ _ hr
      rw [List.length_drop] at hm
      exact ih (offset + m) (arr ++ [elem]) (by omega) (by omega)

/-- The element loop keeps its answer on a longer buffer if the recursive call does. -/
theorem parseElems_stable (hb : ∀ b v n, p b = .ok (some (v, n)) → n ≤ b.length)
    (hpq : ∀ b r res, p b = .ok (some res) → q (b ++ r) = .ok (some res))
    (b r : Bytes) (count offset : ℕ) (arr : List RespValue) (res : RespValue × ℕ)
    (ho : offset ≤ b.length) (h : parseElems p b count offset arr = .ok (some res)) :
    parseElems q (b ++ r) count offset arr = .ok (some res) := by
  induction count generalizing offset arr with
  | zero => exact h
  | succ count ih =>
    rw [parseElems_succ b count offset arr ho] at h
    have hl : (b ++ r).length = b.length + r.length := List.length_append
    rw [parseElems_succ (b ++ r) count offset arr (by omega),
      List.drop_append_of_le_length ho]
    cases hr : p (b.drop offset) with
    | error e => rw [hr] at h; cases h
    | ok o =>
      rcases o with _ | ⟨elem, m⟩
      · rw [hr] at h; cases h
      · have hm := hb _ _ _ hr
        rw [List.length_drop] at hm
        rw [hr] at h
        rw [hpq _ r _ hr]
        exact ih (offset + m) (arr ++ [elem]) (by omega) h

/-- A parsed array holds the elements collected so far and then only parsed ones. -/
theorem parseElems_forall (P : RespValue → Prop)
    (hb : ∀ b v n, p b = .ok (some (v, n)) → n ≤ b.length)
    (b : Bytes) (hp : ∀ t v n, t.length ≤ b.length → p t = .ok (some (v, n)) → P v)
    (count offset : ℕ) (arr : List RespValue) (v : RespValue) (n : ℕ)
    (ho : offset ≤ b.length) (harr : ∀ e ∈ arr, P e)
    (h : parseElems p b count offset arr = .ok (some (v, n))) :
    ∃ es, v = .array es ∧ es.length = arr.length + count ∧ ∀ e ∈ es, P e := by
  induction count generalizing offset arr with
  | zero =>
    obtain ⟨rfl, -⟩ : RespValue.array arr = v ∧ offset = n := by simpa [parseElems] using h
    exact ⟨arr, rfl, rfl, harr⟩
  | succ count ih =>
    rw [parseElems_succ b count offset arr ho] at h
    cases hr : p (b.drop offset) with
    | error e => rw [hr] at h; cases h
    | ok o =>
      rcases o with _ | ⟨elem, m⟩
      · rw [hr] at h; cases h
      · have hm := hb _ _ _ hr
        have hd : (b.drop offset).length = b.length - offset := List.length_drop
        rw [hr] at h
        -- the element joins what was read before it
        have hnew : ∀ e ∈ arr ++ [elem], P e := by
          intro e he
          rcases List.mem_append.mp he with he | he
          · exact harr e he
          · rw [List.mem_singleton.mp he]
            exact hp _ _ _ (by omega) hr
        obtain ⟨es, hv, hlen, hes⟩ := ih (offset + m) (arr ++ [elem]) (by omega) hnew h
        refine ⟨es, hv, ?_, hes⟩
        rw [hlen, List.length_append, List.length_singleton]
        omega

end Elements

/-- A bulk string whose body is in the buffer. -/
theorem parseBulk_body (b line : Bytes) (next : ℕ) (len : Int64) (hl : stoll line = some len)
    (h0 : 0 ≤ len) (hm : len ≤ maxBulkLen) (hb : next + len.toInt.toNat + 2 ≤ b.length) :
    parseBulk b line next =
      .ok (some (.bulkString (substr b next len.toInt.toNat), next + len.toInt.toNat + 2)) := by
  have h1 : len ≠ -1 := by
    rintro rfl
    exact absurd h0 (by decide)
  have h2 : ¬ (len < 0 ∨ len > maxBulkLen) := by
    rw [not_or]
    exact ⟨Int64.not_lt.mpr h0, Int64.not_lt.mpr hm⟩
  have hs : substrE b next len.toInt.toNat = .ok (substr b next len.toInt.toNat) :=
    if_neg (by omega)
  have h3 : ¬ b.length < next + len.toInt.toNat + 2 := by omega
  simp only [parseBulk, hl, if_neg h1, if_neg h2, if_neg h3, hs]
  rfl

theorem parseBulk_cases (b line : Bytes) (next : ℕ) :
    parseBulk b line next = .ok none ∨
    (stoll line = some (-1) ∧ parseBulk b line next = .ok (some (.null, next))) ∨
    ∃ len, stoll line = some len ∧ 0 ≤ len ∧ len ≤ maxBulkLen ∧
      next + len.toInt.toNat + 2 ≤ b.length := by
  cases hl : stoll line with
  | none => exact .inl (by simp only [parseBulk, hl])
  | some len =>
    by_cases h1 : len = -1
    · exact .inr (.inl ⟨congrArg some h1, by simp only [parseBulk, hl, if_pos h1]⟩)
    · by_cases h2 : len < 0 ∨ len > maxBulkLen
      · exact .inl (by simp only [parseBulk, hl, if_neg h1, if_pos h2])
      · by_cases h3 : b.length < next + len.toInt.toNat + 2
        · exact .inl (by simp only [parseBulk, hl, if_neg h1, if_neg h2, if_pos h3])
        · rw [not_or] at h2
          exact .inr (.inr ⟨len, rfl, Int64.not_lt.mp h2.1, Int64.not_lt.mp h2.2, by omega⟩)

theorem parseArray_elems (p : Bytes → Except Fault (Option (RespValue × ℕ))) (b line : Bytes)
    (next : ℕ) (count : Int64) (hl : stoll line = some count) (h0 : 0 ≤ count)
    (hm : count ≤ maxArrayCount) :
    parseArray p b line next = parseElems p b count.toInt.toNat next [] := by
  have h1 : count ≠ -1 := by
    rintro rfl
    exact absurd h0 (by decide)
  have h2 : ¬ (count < 0 ∨ count > maxArrayCount) := by
    rw [not_or]
    exact ⟨Int64.not_lt.mpr h0, Int64.not_lt.mpr hm⟩
  simp only [parseArray, hl, if_neg h1, if_neg h2]

/-- The answers of `parseArray` that do not reach the element loop do not read the buffer. -/
theorem parseArray_cases (line : Bytes) (next : ℕ) :
    (∀ p b, parseArray p b line next = .ok none) ∨
    (∀ p b, parseArray p b line next = .ok (some (.null, next))) ∨
    ∃ count, stoll line = some count ∧ 0 ≤ count ∧ count ≤ maxArrayCount := by
  cases hl : stoll line with
  | none => exact .inl fun p b => by simp only [parseArray, hl]
  | some count =>
    by_cases h1 : count = -1
    · exact .inr (.inl fun p b => by simp only [parseArray, hl, if_pos h1])
    · by_cases h2 : count < 0 ∨ count > maxArrayCount
      · exact .inl fun p b => by simp only [parseArray, hl, if_neg h1, if_pos h2]
      · rw [not_or] at h2
        exact .inr (.inr ⟨count, rfl, Int64.not_lt.mp h2.1, Int64.not_lt.mp h2.2⟩)

/-- What a case of the `switch` returns, if it returns a value. -/
inductive Typed (p : Bytes → Except Fault (Option (RespValue × ℕ))) (b line : Bytes) (next : ℕ) :
    RespType → RespValue → ℕ → Prop
  | simpleString : Typed p b line next .simpleString (.simpleString line) next
  | error : Typed p b line next .error (.error line) next
  | integer (num : Int64) (hs : stoll line = some num) : Typed p b line next .integer (.integer num) next
  | nullBulk (hs : stoll line = some (-1)) : Typed p b line next .bulkString .null next
  | bulk (len : Int64) (hs : stoll line = some len) (h0 : 0 ≤ len) (hm : len ≤ maxBulkLen)
      (hb : next + len.toInt.toNat + 2 ≤ b.length) :
      Typed p b line next .bulkString (.bulkString (substr b next len.toInt.toNat))
        (next + len.toInt.toNat + 2)
  | nullArray (hs : stoll line = some (-1)) : Typed p b line next .array .null next
  | array (count : Int64) (hs : stoll line = some count) (h0 : 0 ≤ count) (hm : count ≤ maxArrayCount)
      (v : RespValue) (n : ℕ) (he : parseElems p b count.toInt.toNat next [] = .ok (some (v, n))) :
      Typed p b line next .array v n

/-- The `switch` inverted, once for all that is said about its answers below. -/
theorem parseTyped_iff {p : Bytes → Except Fault (Option (RespValue × ℕ))} (type : RespType)
    (b line : Bytes) (next : ℕ) (v : RespValue) (n : ℕ) :
    parseTyped p type b line next = .ok (some (v, n)) ↔ Typed p b line next type v n := by
  constructor
  · intro h
    cases type with
    | simpleString =>
      obtain ⟨rfl, rfl⟩ : RespValue.simpleString line = v ∧ next = n := by simpa [parseTyped] using h
      exact .simpleString
    | error =>
      obtain ⟨rfl, rfl⟩ : RespValue.error line = v ∧ next = n := by simpa [parseTyped] using h
      exact .error
    | integer =>
      rw [parseTyped, parseInteger] at h
      cases hs : stoll line with
      | none =>
        rw [hs] at h
        cases h
      | some num =>
        obtain ⟨rfl, rfl⟩ : RespValue.integer num = v ∧ next = n := by simpa [hs] using h
        exact .integer num hs
    | bulkString =>
      rw [parseTyped] at h
      rcases parseBulk_cases b line next with hc | ⟨hs, hc⟩ | ⟨len, hs, h0, hm, hb⟩
      · rw [hc] at h
        cases h
      · obtain ⟨rfl, rfl⟩ : RespValue.null = v ∧ next = n := by simpa [hc] using h
        exact .nullBulk hs
      · rw [parseBulk_body b line next len hs h0 hm hb] at h
        obtain ⟨rfl, rfl⟩ := Prod.mk.inj (Option.some_inj.mp (Except.ok.inj h))
        exact .bulk len hs h0 hm hb
    | array =>
      rw [parseTyped, parseArray] at h
      cases hs : stoll line with
      | none =>
        rw [hs] at h
        cases h
      | some count =>
        simp only [hs] at h
        split_ifs at h with h1 h2
        · obtain ⟨rfl, rfl⟩ : RespValue.null = v ∧ next = n := by simpa using h
          exact .nullArray (h1 ▸ hs)
        · cases h
        · rw [not_or] at h2
          exact .array count hs (Int64.not_lt.mp h2.1) (Int64.not_lt.mp h2.2) v n h
  · intro h
    cases h with
    | simpleString | error => rfl
    | integer num hs => simp only [parseTyped, parseInteger, hs]
    | nullBulk hs => simp only [parseTyped, parseBulk, hs, ↓reduceIte]
    | bulk len hs h0 hm hb => exact parseBulk_body b line next len hs h0 hm hb
    | nullArray hs => simp only [parseTyped, parseArray, hs, ↓reduceIte]
    | array count hs h0 hm v n he =>
      rw [parseTyped, parseArray_elems p b line next count hs h0 hm]
      exact he

theorem parseTyped_bounds {p : Bytes → Except Fault (Option (RespValue × ℕ))}
    (hp : ∀ b v n, p b = .ok (some (v, n)) → n ≤ b.length) (type : RespType) (b line : Bytes)
    (next : ℕ) (v : RespValue) (n : ℕ) (hn : next ≤ b.length)
    (h : parseTyped p type b line next = .ok (some (v, n))) : next ≤ n ∧ n ≤ b.length := by
  cases (parseTyped_iff type b line next v n).mp h with
  | simpleString | error | integer | nullBulk | nullArray => exact ⟨le_rfl, hn⟩
  | bulk len hs h0 hm hb => exact ⟨by omega, hb⟩
  | array count hs h0 hm _ _ he => exact parseElems_bounds hp b _ next [] v n hn he

theorem parseTyped_total {p : Bytes → Except Fault (Option (RespValue × ℕ))}
    (hb : ∀ b v n, p b = .ok (some (v, n)) → n ≤ b.length) (type : RespType) (b line : Bytes)
    (next : ℕ) (hp : ∀ t : Bytes, t.length < b.length → ∃ o, p t = .ok o) (h0 : 0 < next)
    (hn : next ≤ b.length) : ∃ o, parseTyped p type b line next = .ok o := by
  cases type with
  | simpleString | error | integer => exact ⟨_, rfl⟩
  | bulkString =>
    rcases parseBulk_cases b line next with hc | ⟨-, hc⟩ | ⟨len, hl, hl0, hm, hlb⟩
    · exact ⟨_, hc⟩
    · exact ⟨_, hc⟩
    · exact ⟨_, parseBulk_body b line next len hl hl0 hm hlb⟩
  | array =>
    rcases parseArray_cases line next with hc | hc | ⟨count, hl, hl0, hm⟩
    · exact ⟨_, hc p b⟩
    · exact ⟨_, hc p b⟩
    · rw [parseTyped, parseArray_elems p b line next count hl hl0 hm]
      exact parseElems_total hb b hp _ next [] h0 hn

theorem parseTyped_stable {p q : Bytes → Except Fault (Option (RespValue × ℕ))}
    (hb : ∀ b v n, p b = .ok (some (v, n)) → n ≤ b.length)
    (hpq : ∀ b r res, p b = .ok (some res) → q (b ++ r) = .ok (some res)) (type : RespType)
    (b r line : Bytes) (next : ℕ) (res : RespValue × ℕ) (hn : next ≤ b.length)
    (h : parseTyped p type b line next = .ok (some res)) :
    parseTyped q type (b ++ r) line next = .ok (some res) := by
  obtain ⟨v, n⟩ := res
  rw [parseTyped_iff] at h ⊢
  cases h with
  | simpleString => exact .simpleString
  | error => exact .error
  | integer num hs => exact .integer num hs
  | nullBulk hs => exact .nullBulk hs
  | bulk len hs h0 hm hlb =>
    have hlr : (b ++ r).length = b.length + r.length := List.length_append
    have hs' : substr (b ++ r) next len.toInt.toNat = substr b next len.toInt.toNat := by
      rw [substr, List.drop_append_of_le_length hn,
        List.take_append_of_le_length (by rw [List.length_drop]; omega), substr]
    rw [← hs']
    exact .bulk len hs h0 hm (by omega)
  | nullArray hs => exact .nullArray hs
  | array count hs h0 hm _ _ he =>
    exact .array count hs h0 hm v n (parseElems_stable hb hpq b r _ next [] (v, n) hn he)

theorem parseAux_bounds (k : ℕ) (b : Bytes) (v : RespValue) (n : ℕ)
    (h : parseAux k b = .ok (some (v, n))) : 3 ≤ n ∧ n ≤ b.length := by
  induction k generalizing b v n with
  | zero => cases h
  | succ k ih =>
    obtain ⟨t, rest, type, i, rfl, ht, hi, hp⟩ := parseAux_eq_ok_some k b (v, n) h
    have hrest := findCRLFIn_bound rest i hi
    have hlen : (t :: rest).length = rest.length + 1 := List.length_cons
    obtain ⟨h1, h2⟩ := parseTyped_bounds (fun b v n hb => (ih b v n hb).2) type (t :: rest) _
      (i + 3) v n (by omega) hp
    exact ⟨by omega, h2⟩

/-- Every fuel above the length of the buffer is enough. -/
theorem parseAux_total (k : ℕ) (b : Bytes) (hk : b.length < k) : ∃ o, parseAux k b = .ok o := by
  induction k generalizing b with
  | zero => omega
  | succ k ih =>
    cases b with
    | nil => exact ⟨none, rfl⟩
    | cons t rest =>
      have hlen : (t :: rest).length = rest.length + 1 := List.length_cons
      cases ht : RespType.ofByte t with
      | none => exact ⟨none, by simp only [parseAux, ht]⟩
      | some type =>
        cases hi : findCRLFIn rest with
        | none =>
          refine ⟨none, ?_⟩
          simp only [parseAux, ht, readLine_cons, hi]
          rfl
        | some i =>
          have hrest := findCRLFIn_bound rest i hi
          rw [parseAux_line k t rest type i ht hi]
          exact parseTyped_total (fun b v n hb => (parseAux_bounds k b v n hb).2) type _ _ (i + 3)
            (fun u hu => ih u (by omega)) (by omega) (by omega)

theorem parseAux_stable (k k' : ℕ) (hk : k ≤ k') (b r : Bytes) (res : RespValue × ℕ)
    (h : parseAux k b = .ok (some res)) : parseAux k' (b ++ r) = .ok (some res) := by
  induction k generalizing k' b r res with
  | zero => cases h
  | succ k ih =>
    obtain ⟨j, rfl⟩ : ∃ j, k' = j + 1 := ⟨k' - 1, by omega⟩
    obtain ⟨t, rest, type, i, rfl, ht, hi, hp⟩ := parseAux_eq_ok_some k b res h
    have hrest := findCRLFIn_bound rest i hi
    have hlen : (t :: rest).length = rest.length + 1 := List.length_cons
    rw [List.cons_append, parseAux_line j t (rest ++ r) type i ht (findCRLFIn_append rest r i hi),
      List.take_append_of_le_length (by omega), ← List.cons_append]
    exact parseTyped_stable (fun b v n hb => (parseAux_bounds k b v n hb).2)
      (fun b r res => ih j (by omega) b r res) type (t :: rest) r _ (i + 3) res (by omega) hp

/-- No `substr` of `parse` throws and the recursion ends, on every buffer. -/
theorem parseE_eq_ok (b : Bytes) : parseE b = .ok (parse b) := by
  obtain ⟨o, ho⟩ := parseAux_total (b.length + 1) b (Nat.lt_succ_self _)
  rw [parse, parseE, ho]

theorem parseAux_of_parse (b : Bytes) (res : RespValue × ℕ) (h : parse b = some res) :
    parseAux (b.length + 1) b = .ok (some res) := by
  rw [← h, ← parseE_eq_ok, parseE]

theorem parse_of_parseAux (k : ℕ) (b : Bytes) (res : RespValue × ℕ) (hk : k ≤ b.length + 1)
    (h : parseAux k b = .ok (some res)) : parse b = some res := by
  have hs := parseAux_stable k (b.length + 1) hk b [] res h
  rw [List.append_nil, ← parseE, parseE_eq_ok] at hs
  exact Except.ok.inj hs

theorem parse_bounds (b : Bytes) (v : RespValue) (n : ℕ) (h : parse b = some (v, n)) :
    3 ≤ n ∧ n ≤ b.length :=
  parseAux_bounds _ b v n (parseAux_of_parse b (v, n) h)

theorem parse_stable (b r : Bytes) (v : RespValue) (n : ℕ) (h : parse b = some (v, n)) :
    parse (b ++ r) = some (v, n) := by
  have hl : (b ++ r).length = b.length + r.length := List.length_append
  have hs := parseAux_stable (b.length + 1) ((b ++ r).length + 1) (by omega) b r (v, n)
    (parseAux_of_parse b (v, n) h)
  exact parse_of_parseAux _ (b ++ r) (v, n) le_rfl hs

/-- `RespParser::parse` as the parser of a receive loop. -/
def parser : StreamParser UInt8 RespValue where
  parse := parse
  progress := fun b v n h => ⟨by have := (parse_bounds b v n h).1; omega, (parse_bounds b v n h).2⟩
  stable := parse_stable

section Locality

variable {p q : Bytes → Except Fault (Option (RespValue × ℕ))}

/-- A CRLF is found as soon as its two bytes are there. -/
theorem findCRLFIn_take_of_le (b : Bytes) (i m : ℕ) (h : findCRLFIn b = some i) (hm : i + 2 ≤ m) :
    findCRLFIn (b.take m) = some i := by
  induction b generalizing i m with
  | nil => cases h
  | cons c b ih =>
    obtain ⟨m, rfl⟩ : ∃ k, m = k + 1 := ⟨m - 1, by omega⟩
    have hh : (b.take m).head? = b.head? := by
      rw [List.head?_take, if_neg (by omega)]
    rw [findCRLFIn] at h
    rw [List.take_succ_cons, findCRLFIn, hh]
    split_ifs at h ⊢ with hc
    · exact h
    · obtain ⟨j, hj, rfl⟩ := Option.map_eq_some_iff.mp h
      rw [ih j m hj (by omega)]
      rfl

theorem parseElems_congr (hb : ∀ b v n, p b = .ok (some (v, n)) → n ≤ b.length) (b : Bytes)
    (hpq : ∀ u : Bytes, u.length < b.length → p u = q u) (count offset : ℕ) (arr : List RespValue)
    (h0 : 0 < offset) (ho : offset ≤ b.length) :
    parseElems p b count offset arr = parseElems q b count offset arr := by
  induction count generalizing offset arr with
  | zero => rfl
  | succ count ih =>
    have hd : (b.drop offset).length = b.length - offset := List.length_drop
    rw [parseElems_succ b count offset arr ho, parseElems_succ b count offset arr ho,
      ← hpq _ (by omega)]
    cases hr : p (b.drop offset) with
    | error e => rfl
    | ok o =>
      rcases o with _ | ⟨elem, m⟩
      · rfl
      · have hm := hb _ _ _ hr
        exact ih (offset + m) (arr ++ [elem]) (by omega) (by omega)

theorem parseTyped_congr (hb : ∀ b v n, p b = .ok (some (v, n)) → n ≤ b.length) (type : RespType)
    (b line : Bytes) (next : ℕ) (hpq : ∀ u : Bytes, u.length < b.length → p u = q u)
    (h0 : 0 < next) (hn : next ≤ b.length) :
    parseTyped p type b line next = parseTyped q type b line next := by
  cases type with
  | simpleString | error | integer | bulkString => rfl
  | array =>
    rw [parseTyped, parseTyped]
    rcases parseArray_cases line next with hc | hc | ⟨count, hl, hc0, hm⟩
    · rw [hc, hc]
    · rw [hc, hc]
    · rw [parseArray_elems p b line next count hl hc0 hm, parseArray_elems q b line next count hl hc0 hm]
      exact parseElems_congr hb b hpq _ next [] h0 hn

/-- The answer does not depend on the fuel, as long as there is enough of it. -/
theorem parseAux_fuel (k k' : ℕ) (b : Bytes) (hk : b.length < k) (hk' : b.length < k') :
    parseAux k b = parseAux k' b := by
  induction k generalizing k' b with
  | zero => omega
  | succ k ih =>
    obtain ⟨j, rfl⟩ : ∃ j, k' = j + 1 := ⟨k' - 1, by omega⟩
    cases b with
    | nil => rfl
    | cons t rest =>
      have hlen : (t :: rest).length = rest.length + 1 := List.length_cons
      cases ht : RespType.ofByte t with
      | none => simp only [parseAux, ht]
      | some type =>
        cases hi : findCRLFIn rest with
        | none =>
          simp only [parseAux, ht, readLine_cons, hi]
          rfl
        | some i =>
          have hrest := findCRLFIn_bound rest i hi
          rw [parseAux_line k t rest type i ht hi, parseAux_line j t rest type i ht hi]
          exact parseTyped_congr (fun b v n hb => (parseAux_bounds k b v n hb).2) type _ _ (i + 3)
            (fun u hu => ih j u (by omega) (by omega)) (by omega) (by omega)

theorem parseE_bounds (b : Bytes) (v : RespValue) (n : ℕ) (h : parseE b = .ok (some (v, n))) :
    n ≤ b.length := (parseAux_bounds _ b v n h).2

/-- With the line complete, `parse` is the case of its type byte. -/
theorem parseE_line (t : UInt8) (rest : Bytes) (type : RespType) (i : ℕ)
    (ht : RespType.ofByte t = some type) (hi : findCRLFIn rest = some i) :
    parseE (t :: rest) = parseTyped parseE type (t :: rest) (rest.take i) (i + 3) := by
  have hrest := findCRLFIn_bound rest i hi
  have hlen : (t :: rest).length = rest.length + 1 := List.length_cons
  rw [parseE, parseAux_line _ t rest type i ht hi]
  exact parseTyped_congr (fun b v n hb => (parseAux_bounds _ b v n hb).2) type _ _ (i + 3)
    (fun u hu => parseAux_fuel _ _ u hu (Nat.lt_succ_self _)) (by omega) (by omega)

theorem parseE_eq_ok_some (b : Bytes) (res : RespValue × ℕ) (h : parseE b = .ok (some res)) :
    ∃ t rest type i, b = t :: rest ∧ RespType.ofByte t = some type ∧ findCRLFIn rest = some i ∧
      parseTyped parseE type b (rest.take i) (i + 3) = .ok (some res) := by
  obtain ⟨t, rest, type, i, rfl, ht, hi, -⟩ := parseAux_eq_ok_some _ b res h
  exact ⟨t, rest, type, i, rfl, ht, hi, parseE_line t rest type i ht hi ▸ h⟩

theorem parseElems_take (hb : ∀ b v n, p b = .ok (some (v, n)) → n ≤ b.length) (b : Bytes)
    (hp : ∀ u v m, u.length < b.length → p u = .ok (some (v, m)) →
      ∀ r, p (u.take m ++ r) = .ok (some (v, m)))
    (count offset : ℕ) (arr : List RespValue) (v : RespValue) (n : ℕ) (h0 : 0 < offset)
    (ho : offset ≤ b.length) (h : parseElems p b count offset arr = .ok (some (v, n))) :
    parseElems p (b.take n) count offset arr = .ok (some (v, n)) := by
  induction count generalizing offset arr with
  | zero => exact h
  | succ count ih =>
    obtain ⟨hon, hnb⟩ := parseElems_bounds hb b _ offset arr v n ho h
    rw [parseElems_succ b count offset arr ho] at h
    rw [parseElems_succ _ count offset arr (by rw [List.length_take]; omega)]
    have hd : (b.drop offset).length = b.length - offset := List.length_drop
    cases hr : p (b.drop offset) with
    | error e => rw [hr] at h; cases h
    | ok o =>
      rcases o with _ | ⟨elem, m⟩
      · rw [hr] at h; cases h
      · rw [hr] at h
        have hm := hb _ _ _ hr
        have hle := (parseElems_bounds hb b count (offset + m) (arr ++ [elem]) v n (by omega) h).1
        -- the element lies in front of `n`
        have hsplit : (b.take n).drop offset =
            (b.drop offset).take m ++ ((b.drop offset).drop m).take (n - offset - m) := by
          rw [List.drop_take, ← List.take_add, Nat.add_sub_cancel' (by omega)]
        rw [hsplit, hp _ elem m (by omega) hr]
        exact ih (offset + m) (arr ++ [elem]) (by omega) (by omega) h

theorem parseTyped_take (b : Bytes) (hp : ∀ u v m, u.length < b.length → parseE u = .ok (some (v, m)) →
      ∀ r, parseE (u.take m ++ r) = .ok (some (v, m)))
    (type : RespType) (line : Bytes) (next : ℕ) (v : RespValue) (n : ℕ) (h0 : 0 < next)
    (hn : next ≤ b.length) (h : parseTyped parseE type b line next = .ok (some (v, n))) :
    parseTyped parseE type (b.take n) line next = .ok (some (v, n)) := by
  rw [parseTyped_iff] at h ⊢
  cases h with
  | simpleString => exact .simpleString
  | error => exact .error
  | integer num hs => exact .integer num hs
  | nullBulk hs => exact .nullBulk hs
  | bulk len hs hl0 hm hlb =>
    have hs' : substr (b.take (next + len.toInt.toNat + 2)) next len.toInt.toNat =
        substr b next len.toInt.toNat := by
      rw [substr, List.drop_take, List.take_take, Nat.min_eq_left (by omega), substr]
    rw [← hs']
    apply Typed.bulk len hs hl0 hm
    rw [List.length_take]
    omega
  | nullArray hs => exact .nullArray hs
  | array count hs hl0 hm _ _ he =>
    exact .array count hs hl0 hm v n (parseElems_take parseE_bounds b hp _ next [] v n h0 hn he)

/-- What was parsed is parsed again from its own bytes. -/
theorem parseE_take (b : Bytes) (v : RespValue) (n : ℕ) (h : parseE b = .ok (some (v, n)))
    (r : Bytes) : parseE (b.take n ++ r) = .ok (some (v, n)) := by
  induction hlen : b.length using Nat.strong_induction_on generalizing b v n r with
  | _ k ih =>
    obtain ⟨t, rest, type, i, rfl, ht, hi, hp⟩ := parseE_eq_ok_some b (v, n) h
    have hrest := findCRLFIn_bound rest i hi
    have hl : (t :: rest).length = rest.length + 1 := List.length_cons
    have hin := (parseTyped_bounds parseE_bounds type _ _ (i + 3) v n (by omega) hp).1
    have htake := parseTyped_take (t :: rest) (fun u w m hu hw r => ih u.length (by omega) u w m hw r rfl)
      type _ (i + 3) v n (by omega) (by omega) hp
    obtain ⟨m, rfl⟩ : ∃ m, n = m + 1 := ⟨n - 1, by omega⟩
    rw [List.take_succ_cons] at htake ⊢
    have hi' := findCRLFIn_take_of_le rest i m hi (by omega)
    have hline := parseE_line t (rest.take m) type i ht hi'
    rw [List.take_take, Nat.min_eq_left (by omega), htake] at hline
    have hs := parse_stable (t :: rest.take m) r v (m + 1) (by rw [parse, hline])
    rw [parseE_eq_ok, hs]

end Locality

mutual

/-- The values `serialize` writes unambiguously and within the limits of `parse`. -/
def WellFormed : RespValue → Prop
  | .simpleString str => findCRLFIn str = none
  | .error msg => findCRLFIn msg = none
  | .integer _ => True
  | .bulkString str => str.length ≤ maxBulkLen.toInt.toNat
  | .array arr => arr.length ≤ maxArrayCount.toInt.toNat ∧ WellFormedAll arr
  | .null => True

def WellFormedAll : List RespValue → Prop
  | [] => True
  | elem :: arr => WellFormed elem ∧ WellFormedAll arr

end

section RoundTrip

/-- A line that `serialize` writes is the one the parser cuts off. -/
theorem findCRLFIn_line (line r : Bytes) (h : findCRLFIn line = none) :
    findCRLFIn (line ++ crlf ++ r) = some line.length ∧
      (line ++ crlf ++ r).take line.length = line := by
  rw [List.append_assoc]
  exact ⟨findCRLFIn_append_crlf line r h, List.take_left⟩

theorem findCRLFIn_toDecimal (n : ℕ) : findCRLFIn (toDecimal n) = none :=
  findCRLFIn_eq_none _ (not_mem_toDecimal n 13 (by decide))

theorem findCRLFIn_toDecimalInt (i : ℤ) : findCRLFIn (toDecimalInt i) = none := by
  apply findCRLFIn_eq_none
  have h := not_mem_toDecimal i.natAbs 13 (by decide)
  rw [toDecimalInt]
  split_ifs
  · rw [List.mem_cons, not_or]
    exact ⟨by decide, h⟩
  · exact h

theorem ofNat_len (n : ℕ) (m : Int64) (hm : 0 ≤ m.toInt) (h : n ≤ m.toInt.toNat) :
    n < 2 ^ 63 ∧ (Int64.ofNat n).toInt.toNat = n ∧ 0 ≤ Int64.ofNat n ∧ Int64.ofNat n ≤ m := by
  have hlt := m.toInt_lt
  have hn : n < 2 ^ 63 := by omega
  have hi : (Int64.ofNat n).toInt = n := Int64.toInt_ofNat_of_lt hn
  refine ⟨hn, by omega, ?_, ?_⟩
  · rw [Int64.le_iff_toInt_le, hi]
    exact Int.natCast_nonneg n
  · rw [Int64.le_iff_toInt_le, hi]
    omega

/-- An element loop that finds its elements one behind the other. -/
theorem parseElems_flatten {p : Bytes → Except Fault (Option (RespValue × ℕ))} (b r : Bytes)
    (pieces : List Bytes) (values acc : List RespValue) (offset : ℕ)
    (hd : b.drop offset = pieces.flatten ++ r) (ho : offset ≤ b.length)
    (hp : List.Forall₂ (fun d v => ∀ r, p (d ++ r) = .ok (some (v, d.length))) pieces values) :
    parseElems p b pieces.length offset acc =
      .ok (some (.array (acc ++ values), offset + pieces.flatten.length)) := by
  induction hp generalizing acc offset with
  | nil =>
    simp only [List.length_nil, parseElems, List.flatten_nil, List.append_nil, Nat.add_zero]
  | @cons d v pieces values hdv _ ih =>
    have hlen := congrArg List.length hd
    simp only [List.flatten_cons, List.length_drop, List.length_append] at hlen
    have hd' : b.drop (offset + d.length) = pieces.flatten ++ r := by
      rw [← List.drop_drop, hd, List.flatten_cons, List.append_assoc, List.drop_left]
    rw [List.length_cons, parseElems_succ b pieces.length offset acc ho, hd, List.flatten_cons,
      List.append_assoc, hdv]
    change parseElems p b pieces.length (offset + d.length) (acc ++ [v]) = _
    rw [ih (acc ++ [v]) _ hd' (by omega)]
    simp only [List.append_assoc, List.singleton_append, List.length_append, Nat.add_assoc]

theorem serializeAll_eq (arr : List RespValue) : serializeAll arr = (arr.map serialize).flatten := by
  induction arr with
  | nil => rfl
  | cons e arr ih => rw [serializeAll, ih, List.map_cons, List.flatten_cons]

theorem parseElems_serializeAll {p : Bytes → Except Fault (Option (RespValue × ℕ))} (b r : Bytes)
    (arr acc : List RespValue) (offset : ℕ) (hd : b.drop offset = serializeAll arr ++ r)
    (ho : offset ≤ b.length)
    (hp : ∀ e ∈ arr, ∀ r, p (serialize e ++ r) = .ok (some (e, (serialize e).length))) :
    parseElems p b arr.length offset acc =
      .ok (some (.array (acc ++ arr), offset + (serializeAll arr).length)) := by
  rw [serializeAll_eq] at hd ⊢
  have h := parseElems_flatten b r (arr.map serialize) arr acc offset hd ho
    (List.forall₂_map_left_iff.mpr (List.forall₂_same.mpr hp))
  rwa [List.length_map] at h

theorem length_serialize_le (e : RespValue) (arr : List RespValue) (he : e ∈ arr) :
    (serialize e).length ≤ (serializeAll arr).length := by
  induction arr with
  | nil => cases he
  | cons d arr ih =>
    rw [serializeAll, List.length_append]
    rcases List.mem_cons.mp he with rfl | he
    · omega
    · have := ih he
      omega

theorem wellFormedAll_iff (arr : List RespValue) : WellFormedAll arr ↔ ∀ e ∈ arr, WellFormed e := by
  induction arr with
  | nil => simp [WellFormedAll]
  | cons e arr ih => rw [WellFormedAll, ih, List.forall_mem_cons]

/-- What `parse` does behind a complete first line. -/
theorem parseAux_serialized_line (k : ℕ) (t : UInt8) (type : RespType) (line r : Bytes)
    (ht : RespType.ofByte t = some type) (hl : findCRLFIn line = none) :
    parseAux (k + 1) (t :: (line ++ crlf ++ r)) =
      parseTyped (parseAux k) type (t :: (line ++ crlf ++ r)) line (line.length + 3) := by
  obtain ⟨hf, hk⟩ := findCRLFIn_line line r hl
  rw [parseAux_line k t _ type line.length ht hf, hk]

theorem drop_line (t : UInt8) (line r : Bytes) :
    (t :: (line ++ crlf ++ r)).drop (line.length + 3) = r := by
  have hl : line.length + 3 = (t :: (line ++ crlf)).length := by
    simp only [List.length_cons, List.length_append, crlf, List.length_nil]
  rw [hl]
  exact List.drop_left

theorem parseAux_serialize (k : ℕ) (v : RespValue) (r : Bytes) (hv : WellFormed v)
    (hk : (serialize v).length < k) :
    parseAux k (serialize v ++ r) = .ok (some (v, (serialize v).length)) := by
  -- the recursion of `parse` is on the fuel, and an element is shorter than its array
  induction k generalizing v r with
  | zero => omega
  | succ k ih =>
    cases v with
    | simpleString str =>
      rw [serialize, List.cons_append, parseAux_serialized_line k 43 .simpleString str r rfl hv]
      simp only [parseTyped, List.length_cons, List.length_append, crlf, List.length_nil]
    | error msg =>
      rw [serialize, List.cons_append, parseAux_serialized_line k 45 .error msg r rfl hv]
      simp only [parseTyped, List.length_cons, List.length_append, crlf, List.length_nil]
    | integer num =>
      rw [serialize, List.cons_append, parseAux_serialized_line k 58 .integer _ r rfl
        (findCRLFIn_toDecimalInt num.toInt)]
      simp only [parseTyped, parseInteger, stoll_toDecimalInt, List.length_cons,
        List.length_append, crlf, List.length_nil]
    | bulkString str =>
      rw [WellFormed] at hv
      obtain ⟨hn, hlen, h0, hm⟩ := ofNat_len str.length maxBulkLen (by decide) hv
      rw [serialize, List.cons_append, List.append_assoc (toDecimal str.length ++ crlf),
        parseAux_serialized_line k 36 .bulkString _ _ rfl (findCRLFIn_toDecimal str.length),
        parseTyped]
      rw [parseBulk_body _ _ _ _ (stoll_toDecimal str.length hn) h0 hm, hlen, substr, drop_line,
        List.append_assoc str, List.take_left]
      · simp only [List.length_cons, List.length_append, crlf, List.length_nil]
        congr 3
        omega
      · rw [hlen]
        simp only [List.length_cons, List.length_append, crlf, List.length_nil]
        omega
    | array arr =>
      rw [WellFormed] at hv
      obtain ⟨hn, hlen, h0, hm⟩ := ofNat_len arr.length maxArrayCount (by decide) hv.1
      have hsz : (serialize (.array arr)).length =
          (toDecimal arr.length).length + 3 + (serializeAll arr).length := by
        simp only [serialize, List.length_cons, List.length_append, crlf, List.length_nil]
        omega
      have hp : ∀ e ∈ arr, ∀ r, parseAux k (serialize e ++ r) =
          .ok (some (e, (serialize e).length)) := by
        intro e he r
        have hle := length_serialize_le e arr he
        exact ih e r ((wellFormedAll_iff arr).mp hv.2 e he) (by omega)
      rw [hsz, serialize, List.cons_append, List.append_assoc (toDecimal arr.length ++ crlf),
        parseAux_serialized_line k 42 .array _ _ rfl (findCRLFIn_toDecimal arr.length), parseTyped,
        parseArray_elems _ _ _ _ _ (stoll_toDecimal arr.length hn) h0 hm, hlen]
      apply parseElems_serializeAll _ r arr [] _ (drop_line _ _ _) _ hp
      simp only [List.length_cons, List.length_append, crlf, List.length_nil]
      omega
    | null =>
      rw [serialize]
      exact parseAux_serialized_line k 36 .bulkString (lit "-1") r rfl (by decide)

/-- Reading back what was written, whatever bytes follow. -/
theorem parse_serialize_append (v : RespValue) (r : Bytes) (hv : WellFormed v) :
    parse (serialize v ++ r) = some (v, (serialize v).length) := by
  have hl : (serialize v ++ r).length = (serialize v).length + r.length := List.length_append
  exact parse_of_parseAux ((serialize v).length + 1) _ _ (by omega)
    (parseAux_serialize _ v r hv (Nat.lt_succ_self _))

theorem parse_serialize (v : RespValue) (hv : WellFormed v) :
    parse (serialize v) = some (v, (serialize v).length) := by
  simpa only [List.append_nil] using parse_serialize_append v [] hv

end RoundTrip

section Rejected

/-- A decimal length above a limit is refused, whether or not it fits into 64 bits. -/
theorem stoll_toDecimal_above (n : ℕ) (m : Int64) (h : m.toInt.toNat < n) :
    stoll (toDecimal n) = none ∨
      ∃ len, stoll (toDecimal n) = some len ∧ len ≠ -1 ∧ (len < 0 ∨ len > m) := by
  rcases Nat.lt_or_ge n (2 ^ 63) with hn | hn
  · have hi : (Int64.ofNat n).toInt = n := Int64.toInt_ofNat_of_lt hn
    refine Or.inr ⟨Int64.ofNat n, stoll_toDecimal n hn, ?_, Or.inr ?_⟩
    · intro he
      rw [he] at hi
      have : (-1 : Int64).toInt = -1 := by decide
      omega
    · rw [gt_iff_lt, Int64.lt_iff_toInt_lt, hi]
      omega
  · exact Or.inl (stoll_toDecimal_large n hn)

theorem parseAux_long_bulk (k : ℕ) (str r : Bytes) (h : maxBulkLen.toInt.toNat < str.length) :
    parseAux (k + 1) (serialize (.bulkString str) ++ r) = .ok none := by
  rw [serialize, List.cons_append, List.append_assoc (toDecimal str.length ++ crlf),
    parseAux_serialized_line k 36 .bulkString _ _ rfl (findCRLFIn_toDecimal str.length),
    parseTyped, parseBulk]
  rcases stoll_toDecimal_above str.length maxBulkLen h with hs | ⟨len, hs, h1, h2⟩
  · rw [hs]
  · simp only [hs, if_neg h1, if_pos h2]

theorem parseElems_bulk_fits (k : ℕ) (b r : Bytes) (strings : List Bytes) (acc : List RespValue)
    (offset : ℕ) (res : RespValue × ℕ) (h0 : 0 < offset) (ho : offset ≤ b.length)
    (hd : b.drop offset = serializeAll (strings.map .bulkString) ++ r) (hk : b.length ≤ k)
    (h : parseElems (parseAux k) b strings.length offset acc = .ok (some res)) :
    ∀ str ∈ strings, str.length ≤ maxBulkLen.toInt.toNat := by
  induction strings generalizing offset acc with
  | nil =>
    intro str hs
    cases hs
  | cons str strings ih =>
    have hlen : (b.drop offset).length = b.length - offset := List.length_drop
    rw [List.map_cons, serializeAll, List.append_assoc] at hd
    rw [List.length_cons, parseElems_succ b _ offset acc ho, hd] at h
    by_cases hfit : str.length ≤ maxBulkLen.toInt.toNat
    · have hle : (serialize (.bulkString str)).length ≤ b.length - offset := by
        rw [← hlen, hd, List.length_append]
        omega
      rw [parseAux_serialize k (.bulkString str) _ hfit (by omega)] at h
      refine List.forall_mem_cons.mpr ⟨hfit, ih _ _ (by omega) (by omega) ?_ h⟩
      rw [← List.drop_drop, hd, List.drop_left]
    · obtain ⟨k', rfl⟩ : ∃ k', k = k' + 1 := ⟨k - 1, by omega⟩
      rw [parseAux_long_bulk k' str _ (by omega)] at h
      cases h

/-- A command made of bulk strings is only taken when all its parts are within the limits. -/
theorem wellFormed_of_parse_makeArray (strings : List Bytes) (r : Bytes) (res : RespValue × ℕ)
    (h : parse (serialize (makeArray strings) ++ r) = some res) :
    WellFormed (makeArray strings) := by
  have ha := parseAux_of_parse _ res h
  rw [makeArray, serialize, List.length_map, List.cons_append,
    List.append_assoc (toDecimal strings.length ++ crlf),
    parseAux_serialized_line _ 42 .array _ _ rfl (findCRLFIn_toDecimal strings.length),
    parseTyped] at ha
  by_cases hfit : strings.length ≤ maxArrayCount.toInt.toNat
  · obtain ⟨hn, hlen, h0, hm⟩ := ofNat_len strings.length maxArrayCount (by decide) hfit
    rw [parseArray_elems _ _ _ _ _ (stoll_toDecimal strings.length hn) h0 hm, hlen] at ha
    have hoff : (toDecimal strings.length).length + 3 ≤ (42 :: (toDecimal strings.length ++ crlf ++
        (serializeAll (strings.map .bulkString) ++ r))).length := by
      simp only [List.length_cons, List.length_append, crlf, List.length_nil]
      omega
    have hall := parseElems_bulk_fits _ _ r strings [] _ res (Nat.succ_pos _) hoff (drop_line _ _ _)
      le_rfl ha
    rw [makeArray, WellFormed, List.length_map, wellFormedAll_iff]
    refine ⟨hfit, ?_⟩
    intro e he
    obtain ⟨str, hs, rfl⟩ := List.mem_map.mp he
    exact hall str hs
  · rw [parseArray] at ha
    rcases stoll_toDecimal_above strings.length maxArrayCount (by omega) with hs | ⟨len, hs, h1, h2⟩
    · rw [hs] at ha
      cases ha
    · simp only [hs, if_neg h1, if_pos h2] at ha
      cases ha

end Rejected

section Parsed

theorem asString_of_parseTyped {p : Bytes → Except Fault (Option (RespValue × ℕ))}
    (hb : ∀ b v n, p b = .ok (some (v, n)) → n ≤ b.length) (type : RespType) (b line : Bytes)
    (next : ℕ) (v : RespValue) (n : ℕ) (hn : next ≤ b.length) (hl : line.length ≤ b.length)
    (h : parseTyped p type b line next = .ok (some (v, n))) : v.asString.length ≤ b.length := by
  cases (parseTyped_iff type b line next v n).mp h with
  | simpleString | error => exact hl
  | integer | nullBulk | nullArray => exact Nat.zero_le _
  | bulk len hs h0 hm hlb =>
    simp only [RespValue.asString, substr, List.length_take, List.length_drop]
    omega
  | array count hs h0 hm _ _ he =>
    obtain ⟨es, rfl, -⟩ := parseElems_forall (fun _ => True) hb b (fun _ _ _ _ _ => trivial) _ next []
      v n hn (by simp) he
    exact Nat.zero_le _

theorem asString_of_parseAux (k : ℕ) (b : Bytes) (v : RespValue) (n : ℕ)
    (h : parseAux k b = .ok (some (v, n))) : v.asString.length ≤ b.length := by
  cases k with
  | zero => cases h
  | succ k =>
    obtain ⟨t, rest, type, i, rfl, ht, hi, hp⟩ := parseAux_eq_ok_some k b (v, n) h
    have hrest := findCRLFIn_bound rest i hi
    have hlen : (t :: rest).length = rest.length + 1 := List.length_cons
    apply asString_of_parseTyped (fun b v n hb => (parseAux_bounds k b v n hb).2) type _ _ (i + 3) v n
      (by omega) _ hp
    rw [List.length_take]
    omega

/-- The texts of a command are no longer than the buffer it was cut from. -/
theorem parse_array_asString (b : Bytes) (arr : List RespValue) (n : ℕ)
    (h : parse b = some (.array arr, n)) :
    arr.length ≤ maxArrayCount.toInt.toNat ∧ ∀ e ∈ arr, e.asString.length ≤ b.length := by
  obtain ⟨t, rest, type, i, rfl, ht, hi, hp⟩ := parseAux_eq_ok_some _ b _ (parseAux_of_parse b _ h)
  have hrest := findCRLFIn_bound rest i hi
  have hlen : (t :: rest).length = rest.length + 1 := List.length_cons
  cases (parseTyped_iff type _ _ _ _ n).mp hp with
  | array count hs h0 hm _ _ he =>
    obtain ⟨es, hes, hlen', hle⟩ := parseElems_forall
      (fun v => v.asString.length ≤ (t :: rest).length)
      (fun b v n hb => (parseAux_bounds _ b v n hb).2) (t :: rest)
      (fun u v n hu hv => Nat.le_trans (asString_of_parseAux _ u v n hv) hu) _ (i + 3) [] _ n
      (by omega) (by simp) he
    obtain rfl : arr = es := RespValue.array.inj hes
    refine ⟨?_, hle⟩
    rw [hlen', List.length_nil, Nat.zero_add]
    have := Int64.le_iff_toInt_le.mp hm
    omega

theorem findCRLFIn_take (b : Bytes) (i : ℕ) (h : findCRLFIn b = some i) :
    findCRLFIn (b.take i) = none := by
  induction b generalizing i with
  | nil => cases h
  | cons c b ih =>
    rw [findCRLFIn] at h
    split_ifs at h with hc
    · rw [← Option.some_inj.mp h]
      rfl
    · obtain ⟨j, hj, rfl⟩ := Option.map_eq_some_iff.mp h
      rw [List.take_succ_cons, findCRLFIn, ih j hj, if_neg]
      · rfl
      · -- a CR that ends the line is followed by the CR of the terminator, if by anything
        rintro ⟨h1, h2⟩
        rw [List.head?_take] at h2
        split_ifs at h2
        exact hc ⟨h1, h2⟩

theorem wellFormed_of_parseTyped {p : Bytes → Except Fault (Option (RespValue × ℕ))}
    (hb : ∀ b v n, p b = .ok (some (v, n)) → n ≤ b.length)
    (hp : ∀ b v n, p b = .ok (some (v, n)) → WellFormed v) (type : RespType) (b line : Bytes)
    (next : ℕ) (v : RespValue) (n : ℕ) (hn : next ≤ b.length) (hl : findCRLFIn line = none)
    (h : parseTyped p type b line next = .ok (some (v, n))) : WellFormed v := by
  cases (parseTyped_iff type b line next v n).mp h with
  | simpleString | error => exact hl
  | integer | nullBulk | nullArray => trivial
  | bulk len hs h0 hm hlb =>
    have hlen := List.length_take_le len.toInt.toNat (b.drop next)
    have hmax := Int64.le_iff_toInt_le.mp hm
    change (substr b next len.toInt.toNat).length ≤ maxBulkLen.toInt.toNat
    rw [substr]
    omega
  | array count hs h0 hm _ _ he =>
    obtain ⟨es, rfl, hlen, hes⟩ := parseElems_forall WellFormed hb b (fun t v n _ => hp t v n) _
      next [] v n hn (by simp) he
    have hmax := Int64.le_iff_toInt_le.mp hm
    rw [List.length_nil, Nat.zero_add] at hlen
    exact ⟨by omega, (wellFormedAll_iff es).mpr hes⟩

theorem wellFormed_of_parseAux (k : ℕ) (b : Bytes) (v : RespValue) (n : ℕ)
    (h : parseAux k b = .ok (some (v, n))) : WellFormed v := by
  induction k generalizing b v n with
  | zero => cases h
  | succ k ih =>
    obtain ⟨t, rest, type, i, rfl, ht, hi, hp⟩ := parseAux_eq_ok_some k b (v, n) h
    have hrest := findCRLFIn_bound rest i hi
    have hlen : (t :: rest).length = rest.length + 1 := List.length_cons
    exact wellFormed_of_parseTyped (fun b v n hb => (parseAux_bounds k b v n hb).2)
      (fun b v n hb => ih b v n hb) type _ _ (i + 3) v n (by omega) (findCRLFIn_take rest i hi) hp

/-- Whatever `parse` returns is within its own limits. -/
theorem wellFormed_of_parse (b : Bytes) (v : RespValue) (n : ℕ) (h : parse b = some (v, n)) :
    WellFormed v := wellFormed_of_parseAux _ b v n (parseAux_of_parse b (v, n) h)

/-- The round trip: a value within the limits is read back whatever follows its bytes, and
every value that was read is within the limits, hence read back the same. -/
theorem parse_serialize_roundtrip :
    (∀ v, WellFormed v → ∀ r, parse (serialize v ++ r) = some (v, (serialize v).length)) ∧
    ∀ b v n, parse b = some (v, n) →
      WellFormed v ∧ parse (serialize v) = some (v, (serialize v).length) := by
  refine ⟨fun v hv r => parse_serialize_append v r hv, ?_⟩
  intro b v n h
  have hv := wellFormed_of_parse b v n h
  exact ⟨hv, parse_serialize v hv⟩

/-- A nested array with a CRLF inside a bulk string, and a bulk string whose terminator is not
CRLF, which is written differently and read the same. -/
theorem parse_serialize_roundtrip_nested :
    parse (serialize (.array [.bulkString (lit "\r\n"), .array [.integer (-5), .null]]) ++ lit "$") =
      some (.array [.bulkString (lit "\r\n"), .array [.integer (-5), .null]], 26) ∧
    parse (serialize (.bulkString (lit "a"))) = some (.bulkString (lit "a"), 7) := by
  constructor
  · refine parse_serialize_roundtrip.1 _ ?_ (lit "$")
    simp only [WellFormed, WellFormedAll]
    decide
  · exact (parse_serialize_roundtrip.2 (lit "$1\r\naXY") (.bulkString (lit "a")) 7 rfl).2

end Parsed

end MetricMQ.RespParser
