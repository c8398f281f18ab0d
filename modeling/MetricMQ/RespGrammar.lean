import MetricMQ.RespCodec
import Mathlib.Data.List.TakeWhile

/-! The RESP grammar, and what `RespParser::parse` accepts beside it: numbers as `stoll` reads
them, and any two bytes behind a bulk body. -/
namespace MetricMQ.RespParser

open ByteString

section Numbers

/-- An optional sign and digits, nothing else. -/
def IsNumeral (line : Bytes) : Prop :=
  (splitSign line).2 ≠ [] ∧ ∀ c ∈ (splitSign line).2, isDigit c = true

/-- The numeral `line` stands for `i`. -/
def Numeral (line : Bytes) (i : ℤ) : Prop :=
  IsNumeral line ∧ signedValue (splitSign line).1 (digitsValue (splitSign line).2) = i

/-- The text `line` of one line is a number to `stoll`. -/
def LooseNumeral (line : Bytes) (i : ℤ) : Prop :=
  findCRLFIn line = none ∧ ∃ n, stoll line = some n ∧ n.toInt = i

instance (line : Bytes) : Decidable (IsNumeral line) :=
  @instDecidableAnd _ _ _ (List.decidableBAll (isDigit · = true) (splitSign line).2)

theorem numeral_unique (line : Bytes) (i j : ℤ) (hi : Numeral line i) (hj : Numeral line j) : i = j :=
  hi.2.symm.trans hj.2

/-- A numeral holds no blank in front of its digits. -/
theorem dropWhile_numeral (line : Bytes) (h : IsNumeral line) : line.dropWhile isSpace = line := by
  obtain ⟨hne, hd⟩ := h
  cases line with
  | nil => rfl
  | cons c r =>
    apply List.dropWhile_cons_of_neg
    rw [splitSign] at hne hd
    split_ifs at hne hd with hm hp
    · rw [hm]
      decide
    · rw [hp]
      decide
    · have hb := digit_bounds c (hd c List.mem_cons_self)
      simp only [isSpace, Bool.or_eq_true, beq_iff_eq, Bool.and_eq_true, decide_eq_true_eq, not_or,
        ← UInt8.toNat_inj, UInt8.le_iff_toNat_le, UInt8.reduceToNat]
      omega

theorem scanInteger_numeral (line : Bytes) (h : IsNumeral line) :
    scanInteger line = some ((splitSign line).1, digitsValue (splitSign line).2) := by
  have ht : (splitSign line).2.takeWhile isDigit = (splitSign line).2 :=
    List.takeWhile_eq_self_iff.mpr h.2
  simp only [scanInteger, dropWhile_numeral line h, ht, h.1, ↓reduceIte]

/-- On a numeral `stoll` gives its value. -/
theorem numeral_of_loose (line : Bytes) (i : ℤ) (hl : LooseNumeral line i) (h : IsNumeral line) :
    Numeral line i := by
  obtain ⟨-, n, hn, rfl⟩ := hl
  obtain ⟨negative, v, hs, hv⟩ := (stoll_eq_some_iff line n).mp hn
  rw [scanInteger_numeral line h, Option.some_inj] at hs
  obtain ⟨rfl, rfl⟩ := Prod.mk.inj hs
  exact ⟨h, hv⟩

theorem findCRLFIn_numeral (line : Bytes) (h : IsNumeral line) : findCRLFIn line = none := by
  apply findCRLFIn_eq_none
  obtain ⟨-, hd⟩ := h
  intro hm
  cases line with
  | nil => cases hm
  | cons c r =>
    rw [splitSign] at hd
    split_ifs at hd with h1 h2
    · rcases List.mem_cons.mp hm with he | he
      · exact absurd (he.trans h1) (by decide)
      · exact absurd (hd 13 he) (by decide)
    · rcases List.mem_cons.mp hm with he | he
      · exact absurd (he.trans h2) (by decide)
      · exact absurd (hd 13 he) (by decide)
    · exact absurd (hd 13 hm) (by decide)

end Numbers

/-- The bytes are the encodings of the values, one after the other: a type byte, a line that
ends in CRLF and what the type asks for behind it. `num` says which lines are numbers, `stop`
what ends a bulk body. -/
inductive Spells (num : Bytes → ℤ → Prop) (stop : Bytes → Prop) : List RespValue → Bytes → Prop
  | nil : Spells num stop [] []
  | simpleString (text : Bytes) (vs : List RespValue) (p : Bytes) (ht : findCRLFIn text = none)
      (h : Spells num stop vs p) : Spells num stop (.simpleString text :: vs) (43 :: (text ++ crlf ++ p))
  | error (text : Bytes) (vs : List RespValue) (p : Bytes) (ht : findCRLFIn text = none)
      (h : Spells num stop vs p) : Spells num stop (.error text :: vs) (45 :: (text ++ crlf ++ p))
  | integer (line : Bytes) (i : Int64) (vs : List RespValue) (p : Bytes) (hn : num line i.toInt)
      (h : Spells num stop vs p) : Spells num stop (.integer i :: vs) (58 :: (line ++ crlf ++ p))
  | nullBulk (line : Bytes) (vs : List RespValue) (p : Bytes) (hn : num line (-1))
      (h : Spells num stop vs p) : Spells num stop (.null :: vs) (36 :: (line ++ crlf ++ p))
  | bulkString (line body term : Bytes) (vs : List RespValue) (p : Bytes) (hn : num line body.length)
      (ht : stop term) (h : Spells num stop vs p) :
      Spells num stop (.bulkString body :: vs) (36 :: (line ++ crlf ++ (body ++ (term ++ p))))
  | nullArray (line : Bytes) (vs : List RespValue) (p : Bytes) (hn : num line (-1))
      (h : Spells num stop vs p) : Spells num stop (.null :: vs) (42 :: (line ++ crlf ++ p))
  | array (line : Bytes) (arr : List RespValue) (q : Bytes) (vs : List RespValue) (p : Bytes)
      (hn : num line arr.length) (hq : Spells num stop arr q) (h : Spells num stop vs p) :
      Spells num stop (.array arr :: vs) (42 :: (line ++ crlf ++ (q ++ p)))

/-- The encodings of the RESP grammar. -/
def Encodes (v : RespValue) (p : Bytes) : Prop := Spells Numeral (· = crlf) [v] p

/-- What the parser takes for an encoding. -/
def LooselyEncodes (v : RespValue) (p : Bytes) : Prop :=
  Spells LooseNumeral (fun term => term.length = 2) [v] p

section Sound

variable {num : Bytes → ℤ → Prop} {stop : Bytes → Prop}

theorem spells_append (vs ws : List RespValue) (p q : Bytes) (hp : Spells num stop vs p)
    (hq : Spells num stop ws q) : Spells num stop (vs ++ ws) (p ++ q) := by
  induction hp with
  | nil => exact hq
  | simpleString text vs p ht _ ih => simpa using Spells.simpleString text _ _ ht ih
  | error text vs p ht _ ih => simpa using Spells.error text _ _ ht ih
  | integer line i vs p hn _ ih => simpa using Spells.integer line i _ _ hn ih
  | nullBulk line vs p hn _ ih => simpa using Spells.nullBulk line _ _ hn ih
  | bulkString line body term vs p hn ht _ ih =>
    simpa using Spells.bulkString line body term _ _ hn ht ih
  | nullArray line vs p hn _ ih => simpa using Spells.nullArray line _ _ hn ih
  | array line arr r vs p hn hr _ _ ih => simpa using Spells.array line arr r _ _ hn hr ih

/-- Encodings one after the other are those of the first value and of the rest. -/
theorem spells_cons (v : RespValue) (vs : List RespValue) (p : Bytes)
    (h : Spells num stop (v :: vs) p) :
    ∃ q r, p = q ++ r ∧ Spells num stop [v] q ∧ Spells num stop vs r := by
  cases h with
  | simpleString text _ p ht h => exact ⟨_, p, by simp, .simpleString text [] [] ht .nil, h⟩
  | error text _ p ht h => exact ⟨_, p, by simp, .error text [] [] ht .nil, h⟩
  | integer line i _ p hn h => exact ⟨_, p, by simp, .integer line i [] [] hn .nil, h⟩
  | nullBulk line _ p hn h => exact ⟨_, p, by simp, .nullBulk line [] [] hn .nil, h⟩
  | bulkString line body term _ p hn ht h =>
    exact ⟨_, p, by simp, .bulkString line body term [] [] hn ht .nil, h⟩
  | nullArray line _ p hn h => exact ⟨_, p, by simp, .nullArray line [] [] hn .nil, h⟩
  | array line arr q _ p hn hq h => exact ⟨_, p, by simp, .array line arr q [] [] hn hq .nil, h⟩

/-- The line behind a type byte and what follows its CRLF. -/
theorem line_split (rest : Bytes) (i : ℕ) (h : findCRLFIn rest = some i) :
    rest = rest.take i ++ crlf ++ rest.drop (i + 2) := by
  induction rest generalizing i with
  | nil => cases h
  | cons c rest ih =>
    rw [findCRLFIn] at h
    split_ifs at h with hc
    · obtain rfl := Option.some_inj.mp h
      obtain ⟨rfl, hl⟩ := hc
      cases rest with
      | nil => cases hl
      | cons d rest =>
        rw [List.head?_cons, Option.some_inj] at hl
        rw [hl]
        rfl
    · obtain ⟨j, hj, rfl⟩ := Option.map_eq_some_iff.mp h
      have hrec := ih j hj
      rw [List.take_succ_cons, List.cons_append, List.cons_append, Nat.add_right_comm, List.drop_succ_cons,
        ← hrec]

/-- A buffer cut `m` bytes behind the end of its first line. -/
theorem take_line_add (t : UInt8) (rest : Bytes) (i m : ℕ) (h : findCRLFIn rest = some i) :
    (t :: rest).take (i + 3 + m) = t :: (rest.take i ++ crlf ++ substr (t :: rest) (i + 3) m) := by
  have hbound := findCRLFIn_bound rest i h
  have hlen : (rest.take i ++ crlf).length = i + 2 := by
    rw [List.length_append, List.length_take, Nat.min_eq_left (by omega)]
    rfl
  have htake : rest.take (i + 2) = rest.take i ++ crlf := by
    have hsplit := congrArg (List.take (i + 2)) (line_split rest i h)
    rwa [List.take_left' hlen] at hsplit
  rw [show i + 3 + m = i + 2 + m + 1 by omega, List.take_succ_cons, List.take_add, htake, substr,
    List.drop_succ_cons]

/-- The element loop reads as many encodings as it counts. -/
theorem parseElems_spells {parse : Bytes → Except Fault (Option (RespValue × ℕ))} (b : Bytes)
    (hparse : ∀ t v n, parse t = .ok (some (v, n)) → n ≤ t.length ∧ Spells num stop [v] (t.take n))
    (count offset : ℕ) (arr : List RespValue) (v : RespValue) (n : ℕ) (ho : offset ≤ b.length)
    (h : parseElems parse b count offset arr = .ok (some (v, n))) :
    ∃ es, v = .array (arr ++ es) ∧ es.length = count ∧ offset ≤ n ∧
      Spells num stop es (substr b offset (n - offset)) := by
  induction count generalizing offset arr with
  | zero =>
    obtain ⟨rfl, rfl⟩ : RespValue.array arr = v ∧ offset = n := by simpa [parseElems] using h
    refine ⟨[], by rw [List.append_nil], rfl, le_rfl, ?_⟩
    rw [Nat.sub_self, substr, List.take_zero]
    exact .nil
  | succ count ih =>
    rw [parseElems_succ b count offset arr ho] at h
    cases hr : parse (b.drop offset) with
    | error e => rw [hr] at h; cases h
    | ok o =>
      rcases o with _ | ⟨elem, m⟩
      · rw [hr] at h; cases h
      · obtain ⟨hm, hs⟩ := hparse _ _ _ hr
        rw [List.length_drop] at hm
        rw [hr] at h
        obtain ⟨es, hv, hlen, hle, hes⟩ := ih (offset + m) (arr ++ [elem]) (by omega) h
        refine ⟨elem :: es, by rw [hv, List.append_assoc]; rfl, by rw [List.length_cons, hlen], by omega, ?_⟩
        have hcut : substr b offset (n - offset) =
            (b.drop offset).take m ++ substr b (offset + m) (n - (offset + m)) := by
          rw [show n - offset = m + (n - (offset + m)) by omega, substr_add]
          rfl
        rw [hcut]
        exact spells_append [elem] es _ _ hs hes

/-- Whatever the parser takes is an encoding up to how it reads numbers and ends bulk bodies. -/
theorem looselyEncodes_of_parseAux (k : ℕ) (b : Bytes) (v : RespValue) (n : ℕ)
    (h : parseAux k b = .ok (some (v, n))) : LooselyEncodes v (b.take n) := by
  induction k generalizing b v n with
  | zero => cases h
  | succ k ih =>
    obtain ⟨t, rest, type, i, rfl, ht, hi, hp⟩ := parseAux_eq_ok_some k b (v, n) h
    have hrest := findCRLFIn_bound rest i hi
    have hline := findCRLFIn_take rest i hi
    have hlen : (t :: rest).length = rest.length + 1 := List.length_cons
    have hbyte := ofByte_eq_some t type ht
    -- what a value that is one line takes of the buffer
    have hcut := take_line_add t rest i 0 hi
    rw [Nat.add_zero, substr, List.take_zero] at hcut
    cases (parseTyped_iff type _ _ _ v n).mp hp with
    | simpleString =>
      rw [hcut, hbyte]
      exact .simpleString _ [] [] hline .nil
    | error =>
      rw [hcut, hbyte]
      exact .error _ [] [] hline .nil
    | integer num hs =>
      rw [hcut, hbyte]
      exact .integer _ num [] [] ⟨hline, num, hs, rfl⟩ .nil
    | nullBulk hs =>
      rw [hcut, hbyte]
      exact .nullBulk _ [] [] ⟨hline, -1, hs, rfl⟩ .nil
    | bulk len hs h0 hm hb =>
      have hpos := Int64.le_iff_toInt_le.mp h0
      rw [Int64.toInt_zero] at hpos
      have hbody : (substr (t :: rest) (i + 3) len.toInt.toNat).length = len.toInt.toNat := by
        rw [substr, List.length_take, List.length_drop]
        omega
      have hterm : (substr (t :: rest) (i + 3 + len.toInt.toNat) 2).length = 2 := by
        rw [substr, List.length_take, List.length_drop]
        omega
      rw [Nat.add_assoc (i + 3), take_line_add t rest i _ hi, substr_add, hbyte,
        ← List.append_nil (substr _ (i + 3 + _) 2)]
      refine .bulkString _ _ _ [] [] ⟨hline, len, hs, ?_⟩ ?_ .nil
      · rw [← hbyte, hbody]
        omega
      · rw [← hbyte]
        exact hterm
    | nullArray hs =>
      rw [hcut, hbyte]
      exact .nullArray _ [] [] ⟨hline, -1, hs, rfl⟩ .nil
    | array count hs h0 hm _ _ he =>
      have hpos := Int64.le_iff_toInt_le.mp h0
      rw [Int64.toInt_zero] at hpos
      -- the elements are values of the next level of nesting
      obtain ⟨es, rfl, hcount, hle, hes⟩ := parseElems_spells (t :: rest)
        (fun u v n hu => ⟨(parseAux_bounds k u v n hu).2, ih u v n hu⟩) _ (i + 3) [] v n (by omega) he
      obtain ⟨m, rfl⟩ := Nat.exists_eq_add_of_le hle
      rw [Nat.add_sub_cancel_left] at hes
      rw [take_line_add t rest i m hi, ← List.append_nil (substr _ (i + 3) m)]
      generalize substr (t :: rest) (i + 3) m = q at hes
      rw [hbyte]
      refine .array _ es q [] [] ⟨hline, count, hs, ?_⟩ hes .nil
      rw [hcount]
      omega

end Sound

section Deviations

/-- Among the first `k` values of the bytes, the parser meets what the grammar does not allow: a
number line that is not a sign and digits, or a bulk body that does not end in CRLF. -/
inductive Deviates : ℕ → Bytes → Prop
  | number (k : ℕ) (t : UInt8) (line r : Bytes) (ht : t = 58 ∨ t = 36 ∨ t = 42)
      (hl : findCRLFIn line = none) (hn : ¬ IsNumeral line) : Deviates (k + 1) (t :: (line ++ crlf ++ r))
  | terminator (k : ℕ) (line body term r : Bytes) (hn : Numeral line body.length)
      (hl : term.length = 2) (ht : term ≠ crlf) :
      Deviates (k + 1) (36 :: (line ++ crlf ++ (body ++ (term ++ r))))
  | element (k count : ℕ) (line r : Bytes) (hn : Numeral line count) (h : Deviates count r) :
      Deviates (k + 1) (42 :: (line ++ crlf ++ r))
  | later (k : ℕ) (v : RespValue) (p r : Bytes) (hv : Encodes v p) (h : Deviates k r) :
      Deviates (k + 1) (p ++ r)

theorem strict_or_deviates_cons (v : RespValue) (vs : List RespValue) (q p : Bytes) (hv : Encodes v q)
    (h : Spells Numeral (· = crlf) vs p ∨ ∀ r, Deviates vs.length (p ++ r)) :
    Spells Numeral (· = crlf) (v :: vs) (q ++ p) ∨ ∀ r, Deviates (v :: vs).length (q ++ p ++ r) := by
  rcases h with h | h
  · exact Or.inl (spells_append [v] vs q p hv h)
  · right
    intro r
    rw [List.append_assoc]
    exact .later _ v q (p ++ r) hv (h r)

/-- What the parser takes is an encoding of the grammar or has a deviation in it. -/
theorem strict_or_deviates (vs : List RespValue) (p : Bytes)
    (h : Spells LooseNumeral (fun term => term.length = 2) vs p) :
    Spells Numeral (· = crlf) vs p ∨ ∀ r, Deviates vs.length (p ++ r) := by
  induction h with
  | nil => exact Or.inl .nil
  | simpleString text vs p ht _ ih =>
    simpa using strict_or_deviates_cons _ vs _ p (.simpleString text [] [] ht .nil) ih
  | error text vs p ht _ ih =>
    simpa using strict_or_deviates_cons _ vs _ p (.error text [] [] ht .nil) ih
  | integer line i vs p hn _ ih =>
    by_cases hnum : IsNumeral line
    · have hv : Encodes (.integer i) _ := .integer line i [] [] (numeral_of_loose line _ hn hnum) .nil
      simpa using strict_or_deviates_cons _ vs _ p hv ih
    · exact Or.inr fun r => by simpa using Deviates.number _ 58 line (p ++ r) (by decide) hn.1 hnum
  | nullBulk line vs p hn _ ih =>
    by_cases hnum : IsNumeral line
    · have hv : Encodes .null _ := .nullBulk line [] [] (numeral_of_loose line _ hn hnum) .nil
      simpa using strict_or_deviates_cons _ vs _ p hv ih
    · exact Or.inr fun r => by simpa using Deviates.number _ 36 line (p ++ r) (by decide) hn.1 hnum
  | bulkString line body term vs p hn ht _ ih =>
    by_cases hnum : IsNumeral line
    · have hlen := numeral_of_loose line _ hn hnum
      by_cases hterm : term = crlf
      · have hv : Encodes (.bulkString body) _ := .bulkString line body term [] [] hlen hterm .nil
        simpa using strict_or_deviates_cons _ vs _ p hv ih
      · exact Or.inr fun r => by simpa using Deviates.terminator _ line body term (p ++ r) hlen ht hterm
    · exact Or.inr fun r => by
        simpa using Deviates.number _ 36 line (body ++ (term ++ (p ++ r))) (by decide) hn.1 hnum
  | nullArray line vs p hn _ ih =>
    by_cases hnum : IsNumeral line
    · have hv : Encodes .null _ := .nullArray line [] [] (numeral_of_loose line _ hn hnum) .nil
      simpa using strict_or_deviates_cons _ vs _ p hv ih
    · exact Or.inr fun r => by simpa using Deviates.number _ 42 line (p ++ r) (by decide) hn.1 hnum
  | array line arr q vs p hn _ _ ihq ih =>
    by_cases hnum : IsNumeral line
    · have hcount := numeral_of_loose line _ hn hnum
      rcases ihq with hq | hq
      · have hv : Encodes (.array arr) _ := .array line arr q [] [] hcount hq .nil
        simpa using strict_or_deviates_cons _ vs _ p hv ih
      · exact Or.inr fun r => by simpa using Deviates.element _ arr.length line _ hcount (hq (p ++ r))
    · exact Or.inr fun r => by
        simpa using Deviates.number _ 42 line (q ++ (p ++ r)) (by decide) hn.1 hnum

theorem line_cancel (l l' x x' : Bytes) (hl : findCRLFIn l = none) (hl' : findCRLFIn l' = none)
    (h : l ++ crlf ++ x = l' ++ crlf ++ x') : l = l' ∧ x = x' := by
  have hf := (findCRLFIn_line l x hl).1
  rw [h, (findCRLFIn_line l' x' hl').1, Option.some_inj] at hf
  have hlen : (l ++ crlf).length = (l' ++ crlf).length := by
    rw [List.length_append, List.length_append, hf]
  obtain ⟨hline, hx⟩ := List.append_inj h hlen
  exact ⟨List.append_cancel_right hline, hx⟩

/-- A number line and what follows it are told apart in one way only. -/
theorem numeral_cancel (l l' x x' : Bytes) (i j : ℤ) (hi : Numeral l i) (hj : Numeral l' j)
    (h : l ++ crlf ++ x = l' ++ crlf ++ x') : l = l' ∧ i = j ∧ x = x' := by
  obtain ⟨rfl, hx⟩ := line_cancel l l' x x' (findCRLFIn_numeral l hi.1) (findCRLFIn_numeral l' hj.1) h
  exact ⟨rfl, numeral_unique l i j hi hj, hx⟩

/-- A null and a value with a length or a count have different number lines. -/
theorem not_null_line (l l' x x' : Bytes) (n : ℕ) (hl : Numeral l (-1)) (hl' : Numeral l' n) :
    l ++ crlf ++ x ≠ l' ++ crlf ++ x' := by
  intro h
  obtain ⟨-, hneg, -⟩ := numeral_cancel l l' x x' _ _ hl hl' h
  omega

/-- Two encodings that are one line each, with more encodings behind. -/
theorem line_unique (t : UInt8) (l l' p q r r' : Bytes) (hl : findCRLFIn l = none)
    (hl' : findCRLFIn l' = none) (hrest : p ++ r = q ++ r' → p = q)
    (h : t :: (l ++ crlf ++ p) ++ r = t :: (l' ++ crlf ++ q) ++ r') :
    t :: (l ++ crlf ++ p) = t :: (l' ++ crlf ++ q) := by
  have hline : l ++ crlf ++ (p ++ r) = l' ++ crlf ++ (q ++ r') := by simpa using h
  obtain ⟨rfl, he⟩ := line_cancel l l' _ _ hl hl' hline
  rw [hrest he]

/-- No sequence of encodings is a proper beginning of another one of as many values. -/
theorem spells_unique (vs : List RespValue) (p : Bytes) (h : Spells Numeral (· = crlf) vs p)
    (ws : List RespValue) (q r r' : Bytes) (h' : Spells Numeral (· = crlf) ws q)
    (hlen : vs.length = ws.length) (he : p ++ r = q ++ r') : p = q := by
  induction h generalizing ws q r r' with
  | nil =>
    cases h' with
    | nil => rfl
    | _ => exact absurd hlen (by simp)
  | simpleString text vs p ht _ ih =>
    cases h' with
    | simpleString text' ws q ht' h' =>
      exact line_unique _ _ _ p q r r' ht ht' (ih ws q r r' h' (Nat.succ_inj.mp hlen)) he
    | nil => exact absurd hlen (by simp)
    | _ => simp at he
  | error text vs p ht _ ih =>
    cases h' with
    | error text' ws q ht' h' =>
      exact line_unique _ _ _ p q r r' ht ht' (ih ws q r r' h' (Nat.succ_inj.mp hlen)) he
    | nil => exact absurd hlen (by simp)
    | _ => simp at he
  | integer line i vs p hn _ ih =>
    cases h' with
    | integer line' j ws q hn' h' =>
      exact line_unique _ _ _ p q r r' (findCRLFIn_numeral line hn.1) (findCRLFIn_numeral line' hn'.1)
        (ih ws q r r' h' (Nat.succ_inj.mp hlen)) he
    | nil => exact absurd hlen (by simp)
    | _ => simp at he
  | nullBulk line vs p hn _ ih =>
    cases h' with
    | nullBulk line' ws q hn' h' =>
      exact line_unique _ _ _ p q r r' (findCRLFIn_numeral line hn.1) (findCRLFIn_numeral line' hn'.1)
        (ih ws q r r' h' (Nat.succ_inj.mp hlen)) he
    | bulkString line' body term ws q hn' ht' h' =>
      refine absurd ?_ (not_null_line line line' (p ++ r) (body ++ (term ++ (q ++ r'))) _ hn hn')
      simpa using he
    | nil => exact absurd hlen (by simp)
    | _ => simp at he
  | bulkString line body term vs p hn ht _ ih =>
    cases h' with
    | bulkString line' body' term' ws q hn' ht' h' =>
      have hline : line ++ crlf ++ (body ++ (term ++ (p ++ r))) =
          line' ++ crlf ++ (body' ++ (term' ++ (q ++ r'))) := by simpa using he
      obtain ⟨rfl, hbody, hrest⟩ := numeral_cancel _ _ _ _ _ _ hn hn' hline
      obtain ⟨rfl, hterm⟩ := List.append_inj hrest (Int.natCast_inj.mp hbody)
      rw [ht, ht'] at hterm ⊢
      rw [ih ws q r r' h' (Nat.succ_inj.mp hlen) (List.append_cancel_left hterm)]
    | nullBulk line' ws q hn' h' =>
      refine absurd ?_ (not_null_line line' line (q ++ r') (body ++ (term ++ (p ++ r))) _ hn' hn)
      simpa using he.symm
    | nil => exact absurd hlen (by simp)
    | _ => simp at he
  | nullArray line vs p hn _ ih =>
    cases h' with
    | nullArray line' ws q hn' h' =>
      exact line_unique _ _ _ p q r r' (findCRLFIn_numeral line hn.1) (findCRLFIn_numeral line' hn'.1)
        (ih ws q r r' h' (Nat.succ_inj.mp hlen)) he
    | array line' arr q' ws q hn' hq' h' =>
      refine absurd ?_ (not_null_line line line' (p ++ r) (q' ++ (q ++ r')) _ hn hn')
      simpa using he
    | nil => exact absurd hlen (by simp)
    | _ => simp at he
  | array line arr s vs p hn _ _ ihs ih =>
    cases h' with
    | array line' arr' s' ws q hn' hs' h' =>
      have hline : line ++ crlf ++ (s ++ (p ++ r)) = line' ++ crlf ++ (s' ++ (q ++ r')) := by
        simpa using he
      obtain ⟨rfl, hcount, hrest⟩ := numeral_cancel _ _ _ _ _ _ hn hn' hline
      -- as many elements on both sides: first they are the same, then what follows them
      obtain rfl := ihs arr' s' _ _ hs' (Int.natCast_inj.mp hcount) hrest
      rw [ih ws q r r' h' (Nat.succ_inj.mp hlen) (List.append_cancel_left hrest)]
    | nullArray line' ws q hn' h' =>
      refine absurd ?_ (not_null_line line' line (q ++ r') (s ++ (p ++ r)) _ hn' hn)
      simpa using he.symm
    | nil => exact absurd hlen (by simp)
    | _ => simp at he

/-- An encoding of the grammar has no deviation in it. -/
theorem not_spells_of_deviates (k : ℕ) (b : Bytes) (h : Deviates k b) (vs : List RespValue)
    (p r : Bytes) (hk : vs.length = k) (hb : b = p ++ r) : ¬ Spells Numeral (· = crlf) vs p := by
  induction h generalizing vs p r with
  | number k t line x ht hl hn =>
    -- a line that is a number there is one here
    have hno (line' y : Bytes) (i : ℤ) (hn' : Numeral line' i) :
        line ++ crlf ++ x ≠ line' ++ crlf ++ y := by
      intro he
      obtain ⟨rfl, -⟩ := line_cancel _ _ _ _ hl (findCRLFIn_numeral line' hn'.1) he
      exact hn hn'.1
    intro h
    cases h with
    | nil => cases hk
    | simpleString text vs p _ _ =>
      rcases ht with rfl | rfl | rfl <;> simp at hb
    | error text vs p _ _ =>
      rcases ht with rfl | rfl | rfl <;> simp at hb
    | integer line' i vs p hn' _ => exact hno line' (p ++ r) _ hn' (by simpa using (List.cons.inj hb).2)
    | nullBulk line' vs p hn' _ => exact hno line' (p ++ r) _ hn' (by simpa using (List.cons.inj hb).2)
    | bulkString line' body term vs p hn' _ _ =>
      exact hno line' (body ++ (term ++ (p ++ r))) _ hn' (by simpa using (List.cons.inj hb).2)
    | nullArray line' vs p hn' _ => exact hno line' (p ++ r) _ hn' (by simpa using (List.cons.inj hb).2)
    | array line' arr q vs p hn' _ _ =>
      exact hno line' (q ++ (p ++ r)) _ hn' (by simpa using (List.cons.inj hb).2)
  | terminator k line body term x hn hl ht =>
    intro h
    cases h with
    | nil => cases hk
    | nullBulk line' vs p hn' _ =>
      refine absurd ?_ (not_null_line line' line (p ++ r) (body ++ (term ++ x)) _ hn' hn)
      simpa using hb.symm
    | bulkString line' body' term' vs p hn' ht' _ =>
      have hline : line ++ crlf ++ (body ++ (term ++ x)) =
          line' ++ crlf ++ (body' ++ (term' ++ (p ++ r))) := by simpa using hb
      obtain ⟨-, hbody, hrest⟩ := numeral_cancel _ _ _ _ _ _ hn hn' hline
      obtain ⟨-, hterm⟩ := List.append_inj hrest (Int.natCast_inj.mp hbody)
      rw [ht'] at hterm
      exact ht (List.append_inj hterm hl).1
    | _ => simp at hb
  | element k count line x hn h ih =>
    intro h'
    cases h' with
    | nil => cases hk
    | nullArray line' vs p hn' _ =>
      refine absurd ?_ (not_null_line line' line (p ++ r) x _ hn' hn)
      simpa using hb.symm
    | array line' arr q vs p hn' hq _ =>
      have hline : line ++ crlf ++ x = line' ++ crlf ++ (q ++ (p ++ r)) := by simpa using hb
      obtain ⟨-, hcount, hrest⟩ := numeral_cancel _ _ _ _ _ _ hn hn' hline
      exact ih arr q (p ++ r) (Int.natCast_inj.mp hcount.symm) hrest hq
    | _ => simp at hb
  | later k v q x hv h ih =>
    intro h'
    cases vs with
    | nil => cases hk
    | cons w vs =>
      obtain ⟨q', y, rfl, hw, hvs⟩ := spells_cons w vs p h'
      rw [List.append_assoc] at hb
      -- both sides begin with one encoding, so it is the same one
      obtain rfl := spells_unique [v] q hv [w] q' x (y ++ r) hw rfl hb
      exact ih vs y r (Nat.succ_inj.mp hk) (List.append_cancel_left hb) hvs

/-- The parser accepts RESP with two liberties, numbers as `stoll` reads them and any two bytes
behind a bulk body; a buffer it accepts begins with an encoding of the value exactly when it
uses neither of them there. -/
theorem accepts_resp_iff (b : Bytes) (v : RespValue) (n : ℕ) (h : parse b = some (v, n)) :
    LooselyEncodes v (b.take n) ∧ (Encodes v (b.take n) ↔ ¬ Deviates 1 b) := by
  have hloose := looselyEncodes_of_parseAux _ b v n (parseAux_of_parse b (v, n) h)
  refine ⟨hloose, ?_⟩
  constructor
  · intro hv hd
    exact not_spells_of_deviates 1 b hd [v] (b.take n) (b.drop n) rfl (List.take_append_drop n b).symm hv
  · intro hd
    rcases strict_or_deviates [v] (b.take n) hloose with hv | hdev
    · exact hv
    · have hb := hdev (b.drop n)
      rw [List.take_append_drop] at hb
      exact absurd hb hd

/-- An array whose count has a plus sign, with a bulk string that ends in CRLF. -/
theorem accepts_resp_plus :
    Encodes (.array [.bulkString (lit "a")]) (lit "*+1\r\n$1\r\na\r\n") ∧
      ¬ Deviates 1 (lit "*+1\r\n$1\r\na\r\n$") := by
  have hv : Encodes (.array [.bulkString (lit "a")]) (lit "*+1\r\n$1\r\na\r\n") := by
    refine .array (lit "+1") [.bulkString (lit "a")] (lit "$1\r\na\r\n") [] [] ⟨by decide, rfl⟩ ?_ .nil
    exact .bulkString (lit "1") (lit "a") crlf [] [] ⟨by decide, rfl⟩ rfl .nil
  exact ⟨hv, (accepts_resp_iff (lit "*+1\r\n$1\r\na\r\n$") (.array [.bulkString (lit "a")]) 12 rfl).2.mp hv⟩

/-- A bulk body that ends in `XY`, and a number with a blank before it and a letter behind. -/
theorem not_resp_accepted :
    (parse (lit "$1\r\naXY") = some (.bulkString (lit "a"), 7) ∧
      ¬ Encodes (.bulkString (lit "a")) (lit "$1\r\naXY")) ∧
    parse (lit ": 5x\r\n") = some (.integer 5, 6) ∧ ¬ Encodes (.integer 5) (lit ": 5x\r\n") := by
  refine ⟨⟨rfl, ?_⟩, rfl, ?_⟩
  · have hd : Deviates 1 (lit "$1\r\naXY") :=
      .terminator 0 (lit "1") (lit "a") (lit "XY") [] ⟨by decide, rfl⟩ rfl (by decide)
    exact not_spells_of_deviates 1 _ hd [.bulkString (lit "a")] _ [] rfl rfl
  · have hd : Deviates 1 (lit ": 5x\r\n") :=
      .number 0 58 (lit " 5x") [] (by decide) (by decide) (by decide)
    exact not_spells_of_deviates 1 _ hd [.integer 5] _ [] rfl rfl

end Deviations

end MetricMQ.RespParser
