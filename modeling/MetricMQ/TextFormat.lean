import MetricMQ.ByteString
import Mathlib.Data.Rat.Defs
import Mathlib.Tactic.Ring

/-! The text exposition format of metrics: one sample a line, `name{label="value",...} number`
with an optional timestamp, where a label value spells backslash, double quote and line feed as
`\\`, `\"` and `\n`. A malformed line makes the whole text unreadable. -/
namespace TextFormat

open ByteString

/-- The number a sample line shows. -/
inductive Value
  | number (q : ℚ)
  | posInf
  | negInf
  | nan
deriving DecidableEq

structure Sample where
  name : Bytes
  labels : List (Bytes × Bytes) := []
  value : Value
  timestamp : Option ℤ := none
deriving DecidableEq

/-- The character set of a reader: what it takes for text, at least all of ASCII. -/
structure Charset where
  readable : Bytes → Bool
  ascii : ∀ v, v.all (· < 128) = true → readable v = true

/-- A reader that does not look at the encoding. -/
def Charset.bytes : Charset := ⟨fun _ => true, fun _ _ => rfl⟩

section Tokens

def isBlank (c : UInt8) : Bool := c == 32 || c == 9

def isLetter (c : UInt8) : Bool := (65 ≤ c && c ≤ 90) || (97 ≤ c && c ≤ 122)

def isLabelStart (c : UInt8) : Bool := isLetter c || c == 95

def isLabelChar (c : UInt8) : Bool := isLabelStart c || isDigit c

/-- Names of metrics may also hold colons. -/
def isNameStart (c : UInt8) : Bool := isLabelStart c || c == 58

def isNameChar (c : UInt8) : Bool := isNameStart c || isDigit c

def skipBlanks (s : Bytes) : Bytes := s.dropWhile isBlank

def expect (c : UInt8) : Bytes → Option Bytes
  | [] => none
  | d :: r => if d = c then some r else none

def readName (start char : UInt8 → Bool) : Bytes → Option (Bytes × Bytes)
  | [] => none
  | c :: r => if start c then some (c :: r.takeWhile char, r.dropWhile char) else none

def readInteger (s : Bytes) : Option ℤ :=
  let (negative, r) := splitSign s
  if r ≠ [] ∧ r.all isDigit then some (signedValue negative (digitsValue r)) else none

/-- An unsigned decimal, perhaps with a fraction and an exponent. -/
def readDecimal (s : Bytes) : Option ℚ :=
  let whole := s.takeWhile isDigit
  let (fraction, r) := match s.dropWhile isDigit with
    | [] => ([], [])
    | c :: r => if c = 46 then (r.takeWhile isDigit, r.dropWhile isDigit) else ([], c :: r)
  let mantissa : ℚ := digitsValue (whole ++ fraction) / 10 ^ fraction.length
  if whole = [] ∧ fraction = [] then none
  else match r with
    | [] => some mantissa
    | c :: r => if c = 101 ∨ c = 69 then (readInteger r).map fun e => mantissa * 10 ^ e else none

def readNumber (s : Bytes) : Option Value :=
  if s = lit "NaN" then some .nan
  else if s = lit "+Inf" then some .posInf
  else if s = lit "-Inf" then some .negInf
  else
    let (negative, r) := splitSign s
    (readDecimal r).map fun q => .number (if negative then -q else q)

def unescape (c : UInt8) : Option UInt8 :=
  if c = 92 then some 92 else if c = 34 then some 34 else if c = 110 then some 10 else none

/-- A label value from behind its opening quote, and what follows the closing one. -/
def readQuoted : Bytes → Option (Bytes × Bytes)
  | [] => none
  | c :: r =>
    if c = 34 then some ([], r)
    -- the line would end inside the value
    else if c = 10 then none
    else if c = 92 then
      match r with
      | [] => none
      | e :: r => do
        let d ← unescape e
        let (v, rest) ← readQuoted r
        return (d :: v, rest)
    else do
      let (v, rest) ← readQuoted r
      return (c :: v, rest)

end Tokens

section Lines

-- `readable` says which byte strings the reader takes for text in its encoding
variable (readable : Bytes → Bool)

def readLabel (s : Bytes) : Option ((Bytes × Bytes) × Bytes) := do
  let (name, r) ← readName isLabelStart isLabelChar s
  let r ← expect 61 (skipBlanks r)
  let r ← expect 34 (skipBlanks r)
  let (value, r) ← readQuoted r
  if readable value then some ((name, value), r) else none

/-- The labels from behind the opening brace; the fuel bounds their number. -/
def readLabels : ℕ → Bytes → Option (List (Bytes × Bytes) × Bytes)
  | 0, _ => none
  | fuel + 1, s =>
    match skipBlanks s with
    | [] => none
    | c :: r =>
      if c = 125 then some ([], r)
      else do
        let (label, r) ← readLabel readable (c :: r)
        match skipBlanks r with
        | [] => none
        | d :: r =>
          if d = 125 then some ([label], r)
          -- the last label may be followed by a comma, too
          else if d = 44 then do
            let (labels, r) ← readLabels fuel r
            return (label :: labels, r)
          else none

def readLabelSet (s : Bytes) : Option (List (Bytes × Bytes) × Bytes) :=
  match s with
  | [] => some ([], [])
  | c :: r => if c = 123 then readLabels readable (r.length + 1) r else some ([], c :: r)

/-- The number and the timestamp at the end of a line. -/
def readTail (s : Bytes) : Option (Value × Option ℤ) := do
  let s := skipBlanks s
  let value ← readNumber (s.takeWhile (!isBlank ·))
  let r := skipBlanks (s.dropWhile (!isBlank ·))
  if r = [] then return (value, none)
  let time ← readInteger (r.takeWhile (!isBlank ·))
  if skipBlanks (r.dropWhile (!isBlank ·)) = [] then return (value, some time)
  none

def readSample (s : Bytes) : Option Sample := do
  let (name, r) ← readName isNameStart isNameChar s
  let (labels, r) ← readLabelSet readable (skipBlanks r)
  let (value, time) ← readTail r
  return ⟨name, labels, value, time⟩

/-- A line holds a sample or, blank or starting with `#`, none. -/
def readLine (l : Bytes) : Option (Option Sample) :=
  match skipBlanks l with
  | [] => some none
  | c :: s => if c = 35 then some none else (readSample readable (c :: s)).map some

def readLines : List Bytes → Option (List Sample)
  | [] => some []
  | l :: ls => do
    let s ← readLine readable l
    let rest ← readLines ls
    return s.toList ++ rest

/-- The lines of a text and what stands behind its last line feed. -/
def splitLines : Bytes → List Bytes × Bytes
  | [] => ([], [])
  | c :: s =>
    if c = 10 then ([] :: (splitLines s).1, (splitLines s).2)
    else match (splitLines s).1 with
      | [] => ([], c :: (splitLines s).2)
      | l :: ls => ((c :: l) :: ls, (splitLines s).2)

/-- The samples of a text; its last line has to end in a line feed, too. -/
def decode (text : Bytes) : Option (List Sample) :=
  if (splitLines text).2 = [] then readLines readable (splitLines text).1 else none

end Lines

section Escapes

def escapeByte (c : UInt8) : Bytes :=
  if c = 92 then [92, 92] else if c = 34 then [92, 34] else if c = 10 then [92, 110] else [c]

/-- A label value as the format spells it. -/
def escape (v : Bytes) : Bytes := v.flatMap escapeByte

/-- Without a byte that has to be escaped. -/
def Plain (v : Bytes) : Prop := 92 ∉ v ∧ 34 ∉ v ∧ 10 ∉ v

instance (v : Bytes) : Decidable (Plain v) := inferInstanceAs (Decidable (_ ∧ _ ∧ _))

theorem readQuoted_escapeByte (c : UInt8) (t : Bytes) :
    readQuoted (escapeByte c ++ t) = (readQuoted t).map fun p => (c :: p.1, p.2) := by
  have hraw (e : UInt8) (h : unescape e = some c) : readQuoted ([92, e] ++ t) =
      (readQuoted t).map fun p => (c :: p.1, p.2) := by
    rw [List.cons_append, List.singleton_append, readQuoted.eq_def]
    dsimp only
    rw [if_neg (by decide), if_neg (by decide), if_pos rfl, h]
    cases readQuoted t <;> rfl
  rw [escapeByte]
  split_ifs with h92 h34 h10
  · exact hraw 92 (by rw [h92]; rfl)
  · exact hraw 34 (by rw [h34]; rfl)
  · exact hraw 110 (by rw [h10]; rfl)
  · rw [List.singleton_append, readQuoted.eq_def]
    dsimp only
    rw [if_neg h34, if_neg h10, if_neg h92]
    cases readQuoted t <;> rfl

theorem escapeByte_of_unescape (e d : UInt8) (h : unescape e = some d) : escapeByte d = [92, e] := by
  rw [unescape] at h
  split_ifs at h with h92 h34 h110
  all_goals
    cases h
    subst e
    rfl

/-- The reader undoes exactly the spelling of the format. -/
theorem readQuoted_eq_some_iff (s v r : Bytes) :
    readQuoted s = some (v, r) ↔ s = escape v ++ 34 :: r := by
  constructor
  · intro h
    fun_induction readQuoted s generalizing v with
    | case1 => cases h
    | case2 t =>
      cases h
      rfl
    | case3 => cases h
    | case4 => cases h
    | case5 e t _ _ ih =>
      -- an escape: two bytes of the text for one of the value
      obtain ⟨d, hd, h⟩ := Option.bind_eq_some_iff.mp h
      obtain ⟨⟨w, u⟩, hw, h⟩ := Option.bind_eq_some_iff.mp h
      cases h
      rw [ih w hw, escape, escape, List.flatMap_cons, escapeByte_of_unescape e d hd]
      rfl
    | case6 c t h34 h10 h92 ih =>
      obtain ⟨⟨w, u⟩, hw, h⟩ := Option.bind_eq_some_iff.mp h
      cases h
      rw [ih w hw, escape, escape, List.flatMap_cons, escapeByte, if_neg h92, if_neg h34, if_neg h10]
      rfl
  · rintro rfl
    induction v with
    | nil =>
      change readQuoted (34 :: r) = _
      rw [readQuoted.eq_def]
      rfl
    | cons c v ih =>
      rw [escape, List.flatMap_cons, List.append_assoc, readQuoted_escapeByte]
      change Option.map _ (readQuoted (escape v ++ 34 :: r)) = _
      rw [ih]
      rfl

theorem not_mem_escape (v : Bytes) : 10 ∉ escape v := by
  intro hm
  obtain ⟨c, -, hc⟩ := List.mem_flatMap.mp hm
  rw [escapeByte] at hc
  split_ifs at hc with h92 h34 h10
  · exact absurd hc (by decide)
  · exact absurd hc (by decide)
  · exact absurd hc (by decide)
  · exact h10 (List.mem_singleton.mp hc).symm

theorem escape_plain (v : Bytes) (h : Plain v) : escape v = v := by
  induction v with
  | nil => rfl
  | cons c v ih =>
    obtain ⟨h92, h34, h10⟩ := h
    rw [List.mem_cons, not_or] at h92 h34 h10
    have hv := ih ⟨h92.2, h34.2, h10.2⟩
    rw [escape] at hv ⊢
    rw [List.flatMap_cons, hv, escapeByte, if_neg (Ne.symm h92.1), if_neg (Ne.symm h34.1),
      if_neg (Ne.symm h10.1)]
    rfl

/-- Spelling a value adds a backslash for every byte that has to be escaped. -/
theorem count_escape (v : Bytes) :
    (escape v).count 92 = v.count 92 + (v.count 92 + v.count 34 + v.count 10) := by
  induction v with
  | nil => rfl
  | cons c v ih =>
    have hc : (escapeByte c).count 92 =
        [c].count 92 + ([c].count 92 + [c].count 34 + [c].count 10) := by
      rw [escapeByte]
      split_ifs with h92 h34 h10
      · subst h92; decide
      · subst h34; decide
      · subst h10; decide
      · simp [h92, h34, h10]
    have hcons (b : UInt8) : (c :: v).count b = [c].count b + v.count b := by
      rw [← List.count_append, List.singleton_append]
    have he : escape (c :: v) = escapeByte c ++ escape v := rfl
    rw [he, List.count_append, ih, hc, hcons 92, hcons 34, hcons 10]
    omega

theorem plain_of_count_escape_le (v : Bytes) (h : (escape v).count 92 ≤ v.count 92) : Plain v := by
  rw [count_escape] at h
  refine ⟨?_, ?_, ?_⟩
  all_goals
    apply List.count_eq_zero.mp
    omega

end Escapes

section Composition

variable {readable : Bytes → Bool}

theorem splitLines_append (a b : Bytes) (h : (splitLines a).2 = []) :
    splitLines (a ++ b) = ((splitLines a).1 ++ (splitLines b).1, (splitLines b).2) := by
  induction a with
  | nil => rfl
  | cons c a ih =>
    rw [List.cons_append, splitLines]
    rw [splitLines] at h ⊢
    -- `c` is a line feed or joins the first line of what follows
    by_cases hc : c = 10
    · rw [if_pos hc] at h
      rw [if_pos hc, if_pos hc, ih h]
      rfl
    · rw [if_neg hc] at h
      rw [if_neg hc, if_neg hc]
      cases hl : (splitLines a).1 with
      | nil =>
        rw [hl] at h
        cases h
      | cons l ls =>
        rw [hl] at h
        rw [ih h, hl]
        rfl

theorem splitLines_line (l : Bytes) (h : 10 ∉ l) : splitLines (l ++ [10]) = ([l], []) := by
  induction l with
  | nil => rfl
  | cons c l ih =>
    rw [List.mem_cons, not_or] at h
    rw [List.cons_append, splitLines, if_neg (Ne.symm h.1), ih h.2]

theorem readLines_append (ls ls' : List Bytes) (xs : List Sample) (h : readLines readable ls = some xs) :
    readLines readable (ls ++ ls') = (readLines readable ls').map (xs ++ ·) := by
  induction ls generalizing xs with
  | nil =>
    cases h
    cases hr : readLines readable ls' <;> simp [hr]
  | cons l ls ih =>
    rw [readLines] at h
    obtain ⟨s, hs, h⟩ := Option.bind_eq_some_iff.mp h
    obtain ⟨rest, hrest, h⟩ := Option.bind_eq_some_iff.mp h
    cases h
    rw [List.cons_append, readLines, hs, ih rest hrest]
    cases readLines readable ls' with
    | none => rfl
    | some ys =>
      change some (s.toList ++ (rest ++ ys)) = some (s.toList ++ rest ++ ys)
      rw [List.append_assoc]

/-- A text of whole lines, which hold the samples whatever stands before and behind them. -/
structure Reads (readable : Bytes → Bool) (text : Bytes) (samples : List Sample) : Prop where
  whole : (splitLines text).2 = []
  lines : readLines readable (splitLines text).1 = some samples

theorem Reads.decode_append {a : Bytes} {xs : List Sample} (h : Reads readable a xs) (b : Bytes) :
    decode readable (a ++ b) = (decode readable b).map (xs ++ ·) := by
  rw [decode, decode, splitLines_append a b h.whole]
  dsimp only
  split_ifs
  · exact readLines_append _ _ xs h.lines
  · rfl

theorem Reads.append {a b : Bytes} {xs ys : List Sample} (ha : Reads readable a xs)
    (hb : Reads readable b ys) : Reads readable (a ++ b) (xs ++ ys) := by
  have hs := splitLines_append a b ha.whole
  refine ⟨?_, ?_⟩
  · rw [hs]
    exact hb.whole
  · rw [hs, readLines_append _ _ xs ha.lines, hb.lines]
    rfl

theorem Reads.decode_eq {a : Bytes} {xs : List Sample} (h : Reads readable a xs) :
    decode readable a = some xs := by
  rw [decode, if_pos h.whole, h.lines]

theorem reads_nil : Reads readable [] [] := ⟨rfl, rfl⟩

theorem reads_flatMap {α : Type} (l : List α) (text : α → Bytes) (samples : α → List Sample)
    (h : ∀ a ∈ l, Reads readable (text a) (samples a)) :
    Reads readable (l.flatMap text) (l.flatMap samples) := by
  induction l with
  | nil => exact reads_nil
  | cons a l ih =>
    rw [List.forall_mem_cons] at h
    exact h.1.append (ih h.2)

theorem reads_line (l : Bytes) (s : Option Sample) (hl : 10 ∉ l) (h : readLine readable l = some s) :
    Reads readable (l ++ [10]) s.toList := by
  have hs := splitLines_line l hl
  refine ⟨?_, ?_⟩
  · rw [hs]
  · rw [hs, readLines, h]
    change some (s.toList ++ []) = _
    rw [List.append_nil]

theorem reads_blank : Reads readable [10] [] := reads_line [] none (by simp) rfl

theorem reads_comment (l : Bytes) (hl : 10 ∉ l) : Reads readable (35 :: l ++ [10]) [] := by
  refine reads_line (35 :: l) none ?_ rfl
  rw [List.mem_cons, not_or]
  exact ⟨by decide, hl⟩

end Composition

section Numerals

def isNumeralChar (c : UInt8) : Bool := isDigit c || c == 45 || c == 46

/-- A printed number: the reader gets its value, and it holds digits, signs and points only. -/
structure Numeral (text : Bytes) (v : Value) : Prop where
  reads : readNumber text = some v
  chars : ∀ c ∈ text, isNumeralChar c = true

theorem Numeral.not_mem {text : Bytes} {v : Value} (h : Numeral text v) (c : UInt8)
    (hc : isNumeralChar c = false) : c ∉ text := by
  intro hm
  rw [h.chars c hm] at hc
  cases hc

theorem splitSign_of_isDigit (d : UInt8) (r : Bytes) (h : isDigit d = true) :
    splitSign (d :: r) = (false, d :: r) := by
  have h45 : d ≠ 45 := by rintro rfl; contradiction
  have h43 : d ≠ 43 := by rintro rfl; contradiction
  rw [splitSign, if_neg h45, if_neg h43]

/-- A run of symbols is taken up to the first one that does not belong to it. -/
theorem takeWhile_dropWhile_append (p : UInt8 → Bool) (a b : Bytes) (ha : ∀ c ∈ a, p c = true)
    (hb : ∀ c ∈ b.head?, p c = false) : (a ++ b).takeWhile p = a ∧ (a ++ b).dropWhile p = b := by
  have hb' : b.takeWhile p = [] ∧ b.dropWhile p = b := by
    cases b with
    | nil => exact ⟨rfl, rfl⟩
    | cons c b =>
      have hc : ¬ p c = true := by simp [hb c rfl]
      exact ⟨List.takeWhile_cons_of_neg hc, List.dropWhile_cons_of_neg hc⟩
  rw [List.takeWhile_append_of_pos ha, List.dropWhile_append_of_pos ha, hb'.1, hb'.2, List.append_nil]
  exact ⟨rfl, rfl⟩

theorem readDecimal_digits (ds : Bytes) (h : ∀ c ∈ ds, isDigit c = true) (hne : ds ≠ []) :
    readDecimal ds = some (digitsValue ds : ℚ) := by
  obtain ⟨ht, hd⟩ := takeWhile_dropWhile_append isDigit ds [] h (by simp)
  rw [List.append_nil] at ht hd
  rw [readDecimal, ht, hd]
  dsimp only
  rw [if_neg (fun hh => hne hh.1), List.append_nil, List.length_nil, pow_zero, div_one]

theorem readDecimal_point (ds fs : Bytes) (hds : ∀ c ∈ ds, isDigit c = true)
    (hfs : ∀ c ∈ fs, isDigit c = true) (hne : ds ≠ []) :
    readDecimal (ds ++ 46 :: fs) = some ((digitsValue (ds ++ fs) : ℚ) / 10 ^ fs.length) := by
  obtain ⟨ht, hd⟩ := takeWhile_dropWhile_append isDigit ds (46 :: fs) hds (by simp; decide)
  obtain ⟨ht', hd'⟩ := takeWhile_dropWhile_append isDigit fs [] hfs (by simp)
  rw [List.append_nil] at ht' hd'
  rw [readDecimal, ht, hd]
  dsimp only
  rw [if_pos rfl, ht', hd']
  dsimp only
  rw [if_neg (fun hh => hne hh.1)]

/-- A text that starts with a digit is none of the three words. -/
theorem readNumber_of_isDigit (d : UInt8) (r : Bytes) (h : isDigit d = true) :
    readNumber (d :: r) = (readDecimal (d :: r)).map .number := by
  have hword (w : Bytes) (hw : w.head?.any isDigit = false) : d :: r ≠ w := by
    rintro rfl
    rw [List.head?_cons, Option.any_some, h] at hw
    cases hw
  rw [readNumber, if_neg (hword _ (by decide)), if_neg (hword _ (by decide)),
    if_neg (hword _ (by decide)), splitSign_of_isDigit d r h]
  rfl

theorem numeral_toDecimal (n : ℕ) : Numeral (toDecimal n) (.number n) := by
  refine ⟨?_, ?_⟩
  · have hr := readDecimal_digits (toDecimal n) (isDigit_toDecimal n) (toDecimal_ne_nil n)
    obtain ⟨d, ds, he, hd⟩ := toDecimal_cons n
    rw [digitsValue_toDecimal, he] at hr
    rw [he, readNumber_of_isDigit d ds hd, hr]
    rfl
  · intro c hc
    rw [isNumeralChar, isDigit_toDecimal n c hc]
    rfl

theorem numeral_toDecimalInt (i : ℤ) : Numeral (toDecimalInt i) (.number i) := by
  obtain ⟨hreads, hchars⟩ := numeral_toDecimal i.natAbs
  rw [toDecimalInt]
  split_ifs with hi
  · have hv : (i : ℚ) = -(i.natAbs : ℚ) := by
      rw [← Int.cast_natCast, ← Int.cast_neg]
      congr 1
      omega
    have hr := readDecimal_digits _ (isDigit_toDecimal i.natAbs) (toDecimal_ne_nil i.natAbs)
    have hs : splitSign (45 :: toDecimal i.natAbs) = (true, toDecimal i.natAbs) := rfl
    have hword (w : Bytes) (hw : w.head? ≠ some 45) : 45 :: toDecimal i.natAbs ≠ w := by
      rintro rfl
      exact hw rfl
    refine ⟨?_, ?_⟩
    · have hinf : 45 :: toDecimal i.natAbs ≠ lit "-Inf" := by
        intro hw
        have h73 : (73 : UInt8) ∈ toDecimal i.natAbs := by
          rw [List.cons.inj hw |>.2]
          decide
        exact not_mem_toDecimal _ 73 (by decide) h73
      rw [readNumber, if_neg (hword _ (by decide)), if_neg (hword _ (by decide)), if_neg hinf, hs]
      dsimp only
      rw [hr, digitsValue_toDecimal, hv]
      rfl
    · intro c hc
      rcases List.mem_cons.mp hc with rfl | hc
      · rfl
      · exact hchars c hc
  · have hv : (i : ℚ) = (i.natAbs : ℚ) := by
      rw [← Int.cast_natCast]
      congr 1
      omega
    rw [hv]
    exact ⟨hreads, hchars⟩

theorem numeral_toFixed (width n : ℕ) : Numeral (toFixed width n) (.number (n / 10 ^ width)) := by
  have hv : digitsValue (toDecimal (n / 10 ^ width) ++ lastDigits width n) = n := by
    rw [digitsValue_append, digitsValue_toDecimal, digitsValue_lastDigits, length_lastDigits]
    exact Nat.div_add_mod' n (10 ^ width)
  have hr := readDecimal_point (toDecimal (n / 10 ^ width)) (lastDigits width n) (isDigit_toDecimal _)
    (isDigit_lastDigits width n) (toDecimal_ne_nil _)
  rw [hv, length_lastDigits] at hr
  refine ⟨?_, ?_⟩
  · obtain ⟨d, ds, he, hd⟩ := toDecimal_cons (n / 10 ^ width)
    rw [toFixed]
    rw [he, List.cons_append] at hr ⊢
    rw [readNumber_of_isDigit d _ hd, hr]
    rfl
  · intro c hc
    rw [isNumeralChar]
    rcases List.mem_append.mp hc with hc | hc
    · rw [isDigit_toDecimal _ c hc]
      rfl
    · rcases List.mem_cons.mp hc with rfl | hc
      · rfl
      · rw [isDigit_lastDigits _ _ c hc]
        rfl

end Numerals

section SampleLines

def isName (start char : UInt8 → Bool) : Bytes → Bool
  | [] => false
  | c :: r => start c && r.all char

def isMetricName (name : Bytes) : Bool := isName isNameStart isNameChar name

def isLabelName (name : Bytes) : Bool := isName isLabelStart isLabelChar name

theorem readName_append (start char : UInt8 → Bool) (name t : Bytes) (h : isName start char name = true)
    (ht : ∀ c ∈ t.head?, char c = false) : readName start char (name ++ t) = some (name, t) := by
  cases name with
  | nil => cases h
  | cons c r =>
    rw [isName, Bool.and_eq_true, List.all_eq_true] at h
    obtain ⟨htake, hdrop⟩ := takeWhile_dropWhile_append char r t h.2 ht
    rw [List.cons_append, readName, if_pos h.1, htake, hdrop]

theorem not_mem_name (start char : UInt8 → Bool) (name : Bytes) (h : isName start char name = true)
    (c : UInt8) (hs : start c = false) (hc : char c = false) : c ∉ name := by
  cases name with
  | nil => cases h
  | cons d r =>
    rw [isName, Bool.and_eq_true, List.all_eq_true] at h
    rw [List.mem_cons, not_or]
    refine ⟨?_, ?_⟩
    · rintro rfl
      rw [h.1] at hs
      cases hs
    · intro hm
      rw [h.2 c hm] at hc
      cases hc

theorem isBlank_iff (c : UInt8) : isBlank c = true ↔ c = 32 ∨ c = 9 := by
  rw [isBlank, Bool.or_eq_true, beq_iff_eq, beq_iff_eq]

theorem skipBlanks_of_head (s : Bytes) (h : ∀ c ∈ s.head?, isBlank c = false) : skipBlanks s = s := by
  cases s with
  | nil => rfl
  | cons c s => exact List.dropWhile_cons_of_neg (by simp [h c rfl])

theorem skipBlanks_name (start char : UInt8 → Bool) (name t : Bytes) (h : isName start char name = true)
    (h32 : start 32 = false) (h9 : start 9 = false) : skipBlanks (name ++ t) = name ++ t := by
  cases name with
  | nil => cases h
  | cons c r =>
    rw [isName, Bool.and_eq_true] at h
    refine skipBlanks_of_head _ ?_
    intro d hd
    obtain rfl : c = d := by simpa using hd
    by_contra hb
    rcases (isBlank_iff c).mp (by simpa using hb) with rfl | rfl
    · rw [h.1] at h32
      cases h32
    · rw [h.1] at h9
      cases h9

variable {text : Bytes} {v : Value}

theorem Numeral.not_blank (h : Numeral text v) : ∀ c ∈ text, isBlank c = false := by
  intro c hc
  by_contra hb
  rcases (isBlank_iff c).mp (by simpa using hb) with rfl | rfl
  · exact h.not_mem 32 (by decide) hc
  · exact h.not_mem 9 (by decide) hc

theorem Numeral.skipBlanks_eq (h : Numeral text v) : skipBlanks (32 :: text) = text := by
  have h32 : skipBlanks (32 :: text) = skipBlanks text := List.dropWhile_cons_of_pos rfl
  rw [h32, skipBlanks_of_head]
  exact fun c hc => h.not_blank c (List.mem_of_head? hc)

theorem readTail_numeral (h : Numeral text v) : readTail (32 :: text) = some (v, none) := by
  have hall : ∀ c ∈ text, (!isBlank c) = true := by
    intro c hc
    rw [h.not_blank c hc]
    rfl
  obtain ⟨ht, hd⟩ := takeWhile_dropWhile_append (!isBlank ·) text [] hall (by simp)
  rw [List.append_nil] at ht hd
  rw [readTail, h.skipBlanks_eq, ht, hd, h.reads]
  rfl

variable {readable : Bytes → Bool}

/-- A name is no comment and not blank, so its line is read as a sample. -/
theorem readLine_name (name t : Bytes) (hn : isMetricName name = true) :
    readLine readable (name ++ t) = (readSample readable (name ++ t)).map some := by
  rw [readLine, skipBlanks_name isNameStart isNameChar name t hn (by decide) (by decide)]
  cases name with
  | nil => cases hn
  | cons c r =>
    have h35 : c ≠ 35 := by
      rintro rfl
      exact not_mem_name _ _ _ hn 35 (by decide) (by decide) List.mem_cons_self
    rw [List.cons_append]
    dsimp only
    rw [if_neg h35]

theorem reads_unlabelled (name : Bytes) (hn : isMetricName name = true) (h : Numeral text v) :
    Reads readable (name ++ 32 :: text ++ [10]) [⟨name, [], v, none⟩] := by
  have hread := readName_append isNameStart isNameChar name (32 :: text) hn (by simp; decide)
  have hset : readLabelSet readable text = some ([], text) := by
    cases ht : text with
    | nil => rfl
    | cons c r =>
      have h123 : c ≠ 123 := by
        rintro rfl
        exact h.not_mem 123 (by decide) (by rw [ht]; exact List.mem_cons_self)
      rw [readLabelSet, if_neg h123]
  have htail : readTail text = some (v, none) := by
    have h32 : skipBlanks text = skipBlanks (32 :: text) := (List.dropWhile_cons_of_pos rfl).symm
    have ht := readTail_numeral h
    rw [readTail] at ht ⊢
    rw [h32]
    exact ht
  refine reads_line (name ++ 32 :: text) (some _) ?_ ?_
  · rw [List.mem_append, List.mem_cons, not_or, not_or]
    exact ⟨not_mem_name _ _ name hn 10 (by decide) (by decide), by decide, h.not_mem 10 (by decide)⟩
  · rw [readLine_name name _ hn, readSample, hread]
    simp only [bind, Option.bind]
    rw [h.skipBlanks_eq, hset]
    dsimp only
    rw [htail]
    rfl

/-- The text of one label, from its brace to the closing one. -/
def labelText (label v : Bytes) : Bytes := 123 :: (label ++ 61 :: 34 :: (escape v ++ [34, 125]))

theorem readLabel_text (label w t : Bytes) (hl : isLabelName label = true) (hw : readable w = true) :
    readLabel readable (label ++ 61 :: 34 :: (escape w ++ 34 :: t)) = some ((label, w), t) := by
  have hread := readName_append isLabelStart isLabelChar label (61 :: 34 :: (escape w ++ 34 :: t)) hl
    (by simp; decide)
  have hquoted := (readQuoted_eq_some_iff (escape w ++ 34 :: t) w t).mpr rfl
  have h61 (x : Bytes) : expect 61 (skipBlanks (61 :: x)) = some x := rfl
  have h34 (x : Bytes) : expect 34 (skipBlanks (34 :: x)) = some x := rfl
  rw [readLabel, hread]
  simp only [bind, Option.bind, h61, h34, hquoted, hw, ↓reduceIte]

theorem readLabelSet_labelText (label w t : Bytes) (hl : isLabelName label = true)
    (hw : readable w = true) :
    readLabelSet readable (labelText label w ++ t) = some ([(label, w)], t) := by
  have hlabel := readLabel_text label w (125 :: t) hl hw
  have htext : labelText label w ++ t =
      123 :: (label ++ 61 :: 34 :: (escape w ++ 34 :: 125 :: t)) := by
    simp only [labelText, List.cons_append, List.append_assoc, List.nil_append]
  rw [htext, readLabelSet, if_pos rfl, readLabels,
    skipBlanks_name isLabelStart isLabelChar label _ hl (by decide) (by decide)]
  cases label with
  | nil => cases hl
  | cons c r =>
    have h125 : c ≠ 125 := by
      rintro rfl
      exact not_mem_name _ _ _ hl 125 (by decide) (by decide) List.mem_cons_self
    have hend : skipBlanks (125 :: t) = 125 :: t := rfl
    rw [List.cons_append] at hlabel ⊢
    dsimp only
    rw [if_neg h125, hlabel]
    simp only [bind, Option.bind, hend, ↓reduceIte]

theorem reads_labelled (name label w : Bytes) (hn : isMetricName name = true)
    (hl : isLabelName label = true) (hw : readable w = true) (h : Numeral text v) :
    Reads readable (name ++ (labelText label w ++ 32 :: text) ++ [10]) [⟨name, [(label, w)], v, none⟩] := by
  have hread := readName_append isNameStart isNameChar name (labelText label w ++ 32 :: text) hn
    (by simp [labelText]; decide)
  have hblank : skipBlanks (labelText label w ++ 32 :: text) = labelText label w ++ 32 :: text := rfl
  have hline : 10 ∉ labelText label w := by
    have hl10 := not_mem_name _ _ label hl 10 (by decide) (by decide)
    simp [labelText, hl10, not_mem_escape w]
  refine reads_line _ (some _) ?_ ?_
  · rw [List.mem_append, List.mem_append, List.mem_cons, not_or, not_or, not_or]
    exact ⟨not_mem_name _ _ name hn 10 (by decide) (by decide), hline, by decide,
      h.not_mem 10 (by decide)⟩
  · rw [readLine_name name _ hn, readSample, hread]
    simp only [bind, Option.bind]
    rw [hblank, readLabelSet_labelText label w _ hl hw]
    dsimp only
    rw [readTail_numeral h]
    rfl

end SampleLines

section Backslashes

variable {readable : Bytes → Bool}

/-- The backslashes it takes to spell the labels of a sample. -/
def backslashes (labels : List (Bytes × Bytes)) : ℕ := (labels.map fun p => (escape p.2).count 92).sum

theorem backslashes_nil : backslashes [] = 0 := rfl

theorem backslashes_cons (p : Bytes × Bytes) (labels : List (Bytes × Bytes)) :
    backslashes (p :: labels) = (escape p.2).count 92 + backslashes labels := List.sum_cons

/-- What reading labels off a text tells about them: they are readable, and their backslashes
stood in the text. -/
structure LabelsFrom (readable : Bytes → Bool) (labels : List (Bytes × Bytes)) (s r : Bytes) : Prop where
  readable : ∀ p ∈ labels, readable p.2 = true
  count : backslashes labels + r.count 92 ≤ s.count 92

theorem count_skipBlanks (s : Bytes) : (skipBlanks s).count 92 ≤ s.count 92 :=
  (List.dropWhile_suffix _).sublist.count_le 92

theorem count_expect (c : UInt8) (s r : Bytes) (h : expect c s = some r) : r.count 92 ≤ s.count 92 := by
  cases s with
  | nil => cases h
  | cons d s =>
    rw [expect] at h
    split_ifs at h
    cases h
    exact List.count_le_count_cons

theorem count_readName (start char : UInt8 → Bool) (s name r : Bytes)
    (h : readName start char s = some (name, r)) : r.count 92 ≤ s.count 92 := by
  cases s with
  | nil => cases h
  | cons c s =>
    rw [readName] at h
    split_ifs at h
    cases h
    exact le_trans ((List.dropWhile_suffix _).sublist.count_le 92) List.count_le_count_cons

theorem readLabel_spec (s r : Bytes) (label : Bytes × Bytes)
    (h : readLabel readable s = some (label, r)) :
    readable label.2 = true ∧ (escape label.2).count 92 + r.count 92 ≤ s.count 92 := by
  rw [readLabel] at h
  obtain ⟨⟨name, r1⟩, h1, h⟩ := Option.bind_eq_some_iff.mp h
  obtain ⟨r2, h2, h⟩ := Option.bind_eq_some_iff.mp h
  obtain ⟨r3, h3, h⟩ := Option.bind_eq_some_iff.mp h
  obtain ⟨⟨value, r4⟩, h4, h⟩ := Option.bind_eq_some_iff.mp h
  have hc1 := count_readName _ _ _ _ _ h1
  have hc2 := le_trans (count_expect _ _ _ h2) (count_skipBlanks r1)
  have hc3 := le_trans (count_expect _ _ _ h3) (count_skipBlanks r2)
  have hc4 : List.count 92 r3 = (escape value).count 92 + r4.count 92 := by
    rw [(readQuoted_eq_some_iff r3 value r4).mp h4, List.count_append, List.count_cons_of_ne (by decide)]
  dsimp only at h
  split_ifs at h with hv
  cases h
  exact ⟨hv, by dsimp only; omega⟩

theorem labelsFrom_readLabels (fuel : ℕ) (s : Bytes) (labels : List (Bytes × Bytes)) (r : Bytes)
    (h : readLabels readable fuel s = some (labels, r)) : LabelsFrom readable labels s r := by
  induction fuel generalizing s labels with
  | zero => cases h
  | succ fuel ih =>
    rw [readLabels] at h
    have hs := count_skipBlanks s
    cases hsk : skipBlanks s with
    | nil =>
      rw [hsk] at h
      cases h
    | cons c t =>
      rw [hsk] at h hs
      dsimp only at h
      split_ifs at h
      · have ht : List.count 92 t ≤ List.count 92 (c :: t) := List.count_le_count_cons
        cases h
        exact ⟨by simp, by rw [backslashes_nil]; omega⟩
      · obtain ⟨⟨label, u⟩, hlabel, h⟩ := Option.bind_eq_some_iff.mp h
        obtain ⟨hv, hl⟩ := readLabel_spec _ u label hlabel
        have hu := count_skipBlanks u
        dsimp only at h
        cases hsk' : skipBlanks u with
        | nil =>
          rw [hsk'] at h
          cases h
        | cons d w =>
          rw [hsk'] at h hu
          have hw : List.count 92 w ≤ List.count 92 (d :: w) := List.count_le_count_cons
          dsimp only at h
          split_ifs at h
          · -- the closing brace: this was the last label
            cases h
            exact ⟨by simpa using hv, by rw [backslashes_cons, backslashes_nil]; omega⟩
          · obtain ⟨⟨rest, r5⟩, h5, h⟩ := Option.bind_eq_some_iff.mp h
            obtain ⟨rfl, rfl⟩ : label :: rest = labels ∧ r5 = r := by
              simpa only [pure, Option.some_inj, Prod.mk.injEq] using h
            have hrest := ih w rest h5
            have hcount := hrest.count
            exact ⟨List.forall_mem_cons.mpr ⟨hv, hrest.readable⟩, by rw [backslashes_cons]; omega⟩

theorem labelsFrom_readSample (s : Bytes) (x : Sample) (h : readSample readable s = some x) :
    LabelsFrom readable x.labels s [] := by
  rw [readSample] at h
  obtain ⟨⟨name, r1⟩, h1, h⟩ := Option.bind_eq_some_iff.mp h
  obtain ⟨⟨labels, r2⟩, h2, h⟩ := Option.bind_eq_some_iff.mp h
  obtain ⟨⟨v, time⟩, h3, h⟩ := Option.bind_eq_some_iff.mp h
  cases h
  have hc1 := le_trans (count_skipBlanks r1) (count_readName _ _ _ _ _ h1)
  dsimp only at h2 ⊢
  cases hs : skipBlanks r1 with
  | nil =>
    rw [hs] at h2
    cases h2
    exact ⟨by simp, by simp [backslashes]⟩
  | cons c t =>
    rw [hs] at h2 hc1
    rw [readLabelSet] at h2
    have ht : List.count 92 t ≤ List.count 92 (c :: t) := List.count_le_count_cons
    by_cases hc : c = 123
    · rw [if_pos hc] at h2
      have hl := labelsFrom_readLabels _ t labels r2 h2
      refine ⟨hl.readable, ?_⟩
      have hcount := hl.count
      rw [List.count_nil]
      omega
    · rw [if_neg hc] at h2
      cases h2
      exact ⟨by simp, by simp [backslashes]⟩

theorem labelsFrom_readLine (l : Bytes) (x : Sample) (h : readLine readable l = some (some x)) :
    LabelsFrom readable x.labels l [] := by
  have hs := count_skipBlanks l
  rw [readLine] at h
  cases hsk : skipBlanks l with
  | nil =>
    rw [hsk] at h
    cases h
  | cons c t =>
    rw [hsk] at h hs
    dsimp only at h
    split_ifs at h
    · cases h
    · obtain ⟨y, hy, h⟩ := Option.map_eq_some_iff.mp h
      have hx := labelsFrom_readSample _ x (Option.some_inj.mp h ▸ hy)
      exact ⟨hx.readable, le_trans hx.count hs⟩

theorem readLines_spec (ls : List Bytes) (xs : List Sample) (h : readLines readable ls = some xs) :
    (∀ x ∈ xs, ∀ p ∈ x.labels, readable p.2 = true) ∧
      (xs.map fun x => backslashes x.labels).sum ≤ (ls.map (List.count 92)).sum := by
  induction ls generalizing xs with
  | nil =>
    cases h
    exact ⟨by simp, le_rfl⟩
  | cons l ls ih =>
    rw [readLines] at h
    obtain ⟨s, hs, h⟩ := Option.bind_eq_some_iff.mp h
    obtain ⟨rest, hrest, h⟩ := Option.bind_eq_some_iff.mp h
    cases h
    obtain ⟨hread, hcount⟩ := ih rest hrest
    rw [List.map_cons, List.sum_cons]
    cases s with
    | none =>
      rw [Option.toList_none, List.nil_append]
      exact ⟨hread, by omega⟩
    | some x =>
      have hx := labelsFrom_readLine l x hs
      have hxc := hx.count
      rw [List.count_nil, Nat.add_zero] at hxc
      rw [Option.toList_some, List.singleton_append, List.map_cons, List.sum_cons]
      exact ⟨List.forall_mem_cons.mpr ⟨hx.readable, hread⟩, by omega⟩

theorem count_splitLines (text : Bytes) :
    ((splitLines text).1.map (List.count 92)).sum ≤ text.count 92 := by
  induction text with
  | nil => exact le_rfl
  | cons c s ih =>
    rw [splitLines]
    split_ifs with hc
    · rw [List.map_cons, List.sum_cons, List.count_nil, Nat.zero_add]
      exact le_trans ih List.count_le_count_cons
    · cases hl : (splitLines s).1 with
      | nil => exact Nat.zero_le _
      | cons l ls =>
        rw [hl, List.map_cons, List.sum_cons] at ih
        dsimp only
        rw [List.map_cons, List.sum_cons, List.count_cons, List.count_cons]
        omega

/-- Strings that take no more backslashes to spell than they hold are plain. -/
theorem plain_of_sum_count_le (vs : List Bytes)
    (h : (vs.map fun v => (escape v).count 92).sum ≤ (vs.map (List.count 92)).sum) :
    ∀ v ∈ vs, Plain v := by
  have hle (v : Bytes) : v.count 92 ≤ (escape v).count 92 := by
    rw [count_escape]
    omega
  induction vs with
  | nil => simp
  | cons v vs ih =>
    -- no string can make up for what another one takes too much
    have htail : (vs.map (List.count 92)).sum ≤ (vs.map fun v => (escape v).count 92).sum := by
      clear h ih
      induction vs with
      | nil => exact le_rfl
      | cons w vs ih =>
        have hw := hle w
        simp only [List.map_cons, List.sum_cons]
        omega
    have hv := hle v
    simp only [List.map_cons, List.sum_cons] at h
    exact List.forall_mem_cons.mpr ⟨plain_of_count_escape_le v (by omega), ih (by omega)⟩

/-- The samples of a text are readable and cannot spell more than its backslashes allow. -/
theorem decode_spec (text : Bytes) (xs : List Sample) (h : decode readable text = some xs) :
    (∀ x ∈ xs, ∀ p ∈ x.labels, readable p.2 = true) ∧
      (xs.map fun x => backslashes x.labels).sum ≤ text.count 92 := by
  rw [decode] at h
  split_ifs at h
  -- a line feed is no backslash, so the lines hold all there are
  obtain ⟨hread, hcount⟩ := readLines_spec _ xs h
  exact ⟨hread, le_trans hcount (count_splitLines text)⟩

end Backslashes

end TextFormat
