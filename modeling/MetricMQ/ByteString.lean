import Mathlib.Tactic.Ring
import Mathlib.Data.List.Basic
import Mathlib.Data.List.Induction

/-! Byte strings with the operations of the C++ string library: literals, search,
decimal printing and the `strto*` family with its blanks, signs and trailing garbage. -/
namespace ByteString

abbrev Bytes := List UInt8

/-- The bytes of a string literal. -/
def lit (s : String) : Bytes := s.toUTF8.data.toList

/-- `std::string::find` for one character; `none` is `npos`. -/
def find (s : Bytes) (c : UInt8) : Option ℕ := s.findIdx? (· == c)

/-- `std::string::rfind` for one character. -/
def rfind : Bytes → UInt8 → Option ℕ
  | [], _ => none
  | b :: s, c =>
    match rfind s c with
    | some i => some (i + 1)
    | none => if b = c then some 0 else none

/-- What stands for a thrown C++ exception, a read outside a buffer or a recursion that
does not return. -/
inductive Fault
  | outOfRange
  | underflow
  | depth
deriving DecidableEq

def substr (s : Bytes) (pos len : ℕ) : Bytes := (s.drop pos).take len

/-- `std::string::substr(pos, len)`, which throws when `pos` lies behind the end. -/
def substrE (s : Bytes) (pos len : ℕ) : Except Fault Bytes :=
  if s.length < pos then .error .outOfRange else .ok (substr s pos len)

theorem substr_add (s : Bytes) (i m n : ℕ) :
    substr s i (m + n) = substr s i m ++ substr s (i + m) n := by
  simp only [substr, List.take_add, List.drop_drop]

theorem find_append_cons (s r : Bytes) (c : UInt8) (hc : c ∉ s) :
    find (s ++ c :: r) c = some s.length := by
  simp only [find, List.findIdx?_append, List.findIdx?_cons, BEq.rfl, ↓reduceIte]
  have hs : s.findIdx? (· == c) = none := by
    simp only [List.findIdx?_eq_none_iff, beq_eq_false_iff_ne]
    intro b hb he
    exact hc (he ▸ hb)
  simp [hs]

theorem find_eq_none_iff (s : Bytes) (c : UInt8) : find s c = none ↔ c ∉ s := by
  simp only [find, List.findIdx?_eq_none_iff, beq_eq_false_iff_ne]
  constructor
  · intro h hc
    exact h c hc rfl
  · intro h b hb he
    exact h (he ▸ hb)

/-- A hit of `find` splits the string at the first occurrence. -/
theorem find_eq_some_split (s : Bytes) (c : UInt8) (i : ℕ) (h : find s c = some i) :
    s = s.take i ++ c :: s.drop (i + 1) ∧ c ∉ s.take i := by
  obtain ⟨hi, hb, hlt⟩ := List.findIdx?_eq_some_iff_getElem.mp h
  have he : s[i] = c := by simpa using hb
  constructor
  · rw [← he, List.getElem_cons_drop, List.take_append_drop]
  · intro hc
    obtain ⟨j, hj, hjc⟩ := List.mem_iff_getElem.mp hc
    have hji : j < i := by simp only [List.length_take] at hj; omega
    have hn := hlt j hji
    rw [List.getElem_take] at hjc
    exact hn (by simpa using hjc)

theorem rfind_append_cons (s r : Bytes) (c : UInt8) (hc : c ∉ r) :
    rfind (s ++ c :: r) c = some s.length := by
  have hr : ∀ t : Bytes, c ∉ t → rfind t c = none := by
    intro t ht
    induction t with
    | nil => rfl
    | cons b t ih =>
      have hb : b ≠ c := fun h => ht (h ▸ List.mem_cons_self)
      simp only [rfind, ih (fun h => ht (List.mem_cons_of_mem b h)), hb, ↓reduceIte]
  induction s with
  | nil => simp only [List.nil_append, rfind, hr r hc, ↓reduceIte, List.length_nil]
  | cons b s ih => simp only [List.cons_append, rfind, ih, List.length_cons]

section Decimal

def isSpace (c : UInt8) : Bool := c == 32 || (9 ≤ c && c ≤ 13)

def isDigit (c : UInt8) : Bool := 48 ≤ c && c ≤ 57

def charByte (c : Char) : UInt8 := UInt8.ofNat c.toNat

/-- `std::to_string` of an unsigned integer. -/
def toDecimal (n : ℕ) : Bytes := (Nat.toDigits 10 n).map charByte

/-- `std::to_string` of a signed integer. -/
def toDecimalInt (i : ℤ) : Bytes :=
  if i < 0 then 45 :: toDecimal i.natAbs else toDecimal i.natAbs

/-- The last `width` digits of a number. -/
def lastDigits : ℕ → ℕ → Bytes
  | 0, _ => []
  | width + 1, n => lastDigits width (n / 10) ++ [UInt8.ofNat (48 + n % 10)]

/-- A number of `width` decimals, given in its smallest unit, as `std::fixed` prints it. -/
def toFixed (width n : ℕ) : Bytes := toDecimal (n / 10 ^ width) ++ 46 :: lastDigits width n

def digitsValue (ds : Bytes) : ℕ := ds.foldl (fun n c => 10 * n + (c.toNat - 48)) 0

/-- The optional sign of `strtoll`; the flag says that it was a minus. -/
def splitSign : Bytes → Bool × Bytes
  | [] => (false, [])
  | c :: r => if c = 45 then (true, r) else if c = 43 then (false, r) else (false, c :: r)

/-- The common scan of `strtoull` and `strtoll` in base ten. No digit after the blanks
and the sign is the `invalid_argument` case. -/
def scanInteger (s : Bytes) : Option (Bool × ℕ) :=
  let (negative, r) := splitSign (s.dropWhile isSpace)
  let ds := r.takeWhile isDigit
  if ds = [] then none else some (negative, digitsValue ds)

/-- `std::stoull`; `none` is an exception. A minus sign negates modulo 2^64. -/
def stoull (s : Bytes) : Option UInt64 :=
  match scanInteger s with
  | none => none
  | some (negative, v) =>
    if v < 2 ^ 64 then some (if negative then -(UInt64.ofNat v) else UInt64.ofNat v) else none

/-- `std::stoll`; `none` is an exception. -/
def stoll (s : Bytes) : Option Int64 :=
  match scanInteger s with
  | none => none
  | some (negative, v) =>
    let i : ℤ := if negative then -v else v
    if -2 ^ 63 ≤ i ∧ i < 2 ^ 63 then some (Int64.ofInt i) else none

theorem isDigit_toDecimal (n : ℕ) : ∀ c ∈ toDecimal n, isDigit c = true := by
  intro c hc
  obtain ⟨d, hd, rfl⟩ := List.mem_map.mp hc
  have hdig := Nat.isDigit_of_mem_toDigits (by decide) (by decide) hd
  have hb : 48 ≤ d.toNat ∧ d.toNat ≤ 57 := by
    simp only [Char.isDigit, Bool.and_eq_true, decide_eq_true_eq] at hdig
    exact ⟨hdig.1, hdig.2⟩
  simp only [isDigit, charByte, Bool.and_eq_true, decide_eq_true_eq, UInt8.le_iff_toNat_le,
    UInt8.toNat_ofNat', UInt8.toNat_ofNat]
  omega

theorem toDecimal_ne_nil (n : ℕ) : toDecimal n ≠ [] := by
  simp [toDecimal]

theorem digitsValue_toDecimal (n : ℕ) : digitsValue (toDecimal n) = n := by
  have hf : ∀ (cs : List Char) (a : ℕ), (∀ c ∈ cs, c.isDigit = true) →
      (cs.map charByte).foldl (fun n c => 10 * n + (c.toNat - 48)) a = Nat.ofDigitChars 10 cs a := by
    intro cs
    induction cs with
    | nil => intro a _; rfl
    | cons c cs ih =>
      intro a hd
      have hc := hd c List.mem_cons_self
      have hlt : c.toNat < 256 := by
        simp only [Char.isDigit, Bool.and_eq_true, decide_eq_true_eq] at hc
        exact lt_of_le_of_lt hc.2 (by decide)
      have hb : (charByte c).toNat = c.toNat := by
        simp only [charByte, UInt8.toNat_ofNat']
        omega
      rw [List.map_cons, List.foldl_cons, hb, Nat.ofDigitChars_cons,
        ih _ (fun d hm => hd d (List.mem_cons_of_mem c hm))]
      rfl
  rw [digitsValue, toDecimal, hf _ _ (fun c hc => Nat.isDigit_of_mem_toDigits (by decide) (by decide) hc)]
  exact Nat.ofDigitChars_ten_toDigits

theorem length_lastDigits (width n : ℕ) : (lastDigits width n).length = width := by
  induction width generalizing n with
  | zero => rfl
  | succ width ih => rw [lastDigits, List.length_append, ih, List.length_singleton]

theorem isDigit_lastDigits (width n : ℕ) : ∀ c ∈ lastDigits width n, isDigit c = true := by
  induction width generalizing n with
  | zero => simp [lastDigits]
  | succ width ih =>
    intro c hc
    rcases List.mem_append.mp hc with hc | hc
    · exact ih (n / 10) c hc
    · rw [List.mem_singleton.mp hc]
      simp only [isDigit, Bool.and_eq_true, decide_eq_true_eq, UInt8.le_iff_toNat_le,
        UInt8.toNat_ofNat', UInt8.toNat_ofNat]
      omega

theorem digitsValue_append (ds es : Bytes) :
    digitsValue (ds ++ es) = digitsValue ds * 10 ^ es.length + digitsValue es := by
  induction es using List.reverseRecOn with
  | nil => simp [digitsValue]
  | append_singleton es c ih =>
    have hsnoc (l : Bytes) : digitsValue (l ++ [c]) = 10 * digitsValue l + (c.toNat - 48) := by
      rw [digitsValue, List.foldl_append]
      rfl
    rw [← List.append_assoc, hsnoc, hsnoc, ih, List.length_append, List.length_singleton, pow_succ]
    ring

theorem digitsValue_lastDigits (width n : ℕ) : digitsValue (lastDigits width n) = n % 10 ^ width := by
  induction width generalizing n with
  | zero => simp [lastDigits, digitsValue, Nat.mod_one]
  | succ width ih =>
    have hd : digitsValue [UInt8.ofNat (48 + n % 10)] = n % 10 := by
      simp only [digitsValue, List.foldl_cons, List.foldl_nil, UInt8.toNat_ofNat']
      omega
    rw [lastDigits, digitsValue_append, ih, hd, List.length_singleton, pow_one, pow_succ',
      Nat.mod_mul]
    ring

theorem toDecimal_injective : Function.Injective toDecimal := by
  intro a b h
  rw [← digitsValue_toDecimal a, h, digitsValue_toDecimal]

theorem not_mem_toDecimal (n : ℕ) (c : UInt8) (hc : isDigit c = false) : c ∉ toDecimal n := by
  intro h
  rw [isDigit_toDecimal n c h] at hc
  contradiction

theorem toDecimal_cons (n : ℕ) : ∃ d ds, toDecimal n = d :: ds ∧ isDigit d = true := by
  obtain ⟨d, ds, h⟩ := List.exists_cons_of_ne_nil (toDecimal_ne_nil n)
  exact ⟨d, ds, h, isDigit_toDecimal n d (by rw [h]; exact List.mem_cons_self)⟩

theorem digit_bounds (d : UInt8) (h : isDigit d = true) : 48 ≤ d.toNat ∧ d.toNat ≤ 57 := by
  simpa only [isDigit, Bool.and_eq_true, decide_eq_true_eq, UInt8.le_iff_toNat_le,
    UInt8.reduceToNat] using h

/-- A digit is neither a blank nor a sign, so the scan starts right there. -/
theorem splitSign_digit (d : UInt8) (r : Bytes) (h : isDigit d = true) :
    splitSign ((d :: r).dropWhile isSpace) = (false, d :: r) := by
  have hb := digit_bounds d h
  have hs : isSpace d = false := by
    simp only [isSpace, Bool.or_eq_false_iff, beq_eq_false_iff_ne, Bool.and_eq_false_iff,
      decide_eq_false_iff_not, UInt8.le_iff_toNat_le, ne_eq, ← UInt8.toNat_inj, UInt8.reduceToNat]
    omega
  have h45 : d ≠ 45 := by rintro rfl; contradiction
  have h43 : d ≠ 43 := by rintro rfl; contradiction
  rw [List.dropWhile_cons_of_neg (by simp [hs])]
  simp only [splitSign, h45, h43, ↓reduceIte]

/-- The scan stops at the first byte that is not a digit. -/
theorem scanInteger_toDecimal_append (n : ℕ) (r : Bytes) (hr : ∀ c, r.head? = some c → isDigit c = false) :
    scanInteger (toDecimal n ++ r) = some (false, n) := by
  obtain ⟨d, ds, he, hd⟩ := toDecimal_cons n
  have ht : (toDecimal n ++ r).takeWhile isDigit = toDecimal n := by
    have hr' : r.takeWhile isDigit = [] := by
      cases r with
      | nil => rfl
      | cons c r => exact List.takeWhile_cons_of_neg (by simp [hr c rfl])
    rw [List.takeWhile_append_of_pos (isDigit_toDecimal n), hr', List.append_nil]
  have hsp : splitSign ((toDecimal n ++ r).dropWhile isSpace) = (false, toDecimal n ++ r) := by
    rw [he]
    exact splitSign_digit d (ds ++ r) hd
  simp only [scanInteger, hsp, ht, toDecimal_ne_nil, digitsValue_toDecimal, ↓reduceIte]

theorem stoull_toDecimal (n : UInt64) : stoull (toDecimal n.toNat) = some n := by
  have h := scanInteger_toDecimal_append n.toNat [] (by simp)
  rw [List.append_nil] at h
  simp only [stoull, h, n.toNat_lt, ↓reduceIte, Bool.false_eq_true, UInt64.ofNat_toNat]

theorem stoll_toDecimalInt (i : Int64) : stoll (toDecimalInt i.toInt) = some i := by
  have hlo := i.le_toInt
  have hhi := i.toInt_lt
  by_cases hn : i.toInt < 0
  · have hs : scanInteger (toDecimalInt i.toInt) = some (true, i.toInt.natAbs) := by
      have h := scanInteger_toDecimal_append i.toInt.natAbs [] (by simp)
      obtain ⟨d, ds, he, hd⟩ := toDecimal_cons i.toInt.natAbs
      rw [List.append_nil, he, scanInteger, splitSign_digit d ds hd] at h
      have hm : splitSign ((45 :: d :: ds : Bytes).dropWhile isSpace) = (true, d :: ds) := rfl
      rw [toDecimalInt, if_pos hn, he, scanInteger, hm]
      dsimp only at h ⊢
      split at h
      · contradiction
      · rename_i hne
        rw [if_neg hne]
        simpa using h
    have hv : -(i.toInt.natAbs : ℤ) = i.toInt := by omega
    simp only [stoll, hs, ↓reduceIte, hv, hlo, hhi, and_self, Int64.ofInt_toInt]
  · have hs : scanInteger (toDecimalInt i.toInt) = some (false, i.toInt.natAbs) := by
      have h := scanInteger_toDecimal_append i.toInt.natAbs [] (by simp)
      rw [List.append_nil] at h
      rw [toDecimalInt, if_neg hn, h]
    have hv : (i.toInt.natAbs : ℤ) = i.toInt := by omega
    simp only [stoll, hs, Bool.false_eq_true, ↓reduceIte, hv, hlo, hhi, and_self, Int64.ofInt_toInt]

theorem stoll_toDecimal (n : ℕ) (h : n < 2 ^ 63) : stoll (toDecimal n) = some (Int64.ofNat n) := by
  have hi : (Int64.ofNat n).toInt = n := Int64.toInt_ofNat_of_lt h
  have hd : toDecimalInt (Int64.ofNat n).toInt = toDecimal n := by
    rw [hi, toDecimalInt, if_neg (by omega), Int.natAbs_natCast]
  rw [← hd, stoll_toDecimalInt]

/-- `std::stoll` throws on a length that does not fit. -/
theorem stoll_toDecimal_large (n : ℕ) (h : 2 ^ 63 ≤ n) : stoll (toDecimal n) = none := by
  have hs := scanInteger_toDecimal_append n [] (by simp)
  rw [List.append_nil] at hs
  have hlt : ¬ (-2 ^ 63 ≤ (n : ℤ) ∧ (n : ℤ) < 2 ^ 63) := by omega
  simp only [stoll, hs, Bool.false_eq_true, ↓reduceIte, if_neg hlt]

/-- A byte that is no blank, sign or digit ends the scan whatever follows it. -/
theorem scanInteger_append_stop (x r : Bytes) (c : UInt8) (hs : isSpace c = false)
    (hd : isDigit c = false) (hm : c ≠ 45) (hp : c ≠ 43) :
    scanInteger (x ++ c :: r) = scanInteger x := by
  have htake : ∀ t : Bytes, (t ++ c :: r).takeWhile isDigit = t.takeWhile isDigit := by
    intro t
    induction t with
    | nil => simp [hd]
    | cons b t ih => simp only [List.cons_append, List.takeWhile_cons, ih]
  -- `c` could be taken for a sign only in front of the digits
  have hsign : ∀ t : Bytes, (splitSign (t ++ c :: r)).1 = (splitSign t).1 ∧
      ((splitSign (t ++ c :: r)).2).takeWhile isDigit = ((splitSign t).2).takeWhile isDigit := by
    intro t
    cases t with
    | nil => simp [splitSign, hm, hp, hd]
    | cons b t =>
      simp only [List.cons_append, splitSign]
      split_ifs
      · exact ⟨rfl, htake t⟩
      · exact ⟨rfl, htake t⟩
      · exact ⟨rfl, htake (b :: t)⟩
  have hdrop : (x ++ c :: r).dropWhile isSpace = x.dropWhile isSpace ++ c :: r := by
    induction x with
    | nil => simp [hs]
    | cons b x ih =>
      by_cases hb : isSpace b = true
      · simp only [List.cons_append, List.dropWhile_cons_of_pos hb, ih]
      · simp only [List.cons_append, List.dropWhile_cons_of_neg hb]
  obtain ⟨h1, h2⟩ := hsign (x.dropWhile isSpace)
  simp only [scanInteger, hdrop, h1, h2]

theorem stoull_append_stop (x r : Bytes) (c : UInt8) (hs : isSpace c = false)
    (hd : isDigit c = false) (hm : c ≠ 45) (hp : c ≠ 43) : stoull (x ++ c :: r) = stoull x := by
  simp only [stoull, scanInteger_append_stop x r c hs hd hm hp]

theorem splitSign_append (z s : Bytes) (hz : z ≠ []) :
    splitSign (z ++ s) = ((splitSign z).1, (splitSign z).2 ++ s) := by
  cases z with
  | nil => exact absurd rfl hz
  | cons c z =>
    simp only [List.cons_append, splitSign]
    split_ifs <;> rfl

theorem digitsValue_le_append (ds es : Bytes) : digitsValue ds ≤ digitsValue (ds ++ es) := by
  rw [digitsValue, digitsValue, List.foldl_append]
  generalize ds.foldl (fun n c => 10 * n + (c.toNat - 48)) 0 = a
  induction es generalizing a with
  | nil => exact le_rfl
  | cons c es ih =>
    have hstep : a ≤ 10 * a + (c.toNat - 48) := by omega
    exact le_trans hstep (ih _)

/-- Once the scan has a number, a byte that is not a digit ends it. -/
theorem scanInteger_append_of_some (x r : Bytes) (c : UInt8) (res : Bool × ℕ)
    (h : scanInteger x = some res) (hc : isDigit c = false) :
    scanInteger (x ++ c :: r) = some res := by
  have hx : x.dropWhile isSpace ≠ [] := by
    intro he
    simp [scanInteger, he, splitSign] at h
  have htake : ∀ t : Bytes, (t ++ c :: r).takeWhile isDigit = t.takeWhile isDigit := by
    intro t
    induction t with
    | nil => exact List.takeWhile_cons_of_neg (by simp [hc])
    | cons b t ih => simp only [List.cons_append, List.takeWhile_cons, ih]
  rw [← h]
  simp only [scanInteger, List.dropWhile_append, List.isEmpty_eq_false_iff.mpr hx, Bool.false_eq_true,
    ↓reduceIte, splitSign_append _ _ hx, htake]

/-- What a longer text says about its beginning: that has no digit yet and none of its bytes
stands in the way of one, or it has a number of the same sign that is no larger. -/
theorem scanInteger_of_append (x s : Bytes) (negative : Bool) (v : ℕ)
    (h : scanInteger (x ++ s) = some (negative, v)) :
    (∃ sign, scanInteger (x ++ lit "0") = some (sign, 0)) ∨
      ∃ v', v' ≤ v ∧ scanInteger x = some (negative, v') := by
  by_cases hx : x.dropWhile isSpace = []
  · left
    refine ⟨false, ?_⟩
    simp only [scanInteger, List.dropWhile_append, hx, List.isEmpty_nil, ↓reduceIte]
    rfl
  · have hdrop : ∀ t, (x ++ t).dropWhile isSpace = x.dropWhile isSpace ++ t := by
      intro t
      rw [List.dropWhile_append, List.isEmpty_eq_false_iff.mpr hx]
      rfl
    have hscan : ∀ t, scanInteger (x ++ t) =
        if ((splitSign (x.dropWhile isSpace)).2 ++ t).takeWhile isDigit = [] then none
        else some ((splitSign (x.dropWhile isSpace)).1,
          digitsValue (((splitSign (x.dropWhile isSpace)).2 ++ t).takeWhile isDigit)) := by
      intro t
      simp only [scanInteger, hdrop, splitSign_append _ t hx]
    have hself := hscan []
    rw [List.append_nil, List.append_nil] at hself
    rw [hscan s] at h
    generalize (splitSign (x.dropWhile isSpace)).2 = y at hscan hself h
    generalize (splitSign (x.dropWhile isSpace)).1 = sign at hscan hself h
    cases y with
    | nil => exact Or.inl ⟨sign, (hscan (lit "0")).trans rfl⟩
    | cons c y =>
      right
      rw [List.cons_append, List.takeWhile_cons] at h
      rw [List.takeWhile_cons] at hself
      by_cases hc : isDigit c = true
      · simp only [hc, ↓reduceIte, reduceCtorEq, Option.some_inj, Prod.mk.injEq] at h hself
        refine ⟨_, ?_, h.1 ▸ hself⟩
        rw [← h.2]
        -- the digits seen so far begin the digits of the whole
        rw [List.takeWhile_append]
        split_ifs with hall
        · rw [← List.cons_append, List.IsPrefix.eq_of_length (List.takeWhile_prefix _) hall]
          exact digitsValue_le_append _ _
        · exact le_rfl
      · simp only [hc, Bool.false_eq_true, ↓reduceIte, reduceCtorEq] at h

/-- The integer that `stoll` makes of a scan. -/
def signedValue (negative : Bool) (v : ℕ) : ℤ := if negative then -v else v

theorem stoll_eq_some_iff (s : Bytes) (n : Int64) :
    stoll s = some n ↔ ∃ negative v, scanInteger s = some (negative, v) ∧
      signedValue negative v = n.toInt := by
  have hlo := n.le_toInt
  have hhi := n.toInt_lt
  rw [stoll]
  rcases scanInteger s with _ | ⟨negative, v⟩
  · simp
  · simp only [Option.some_inj, Prod.mk.injEq]
    change (if -2 ^ 63 ≤ signedValue negative v ∧ signedValue negative v < 2 ^ 63 then
      some (Int64.ofInt (signedValue negative v)) else none) = some n ↔ _
    constructor
    · intro h
      split_ifs at h with hr
      refine ⟨negative, v, ⟨rfl, rfl⟩, ?_⟩
      rw [← Option.some_inj.mp h, Int64.toInt_ofInt_of_le hr.1 hr.2]
    · rintro ⟨_, _, ⟨rfl, rfl⟩, hv⟩
      rw [hv, if_pos ⟨hlo, hhi⟩, Int64.ofInt_toInt]

theorem stoll_append_of_some (x r : Bytes) (c : UInt8) (n : Int64) (h : stoll x = some n)
    (hc : isDigit c = false) : stoll (x ++ c :: r) = some n := by
  obtain ⟨negative, v, hs, hv⟩ := (stoll_eq_some_iff x n).mp h
  exact (stoll_eq_some_iff _ n).mpr ⟨negative, v, scanInteger_append_of_some x r c _ hs hc, hv⟩

theorem stoll_of_append (x s : Bytes) (n : Int64) (h : stoll (x ++ s) = some n) :
    stoll (x ++ lit "0") = some 0 ∨ ∃ m, stoll x = some m ∧
      (0 ≤ m.toInt ∧ m.toInt ≤ n.toInt ∨ n.toInt ≤ m.toInt ∧ m.toInt ≤ 0) := by
  obtain ⟨negative, v, hs, hv⟩ := (stoll_eq_some_iff _ n).mp h
  have hlo := n.le_toInt
  have hhi := n.toInt_lt
  rcases scanInteger_of_append x s negative v hs with ⟨sign, hz⟩ | ⟨v', hle, hx⟩
  · left
    refine (stoll_eq_some_iff _ 0).mpr ⟨sign, 0, hz, ?_⟩
    cases sign <;> rfl
  · right
    have hr : -2 ^ 63 ≤ signedValue negative v' ∧ signedValue negative v' < 2 ^ 63 := by
      rw [signedValue] at hv ⊢
      split_ifs at hv ⊢ <;> omega
    have hi : (Int64.ofInt (signedValue negative v')).toInt = signedValue negative v' :=
      Int64.toInt_ofInt_of_le hr.1 hr.2
    refine ⟨Int64.ofInt (signedValue negative v'),
      (stoll_eq_some_iff _ _).mpr ⟨negative, v', hx, hi.symm⟩, ?_⟩
    rw [hi]
    rw [signedValue] at hv ⊢
    split_ifs at hv ⊢ <;> omega

end Decimal

end ByteString
