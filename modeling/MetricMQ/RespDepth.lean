import MetricMQ.RespGrammar

/-! How deep `RespParser::parse` calls itself. Every array header whose elements are not complete
holds a native frame and a copy of what follows it, and nothing bounds how many of them a buffer
opens; this is the only fault of the parser. -/
namespace MetricMQ.RespParser

open ByteString

/-- `frames` array headers stand open at the front of the bytes: each is followed by fewer
complete elements than it counts, and the next one begins behind them. -/
inductive Nests : ℕ → Bytes → Prop
  | here (b : Bytes) : Nests 0 b
  | deeper (frames count : ℕ) (line q rest : Bytes) (vs : List RespValue)
      (hn : LooseNumeral line count) (hmax : count ≤ maxArrayCount.toInt.toNat)
      (hlt : vs.length < count) (hq : Spells LooseNumeral (fun term => term.length = 2) vs q)
      (hw : ∀ v ∈ vs, WellFormed v) (h : Nests frames rest) :
      Nests (frames + 1) (42 :: (line ++ crlf ++ (q ++ rest)))

theorem Nests.append {frames : ℕ} {b : Bytes} (h : Nests frames b) (r : Bytes) : Nests frames (b ++ r) := by
  induction h with
  | here b => exact .here _
  | deeper frames count line q rest vs hn hmax hlt hq hw _ ih =>
    simpa using Nests.deeper frames count line q (rest ++ r) vs hn hmax hlt hq hw ih

/-- A header is a type byte, at least one digit and CRLF. -/
theorem Nests.length_le {frames : ℕ} {b : Bytes} (h : Nests frames b) : 4 * frames ≤ b.length := by
  induction h with
  | here b => exact Nat.zero_le _
  | deeper frames count line q rest vs hn _ _ _ _ _ ih =>
    have hne : line ≠ [] := by
      rintro rfl
      obtain ⟨-, n, hs, -⟩ := hn
      cases hs
    have hpos := List.length_pos_iff.mpr hne
    simp only [List.length_cons, List.length_append, crlf, List.length_nil]
    omega

section Faults

variable {p : Bytes → Except Fault (Option (RespValue × ℕ))}

/-- A fault of the element loop is one of an element, behind complete ones. -/
theorem exists_of_parseElems_error
    (hp : ∀ t v n, p t = .ok (some (v, n)) → n ≤ t.length ∧ LooselyEncodes v (t.take n) ∧ WellFormed v)
    (b : Bytes) (count offset : ℕ) (arr : List RespValue) (fault : Fault) (ho : offset ≤ b.length)
    (h : parseElems p b count offset arr = .error fault) :
    ∃ vs q rest, b.drop offset = q ++ rest ∧ vs.length < count ∧
      Spells LooseNumeral (fun term => term.length = 2) vs q ∧ (∀ v ∈ vs, WellFormed v) ∧
      p rest = .error fault := by
  induction count generalizing offset arr with
  | zero => cases h
  | succ count ih =>
    rw [parseElems_succ b count offset arr ho] at h
    cases hr : p (b.drop offset) with
    | error e =>
      rw [hr] at h
      obtain rfl := Except.error.inj h
      exact ⟨[], [], _, rfl, Nat.succ_pos _, .nil, by simp, hr⟩
    | ok o =>
      rw [hr] at h
      rcases o with _ | ⟨elem, m⟩
      · cases h
      · obtain ⟨hm, henc, hwf⟩ := hp _ _ _ hr
        rw [List.length_drop] at hm
        obtain ⟨vs, q, rest, hd, hlen, hq, hw, hrest⟩ := ih (offset + m) (arr ++ [elem]) (by omega) h
        refine ⟨elem :: vs, (b.drop offset).take m ++ q, rest, ?_, Nat.succ_lt_succ hlen,
          spells_append [elem] vs _ _ henc hq, List.forall_mem_cons.mpr ⟨hwf, hw⟩, hrest⟩
        rw [List.append_assoc, ← hd, ← List.drop_drop, List.take_append_drop]

theorem parseTyped_error (type : RespType) (b line : Bytes) (next : ℕ) (fault : Fault)
    (h : parseTyped p type b line next = .error fault) :
    type = .array ∧ ∃ count, stoll line = some count ∧ 0 ≤ count ∧ count ≤ maxArrayCount ∧
      parseElems p b count.toInt.toNat next [] = .error fault := by
  cases type with
  | simpleString | error | integer => cases h
  | bulkString =>
    rw [parseTyped] at h
    rcases parseBulk_cases b line next with hc | ⟨-, hc⟩ | ⟨len, hl, h0, hm, hb⟩
    · rw [hc] at h
      cases h
    · rw [hc] at h
      cases h
    · rw [parseBulk_body b line next len hl h0 hm hb] at h
      cases h
  | array =>
    rw [parseTyped] at h
    rcases parseArray_cases line next with hc | hc | ⟨count, hl, h0, hm⟩
    · rw [hc] at h
      cases h
    · rw [hc] at h
      cases h
    · rw [parseArray_elems p b line next count hl h0 hm] at h
      exact ⟨rfl, count, hl, h0, hm, h⟩

theorem parseAux_eq_error (k : ℕ) (b : Bytes) (fault : Fault)
    (h : parseAux (k + 1) b = .error fault) :
    ∃ rest i, b = 42 :: rest ∧ findCRLFIn rest = some i ∧ ∃ count, stoll (rest.take i) = some count ∧
      0 ≤ count ∧ count ≤ maxArrayCount ∧
      parseElems (parseAux k) b count.toInt.toNat (i + 3) [] = .error fault := by
  cases b with
  | nil => cases h
  | cons t rest =>
    cases ht : RespType.ofByte t with
    | none =>
      simp only [parseAux, ht] at h
      cases h
    | some type =>
      cases hi : findCRLFIn rest with
      | none =>
        simp only [parseAux, ht, readLine_cons, hi] at h
        cases h
      | some i =>
        rw [parseAux_line k t rest type i ht hi] at h
        obtain ⟨rfl, hcount⟩ := parseTyped_error type _ _ _ fault h
        obtain rfl := ofByte_eq_some t _ ht
        exact ⟨rest, i, rfl, hi, hcount⟩

end Faults

/-- The parser fails only for want of a frame, and then that many headers stand open. -/
theorem nests_of_parseAux_error (frames : ℕ) (b : Bytes) (fault : Fault)
    (h : parseAux frames b = .error fault) : fault = .depth ∧ Nests frames b := by
  induction frames generalizing b with
  | zero => exact ⟨(Except.error.inj h).symm, .here b⟩
  | succ k ih =>
    obtain ⟨rest, i, rfl, hi, count, hs, h0, hmax, he⟩ := parseAux_eq_error k b fault h
    have hbound := findCRLFIn_bound rest i hi
    have hlen : (42 :: rest).length = rest.length + 1 := List.length_cons
    obtain ⟨vs, q, r, hd, hlt, hq, hw, hr⟩ := exists_of_parseElems_error
      (fun t v n ht => ⟨(parseAux_bounds k t v n ht).2, looselyEncodes_of_parseAux k t v n ht,
        wellFormed_of_parseAux k t v n ht⟩) _ _ (i + 3) [] fault (by omega) he
    obtain ⟨hfault, hnest⟩ := ih r hr
    have hpos := Int64.le_iff_toInt_le.mp h0
    rw [Int64.toInt_zero] at hpos
    have hcount : LooseNumeral (rest.take i) (count.toInt.toNat : ℤ) :=
      ⟨findCRLFIn_take rest i hi, count, hs, (Int.toNat_of_nonneg hpos).symm⟩
    have hle := Int.toNat_le_toNat (Int64.le_iff_toInt_le.mp hmax)
    have hsplit : rest = rest.take i ++ crlf ++ (q ++ r) := by
      rw [← hd, List.drop_succ_cons]
      exact line_split rest i hi
    refine ⟨hfault, ?_⟩
    rw [hsplit]
    exact .deeper k _ _ q r vs hcount hle hlt hq hw hnest

section Complete

theorem limits_of_toInt (n : Int64) (len : ℕ) (limit : Int64) (hpos : 0 ≤ limit.toInt)
    (hi : n.toInt = len) (hle : len ≤ limit.toInt.toNat) : 0 ≤ n ∧ n ≤ limit := by
  rw [Int64.le_iff_toInt_le, Int64.le_iff_toInt_le, Int64.toInt_zero, hi]
  omega

/-- A call of the parser returns `v` and its size, or there is no frame for it. -/
def ReadsOrFails (k : ℕ) (b : Bytes) (v : RespValue) (n : ℕ) : Prop :=
  parseAux k b = .error .depth ∨ parseAux k b = .ok (some (v, n))

/-- The element loop steps over complete elements, unless a frame is missing for one of them. -/
theorem parseElems_complete (k : ℕ)
    (hk : ∀ v q r, LooselyEncodes v q → WellFormed v → ReadsOrFails k (q ++ r) v q.length)
    (vs : List RespValue) (q : Bytes) (h : Spells LooseNumeral (fun term => term.length = 2) vs q)
    (hw : ∀ v ∈ vs, WellFormed v) (b rest : Bytes) (count offset : ℕ) (arr : List RespValue)
    (ho : offset ≤ b.length) (hd : b.drop offset = q ++ rest) :
    parseElems (parseAux k) b (vs.length + count) offset arr = .error .depth ∨
      parseElems (parseAux k) b (vs.length + count) offset arr =
        parseElems (parseAux k) b count (offset + q.length) (arr ++ vs) := by
  induction vs generalizing q offset arr with
  | nil =>
    cases h
    rw [List.append_nil, List.length_nil, List.length_nil, Nat.zero_add, Nat.add_zero]
    exact Or.inr rfl
  | cons v vs ih =>
    obtain ⟨x, p, rfl, hx, hp⟩ := spells_cons v vs q h
    rw [List.append_assoc] at hd
    have hlen : b.length - offset = x.length + (p ++ rest).length := by
      rw [← List.length_drop, hd, List.length_append]
    have hnext : b.drop (offset + x.length) = p ++ rest := by
      rw [← List.drop_drop, hd, List.drop_left]
    rw [List.length_cons, Nat.succ_add, parseElems_succ b _ offset arr ho, hd]
    rcases hk v x (p ++ rest) hx (hw v List.mem_cons_self) with he | he
    · rw [he]
      exact Or.inl rfl
    · rw [he, List.length_append, ← Nat.add_assoc, List.append_cons]
      exact ih p hp (fun u hu => hw u (List.mem_cons_of_mem v hu)) _ _ (by omega) hnext

/-- What follows a complete value does not matter. -/
theorem readsOrFails (k : ℕ) (v : RespValue) (q r : Bytes) (h : LooselyEncodes v q)
    (hw : WellFormed v) : ReadsOrFails k (q ++ r) v q.length := by
  -- the nesting of the value is that of the calls
  induction k generalizing v q r with
  | zero => exact Or.inl rfl
  | succ k ih =>
    rw [ReadsOrFails]
    cases h with
    | simpleString text _ p ht hp =>
      cases hp
      rw [List.append_nil, List.cons_append, parseAux_serialized_line k 43 .simpleString text r rfl ht]
      exact Or.inr (by simp [parseTyped, crlf])
    | error text _ p ht hp =>
      cases hp
      rw [List.append_nil, List.cons_append, parseAux_serialized_line k 45 .error text r rfl ht]
      exact Or.inr (by simp [parseTyped, crlf])
    | integer line i _ p hn hp =>
      cases hp
      obtain ⟨hl, n, hs, hi⟩ := hn
      obtain rfl := Int64.toInt_inj.mp hi
      rw [List.append_nil, List.cons_append, parseAux_serialized_line k 58 .integer line r rfl hl]
      exact Or.inr (by simp [parseTyped, parseInteger, hs, crlf])
    | nullBulk line _ p hn hp =>
      cases hp
      obtain ⟨hl, n, hs, hi⟩ := hn
      obtain rfl : n = -1 := Int64.toInt_inj.mp hi
      rw [List.append_nil, List.cons_append, parseAux_serialized_line k 36 .bulkString line r rfl hl]
      exact Or.inr (by simp [parseTyped, parseBulk, hs, crlf])
    | bulkString line body term _ p hn ht hp =>
      cases hp
      obtain ⟨hl, n, hs, hi⟩ := hn
      obtain ⟨h0, hm⟩ := limits_of_toInt n _ maxBulkLen (by decide) hi hw
      have hlen : n.toInt.toNat = body.length := by rw [hi, Int.toNat_natCast]
      have hshape : 36 :: (line ++ crlf ++ (body ++ (term ++ []))) ++ r =
          36 :: (line ++ crlf ++ (body ++ (term ++ r))) := by simp
      rw [hshape, parseAux_serialized_line k 36 .bulkString line _ rfl hl, parseTyped,
        parseBulk_body _ _ _ n hs h0 hm, hlen, substr, drop_line, List.take_left]
      · refine Or.inr ?_
        simp only [List.length_cons, List.length_append, List.length_nil, crlf, ht]
        congr 3
        omega
      · rw [hlen]
        simp only [List.length_cons, List.length_append, List.length_nil, crlf, ht]
        omega
    | nullArray line _ p hn hp =>
      cases hp
      obtain ⟨hl, n, hs, hi⟩ := hn
      obtain rfl : n = -1 := Int64.toInt_inj.mp hi
      rw [List.append_nil, List.cons_append, parseAux_serialized_line k 42 .array line r rfl hl]
      exact Or.inr (by simp [parseTyped, parseArray, hs, crlf])
    | array line arr p _ _ hn hp hnil =>
      cases hnil
      obtain ⟨hl, n, hs, hi⟩ := hn
      obtain ⟨h0, hm⟩ := limits_of_toInt n _ maxArrayCount (by decide) hi hw.1
      have hlen : n.toInt.toNat = arr.length := by rw [hi, Int.toNat_natCast]
      have hshape : 42 :: (line ++ crlf ++ (p ++ [])) ++ r = 42 :: (line ++ crlf ++ (p ++ r)) := by simp
      rw [hshape, parseAux_serialized_line k 42 .array line _ rfl hl, parseTyped,
        parseArray_elems _ _ _ _ n hs h0 hm, hlen]
      have hoff : line.length + 3 ≤ (42 :: (line ++ crlf ++ (p ++ r))).length := by
        simp only [List.length_cons, List.length_append, crlf, List.length_nil]
        omega
      have hloop := parseElems_complete k ih arr p hp ((wellFormedAll_iff arr).mp hw.2) _ r 0
        (line.length + 3) [] hoff (drop_line 42 line (p ++ r))
      rw [Nat.add_zero, List.nil_append] at hloop
      rcases hloop with he | he
      · exact Or.inl he
      · refine Or.inr ?_
        rw [he, parseElems]
        simp only [List.length_cons, List.length_append, List.length_nil, crlf]
        congr 3
        omega

end Complete

/-- As many open headers as there are frames: the next call has none. -/
theorem parseAux_of_nests (frames : ℕ) (b : Bytes) (h : Nests frames b) :
    parseAux frames b = .error .depth := by
  induction h with
  | here b => rfl
  | deeper frames count line q rest vs hn hmax hlt hq hw _ ih =>
    obtain ⟨hl, n, hs, hi⟩ := hn
    obtain ⟨h0, hm⟩ := limits_of_toInt n _ maxArrayCount (by decide) hi hmax
    obtain ⟨more, rfl⟩ : ∃ more, count = vs.length + (more + 1) := ⟨count - vs.length - 1, by omega⟩
    have hlen : n.toInt.toNat = vs.length + (more + 1) := by rw [hi, Int.toNat_natCast]
    have hdrop := drop_line 42 line (q ++ rest)
    have hsize : (42 :: (line ++ crlf ++ (q ++ rest))).length = line.length + 3 + q.length + rest.length := by
      simp only [List.length_cons, List.length_append, crlf, List.length_nil]
      omega
    rw [parseAux_serialized_line frames 42 .array line _ rfl hl, parseTyped,
      parseArray_elems _ _ _ _ n hs h0 hm, hlen]
    rcases parseElems_complete frames (readsOrFails frames) vs q hq hw _ rest (more + 1)
      (line.length + 3) [] (by omega) hdrop with he | he
    · exact he
    · rw [he, parseElems_succ _ more _ _ (by omega), ← List.drop_drop, hdrop, List.drop_left, ih]
      rfl

/-- Two answers about one buffer are the same, whatever the frames. -/
theorem parseAux_unique (k k' : ℕ) (b : Bytes) (o o' : Option (RespValue × ℕ))
    (h : parseAux k b = .ok o) (h' : parseAux k' b = .ok o') : o = o' := by
  -- an answer with a value is one for every number of frames that is enough
  have hsome (k k' : ℕ) (v : RespValue) (n : ℕ) (o' : Option (RespValue × ℕ))
      (h : parseAux k b = .ok (some (v, n))) (h' : parseAux k' b = .ok o') : o' = some (v, n) := by
    have hn := (parseAux_bounds k b v n h).2
    have hor := readsOrFails k' v (b.take n) (b.drop n) (looselyEncodes_of_parseAux k b v n h)
      (wellFormed_of_parseAux k b v n h)
    rw [List.take_append_drop, List.length_take, Nat.min_eq_left hn, ReadsOrFails, h'] at hor
    rcases hor with he | he
    · cases he
    · exact Except.ok.inj he
  cases o with
  | some p => exact (hsome k k' p.1 p.2 o' h h').symm
  | none =>
    cases o' with
    | some p => exact hsome k' k p.1 p.2 none h' h
    | none => rfl

/-- The parser with room for `frames` calls returns on the buffer without a fault, and a value it
returns depends on exactly the bytes it consumes. -/
def ParsesSafely (frames : ℕ) (b : Bytes) : Prop :=
  ∃ result, parseAux frames b = .ok result ∧
    ∀ v n, result = some (v, n) → 3 ≤ n ∧ n ≤ b.length ∧
      (∀ r, parseAux frames (b ++ r) = .ok (some (v, n))) ∧
      ∀ p, p <+: b.take n → p ≠ b.take n → parseAux frames p = .ok none

/-- What keeps its frames on a buffer keeps them on every beginning of it. -/
theorem parseAux_beginning (frames : ℕ) (b : Bytes) (v : RespValue) (n : ℕ)
    (h : parseAux frames b = .ok (some (v, n))) (p : Bytes) (hp : p <+: b.take n)
    (hne : p ≠ b.take n) : parseAux frames p = .ok none := by
  obtain ⟨c, rfl⟩ := hp.trans (List.take_prefix n b)
  cases hr : parseAux frames p with
  | error fault =>
    have hnest := (nests_of_parseAux_error frames p fault hr).2.append c
    rw [parseAux_of_nests frames _ hnest] at h
    cases h
  | ok o =>
    rcases o with _ | ⟨w, m⟩
    · rfl
    · -- a value there would be the one of the whole buffer, which takes more bytes
      have hs := parseAux_stable frames frames le_rfl p c (w, m) hr
      obtain ⟨rfl, rfl⟩ := Prod.mk.inj (Option.some_inj.mp (Except.ok.inj (h.symm.trans hs)))
      have hm := (parseAux_bounds frames p v n hr).2
      refine absurd (hp.eq_of_length_le ?_) hne
      rw [List.length_take]
      omega

/-- No read of the parser leaves the buffer; it runs out of frames exactly when as many array
headers stand open at the front of the buffer, so a buffer of fewer than four bytes a frame is
parsed, and gives the answer that any larger number of frames gives. -/
theorem parsesSafely_iff (frames : ℕ) (b : Bytes) :
    (∀ fault, parseAux frames b = .error fault → fault = .depth) ∧
      (ParsesSafely frames b ↔ ¬ Nests frames b) ∧
      (b.length < 4 * frames → parseAux frames b = .ok (parse b)) := by
  have hok (hnest : ¬ Nests frames b) : ∃ result, parseAux frames b = .ok result := by
    cases hr : parseAux frames b with
    | ok o => exact ⟨o, rfl⟩
    | error fault => exact absurd (nests_of_parseAux_error frames b fault hr).2 hnest
  refine ⟨fun fault h => (nests_of_parseAux_error frames b fault h).1, ⟨?_, ?_⟩, ?_⟩
  · rintro ⟨result, h, -⟩ hnest
    rw [parseAux_of_nests frames b hnest] at h
    cases h
  · intro hnest
    obtain ⟨result, h⟩ := hok hnest
    refine ⟨result, h, ?_⟩
    rintro v n rfl
    obtain ⟨h3, hn⟩ := parseAux_bounds frames b v n h
    exact ⟨h3, hn, fun r => parseAux_stable frames frames le_rfl b r (v, n) h,
      parseAux_beginning frames b v n h⟩
  · intro hlen
    obtain ⟨result, h⟩ := hok fun hnest => absurd hnest.length_le (by omega)
    rw [h, parseAux_unique _ _ b _ _ h (parseE_eq_ok b)]

/-- An array of one integer needs two frames. -/
theorem parsesSafely_array : parseAux 2 (lit "*1\r\n:7\r\n") = .ok (some (.array [.integer 7], 8)) ∧
    parseAux 3 (lit "*1\r\n:7\r\n") = .ok (parse (lit "*1\r\n:7\r\n")) :=
  ⟨rfl, (parsesSafely_iff 3 (lit "*1\r\n:7\r\n")).2.2 (by decide)⟩

/-- Array headers of one element each, one inside the other. -/
def nestedHeaders : ℕ → Bytes
  | 0 => []
  | n + 1 => lit "*1\r\n" ++ nestedHeaders n

theorem length_nestedHeaders (n : ℕ) : (nestedHeaders n).length = 4 * n := by
  induction n with
  | zero => rfl
  | succ n ih =>
    rw [nestedHeaders, List.length_append, ih]
    change 4 + _ = _
    omega

theorem nests_nestedHeaders (n : ℕ) : Nests n (nestedHeaders n) := by
  induction n with
  | zero => exact .here _
  | succ n ih =>
    have hone : LooseNumeral (lit "1") (1 : ℕ) := ⟨rfl, 1, by decide, by decide⟩
    exact .deeper n 1 (lit "1") [] _ [] hone (by decide) Nat.one_pos .nil (by simp) ih

theorem not_parsesSafely_nestedHeaders (n : ℕ) : ¬ ParsesSafely n (nestedHeaders n) := by
  rintro ⟨result, h, -⟩
  rw [parseAux_of_nests n _ (nests_nestedHeaders n)] at h
  cases h

/-- 100000 bytes that a parser with room for 25000 calls does not survive. -/
theorem nested_headers_exhaust : (nestedHeaders 25000).length = 100000 ∧
    ¬ ParsesSafely 25000 (nestedHeaders 25000) :=
  ⟨length_nestedHeaders 25000, not_parsesSafely_nestedHeaders 25000⟩

end MetricMQ.RespParser
