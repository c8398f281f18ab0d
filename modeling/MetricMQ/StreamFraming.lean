import Mathlib.Tactic.Ring
import Mathlib.Data.List.Basic

/-! Greedy framing of a byte stream. A parser that consumes at least one symbol and keeps
its answer when more symbols arrive frames a stream in the same way however it is cut. -/
namespace StreamFraming

variable {β α : Type}

structure StreamParser (β α : Type) where
  parse : List β → Option (α × ℕ)
  progress : ∀ b v n, parse b = some (v, n) → 0 < n ∧ n ≤ b.length
  stable : ∀ b r v n, parse b = some (v, n) → parse (b ++ r) = some (v, n)

/-- The same framing with every frame wrapped. -/
def StreamParser.map {γ : Type} (p : StreamParser β α) (f : α → γ) : StreamParser β γ where
  parse b := (p.parse b).map fun r => (f r.1, r.2)
  progress := by
    intro b v n h
    obtain ⟨⟨a, m⟩, ha, he⟩ := Option.map_eq_some_iff.mp h
    obtain ⟨-, rfl⟩ := Prod.mk.inj he
    exact p.progress b a m ha
  stable := by
    intro b r v n h
    obtain ⟨⟨a, m⟩, ha, he⟩ := Option.map_eq_some_iff.mp h
    rw [p.stable b r a m ha, Option.map_some, he]

/-- No proper beginning of the consumed symbols is accepted: its answer would stay, and it
consumes less. -/
theorem StreamParser.parse_beginning (p : StreamParser β α) (b : List β) (v : α) (n : ℕ)
    (h : p.parse b = some (v, n)) (w : List β) (hw : w <+: b.take n) (hne : w ≠ b.take n) :
    p.parse w = none := by
  cases hp : p.parse w with
  | none => rfl
  | some vn =>
    obtain ⟨v', m⟩ := vn
    obtain ⟨c, hc⟩ := hw.trans (List.take_prefix n b)
    have hs := p.stable w c v' m hp
    rw [hc, h, Option.some_inj, Prod.mk.injEq] at hs
    have hm := (p.progress w v' m hp).2
    have hl := hw.length_le
    rw [List.length_take] at hl
    refine absurd (hw.eq_of_length_le ?_) hne
    rw [List.length_take]
    omega

/-- The drain loop; the fuel bounds its turns by the length of the buffer. -/
def drainLoop (parse : List β → Option (α × ℕ)) : ℕ → List β → List α × List β
  | 0, b => ([], b)
  | fuel + 1, b =>
    if b = [] then ([], b)
    else match parse b with
      | none => ([], b)
      | some (v, n) =>
        let rest := drainLoop parse fuel (b.drop n)
        (v :: rest.1, rest.2)

def drain (parse : List β → Option (α × ℕ)) (b : List β) : List α × List β :=
  drainLoop parse b.length b

theorem drain_none (p : StreamParser β α) (b : List β) (h : p.parse b = none) :
    drain p.parse b = ([], b) := by
  unfold drain
  cases hl : b.length with
  | zero => rfl
  | succ k =>
    simp only [drainLoop, h]
    split_ifs <;> rfl

/-- More fuel than symbols changes nothing: every turn consumes a symbol. -/
theorem drainLoop_fuel (p : StreamParser β α) (b : List β) (f g : ℕ)
    (hf : b.length ≤ f) (hg : b.length ≤ g) : drainLoop p.parse f b = drainLoop p.parse g b := by
  induction f generalizing b g with
  | zero =>
    have hb : b = [] := List.length_eq_zero_iff.mp (by omega)
    subst hb
    cases g <;> rfl
  | succ f ih =>
    cases g with
    | zero =>
      have hb : b = [] := List.length_eq_zero_iff.mp (by omega)
      subst hb
      rfl
    | succ g =>
      simp only [drainLoop]
      split_ifs with hb
      · rfl
      · cases hp : p.parse b with
        | none => rfl
        | some vn =>
          obtain ⟨v, n⟩ := vn
          -- each turn takes at least one byte, so the rest needs less fuel
          obtain ⟨hn, hnb⟩ := p.progress b v n hp
          have hd : (b.drop n).length = b.length - n := List.length_drop
          dsimp only
          rw [ih (b.drop n) g (by omega) (by omega)]

theorem drain_some (p : StreamParser β α) (b : List β) (v : α) (n : ℕ)
    (h : p.parse b = some (v, n)) :
    drain p.parse b = (v :: (drain p.parse (b.drop n)).1, (drain p.parse (b.drop n)).2) := by
  obtain ⟨hn, hnb⟩ := p.progress b v n h
  obtain ⟨k, hk⟩ : ∃ k, b.length = k + 1 := ⟨b.length - 1, by omega⟩
  have hne : b ≠ [] := List.ne_nil_of_length_pos (by omega)
  have hd : (b.drop n).length = b.length - n := List.length_drop
  have hl : drainLoop p.parse k (b.drop n) = drain p.parse (b.drop n) :=
    drainLoop_fuel p (b.drop n) k _ (by omega) le_rfl
  rw [← hl, drain, hk]
  simp only [drainLoop, hne, h, ↓reduceIte]

/-- Draining `b ++ c` is draining `b` and then its rest followed by `c`. -/
theorem drain_append (p : StreamParser β α) (b c : List β) :
    drain p.parse (b ++ c) =
      ((drain p.parse b).1 ++ (drain p.parse ((drain p.parse b).2 ++ c)).1,
        (drain p.parse ((drain p.parse b).2 ++ c)).2) := by
  induction hlen : b.length using Nat.strong_induction_on generalizing b with
  | _ k ih =>
    cases hp : p.parse b with
    | none => simp only [drain_none p b hp, List.nil_append]
    | some vn =>
      obtain ⟨v, n⟩ := vn
      obtain ⟨hn, hnb⟩ := p.progress b v n hp
      have hs := p.stable b c v n hp
      have hd : (b ++ c).drop n = b.drop n ++ c := List.drop_append_of_le_length hnb
      rw [drain_some p (b ++ c) v n hs, hd, drain_some p b v n hp,
        ih (b.drop n).length (by rw [List.length_drop]; omega) (b.drop n) rfl]
      simp only [List.cons_append]

/-- What the drain loop leaves behind is not yet a frame. -/
theorem parse_drain_rest (p : StreamParser β α) (b : List β) :
    p.parse (drain p.parse b).2 = none := by
  induction hlen : b.length using Nat.strong_induction_on generalizing b with
  | _ k ih =>
    cases hp : p.parse b with
    | none => rw [drain_none p b hp]; exact hp
    | some vn =>
      obtain ⟨v, n⟩ := vn
      obtain ⟨hn, hnb⟩ := p.progress b v n hp
      rw [drain_some p b v n hp]
      exact ih (b.drop n).length (by rw [List.length_drop]; omega) (b.drop n) rfl

/-- A stream of whole frames leaves nothing behind. -/
theorem drain_flatten_frames (p : StreamParser β α) (frames : List (List β))
    (h : ∀ d ∈ frames, ∃ v, p.parse d = some (v, d.length)) :
    (drain p.parse frames.flatten).2 = [] := by
  induction frames with
  | nil => rfl
  | cons d frames ih =>
    obtain ⟨v, hv⟩ := h d List.mem_cons_self
    rw [List.flatten_cons, drain_some p _ v d.length (p.stable d _ v d.length hv), List.drop_left]
    exact ih fun e he => h e (List.mem_cons_of_mem d he)

/-- A receive loop: every chunk is appended to what is left over and drained. -/
def feed (parse : List β → Option (α × ℕ)) : List β → List (List β) → List α × List β
  | b, [] => ([], b)
  | b, chunk :: chunks =>
    let d := drain parse (b ++ chunk)
    let rest := feed parse d.2 chunks
    (d.1 ++ rest.1, rest.2)

theorem feed_eq_drain (p : StreamParser β α) (b : List β) (chunks : List (List β))
    (h : p.parse b = none) : feed p.parse b chunks = drain p.parse (b ++ chunks.flatten) := by
  induction chunks generalizing b with
  | nil => rw [feed, List.flatten_nil, List.append_nil, drain_none p b h]
  | cons c chunks ih =>
    rw [feed, List.flatten_cons, ← List.append_assoc, drain_append p (b ++ c),
      ih _ (parse_drain_rest p (b ++ c))]

/-- A receive loop over a stream of whole frames reads them one by one, however it is cut. -/
theorem feed_frames {γ : Type} (p : StreamParser β α) (encode : γ → List β) (value : γ → α)
    (frames : List γ) (chunks : List (List β))
    (h : ∀ f ∈ frames, p.parse (encode f) = some (value f, (encode f).length))
    (hc : chunks.flatten = (frames.map encode).flatten) :
    feed p.parse [] chunks = (frames.map value, []) := by
  have h0 : p.parse [] = none := by
    cases he : p.parse [] with
    | none => rfl
    | some vn => exact absurd (p.progress [] vn.1 vn.2 he) (by rw [List.length_nil]; omega)
  rw [feed_eq_drain p [] chunks h0, hc, List.nil_append]
  clear hc
  induction frames with
  | nil => exact drain_none p [] h0
  | cons f frames ih =>
    have hf := p.stable (encode f) (frames.map encode).flatten _ _ (h f List.mem_cons_self)
    rw [List.map_cons, List.flatten_cons, drain_some p _ (value f) _ hf, List.drop_left,
      ih fun g hg => h g (List.mem_cons_of_mem f hg), List.map_cons]

/-- A receive loop that meets `d` where earlier frames have ended reads it as the one frame
`v`, however the stream is cut and whatever follows. -/
def ReadsAs (parse : List β → Option (α × ℕ)) (d : List β) (v : α) : Prop :=
  ∀ pre chunks r, (drain parse pre).2 = [] → chunks.flatten = pre ++ (d ++ r) →
    feed parse [] chunks = ((drain parse pre).1 ++ v :: (drain parse r).1, (drain parse r).2)

theorem readsAs_of_parse (p : StreamParser β α) (d : List β) (v : α)
    (hv : ∀ r, p.parse (d ++ r) = some (v, d.length)) : ReadsAs p.parse d v := by
  intro pre chunks r hpre hc
  have h0 : p.parse [] = none := by
    cases h : p.parse [] with
    | none => rfl
    | some vn =>
      obtain ⟨hn, hl⟩ := p.progress [] vn.1 vn.2 h
      rw [List.length_nil] at hl
      omega
  rw [feed_eq_drain p [] chunks h0, hc, List.nil_append, drain_append, hpre, List.nil_append,
    drain_some p _ v _ (hv r), List.drop_left]

section Beginnings

/-- The parser takes the string as one frame. -/
def Accepts (parse : List β → Option (α × ℕ)) (w : List β) : Prop := ∃ v, parse w = some (v, w.length)

/-- Nothing is left over, or the beginning of a frame that more symbols complete. -/
def Unwedged (parse : List β → Option (α × ℕ)) (b : List β) : Prop :=
  b = [] ∨ ∃ more, more ≠ [] ∧ Accepts parse (b ++ more)

/-- The answer depends on the symbols it consumes only. -/
def Local (p : StreamParser β α) : Prop :=
  ∀ b v n, p.parse b = some (v, n) → p.parse (b.take n) = some (v, n)

/-- Whole frames, and behind them an unfinished one that begins as `Begun` says. -/
def Framed (parse : List β → Option (α × ℕ)) (Begun : List β → Prop) (stream : List β) : Prop :=
  ∃ (frames : List (List β)) (rest : List β), stream = frames.flatten ++ rest ∧
    (∀ d ∈ frames, Accepts parse d) ∧ parse rest = none ∧ Begun rest

variable (p : StreamParser β α)

theorem Local.map {γ : Type} {p : StreamParser β α} (h : Local p) (f : α → γ) : Local (p.map f) := by
  intro b v n hp
  obtain ⟨⟨a, m⟩, ha, he⟩ := Option.map_eq_some_iff.mp hp
  obtain ⟨rfl, rfl⟩ := Prod.mk.inj he
  change (p.parse (b.take m)).map _ = _
  rw [h b a m ha]
  rfl

theorem accepts_map {γ : Type} (f : α → γ) (w : List β) :
    Accepts (p.map f).parse w ↔ Accepts p.parse w := by
  constructor
  · rintro ⟨v, hv⟩
    obtain ⟨⟨a, n⟩, ha, he⟩ := Option.map_eq_some_iff.mp hv
    obtain ⟨-, rfl⟩ := Prod.mk.inj he
    exact ⟨a, ha⟩
  · rintro ⟨a, ha⟩
    refine ⟨f a, ?_⟩
    change (p.parse w).map _ = _
    rw [ha]
    rfl

theorem unwedged_map {γ : Type} (f : α → γ) (b : List β) :
    Unwedged (p.map f).parse b ↔ Unwedged p.parse b := by
  simp only [Unwedged, accepts_map]

theorem Local.accepts_take {p : StreamParser β α} (h : Local p) (b : List β) (v : α) (n : ℕ)
    (hp : p.parse b = some (v, n)) : Accepts p.parse (b.take n) := by
  have hn := (p.progress b v n hp).2
  refine ⟨v, ?_⟩
  rw [List.length_take, Nat.min_eq_left hn]
  exact h b v n hp

theorem drain_frames_append (frames : List (List β)) (rest : List β)
    (h : ∀ d ∈ frames, Accepts p.parse d) :
    (drain p.parse (frames.flatten ++ rest)).2 = (drain p.parse rest).2 := by
  rw [drain_append, drain_flatten_frames p frames h, List.nil_append]

/-- What the drain loop has taken off a stream are whole frames. -/
theorem exists_frames_drain (hlocal : Local p) (b : List β) :
    ∃ frames : List (List β), b = frames.flatten ++ (drain p.parse b).2 ∧
      ∀ d ∈ frames, Accepts p.parse d := by
  induction hlen : b.length using Nat.strong_induction_on generalizing b with
  | _ k ih =>
    cases hp : p.parse b with
    | none =>
      refine ⟨[], ?_, by simp⟩
      rw [drain_none p b hp, List.flatten_nil, List.nil_append]
    | some vn =>
      obtain ⟨v, n⟩ := vn
      obtain ⟨hn, hnb⟩ := p.progress b v n hp
      obtain ⟨frames, he, hall⟩ := ih (b.drop n).length (by rw [List.length_drop]; omega) _ rfl
      refine ⟨b.take n :: frames, ?_, List.forall_mem_cons.mpr ⟨hlocal.accepts_take b v n hp, hall⟩⟩
      rw [drain_some p b v n hp, List.flatten_cons, List.append_assoc, ← he, List.take_append_drop]

/-- The drain loop leaves nothing that blocks it exactly when the stream is framed. -/
theorem unwedged_drain_iff (hlocal : Local p) (Begun : List β → Prop)
    (hbegun : ∀ b, p.parse b = none → (Unwedged p.parse b ↔ Begun b)) (stream : List β) :
    Unwedged p.parse (drain p.parse stream).2 ↔ Framed p.parse Begun stream := by
  constructor
  · intro h
    obtain ⟨frames, he, hall⟩ := exists_frames_drain p hlocal stream
    have hnone := parse_drain_rest p stream
    exact ⟨frames, _, he, hall, hnone, (hbegun _ hnone).mp h⟩
  · rintro ⟨frames, rest, rfl, hall, hnone, hb⟩
    rw [drain_frames_append p frames rest hall, drain_none p rest hnone]
    exact (hbegun rest hnone).mpr hb

theorem unwedged_of_parse_append (hlocal : Local p) (b c : List β) (v : α) (n : ℕ)
    (hb : p.parse b = none) (h : p.parse (b ++ c) = some (v, n)) : Unwedged p.parse b := by
  have hn : b.length < n := by
    by_contra hle
    -- otherwise the frame lies within `b`
    have ht := hlocal _ v n h
    rw [List.take_append_of_le_length (by omega)] at ht
    have hs := p.stable _ (b.drop n) v n ht
    rw [List.take_append_drop, hb] at hs
    cases hs
  have hnc := (p.progress _ v n h).2
  rw [List.length_append] at hnc
  have ha := hlocal.accepts_take _ v n h
  rw [List.take_append, List.take_of_length_le (by omega)] at ha
  refine Or.inr ⟨c.take (n - b.length), ?_, ha⟩
  apply List.ne_nil_of_length_pos
  rw [List.length_take]
  omega

theorem Unwedged.of_append {parse : List β → Option (α × ℕ)} {b c : List β}
    (h : Unwedged parse (b ++ c)) : Unwedged parse b := by
  rcases h with h | ⟨more, hne, ha⟩
  · exact Or.inl (List.append_eq_nil_iff.mp h).1
  · rw [List.append_assoc] at ha
    refine Or.inr ⟨c ++ more, ?_, ha⟩
    exact fun he => hne (List.append_eq_nil_iff.mp he).2

/-- A loop that is not blocked at the end of a stream was never blocked before. -/
theorem unwedged_drain_of_append (hlocal : Local p) (b c : List β)
    (h : Unwedged p.parse (drain p.parse (b ++ c)).2) : Unwedged p.parse (drain p.parse b).2 := by
  rw [drain_append] at h
  have hrest := parse_drain_rest p b
  generalize (drain p.parse b).2 = rest at h hrest
  cases hp : p.parse (rest ++ c) with
  | some vn => exact unwedged_of_parse_append p hlocal rest c vn.1 vn.2 hrest hp
  | none =>
    rw [drain_none p _ hp] at h
    exact h.of_append

end Beginnings

end StreamFraming
