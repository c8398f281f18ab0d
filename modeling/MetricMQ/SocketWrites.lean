import MetricMQ.ByteString
import MetricMQ.Machine
import MetricMQ.Session
import Mathlib.Data.List.Nodup

/-! The loop of `Session::send` on one socket. The session's own thread and the threads of
publishers write to it without a lock of the session, and each call of `::send` takes only a
part of its argument. -/
namespace MetricMQ.SocketWrites

open ByteString Std Machine

abbrev ThreadId := ℕ

/-- A call of `Session::send` under way: its place among all calls, its string, and how far
the pointer has come. -/
structure SendCall where
  index : ℕ
  data : Bytes
  sent : ℕ := 0

/-- `cut` remembers that a call gave up in the middle of its string. -/
structure Socket where
  stream : Bytes := []
  sends : TreeMap ThreadId SendCall := ∅
  count : ℕ := 0
  cut : Bool := false

inductive Input
  | send (thread : ThreadId) (data : Bytes)
  | write (thread : ThreadId) (n : ℕ)
  | fail (thread : ThreadId)

/-- A thread enters `Session::send`; without bytes the loop has no turn. -/
def Socket.enter (st : Socket) (thread : ThreadId) (data : Bytes) : Socket :=
  { st with
    count := st.count + 1
    sends := if data = [] then st.sends else st.sends.insert thread ⟨st.count, data, 0⟩ }

/-- `::send` returned `n`; the loop ends with the last byte. -/
def Socket.wrote (st : Socket) (thread : ThreadId) (c : SendCall) (n : ℕ) : Socket :=
  { st with
    stream := st.stream ++ (c.data.drop c.sent).take n
    sends :=
      if c.sent + n = c.data.length then st.sends.erase thread
      else st.sends.insert thread { c with sent := c.sent + n } }

/-- `::send` failed: the loop is left, and nothing marks the socket. -/
def Socket.gaveUp (st : Socket) (thread : ThreadId) (c : SendCall) : Socket :=
  { st with sends := st.sends.erase thread, cut := st.cut || decide (0 < c.sent) }

/-- A step puts out the string of a call that begins. -/
def step (st : Socket) : Input → Socket × List Bytes
  | .send thread data =>
    match st.sends[thread]? with
    -- the thread is still in its last call
    | some _ => (st, [])
    | none => (st.enter thread data, [data])
  | .write thread n =>
    match st.sends[thread]? with
    | none => (st, [])
    -- at least one byte, at most what is left
    | some c => (if n = 0 ∨ c.data.length < c.sent + n then st else st.wrote thread c n, [])
  | .fail thread =>
    match st.sends[thread]? with
    | none => (st, [])
    | some c => (st.gaveUp thread c, [])

/-- The strings of the calls at the places `whole`, one behind the other. -/
def content (calls : List Bytes) (whole : List ℕ) : Bytes := whole.flatMap fun k => calls.getD k []

/-- The stream is made of the whole strings of different calls, and perhaps a part of one more. -/
def WholeStrings (calls : List Bytes) (stream : Bytes) : Prop :=
  ∃ whole : List ℕ, whole.Nodup ∧ (∀ k ∈ whole, k < calls.length) ∧
    (stream = content calls whole ∨ ∃ k d n, k ∉ whole ∧ calls[k]? = some d ∧ n < d.length ∧
      stream = content calls whole ++ d.take n)

/-- No other call has begun to write, and none has left a part of its string. -/
def Alone (st : Socket) : Input → Prop
  | .write thread _ => st.cut = false ∧
      ∀ e ∈ st.sends.toList, e.1 = thread ∨ e.2.sent = 0
  | _ => True

instance decidableAlone (st : Socket) : DecidablePred (Alone st)
  | .write thread _ => inferInstanceAs (Decidable (st.cut = false ∧
      ∀ e ∈ st.sends.toList, e.1 = thread ∨ e.2.sent = 0))
  | .send _ _ | .fail _ => isTrue trivial

theorem content_append (calls : List Bytes) (data : Bytes) (whole : List ℕ)
    (h : ∀ k ∈ whole, k < calls.length) : content (calls ++ [data]) whole = content calls whole := by
  unfold content
  apply List.flatMap_congr
  intro k hk
  rw [List.getD_eq_getElem?_getD, List.getElem?_append_left (h k hk), List.getD_eq_getElem?_getD]

theorem content_snoc (calls : List Bytes) (whole : List ℕ) (k : ℕ) (d : Bytes)
    (h : calls[k]? = some d) : content calls (whole ++ [k]) = content calls whole ++ d := by
  rw [content, List.flatMap_append, List.flatMap_singleton, List.getD_eq_getElem?_getD, h,
    Option.getD_some]
  rfl

/-- Everything a step can do. -/
theorem step_cases (st : Socket) (i : Input) :
    step st i = (st, []) ∨
    (∃ t data, i = .send t data ∧ st.sends[t]? = none ∧ step st i = (st.enter t data, [data])) ∨
    (∃ t n c, i = .write t n ∧ st.sends[t]? = some c ∧ 0 < n ∧ c.sent + n ≤ c.data.length ∧
      step st i = (st.wrote t c n, [])) ∨
    ∃ t c, i = .fail t ∧ st.sends[t]? = some c ∧ step st i = (st.gaveUp t c, []) := by
  cases i with
  | send t data =>
    cases hs : st.sends[t]? with
    | some c => exact Or.inl (by simp only [step, hs])
    | none => exact Or.inr (Or.inl ⟨t, data, rfl, hs, by simp only [step, hs]⟩)
  | write t n =>
    cases hs : st.sends[t]? with
    | none => exact Or.inl (by simp only [step, hs])
    | some c =>
      by_cases hn : n = 0 ∨ c.data.length < c.sent + n
      · exact Or.inl (by simp only [step, hs, if_pos hn])
      · refine Or.inr (Or.inr (Or.inl ⟨t, n, c, rfl, hs, by omega, by omega, ?_⟩))
        simp only [step, hs, if_neg hn]
  | fail t =>
    cases hs : st.sends[t]? with
    | none => exact Or.inl (by simp only [step, hs])
    | some c => exact Or.inr (Or.inr (Or.inr ⟨t, c, rfl, hs, by simp only [step, hs]⟩))

section Lookup

variable (st : Socket) (t s : ThreadId) (c d : SendCall)

theorem sends_enter (data : Bytes) (h : (st.enter t data).sends[s]? = some d) :
    st.sends[s]? = some d ∨ s = t ∧ data ≠ [] ∧ d = ⟨st.count, data, 0⟩ := by
  rw [Socket.enter] at h
  dsimp only at h
  split_ifs at h with hd
  · exact Or.inl h
  · rw [TreeMap.getElem?_insert] at h
    split_ifs at h with hs
    · rw [LawfulEqCmp.compare_eq_iff_eq] at hs
      exact Or.inr ⟨hs.symm, hd, (Option.some_inj.mp h).symm⟩
    · exact Or.inl h

theorem sends_wrote (n : ℕ) (h : (st.wrote t c n).sends[s]? = some d) :
    s ≠ t ∧ st.sends[s]? = some d ∨
      s = t ∧ c.sent + n ≠ c.data.length ∧ d = { c with sent := c.sent + n } := by
  rw [Socket.wrote] at h
  dsimp only at h
  split_ifs at h with he
  · rw [TreeMap.getElem?_erase] at h
    split_ifs at h with hs
    rw [LawfulEqCmp.compare_eq_iff_eq] at hs
    exact Or.inl ⟨Ne.symm hs, h⟩
  · rw [TreeMap.getElem?_insert] at h
    split_ifs at h with hs <;> rw [LawfulEqCmp.compare_eq_iff_eq] at hs
    · exact Or.inr ⟨hs.symm, he, (Option.some_inj.mp h).symm⟩
    · exact Or.inl ⟨Ne.symm hs, h⟩

theorem sends_gaveUp (h : (st.gaveUp t c).sends[s]? = some d) : s ≠ t ∧ st.sends[s]? = some d := by
  rw [Socket.gaveUp] at h
  dsimp only at h
  rw [TreeMap.getElem?_erase] at h
  split_ifs at h with hs
  rw [LawfulEqCmp.compare_eq_iff_eq] at hs
  exact ⟨Ne.symm hs, h⟩

end Lookup

/-- What holds of the calls under way, however they interleave. -/
structure CallsOK (st : Socket) (calls : List Bytes) : Prop where
  count : st.count = calls.length
  data : ∀ (t : ThreadId) (c : SendCall), st.sends[t]? = some c →
    calls[c.index]? = some c.data ∧ c.sent < c.data.length
  distinct : ∀ (t t' : ThreadId) (c c' : SendCall), st.sends[t]? = some c →
    st.sends[t']? = some c' → c.index = c'.index → t = t'

theorem CallsOK.index_lt {st : Socket} {calls : List Bytes} (h : CallsOK st calls) (t : ThreadId)
    (c : SendCall) (hc : st.sends[t]? = some c) : c.index < calls.length :=
  (List.getElem?_eq_some_iff.mp (h.data t c hc).1).1

theorem callsOK_enter (st : Socket) (calls : List Bytes) (t : ThreadId) (data : Bytes)
    (h : CallsOK st calls) : CallsOK (st.enter t data) (calls ++ [data]) := by
  refine ⟨?_, ?_, ?_⟩
  · rw [List.length_append, List.length_singleton, ← h.count]
    rfl
  · intro s c hc
    rcases sends_enter st t s c data hc with hc | ⟨-, hd, rfl⟩
    · obtain ⟨hdata, hlt⟩ := h.data s c hc
      rw [List.getElem?_append_left (h.index_lt s c hc)]
      exact ⟨hdata, hlt⟩
    · refine ⟨?_, List.length_pos_iff.mpr hd⟩
      rw [h.count, List.getElem?_append_right le_rfl, Nat.sub_self]
      rfl
  · intro s s' c c' hc hc' he
    have hcount := h.count
    rcases sends_enter st t s c data hc with hc | ⟨hs, -, rfl⟩ <;>
      rcases sends_enter st t s' c' data hc' with hc' | ⟨hs', -, rfl⟩
    · exact h.distinct s s' c c' hc hc' he
    · have := h.index_lt s c hc
      dsimp only at he
      omega
    · have := h.index_lt s' c' hc'
      dsimp only at he
      omega
    · rw [hs, hs']

theorem callsOK_wrote (st : Socket) (calls : List Bytes) (t : ThreadId) (c : SendCall) (n : ℕ)
    (h : CallsOK st calls) (hs : st.sends[t]? = some c) (hle : c.sent + n ≤ c.data.length) :
    CallsOK (st.wrote t c n) calls := by
  refine ⟨h.count, ?_, ?_⟩
  · intro s d hd
    rcases sends_wrote st t s c d n hd with ⟨-, hd⟩ | ⟨-, hne, rfl⟩
    · exact h.data s d hd
    · exact ⟨(h.data t c hs).1, by dsimp only; omega⟩
  · intro s s' d d' hd hd' he
    rcases sends_wrote st t s c d n hd with ⟨-, hd⟩ | ⟨hst, -, rfl⟩ <;>
      rcases sends_wrote st t s' c d' n hd' with ⟨-, hd'⟩ | ⟨hst', -, rfl⟩
    · exact h.distinct s s' d d' hd hd' he
    · rw [hst']
      exact h.distinct s t d c hd hs he
    · rw [hst]
      exact h.distinct t s' c d' hs hd' he
    · rw [hst, hst']

theorem callsOK_gaveUp (st : Socket) (calls : List Bytes) (t : ThreadId) (c : SendCall)
    (h : CallsOK st calls) : CallsOK (st.gaveUp t c) calls :=
  ⟨h.count, fun s d hd => h.data s d (sends_gaveUp st t s c d hd).2,
    fun s s' d d' hd hd' => h.distinct s s' d d' (sends_gaveUp st t s c d hd).2
      (sends_gaveUp st t s' c d' hd').2⟩

/-- How the stream stands to the calls: `whole` are the calls that have ended with their last
byte; behind them nothing, or the part of one call that is still writing, or a cut string. -/
inductive Shape (st : Socket) (calls : List Bytes) (whole : List ℕ) : Prop
  | even (hcut : st.cut = false)
      (hsent : ∀ (t : ThreadId) (c : SendCall), st.sends[t]? = some c → c.sent = 0)
      (hstream : st.stream = content calls whole)
  | writing (t : ThreadId) (c : SendCall) (hcut : st.cut = false) (hc : st.sends[t]? = some c)
      (hpos : 0 < c.sent)
      (hsent : ∀ (s : ThreadId) (d : SendCall), st.sends[s]? = some d → s = t ∨ d.sent = 0)
      (hstream : st.stream = content calls whole ++ c.data.take c.sent)
  | cut (k n : ℕ) (d : Bytes) (hcut : st.cut = true) (hk : calls[k]? = some d) (hn : n < d.length)
      (hwhole : k ∉ whole)
      (hstream : st.stream = content calls whole ++ d.take n)

structure Inv (st : Socket) (calls : List Bytes) : Prop where
  callsOK : CallsOK st calls
  shape : ∃ whole : List ℕ, whole.Nodup ∧ (∀ k ∈ whole, k < calls.length) ∧
    (∀ (t : ThreadId) (c : SendCall), st.sends[t]? = some c → c.index ∉ whole) ∧ Shape st calls whole

theorem inv_enter (st : Socket) (calls : List Bytes) (t : ThreadId) (data : Bytes)
    (h : Inv st calls) (hs : st.sends[t]? = none) : Inv (st.enter t data) (calls ++ [data]) := by
  -- the new call has a place of its own and has written nothing, so the shape stays
  obtain ⟨whole, hnodup, hlt, hidx, hshape⟩ := h.shape
  have hlt' : ∀ k ∈ whole, k < (calls ++ [data]).length := by
    intro k hk
    have := hlt k hk
    rw [List.length_append]
    omega
  refine ⟨callsOK_enter st calls t data h.callsOK, whole, hnodup, hlt', ?_, ?_⟩
  · intro s c hc hm
    rcases sends_enter st t s c data hc with hc | ⟨-, -, rfl⟩
    · exact hidx s c hc hm
    · have := hlt _ hm
      have := h.callsOK.count
      dsimp only at *
      omega
  · have hnew : ∀ (s : ThreadId) (c : SendCall), (st.enter t data).sends[s]? = some c →
        st.sends[s]? = some c ∨ c.sent = 0 := by
      intro s c hc
      rcases sends_enter st t s c data hc with hc | ⟨-, -, rfl⟩
      · exact Or.inl hc
      · exact Or.inr rfl
    cases hshape with
    | even hcut hsent hstream =>
      refine .even hcut ?_ (by rw [content_append calls data whole hlt]; exact hstream)
      intro s c hc
      exact (hnew s c hc).elim (hsent s c) id
    | writing u c hcut hc hpos hsent hstream =>
      refine .writing u c hcut ?_ hpos ?_ (by rw [content_append calls data whole hlt]; exact hstream)
      · rw [Socket.enter]
        dsimp only
        split_ifs
        · exact hc
        · rw [TreeMap.getElem?_insert, if_neg]
          · exact hc
          · intro he
            rw [LawfulEqCmp.compare_eq_iff_eq] at he
            rw [he, hc] at hs
            cases hs
      · intro s d hd
        exact (hnew s d hd).elim (hsent s d) Or.inr
    | cut k n d hcut hk hn hwhole hstream =>
      refine .cut k n d hcut ?_ hn hwhole (by rw [content_append calls data whole hlt]; exact hstream)
      rw [List.getElem?_append_left (List.getElem?_eq_some_iff.mp hk).1]
      exact hk

/-- A write of a thread that is alone extends its own string. -/
theorem stream_of_alone (st : Socket) (calls : List Bytes) (whole : List ℕ) (t : ThreadId)
    (c : SendCall) (n : ℕ) (hshape : Shape st calls whole) (hs : st.sends[t]? = some c)
    (halone : Alone st (.write t n)) :
    st.stream = content calls whole ++ c.data.take c.sent := by
  cases hshape with
  | even hcut hsent hstream => rw [hstream, hsent t c hs, List.take_zero, List.append_nil]
  | writing u d hcut hd hpos hsent hstream =>
    have hut : u = t := by
      have hz := halone.2 (u, d) (TreeMap.mem_toList_iff_getElem?_eq_some.mpr hd)
      dsimp only at hz
      exact hz.resolve_right (by omega)
    rw [hut, hs] at hd
    rw [hstream, Option.some_inj.mp hd]
  | cut k m d hcut => exact absurd (hcut.symm.trans halone.1) (by decide)

theorem inv_wrote (st : Socket) (calls : List Bytes) (t : ThreadId) (c : SendCall) (n : ℕ)
    (h : Inv st calls) (hs : st.sends[t]? = some c) (hn : 0 < n)
    (hle : c.sent + n ≤ c.data.length) (halone : Alone st (.write t n)) :
    Inv (st.wrote t c n) calls := by
  obtain ⟨whole, hnodup, hlt, hidx, hshape⟩ := h.shape
  have hstream : (st.wrote t c n).stream = content calls whole ++ c.data.take (c.sent + n) := by
    rw [Socket.wrote, stream_of_alone st calls whole t c n hshape hs halone, List.append_assoc,
      ← List.take_add]
  -- by the condition every other call is still at its first byte
  have hothers : ∀ (s : ThreadId) (d : SendCall), st.sends[s]? = some d → s ≠ t → d.sent = 0 := by
    intro s d hd hne
    exact (halone.2 (s, d) (TreeMap.mem_toList_iff_getElem?_eq_some.mpr hd)).resolve_left hne
  refine ⟨callsOK_wrote st calls t c n h.callsOK hs hle, ?_⟩
  have hdata := (h.callsOK.data t c hs).1
  by_cases he : c.sent + n = c.data.length
  · -- the last byte: the call joins the whole ones
    refine ⟨whole ++ [c.index], ?_, ?_, ?_, .even halone.1 ?_ ?_⟩
    · rw [List.nodup_append_comm, List.singleton_append, List.nodup_cons]
      exact ⟨hidx t c hs, hnodup⟩
    · intro k hk
      rcases List.mem_append.mp hk with hk | hk
      · exact hlt k hk
      · rw [List.mem_singleton.mp hk]
        exact h.callsOK.index_lt t c hs
    · intro s d hd hm
      rcases sends_wrote st t s c d n hd with ⟨hne, hd⟩ | ⟨-, hne, -⟩
      · rcases List.mem_append.mp hm with hm | hm
        · exact hidx s d hd hm
        · exact hne (h.callsOK.distinct s t d c hd hs (List.mem_singleton.mp hm))
      · exact hne he
    · intro s d hd
      rcases sends_wrote st t s c d n hd with ⟨hne, hd⟩ | ⟨-, hne, -⟩
      · exact hothers s d hd hne
      · exact absurd he hne
    · rw [hstream, he, List.take_length, content_snoc calls whole c.index c.data hdata]
  · refine ⟨whole, hnodup, hlt, ?_, .writing t { c with sent := c.sent + n } halone.1 ?_ ?_ ?_ hstream⟩
    · intro s d hd hm
      rcases sends_wrote st t s c d n hd with ⟨-, hd⟩ | ⟨-, -, rfl⟩
      · exact hidx s d hd hm
      · exact hidx t c hs hm
    · rw [Socket.wrote]
      dsimp only
      rw [if_neg he, TreeMap.getElem?_insert_self]
    · dsimp only
      omega
    · intro s d hd
      rcases sends_wrote st t s c d n hd with ⟨hne, hd⟩ | ⟨hst, -, -⟩
      · exact Or.inr (hothers s d hd hne)
      · exact Or.inl hst

theorem inv_gaveUp (st : Socket) (calls : List Bytes) (t : ThreadId) (c : SendCall)
    (h : Inv st calls) (hs : st.sends[t]? = some c) : Inv (st.gaveUp t c) calls := by
  obtain ⟨whole, hnodup, hlt, hidx, hshape⟩ := h.shape
  refine ⟨callsOK_gaveUp st calls t c h.callsOK, whole, hnodup, hlt, ?_, ?_⟩
  · exact fun s d hd => hidx s d (sends_gaveUp st t s c d hd).2
  · cases hshape with
    | even hcut hsent hstream =>
      have hz := hsent t c hs
      refine .even ?_ (fun s d hd => hsent s d (sends_gaveUp st t s c d hd).2) hstream
      rw [Socket.gaveUp, hcut, hz]
      rfl
    | writing u d hcut hd hpos hsent hstream =>
      by_cases hut : u = t
      · -- the call that was writing is the one that fails
        rw [hut, hs] at hd
        obtain rfl := Option.some_inj.mp hd
        obtain ⟨hdata, hlast⟩ := h.callsOK.data t c hs
        refine .cut c.index c.sent c.data ?_ hdata hlast (hidx t c hs) hstream
        rw [Socket.gaveUp]
        simp [hpos]
      · -- another call fails, which has not written: nothing is cut
        have hz : c.sent = 0 := (hsent t c hs).resolve_left (Ne.symm hut)
        refine .writing u d ?_ ?_ hpos (fun s e he => hsent s e (sends_gaveUp st t s c e he).2) hstream
        · rw [Socket.gaveUp, hcut, hz]
          rfl
        · rw [Socket.gaveUp]
          dsimp only
          rw [TreeMap.getElem?_erase, if_neg (by simpa using Ne.symm hut)]
          exact hd
    | cut k n d hcut hk hn hwhole hstream =>
      refine .cut k n d ?_ hk hn hwhole hstream
      rw [Socket.gaveUp, hcut]
      rfl

theorem inv_step (st : Socket) (calls : List Bytes) (i : Input) (h : Inv st calls)
    (hi : Alone st i) : Inv (step st i).1 (calls ++ (step st i).2) := by
  rcases step_cases st i with he | ⟨t, data, rfl, hs, he⟩ | ⟨t, n, c, rfl, hs, hn, hle, he⟩ |
    ⟨t, c, rfl, hs, he⟩
  · rw [he, List.append_nil]
    exact h
  · rw [he]
    exact inv_enter st calls t data h hs
  · rw [he, List.append_nil]
    exact inv_wrote st calls t c n h hs hn hle hi
  · rw [he, List.append_nil]
    exact inv_gaveUp st calls t c h hs

/-- In every interleaving in which a call writes only while no other has written a part of its
string and none has left one behind, the client receives whole strings. -/
theorem stream_of_whole_strings (is : List Input) (h : Meets step Alone {} is) :
    WholeStrings (run step {} is).2 (run step {} is).1.stream := by
  have hinit : Inv {} [] := by
    refine ⟨⟨rfl, by simp, by simp⟩, [], List.nodup_nil, by simp, by simp, .even rfl (by simp) rfl⟩
  have hinv := run_invariant Inv inv_step {} [] is hinit h
  obtain ⟨whole, hnodup, hlt, hidx, hshape⟩ := hinv.shape
  refine ⟨whole, hnodup, hlt, ?_⟩
  cases hshape with
  | even hcut hsent hstream => exact Or.inl hstream
  | writing t c hcut hc hpos hsent hstream =>
    -- the call has not ended yet: its string counts as the truncated one
    obtain ⟨hdata, hlast⟩ := hinv.callsOK.data t c hc
    exact Or.inr ⟨c.index, c.data, c.sent, hidx t c hc, hdata, hlast, hstream⟩
  | cut k n d hcut hk hn hwhole hstream => exact Or.inr ⟨k, d, n, hwhole, hk, hn, hstream⟩

/-- Strings that one thread writes one after the other, each in one piece. -/
def wholeSends (t : ThreadId) (strings : List Bytes) : List Input :=
  strings.flatMap fun d => [.send t d, .write t d.length]

/-- Calls that do not overlap put out their strings in order: the stream is what `Delivery`
takes it for. -/
theorem stream_wholeSends (st : Socket) (t : ThreadId) (strings : List Bytes)
    (hs : st.sends[t]? = none) :
    (run step st (wholeSends t strings)).1.stream = st.stream ++ strings.flatten := by
  induction strings generalizing st with
  | nil => simp [wholeSends, run]
  | cons d strings ih =>
    have hrun : (run step st (wholeSends t (d :: strings))).1 =
        (run step (step (step st (.send t d)).1 (.write t d.length)).1 (wholeSends t strings)).1 := rfl
    rw [hrun, step, hs]
    dsimp only
    by_cases hd : d = []
    · have hnone : (st.enter t d).sends[t]? = none := by
        rw [Socket.enter, if_pos hd]
        exact hs
      rw [step, hnone]
      dsimp only
      rw [ih _ hnone, hd, List.flatten_cons, List.nil_append]
      rfl
    · have hsome : (st.enter t d).sends[t]? = some ⟨st.count, d, 0⟩ := by
        rw [Socket.enter, if_neg hd, TreeMap.getElem?_insert_self]
      have hlen : ¬ (d.length = 0 ∨ d.length < 0 + d.length) := by
        have := List.length_pos_iff.mpr hd
        omega
      rw [step, hsome]
      dsimp only
      rw [if_neg hlen, ih]
      · simp [Socket.wrote, Socket.enter]
      · rw [Socket.wrote]
        simp

/-- A stream of whole strings begins with one of them, or is a part of one. -/
theorem first_string (calls : List Bytes) (stream : Bytes) (h : WholeStrings calls stream) :
    stream = [] ∨ ∃ d ∈ calls, d <+: stream ∨ stream <+: d := by
  obtain ⟨whole, -, hlt, hstream⟩ := h
  cases whole with
  | nil =>
    rcases hstream with rfl | ⟨k, d, n, -, hk, -, rfl⟩
    · exact Or.inl rfl
    · exact Or.inr ⟨d, List.mem_of_getElem? hk, Or.inr (List.take_prefix n d)⟩
  | cons k whole =>
    have hk : calls[k]? = some (calls.getD k []) := by
      rw [List.getD_eq_getElem?_getD, List.getElem?_eq_getElem (hlt k List.mem_cons_self)]
      rfl
    refine Or.inr ⟨calls.getD k [], List.mem_of_getElem? hk, Or.inl ?_⟩
    have hp : calls.getD k [] <+: content calls (k :: whole) := List.prefix_append _ _
    rcases hstream with rfl | ⟨j, d, n, -, -, -, rfl⟩
    · exact hp
    · exact hp.trans (List.prefix_append _ _)

section Runs

/-- A reply of the session's own thread. -/
def pong : Bytes := RespParser.serialize (.simpleString (lit "PONG"))

/-- A message that a publisher writes to the same session. -/
def message : Bytes := RespParser.serialize (Session.respMessage (lit "t") (lit "a"))

/-- The publisher's call begins while the reply is written, and waits for its end. -/
theorem stream_of_whole_strings_two_threads :
    WholeStrings
      (run step {} [.send 0 pong, .write 0 3, .send 1 message, .write 0 4, .write 1 20, .fail 1]).2
      (run step {} [.send 0 pong, .write 0 3, .send 1 message, .write 0 4, .write 1 20, .fail 1]).1.stream :=
  stream_of_whole_strings _ (by decide)

/-- A message lands inside a reply that was written in two parts; and one follows a reply that
was given up in the middle. -/
theorem strings_torn_apart :
    ¬ WholeStrings
      (run step {} [.send 0 pong, .write 0 3, .send 1 message, .write 1 message.length, .write 0 4]).2
      (run step {} [.send 0 pong, .write 0 3, .send 1 message, .write 1 message.length,
        .write 0 4]).1.stream ∧
    ¬ WholeStrings
      (run step {} [.send 0 pong, .write 0 3, .fail 0, .send 1 message, .write 1 message.length]).2
      (run step {} [.send 0 pong, .write 0 3, .fail 0, .send 1 message,
        .write 1 message.length]).1.stream := by
  constructor
  · intro h
    exact absurd (first_string _ _ h) (by decide)
  · intro h
    exact absurd (first_string _ _ h) (by decide)

end Runs

end MetricMQ.SocketWrites
