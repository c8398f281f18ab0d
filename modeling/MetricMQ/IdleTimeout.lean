import MetricMQ.Delivery

/-! The idle timeout of a session. The system gets a clock: `recv` may return because of its own
timeout, and the session is closed if no bytes have come for long enough. What the session is sent
meanwhile does not count. -/
namespace MetricMQ

open ByteString Std Machine

/-- Seconds, and what the steady clock counts in a second. -/
def recvTimeoutS : ℕ := 30

def sessionIdleTimeoutS : ℕ := 300

def ticksPerSecond : ℕ := 10 ^ 9

/-- The system with the time, and with `last_activity_` of the sessions. -/
structure TimedWorld (σ : Type) where
  world : World σ
  now : ℕ := 0
  lastActivity : TreeMap SessionId ℕ := ∅

inductive TimedInput (ε : Type)
  | tick (ticks : ℕ)
  | recvTimeout (session : SessionId)
  | untimed (i : Input ε)

section Definitions

variable {σ ε : Type} [Storage σ ε]

/-- `recv` returns the bytes: the thread is waiting for them, and the buffer has room. -/
def World.takes (w : World σ) (session : SessionId) (chunk : Bytes) : Bool :=
  match w.connections[session]? with
  | none => false
  | some conn => World.waiting conn && !chunk.isEmpty && decide (chunk.length ≤ 4096)

/-- Whose `last_activity_` a step sets: that of a new session, or of one that has got bytes. -/
def World.touched (w : World σ) : Input ε → Option SessionId
  | .accept session =>
    if (w.connections[session]?).isNone && (w.broker.acceptSession session).isSome then some session
    else none
  | .recv session chunk => if w.takes session chunk then some session else none
  | .hangup _ | .thread _ _ | .keyStore _ | .stop | .restart => none

namespace TimedWorld

variable (verify : Verify) (hash : HashOrder)

/-- The check after a timeout of `recv`; the difference is rounded down to whole seconds. -/
def isIdle (t : TimedWorld σ) (session : SessionId) : Bool :=
  decide (sessionIdleTimeoutS ≤ (t.now - t.lastActivity.getD session 0) / ticksPerSecond)

def step (t : TimedWorld σ) : TimedInput ε → TimedWorld σ × List Output
  | .tick ticks => ({ t with now := t.now + ticks }, [])
  | .recvTimeout session =>
    -- the thread leaves its loop as at a hangup, or waits again
    if t.isIdle session then ({ t with world := t.world.hangupStep session }, []) else (t, [])
  | .untimed i =>
    let r := t.world.step verify hash i
    ({ t with
        world := r.1
        lastActivity := match t.world.touched i with
          | none => t.lastActivity
          | some session => t.lastActivity.insert session t.now }, r.2)

/-- The steps of the system without the clock. -/
def moves (t : TimedWorld σ) : TimedInput ε → List (Input ε)
  | .tick _ => []
  | .recvTimeout session => if t.isIdle session then [.hangup session] else []
  | .untimed i => [i]

/-- A step of the system with the clock is one of the system without it, or none. -/
theorem step_moves (t : TimedWorld σ) (i : TimedInput ε) :
    (t.step verify hash i).1.world = (run (World.step verify hash) t.world (t.moves i)).1 ∧
      (t.step verify hash i).2 = (run (World.step verify hash) t.world (t.moves i)).2 := by
  cases i with
  | tick ticks => exact ⟨rfl, rfl⟩
  | recvTimeout session =>
    rw [step, moves]
    split_ifs
    · exact ⟨rfl, rfl⟩
    · exact ⟨rfl, rfl⟩
  | untimed i =>
    refine ⟨rfl, ?_⟩
    rw [moves, run, run, List.append_nil]
    rfl

/-- The clock adds nothing to what the system can do: every run with it is a run without it, in
which a session may hang up at any time, so what holds of those runs holds of it. -/
theorem timed_refines (t : TimedWorld σ) (is : List (TimedInput ε)) :
    (run (step verify hash) t is).1.world =
        (run (World.step verify hash) t.world (movesOf (step verify hash) moves t is)).1 ∧
      (run (step verify hash) t is).2 =
        (run (World.step verify hash) t.world (movesOf (step verify hash) moves t is)).2 :=
  run_projects (fun t : TimedWorld σ => t.world) moves (fun t i => t.step_moves verify hash i) t is

end TimedWorld

end Definitions

/-- The session has left its receive loop, or is gone. -/
def World.Left {σ : Type} (w : World σ) (session : SessionId) : Prop :=
  ∀ conn : Connection, w.connections[session]? = some conn → conn.closing = true

/-- The thread of the session is in `recv`, or will not be in it again. -/
def World.inRecv {σ : Type} (w : World σ) (session : SessionId) : Bool :=
  match w.connections[session]? with
  | none => true
  | some conn => World.waiting conn || conn.closing

section Steps

variable {σ ε : Type} [Storage σ ε] (verify : Verify) (hash : HashOrder) (session : SessionId)

omit [Storage σ ε] in
theorem World.left_set (w : World σ) (s : SessionId) (conn : Connection)
    (hconn : s = session → conn.closing = true) (h : w.Left session) : (w.set s conn).Left session := by
  intro c hc
  rw [World.set, TreeMap.getElem?_insert] at hc
  split_ifs at hc with hs
  · rw [LawfulEqCmp.compare_eq_iff_eq] at hs
    rw [← Option.some_inj.mp hc]
    exact hconn hs
  · exact h c hc

/-- A thread that has left does not come back; only a new session takes its place. -/
theorem World.left_step (w : World σ) (i : Input ε) (hi : w.touched i ≠ some session)
    (h : w.Left session) : (w.step verify hash i).1.Left session := by
  have hcase := World.stepCase_step verify hash w i
  revert hcase
  generalize (w.step verify hash i).1 = w'
  generalize (w.step verify hash i).2 = outs
  intro hcase
  cases hcase with
  | nothing | keyed | stopped => exact h
  | accepted s b hfree hb =>
    -- a new session of this name would have been touched
    apply World.left_set session { w with broker := b } s {} _ h
    intro hs
    refine absurd ?_ hi
    rw [World.touched, hfree, hb, hs]
    rfl
  | received s chunk conn r hconn hp hr =>
    exact World.left_set session w s _ (fun hs => h conn (hs ▸ hconn)) h
  | overflowed s chunk conn hconn hr => exact World.left_set session w s _ (fun _ => rfl) h
  | hungUp s conn hconn => exact World.left_set session w s _ (fun _ => rfl) h
  | worked s faults conn task rest hconn hp =>
    intro c hc
    rw [World.taskStep] at hc
    dsimp only at hc
    split_ifs at hc with htask
    · rw [TreeMap.getElem?_erase] at hc
      split_ifs at hc with hs
      exact h c hc
    · rw [TreeMap.getElem?_insert] at hc
      split_ifs at hc with hs
      · rw [LawfulEqCmp.compare_eq_iff_eq] at hs
        rw [← Option.some_inj.mp hc]
        exact h conn (hs ▸ hconn)
      · exact h c hc
  | dispatched s faults conn item r hconn hp hnext =>
    exact World.left_set session w s _ (fun hs => h conn (hs ▸ hconn)) h
  | restarted =>
    intro c hc
    rw [TreeMap.getElem?_emptyc] at hc
    cases hc

omit [Storage σ ε] in
theorem World.left_hangupStep (w : World σ) (s : SessionId) (h : w.Left session) :
    (w.hangupStep s).Left session := by
  rw [World.hangupStep]
  cases hconn : w.connections[s]? with
  | none => exact h
  | some conn =>
    dsimp only
    split_ifs
    · exact World.left_set session w s _ (fun _ => rfl) h
    · exact h

/-- A timeout that finds the session idle makes it leave. -/
theorem World.left_of_inRecv (w : World σ) (h : w.inRecv session = true) :
    (w.hangupStep session).Left session := by
  rw [World.inRecv] at h
  rw [World.hangupStep]
  cases hconn : w.connections[session]? with
  | none =>
    intro c hc
    rw [hconn] at hc
    cases hc
  | some conn =>
    rw [hconn] at h
    dsimp only at h ⊢
    split_ifs with hw
    · intro c hc
      rw [World.set, TreeMap.getElem?_insert, if_pos ReflCmp.compare_self] at hc
      rw [← Option.some_inj.mp hc]
    · intro c hc
      rw [hconn] at hc
      rw [← Option.some_inj.mp hc]
      simpa [hw] using h

omit [Storage σ ε] in
theorem World.inRecv_iff (w : World σ) : w.inRecv session = true ↔ ∀ conn : Connection,
    w.connections[session]? = some conn → World.waiting conn = true ∨ conn.closing = true := by
  rw [World.inRecv]
  cases w.connections[session]? with
  | none => simp
  | some conn => simp

omit [Storage σ ε] in
theorem World.inRecv_set (w : World σ) (s : SessionId) (conn : Connection)
    (hconn : s = session → World.waiting conn = true ∨ conn.closing = true)
    (h : w.inRecv session = true) : (w.set s conn).inRecv session = true := by
  rw [World.inRecv_iff] at h ⊢
  intro c hc
  rw [World.set, TreeMap.getElem?_insert] at hc
  split_ifs at hc with hs
  · rw [LawfulEqCmp.compare_eq_iff_eq] at hs
    rw [← Option.some_inj.mp hc]
    exact hconn hs
  · exact h c hc

omit [Storage σ ε] in
theorem World.inRecv_hangupStep (w : World σ) (s : SessionId) (h : w.inRecv session = true) :
    (w.hangupStep s).inRecv session = true := by
  rw [World.hangupStep]
  cases hconn : w.connections[s]? with
  | none => exact h
  | some conn =>
    dsimp only
    split_ifs
    · exact World.inRecv_set session w s _ (fun _ => Or.inr rfl) h
    · exact h

omit [Storage σ ε] in
/-- Bytes that `recv` does not return change nothing. -/
theorem World.recvStep_of_not_takes (w : World σ) (s : SessionId) (chunk : Bytes)
    (h : w.takes s chunk = false) : w.recvStep s chunk = w := by
  rw [World.takes] at h
  rw [World.recvStep]
  cases hconn : w.connections[s]? with
  | none => rfl
  | some conn =>
    rw [hconn] at h
    dsimp only at h ⊢
    rw [if_pos]
    by_contra hno
    simp only [Bool.or_eq_true, Bool.not_eq_true', decide_eq_true_eq, not_or, Bool.not_eq_false,
      Nat.not_lt] at hno
    simp [hno.1.1, hno.1.2, hno.2] at h

/-- A thread that is back in `recv` stays there until bytes come, or it leaves its loop. -/
theorem World.inRecv_step (w : World σ) (i : Input ε) (hi : w.touched i ≠ some session)
    (h : w.inRecv session = true) : (w.step verify hash i).1.inRecv session = true := by
  have hall := (World.inRecv_iff session w).mp h
  cases i with
  | recv s chunk =>
    rw [World.step]
    by_cases hs : s = session
    · subst hs
      have htakes : w.takes s chunk = false := by
        by_contra ht
        rw [World.touched, if_pos (by simpa using ht)] at hi
        exact hi rfl
      rw [World.recvStep_of_not_takes w s chunk htakes]
      exact h
    · rcases w.recvStep_set s chunk with he | ⟨conn, he⟩
      · rw [he]
        exact h
      · rw [he]
        exact World.inRecv_set session w s conn (fun hc => absurd hc hs) h
  | hangup s => exact World.inRecv_hangupStep session w s h
  | accept s =>
    rw [World.step, World.acceptStep]
    cases hconn : w.connections[s]? with
    | some conn => exact h
    | none =>
      dsimp only
      cases hb : w.broker.acceptSession s with
      | none => exact h
      | some b =>
        refine World.inRecv_set session { w with broker := b } s {} (fun _ => Or.inl rfl) h
  | thread s faults =>
    have hcase := World.stepCase_thread verify hash w s faults
    rw [World.step]
    generalize (w.threadStep verify hash s faults).1 = w' at hcase ⊢
    generalize (w.threadStep verify hash s faults).2 = outs at hcase
    cases hcase with
    | nothing => exact h
    | worked _ _ conn task rest hconn hp =>
      -- a thread with a task is not in `recv`, so it is on its way out
      have hclosing : s = session → conn.closing = true := by
        rintro rfl
        refine (hall conn hconn).resolve_left fun hw => ?_
        rw [World.waiting, hp] at hw
        cases hw
      rw [World.taskStep]
      dsimp only
      split_ifs
      · rw [World.inRecv_iff]
        intro c hc
        rw [TreeMap.getElem?_erase] at hc
        split_ifs at hc
        exact hall c hc
      · exact World.inRecv_set session { w with broker := _ } s _ (fun hs => Or.inr (hclosing hs)) h
    | dispatched _ _ conn item r hconn hp hnext =>
      refine World.inRecv_set session w s _ (fun hs => ?_) h
      subst hs
      refine Or.inr ((hall conn hconn).resolve_left fun hw => ?_)
      rw [World.waiting, hnext] at hw
      simp at hw
  | keyStore | stop => exact h
  | restart => simp [World.step, World.inRecv]

end Steps

namespace TimedWorld

section Runs

variable {σ ε : Type} [Storage σ ε] (verify : Verify) (hash : HashOrder) (session : SessionId)

/-- The step does not set the session's `last_activity_`. -/
def Quiet (t : TimedWorld σ) : TimedInput ε → Prop
  | .untimed i => t.world.touched i ≠ some session
  | .tick _ | .recvTimeout _ => True

instance (t : TimedWorld σ) : DecidablePred (Quiet (ε := ε) session t)
  | .untimed _ => inferInstanceAs (Decidable (_ ≠ _))
  | .tick _ | .recvTimeout _ => isTrue trivial

def elapsed : List (TimedInput ε) → ℕ
  | [] => 0
  | .tick ticks :: is => ticks + elapsed is
  | .recvTimeout _ :: is | .untimed _ :: is => elapsed is

/-- For how long the `recv` of the session has been going on behind a step; time that its thread
spends elsewhere is no time in `recv`. -/
def waited (t : TimedWorld σ) (n : ℕ) : TimedInput ε → ℕ
  | .tick ticks => if t.world.inRecv session then n + ticks else 0
  | .recvTimeout s => if s = session && t.world.inRecv session then 0 else n
  | .untimed _ => n

/-- The timeout of `recv` is kept: no `recv` of the session goes on for more than half a minute. -/
def Regular : ℕ → TimedWorld σ → List (TimedInput ε) → Prop
  | _, _, [] => True
  | n, t, i :: is =>
    waited session t n i ≤ recvTimeoutS * ticksPerSecond ∧
      Regular (waited session t n i) (t.step verify hash i).1 is

instance decidableRegular : (n : ℕ) → (t : TimedWorld σ) → (is : List (TimedInput ε)) →
    Decidable (Regular verify hash session n t is)
  | _, _, [] => isTrue trivial
  | n, t, i :: is =>
    have := decidableRegular (waited session t n i) (t.step verify hash i).1 is
    inferInstanceAs (Decidable (_ ∧ Regular verify hash session (waited session t n i)
      (t.step verify hash i).1 is))

theorem isIdle_iff (t : TimedWorld σ) : t.isIdle session = true ↔
    sessionIdleTimeoutS * ticksPerSecond ≤ t.now - t.lastActivity.getD session 0 := by
  rw [isIdle, decide_eq_true_eq, Nat.le_div_iff_mul_le (by decide)]

/-- A quiet step moves the clock only. -/
theorem clock_step (t : TimedWorld σ) (i : TimedInput ε) (h : Quiet session t i) :
    (t.step verify hash i).1.now = t.now + elapsed [i] ∧
      (t.step verify hash i).1.lastActivity.getD session 0 = t.lastActivity.getD session 0 := by
  cases i with
  | tick ticks => exact ⟨rfl, rfl⟩
  | recvTimeout s =>
    rw [step]
    split_ifs
    · exact ⟨rfl, rfl⟩
    · exact ⟨rfl, rfl⟩
  | untimed i =>
    refine ⟨rfl, ?_⟩
    rw [step]
    dsimp only
    cases ht : t.world.touched i with
    | none => rfl
    | some s =>
      dsimp only
      rw [TreeMap.getD_insert, if_neg]
      rw [LawfulEqCmp.compare_eq_iff_eq]
      rintro rfl
      exact h ht

theorem elapsed_cons (i : TimedInput ε) (is : List (TimedInput ε)) :
    elapsed (i :: is) = elapsed [i] + elapsed is := by
  cases i with
  | tick ticks => rfl
  | recvTimeout | untimed => exact (Nat.zero_add _).symm

theorem clock_run (t : TimedWorld σ) (is : List (TimedInput ε))
    (h : Meets (step verify hash) (Quiet session) t is) :
    (run (step verify hash) t is).1.now = t.now + elapsed is ∧
      (run (step verify hash) t is).1.lastActivity.getD session 0 = t.lastActivity.getD session 0 := by
  induction is generalizing t with
  | nil => exact ⟨rfl, rfl⟩
  | cons i is ih =>
    obtain ⟨hnow, hlast⟩ := clock_step verify hash session t i h.1
    obtain ⟨hnow', hlast'⟩ := ih _ h.2
    rw [run, elapsed_cons]
    refine ⟨?_, hlast'.trans hlast⟩
    calc (run (step verify hash) (t.step verify hash i).1 is).1.now
        = (t.step verify hash i).1.now + elapsed is := hnow'
      _ = t.now + elapsed [i] + elapsed is := by rw [hnow]
      _ = t.now + (elapsed [i] + elapsed is) := Nat.add_assoc _ _ _

/-- A step that sets `last_activity_` sets it to the present. -/
theorem clock_touched (t : TimedWorld σ) (i : Input ε) (h : t.world.touched i = some session) :
    (t.step verify hash (.untimed i)).1.now = t.now ∧
      (t.step verify hash (.untimed i)).1.lastActivity.getD session 0 = t.now := by
  refine ⟨rfl, ?_⟩
  rw [step, h]
  dsimp only
  rw [TreeMap.getD_insert, if_pos ReflCmp.compare_self]

/-- The clock at the end of a stretch that is quiet behind an activity of the session. -/
theorem idle_time (t : TimedWorld σ) (a : Input ε) (quiet : List (TimedInput ε))
    (ha : t.world.touched a = some session)
    (hq : Meets (step verify hash) (Quiet session) (t.step verify hash (.untimed a)).1 quiet) :
    (run (step verify hash) t (.untimed a :: quiet)).1.now -
      (run (step verify hash) t (.untimed a :: quiet)).1.lastActivity.getD session 0 = elapsed quiet := by
  obtain ⟨hnow, hlast⟩ := clock_touched verify hash session t a ha
  obtain ⟨hnow', hlast'⟩ := clock_run verify hash session _ quiet hq
  rw [run, hnow', hlast', hnow, hlast, Nat.add_sub_cancel_left]

/-- A session is closed by a timeout of its `recv` exactly if no bytes have come from it for five
minutes, whatever it was sent meanwhile and whatever the others did. -/
theorem closed_iff_idle (t : TimedWorld σ) (a : Input ε) (quiet : List (TimedInput ε)) (conn : Connection)
    (ha : t.world.touched a = some session)
    (hq : Meets (step verify hash) (Quiet session) (t.step verify hash (.untimed a)).1 quiet)
    (hconn : (run (step verify hash) t (.untimed a :: quiet)).1.world.connections[session]? = some conn)
    (hw : World.waiting conn = true) :
    (run (step verify hash) t
        (.untimed a :: quiet ++ [.recvTimeout session])).1.world.connections[session]? =
      some (if sessionIdleTimeoutS * ticksPerSecond ≤ elapsed quiet then
        { conn with pending := conn.exitCalls.map .call, closing := true } else conn) := by
  have htime := idle_time verify hash session t a quiet ha hq
  rw [run_snoc]
  generalize (run (step verify hash) t (.untimed a :: quiet)).1 = u at hconn htime ⊢
  have hidle := isIdle_iff session u
  rw [htime] at hidle
  rw [step]
  by_cases h : u.isIdle session = true
  · rw [if_pos h, if_pos (hidle.mp h), World.hangupStep, hconn]
    dsimp only
    rw [if_pos hw, World.set, TreeMap.getElem?_insert, if_pos ReflCmp.compare_self]
  · rw [if_neg h, if_neg fun hle => h (hidle.mpr hle), hconn]

theorem inRecv_timed_step (t : TimedWorld σ) (i : TimedInput ε) (hq : Quiet session t i)
    (h : t.world.inRecv session = true) : (t.step verify hash i).1.world.inRecv session = true := by
  cases i with
  | tick ticks => exact h
  | untimed i => exact World.inRecv_step verify hash session t.world i hq h
  | recvTimeout s =>
    rw [step]
    split_ifs
    · exact World.inRecv_hangupStep session t.world s h
    · exact h

/-- One step of a session in `recv`: it has left, or its last timeout came within the five minutes,
or there was none since `start`. -/
theorem left_or_recent_step (t : TimedWorld σ) (n last start : ℕ) (i : TimedInput ε)
    (hq : Quiet session t i) (hin : t.world.inRecv session = true)
    (hlast : t.lastActivity.getD session 0 = last)
    (h : t.world.Left session ∨ t.now < last + n + sessionIdleTimeoutS * ticksPerSecond ∨
      t.now ≤ start + n) :
    (t.step verify hash i).1.world.Left session ∨
      (t.step verify hash i).1.now <
        last + waited session t n i + sessionIdleTimeoutS * ticksPerSecond ∨
      (t.step verify hash i).1.now ≤ start + waited session t n i := by
  cases i with
  | tick ticks =>
    rcases h with h | h
    · exact Or.inl h
    · right
      rw [step, waited, if_pos hin]
      dsimp only
      omega
  | untimed i =>
    rcases h with h | h
    · exact Or.inl (World.left_step verify hash session t.world i hq h)
    · exact Or.inr h
  | recvTimeout s =>
    rw [step, waited, hin, Bool.and_true]
    by_cases hs : s = session
    · subst hs
      by_cases hidle : t.isIdle s = true
      -- the timeout closes it, or it is too early for that
      · rw [if_pos hidle]
        exact Or.inl (World.left_of_inRecv s t.world hin)
      · rw [if_neg hidle]
        have hrecent := (isIdle_iff s t).not.mp hidle
        rw [hlast] at hrecent
        right
        simp only [decide_true, ↓reduceIte]
        omega
    · rw [decide_eq_false hs, if_neg Bool.false_ne_true]
      rcases h with h | h
      · left
        split_ifs
        · exact World.left_hangupStep session t.world s h
        · exact h
      · right
        split_ifs <;> exact h

theorem left_or_recent_run (t : TimedWorld σ) (n last start : ℕ) (is : List (TimedInput ε))
    (hq : Meets (step verify hash) (Quiet session) t is) (hr : Regular verify hash session n t is)
    (hin : t.world.inRecv session = true) (hn : n ≤ recvTimeoutS * ticksPerSecond)
    (hlast : t.lastActivity.getD session 0 = last)
    (h : t.world.Left session ∨ t.now < last + n + sessionIdleTimeoutS * ticksPerSecond ∨
      t.now ≤ start + n) :
    (run (step verify hash) t is).1.world.Left session ∨
      (run (step verify hash) t is).1.now <
        last + recvTimeoutS * ticksPerSecond + sessionIdleTimeoutS * ticksPerSecond ∨
      (run (step verify hash) t is).1.now ≤ start + recvTimeoutS * ticksPerSecond := by
  induction is generalizing t n with
  | nil =>
    rcases h with h | h
    · exact Or.inl h
    · right
      rw [run]
      dsimp only
      omega
  | cons i is ih =>
    have hstep := left_or_recent_step verify hash session t n last start i hq.1 hin hlast h
    have hsame := (clock_step verify hash session t i hq.1).2
    exact ih _ _ hq.2 hr.2 (inRecv_timed_step verify hash session t i hq.1 hin) hr.1
      (hsame.trans hlast) hstep

/-- What a stretch has left of the current wait behind it. -/
theorem regular_append (n : ℕ) (t : TimedWorld σ) (is js : List (TimedInput ε))
    (hn : n ≤ recvTimeoutS * ticksPerSecond) (h : Regular verify hash session n t (is ++ js)) :
    ∃ m, m ≤ recvTimeoutS * ticksPerSecond ∧
      Regular verify hash session m (run (step verify hash) t is).1 js := by
  induction is generalizing n t with
  | nil => exact ⟨n, hn, h⟩
  | cons i is ih => exact ih _ _ h.1 h.2

theorem elapsed_append (is js : List (TimedInput ε)) : elapsed (is ++ js) = elapsed is + elapsed js := by
  induction is with
  | nil => exact (Nat.zero_add _).symm
  | cons i is ih => rw [List.cons_append, elapsed_cons, ih, elapsed_cons i is, Nat.add_assoc]

/-- No zombies: where no `recv` goes on for more than half a minute without its timeout, a session
from which no bytes have come for five and a half minutes, and whose thread has been back in `recv`
for more than the last half minute of them, has left its loop, also if it is being sent messages. How
long it was busy before does not matter. -/
theorem silence_closes (t : TimedWorld σ) (a : Input ε) (busy wait : List (TimedInput ε))
    (ha : t.world.touched a = some session)
    (hq : Meets (step verify hash) (Quiet session) (t.step verify hash (.untimed a)).1 (busy ++ wait))
    (hr : Regular verify hash session 0 (t.step verify hash (.untimed a)).1 (busy ++ wait))
    (hin : (run (step verify hash) t (.untimed a :: busy)).1.world.inRecv session = true)
    (hwait : recvTimeoutS * ticksPerSecond < elapsed wait)
    (hlong : (sessionIdleTimeoutS + recvTimeoutS) * ticksPerSecond ≤ elapsed (busy ++ wait)) :
    (run (step verify hash) t (.untimed a :: (busy ++ wait))).1.world.Left session := by
  obtain ⟨hnow, hlast⟩ := clock_touched verify hash session t a ha
  obtain ⟨hqb, hqw⟩ := (meets_append _ busy wait).mp hq
  obtain ⟨n, hn, hrw⟩ := regular_append verify hash session 0 _ busy wait (Nat.zero_le _) hr
  obtain ⟨hnowb, hlastb⟩ := clock_run verify hash session _ busy hqb
  have hnoww := (clock_run verify hash session _ wait hqw).1
  rw [run] at hin
  rw [run, run_append]
  dsimp only at hin ⊢
  -- at the end the last timeout lies less than half a minute back, and it came too late
  rcases left_or_recent_run verify hash session _ n t.now _ wait hqw hrw hin hn (hlastb.trans hlast)
    (Or.inr (Or.inr (Nat.le_add_right _ n))) with h | h | h
  · exact h
  · rw [hnoww, hnowb, hnow] at h
    rw [Nat.add_mul, elapsed_append] at hlong
    omega
  · rw [hnoww] at h
    omega

end Runs

section Example

open World

/-- A subscriber connects, and nothing more comes from it while somebody else publishes to it. -/
def silentSubscriber : List (TimedInput (Option MdbError)) :=
  List.replicate 4 (.untimed (.thread 0 allCommit)) ++ [.tick (299 * ticksPerSecond)] ++
    (binaryClient 1 (.publish (lit "t") (lit "a") 1) 3).map .untimed ++ [.tick ticksPerSecond]

theorem closed_iff_idle_subscriber : ∃ conn : Connection, World.waiting conn = true ∧
    (run (step (fun _ _ _ => true) insertionOrder)
      (run (step (fun _ _ _ => true) insertionOrder) ⟨World.start LmdbFile.empty, 0, ∅⟩
        [.untimed (.accept 0)]).1
      (.untimed (.recv 0 (BinaryProtocol.serialize (.subscribe (lit "t") 1))) :: silentSubscriber ++
        [.recvTimeout 0])).1.world.connections[0]? =
      some { conn with pending := conn.exitCalls.map .call, closing := true } := by
  have hwaiting : ((run (step (fun _ _ _ => true) insertionOrder)
      (run (step (fun _ _ _ => true) insertionOrder) ⟨World.start LmdbFile.empty, 0, ∅⟩
        [.untimed (.accept 0)]).1
      (.untimed (.recv 0 (BinaryProtocol.serialize (.subscribe (lit "t") 1))) ::
        silentSubscriber)).1.world.connections[0]?).any World.waiting = true := by decide
  obtain ⟨conn, hconn, hw⟩ := (Option.any_eq_true _ _).mp hwaiting
  refine ⟨conn, hw, ?_⟩
  rw [closed_iff_idle (fun _ _ _ => true) insertionOrder 0 _ _ silentSubscriber conn (by decide)
    (by decide) hconn hw, if_pos (by decide)]

/-- A client sends a ping that is answered a minute later; then twelve timeouts, 29 seconds apart. -/
theorem silence_closes_twelve :
    (run (step (fun _ _ _ => true) insertionOrder)
      (run (step (fun _ _ _ => true) insertionOrder) ⟨World.start LmdbFile.empty, 0, ∅⟩
        [.untimed (.accept 0)]).1
      (.untimed (.recv 0 (BinaryProtocol.serialize .ping)) ::
        ([.tick (60 * ticksPerSecond), .untimed (.thread 0 allCommit), .untimed (.thread 0 allCommit)] ++
          (List.replicate 12 [.tick (29 * ticksPerSecond), .recvTimeout 0]).flatten))).1.world.Left 0 :=
  silence_closes (fun _ _ _ => true) insertionOrder 0 _ _ _ _ (by decide) (by decide) (by decide)
    (by decide) (by decide) (by decide)

end Example

end TimedWorld

end MetricMQ
