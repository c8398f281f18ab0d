import MetricMQ.Machine
import Mathlib.Data.List.Basic

/-! Topic-based publish and subscribe in the abstract: who is subscribed to what, and one log of
all messages. A message is delivered at once to everybody who is subscribed to its topic, and once
more to everybody who is subscribed to the topic that stands for all. Clients, topics, messages and
the numbers that go with the messages may be anything. -/
namespace PubSub

open Machine

variable {κ τ μ ν : Type}

inductive Op (κ τ μ : Type)
  | subscribe (client : κ) (topic : τ)
  | unsubscribe (client : κ) (topic : τ)
  | leave (client : κ)
  | publish (topic : τ) (message : μ)

/-- Who is subscribed to what, and how many messages there have been. -/
structure State (κ τ : Type) where
  subscribed : κ → τ → Prop
  published : ℕ

/-- What one client can see: the log, and what it is delivered itself. -/
inductive Event (τ μ ν : Type)
  | published (topic : τ) (message : μ) (number : ν)
  | delivered (message : μ) (number : ν)
deriving DecidableEq

def State.empty : State κ τ := ⟨fun _ _ => False, 0⟩

open Classical in
/-- How often a message on `topic` is delivered to a client. -/
noncomputable def copies (all : τ) (s : State κ τ) (client : κ) (topic : τ) : ℕ :=
  (if s.subscribed client topic then 1 else 0) + if s.subscribed client all then 1 else 0

/-- The steps, as `client` sees them. The messages are numbered from one, by `number`. -/
noncomputable def step (all : τ) (number : ℕ → ν) (client : κ) (s : State κ τ) :
    Op κ τ μ → State κ τ × List (Event τ μ ν)
  | .subscribe c t => ({ s with subscribed := fun c' t' => c' = c ∧ t' = t ∨ s.subscribed c' t' }, [])
  | .unsubscribe c t =>
    ({ s with subscribed := fun c' t' => s.subscribed c' t' ∧ ¬ (c' = c ∧ t' = t) }, [])
  | .leave c => ({ s with subscribed := fun c' t' => s.subscribed c' t' ∧ c' ≠ c }, [])
  | .publish t m =>
    ({ s with published := s.published + 1 },
      .published t m (number (s.published + 1)) ::
        List.replicate (copies all s client t) (.delivered m (number (s.published + 1))))

/-- The messages of a trace with their numbers, and those that were delivered. -/
def logOf (tr : List (Event τ μ ν)) : List (μ × ν) :=
  tr.filterMap fun e => match e with
    | .published _ m n => some (m, n)
    | .delivered _ _ => none

def inboxOf (tr : List (Event τ μ ν)) : List (μ × ν) :=
  tr.filterMap fun e => match e with
    | .delivered m n => some (m, n)
    | .published _ _ _ => none

theorem copies_le (all : τ) (s : State κ τ) (client : κ) (topic : τ) :
    copies all s client topic ≤ 2 := by
  rw [copies]
  split_ifs <;> omega

/-- The list is made of the entries of `log` in their order, each taken a number of times that is
at most two. -/
def Repeats {α : Type} (log inbox : List α) : Prop :=
  ∃ times : List ℕ, times.length = log.length ∧ (∀ k ∈ times, k ≤ 2) ∧
    inbox = (List.zipWith List.replicate times log).flatten

theorem Repeats.append {α : Type} {log inbox log' inbox' : List α} (h : Repeats log inbox)
    (h' : Repeats log' inbox') : Repeats (log ++ log') (inbox ++ inbox') := by
  obtain ⟨times, hlen, hle, rfl⟩ := h
  obtain ⟨times', hlen', hle', rfl⟩ := h'
  refine ⟨times ++ times', ?_, ?_, ?_⟩
  · rw [List.length_append, List.length_append, hlen, hlen']
  · intro k hk
    exact (List.mem_append.mp hk).elim (hle k) (hle' k)
  · rw [List.zipWith_append hlen, List.flatten_append]

theorem repeats_step (all : τ) (number : ℕ → ν) (client : κ) (s : State κ τ) (op : Op κ τ μ) :
    Repeats (logOf (step all number client s op).2) (inboxOf (step all number client s op).2) := by
  cases op with
  | subscribe | unsubscribe | leave => exact ⟨[], rfl, by simp, rfl⟩
  | publish t m =>
    refine ⟨[copies all s client t], ?_, ?_, ?_⟩
    · simp [step, logOf]
    · intro k hk
      rw [List.mem_singleton.mp hk]
      exact copies_le all s client t
    · simp [step, logOf, inboxOf]

/-- There is one order for everybody: what a client is delivered are messages of the log in the
order of the log, however the subscriptions change in between. -/
theorem repeats_run (all : τ) (number : ℕ → ν) (client : κ) (s : State κ τ) (ops : List (Op κ τ μ)) :
    Repeats (logOf (run (step all number client) s ops).2)
      (inboxOf (run (step all number client) s ops).2) := by
  -- one step after the other: the copies of a message come right behind it
  induction ops generalizing s with
  | nil => exact ⟨[], rfl, by simp, rfl⟩
  | cons op ops ih =>
    rw [run, logOf, inboxOf, List.filterMap_append, List.filterMap_append]
    exact (repeats_step all number client s op).append (ih _)

end PubSub
