import MetricMQ.Machine

/-! Endless runs of a machine, and the rule for what happens in them eventually: a measure on a
well-founded order that never goes up and goes down at every step of a part that is scheduled
again and again brings that part to rest. -/
namespace Machine

variable {σ ι ο : Type} (step : σ → ι → σ × List ο)

/-- The state after the first `n` inputs of an endless run. -/
def stateAt (s : σ) (inputs : ℕ → ι) : ℕ → σ
  | 0 => s
  | n + 1 => (step (stateAt s inputs n) (inputs n)).1

theorem stateAt_eq_run (s : σ) (inputs : ℕ → ι) (n : ℕ) :
    stateAt step s inputs n = (run step s ((List.range n).map inputs)).1 := by
  induction n with
  | zero => rfl
  | succ n ih => rw [stateAt, ih, List.range_succ, List.map_append, List.map_singleton, run_snoc]

theorem stateAt_invariant {I : σ → Prop} (hstep : ∀ s i, I s → I (step s i).1) (s : σ)
    (inputs : ℕ → ι) (hs : I s) (n : ℕ) : I (stateAt step s inputs n) := by
  induction n with
  | zero => exact hs
  | succ n ih => exact hstep _ _ ih

/-- The input is one of the scheduled kind again and again. -/
def Fair (P : ι → Prop) (inputs : ℕ → ι) : Prop := ∀ n, ∃ m, n ≤ m ∧ P (inputs m)

/-- What can be done again and again, though perhaps not all of the time, is done at a moment when it
can. -/
def StronglyFair (enabled : σ → Prop) (P : ι → Prop) (s : σ) (inputs : ℕ → ι) : Prop :=
  ∀ n, (∀ m, n ≤ m → ∃ k, m ≤ k ∧ enabled (stateAt step s inputs k)) →
    ∃ m, n ≤ m ∧ enabled (stateAt step s inputs m) ∧ P (inputs m)

/-- An endless run of a machine that adds something to another one's states, and whose steps are
single steps of it, is an endless run of the other one. -/
theorem stateAt_projects {τ κ : Type} {step' : τ → κ → τ × List ο} (proj : σ → τ) (move : σ → ι → κ)
    (hstep : ∀ s i, proj (step s i).1 = (step' (proj s) (move s i)).1 ∧
      (step s i).2 = (step' (proj s) (move s i)).2) (s : σ) (inputs : ℕ → ι) (n : ℕ) :
    proj (stateAt step s inputs n) =
        stateAt step' (proj s) (fun k => move (stateAt step s inputs k) (inputs k)) n ∧
      (run step s ((List.range n).map inputs)).2 = (run step' (proj s)
        ((List.range n).map fun k => move (stateAt step s inputs k) (inputs k))).2 := by
  induction n with
  | zero => exact ⟨rfl, rfl⟩
  | succ n ih =>
    obtain ⟨hstate, houts⟩ := hstep (stateAt step s inputs n) (inputs n)
    refine ⟨?_, ?_⟩
    · rw [stateAt, stateAt, ← ih.1]
      exact hstate
    · rw [List.range_succ, List.map_append, List.map_append, List.map_singleton, List.map_singleton,
        run_outputs_snoc, run_outputs_snoc, ← stateAt_eq_run, ← stateAt_eq_run, ← ih.1, ← ih.2, houts]

/-- What every step keeps, or else ends in `R`, stands until `R` is reached. -/
theorem stays_until {Q R : σ → Prop} (hstay : ∀ s i, Q s → R (step s i).1 ∨ Q (step s i).1) (s : σ)
    (inputs : ℕ → ι) (n j : ℕ) (hj : n ≤ j) (hn : Q (stateAt step s inputs n)) :
    (∃ m, n ≤ m ∧ R (stateAt step s inputs m)) ∨ Q (stateAt step s inputs j) := by
  induction j, hj using Nat.le_induction with
  | base => exact Or.inr hn
  | succ j hj ih =>
    rcases ih with hR | hQ
    · exact Or.inl hR
    · rcases hstay _ (inputs j) hQ with hR | hQ
      · exact Or.inl ⟨j + 1, Nat.le_succ_of_le hj, hR⟩
      · exact Or.inr hQ

/-- What stands until a scheduled step, and is ended by it, leads to `R`. -/
theorem leads_to {P : ι → Prop} {Q R : σ → Prop} (hstay : ∀ s i, Q s → R (step s i).1 ∨ Q (step s i).1)
    (hnext : ∀ s i, Q s → P i → R (step s i).1) (s : σ) (inputs : ℕ → ι) (hfair : Fair P inputs)
    (n : ℕ) (hn : Q (stateAt step s inputs n)) : ∃ m, n ≤ m ∧ R (stateAt step s inputs m) := by
  obtain ⟨k, hk, hP⟩ := hfair n
  rcases stays_until step hstay s inputs n k hk hn with hR | hQ
  · exact hR
  · exact ⟨k + 1, Nat.le_succ_of_le hk, hnext _ _ hQ hP⟩

/-- What stays unless it goes down, and goes down at every scheduled step, comes to rest. -/
theorem rest_of_measure {α : Type} {r : α → α → Prop} (hr : WellFounded r) {P : ι → Prop}
    {R : σ → Prop} (measure : σ → α) {I : σ → Prop} (hI : ∀ s i, I s → I (step s i).1)
    (hstay : ∀ s i, I s → ¬ R s → R (step s i).1 ∨ measure (step s i).1 = measure s ∨
      r (measure (step s i).1) (measure s))
    (hdown : ∀ s i, I s → ¬ R s → P i → R (step s i).1 ∨ r (measure (step s i).1) (measure s))
    (s : σ) (inputs : ℕ → ι) (hs : I s) (hfair : Fair P inputs) (n : ℕ) :
    ∃ m, n ≤ m ∧ R (stateAt step s inputs m) := by
  have hinv := stateAt_invariant step hI s inputs hs
  generalize ha : measure (stateAt step s inputs n) = a
  induction a using hr.induction generalizing n with
  | _ a ih =>
    by_cases hrest : R (stateAt step s inputs n)
    · exact ⟨n, le_rfl, hrest⟩
    -- up to the next scheduled step the measure is `a`, or it is at rest or lower earlier
    · have hlow : ∃ m, n ≤ m ∧ (R (stateAt step s inputs m) ∨
          r (measure (stateAt step s inputs m)) a) := by
        refine leads_to step (Q := fun t => I t ∧ ¬ R t ∧ measure t = a)
          (R := fun t => R t ∨ r (measure t) a) ?_ ?_ s inputs hfair n ⟨hinv n, hrest, ha⟩
        · rintro t i ⟨ht, hbusy, hmeasure⟩
          by_cases hrest : R (step t i).1
          · exact Or.inl (Or.inl hrest)
          · rcases hstay t i ht hbusy with h | h | h
            · exact absurd h hrest
            · exact Or.inr ⟨hI t i ht, hrest, h.trans hmeasure⟩
            · exact Or.inl (Or.inr (hmeasure ▸ h))
        · rintro t i ⟨ht, hbusy, hmeasure⟩ hP
          exact hmeasure ▸ hdown t i ht hbusy hP
      obtain ⟨m, hm, hrest | hless⟩ := hlow
      · exact ⟨m, hm, hrest⟩
      · obtain ⟨m', hm', hrest⟩ := ih _ hless m rfl
        exact ⟨m', Nat.le_trans hm hm', hrest⟩

end Machine
