import Mathlib.Tactic.Ring
import Mathlib.Data.List.Induction

/-! Runs of a deterministic machine whose inputs resolve every choice of the environment. -/
namespace Machine

variable {σ ι ο : Type}

/-- The state after a list of inputs and everything the run put out, in order. -/
def run (step : σ → ι → σ × List ο) : σ → List ι → σ × List ο
  | s, [] => (s, [])
  | s, i :: is =>
    let r := run step (step s i).1 is
    (r.1, (step s i).2 ++ r.2)

/-- Every step of the run starts in a state and with an input related by `C`. -/
def Meets (step : σ → ι → σ × List ο) (C : σ → ι → Prop) : σ → List ι → Prop
  | _, [] => True
  | s, i :: is => C s i ∧ Meets step C (step s i).1 is

instance decidableMeets (step : σ → ι → σ × List ο) (C : σ → ι → Prop)
    [∀ s i, Decidable (C s i)] : (s : σ) → (is : List ι) → Decidable (Meets step C s is)
  | _, [] => isTrue trivial
  | s, i :: is =>
    have := decidableMeets step C (step s i).1 is
    inferInstanceAs (Decidable (C s i ∧ Meets step C (step s i).1 is))

variable {step : σ → ι → σ × List ο}

theorem run_append (s : σ) (is js : List ι) :
    run step s (is ++ js) =
      ((run step (run step s is).1 js).1, (run step s is).2 ++ (run step (run step s is).1 js).2) := by
  induction is generalizing s with
  | nil => simp only [List.nil_append, run]
  | cons i is ih => simp only [List.cons_append, run, ih, List.append_assoc]

theorem run_state_append (s : σ) (is js : List ι) :
    (run step s (is ++ js)).1 = (run step (run step s is).1 js).1 := by
  rw [run_append]

theorem run_snoc (s : σ) (is : List ι) (i : ι) :
    (run step s (is ++ [i])).1 = (step (run step s is).1 i).1 := by
  rw [run_append]
  rfl

theorem run_outputs_snoc (s : σ) (is : List ι) (i : ι) :
    (run step s (is ++ [i])).2 = (run step s is).2 ++ (step (run step s is).1 i).2 := by
  rw [run_append]
  exact congrArg _ (List.append_nil _)

theorem meets_append {C : σ → ι → Prop} (s : σ) (is js : List ι) :
    Meets step C s (is ++ js) ↔ Meets step C s is ∧ Meets step C (run step s is).1 js := by
  induction is generalizing s with
  | nil => simp only [List.nil_append, Meets, run, true_and]
  | cons i is ih => simp only [List.cons_append, Meets, run, ih, and_assoc]

/-- The invariant rule: what holds of the state and of all outputs so far, and is kept by
every step that meets `C`, holds at the end of every run whose steps meet `C`. -/
theorem run_invariant {C : σ → ι → Prop} (I : σ → List ο → Prop)
    (hstep : ∀ s tr i, I s tr → C s i → I (step s i).1 (tr ++ (step s i).2))
    (s : σ) (tr : List ο) (is : List ι) (hs : I s tr) (hc : Meets step C s is) :
    I (run step s is).1 (tr ++ (run step s is).2) := by
  induction is generalizing s tr with
  | nil => simpa only [run, List.append_nil] using hs
  | cons i is ih =>
    have h := ih (step s i).1 (tr ++ (step s i).2) (hstep s tr i hs hc.1) hc.2
    simpa only [run, List.append_assoc] using h

/-- Under an invariant of the states, a property of single steps holds at every step. -/
theorem meets_of_invariant {C Q : σ → ι → Prop} (I : σ → Prop)
    (hstep : ∀ s i, I s → C s i → Q s i ∧ I (step s i).1)
    (s : σ) (is : List ι) (hs : I s) (hc : Meets step C s is) : Meets step Q s is := by
  induction is generalizing s with
  | nil => trivial
  | cons i is ih =>
    obtain ⟨hq, hi⟩ := hstep s i hs hc.1
    exact ⟨hq, ih (step s i).1 hi hc.2⟩

theorem meets_true (s : σ) (is : List ι) : Meets step (fun _ _ => True) s is := by
  induction is generalizing s with
  | nil => trivial
  | cons i is ih => exact ⟨trivial, ih _⟩

theorem meets_iff_forall {P : ι → Prop} (s : σ) (is : List ι) :
    Meets step (fun _ i => P i) s is ↔ ∀ i ∈ is, P i := by
  induction is generalizing s with
  | nil => simp [Meets]
  | cons i is ih => rw [Meets, ih, List.forall_mem_cons]

/-- A property of runs that the next step keeps exactly when it meets `C` holds of every
beginning of a run exactly when all its steps do. -/
theorem forall_prefix_iff_meets_of_runs {C : σ → ι → Prop} (s : σ) (Q : List ι → Prop) (h0 : Q [])
    (hstep : ∀ is i, Meets step C s is → Q is → (Q (is ++ [i]) ↔ C (run step s is).1 i))
    (is : List ι) : (∀ pre, pre <+: is → Q pre) ↔ Meets step C s is := by
  induction is using List.reverseRecOn with
  | nil =>
    refine ⟨fun _ => trivial, ?_⟩
    intro _ pre hpre
    rw [List.prefix_nil.mp hpre]
    exact h0
  | append_singleton is i ih =>
    rw [meets_append, ← ih]
    constructor
    · intro h
      have hpre : ∀ pre, pre <+: is → Q pre := fun pre hpre => h pre (hpre.trans ⟨[i], rfl⟩)
      exact ⟨hpre, (hstep is i (ih.mp hpre) (hpre is ⟨[], List.append_nil is⟩)).mp
        (h _ ⟨[], List.append_nil _⟩), trivial⟩
    · rintro ⟨hpre, hc, -⟩ pre hp
      rcases List.prefix_concat_iff.mp hp with rfl | hp
      · exact (hstep is i (ih.mp hpre) (hpre is ⟨[], List.append_nil is⟩)).mpr hc
      · exact hpre pre hp

/-- A property that a step keeps exactly when it meets `C` holds in every state of a run
exactly when all its steps do. `J` is what holds in any case. -/
theorem forall_prefix_iff_meets {C : σ → ι → Prop} (J P : σ → Prop)
    (hinv : ∀ s i, J s → J (step s i).1)
    (hstep : ∀ s i, J s → P s → (P (step s i).1 ↔ C s i)) (s : σ) (is : List ι) (hj : J s) (hp : P s) :
    (∀ pre, pre <+: is → P (run step s pre).1) ↔ Meets step C s is := by
  refine forall_prefix_iff_meets_of_runs s (fun pre => P (run step s pre).1) hp ?_ is
  intro is i _ hp'
  have hj' : J (run step s is).1 := run_invariant (fun s _ => J s) (fun s _ i hs _ => hinv s i hs)
    s [] is hj (meets_true s is)
  rw [run_snoc]
  exact hstep _ i hj' hp'

section Simulation

variable {τ κ π : Type}

/-- The moves of another machine that go with the steps of a run. -/
def movesOf (step : σ → ι → σ × List ο) (moves : σ → ι → List κ) : σ → List ι → List κ
  | _, [] => []
  | s, i :: is => moves s i ++ movesOf step moves (step s i).1 is

/-- A machine whose steps are matched by moves of another one, in the states of an invariant
and in steps that meet `A`, is simulated by it; `C` is what the moves meet. -/
theorem run_simulates {step' : τ → κ → τ × List π} {A : σ → ι → Prop} {C : τ → κ → Prop}
    (abs : σ → τ) (moves : σ → ι → List κ) (I : σ → Prop)
    (hstep : ∀ s i, I s → A s i → I (step s i).1 ∧
      abs (step s i).1 = (run step' (abs s) (moves s i)).1 ∧ Meets step' C (abs s) (moves s i))
    (s : σ) (is : List ι) (hs : I s) (ha : Meets step A s is) :
    I (run step s is).1 ∧ abs (run step s is).1 = (run step' (abs s) (movesOf step moves s is)).1 ∧
      Meets step' C (abs s) (movesOf step moves s is) := by
  induction is generalizing s with
  | nil => exact ⟨hs, rfl, trivial⟩
  | cons i is ih =>
    obtain ⟨hi, habs, hc⟩ := hstep s i hs ha.1
    obtain ⟨hi', habs', hc'⟩ := ih _ hi ha.2
    rw [habs] at habs' hc'
    refine ⟨hi', ?_, ?_⟩
    · rw [movesOf, run_state_append]
      exact habs'
    · rw [movesOf, meets_append]
      exact ⟨hc, hc'⟩

/-- The same with a relation between the states, and with what is observed: a machine whose steps
are matched by moves of another one that put out what is observed of them refines it. -/
theorem run_refines {step' : τ → κ → τ × List π} {A : σ → ι → Prop} (R : σ → τ → Prop)
    (moves : σ → ι → List κ) (view : σ → ι → List π)
    (hstep : ∀ s i t, R s t → A s i →
      R (step s i).1 (run step' t (moves s i)).1 ∧ view s i = (run step' t (moves s i)).2)
    (s : σ) (t : τ) (is : List ι) (hs : R s t) (ha : Meets step A s is) :
    R (run step s is).1 (run step' t (movesOf step moves s is)).1 ∧
      movesOf step view s is = (run step' t (movesOf step moves s is)).2 := by
  induction is generalizing s t with
  | nil => exact ⟨hs, rfl⟩
  | cons i is ih =>
    obtain ⟨hr, hv⟩ := hstep s i t hs ha.1
    obtain ⟨hr', hv'⟩ := ih _ _ hr ha.2
    rw [movesOf, movesOf, run_append]
    exact ⟨hr', by rw [hv, hv']⟩

/-- A machine that adds something to the states of another one, and to each of its steps, has no
runs but those of the other one. -/
theorem run_projects {step' : τ → κ → τ × List ο} (proj : σ → τ) (moves : σ → ι → List κ)
    (hstep : ∀ s i, proj (step s i).1 = (run step' (proj s) (moves s i)).1 ∧
      (step s i).2 = (run step' (proj s) (moves s i)).2) (s : σ) (is : List ι) :
    proj (run step s is).1 = (run step' (proj s) (movesOf step moves s is)).1 ∧
      (run step s is).2 = (run step' (proj s) (movesOf step moves s is)).2 := by
  induction is generalizing s with
  | nil => exact ⟨rfl, rfl⟩
  | cons i is ih =>
    obtain ⟨hstate, houts⟩ := hstep s i
    obtain ⟨hstate', houts'⟩ := ih (step s i).1
    rw [hstate] at hstate' houts'
    rw [run, movesOf, run_append]
    exact ⟨hstate', by rw [houts, houts']⟩

end Simulation

/-- `E` happened in the run, and every step since then met `C`. -/
def Since (step : σ → ι → σ × List ο) (E C : σ → ι → Prop) (s : σ) (is : List ι) : Prop :=
  ∃ pre i post, is = pre ++ i :: post ∧ E (run step s pre).1 i ∧
    Meets step C (run step s (pre ++ [i])).1 post

section Since

variable {E C : σ → ι → Prop}

theorem not_since_nil (s : σ) : ¬ Since step E C s [] := by
  rintro ⟨pre, i, post, h, -⟩
  simp at h

theorem since_snoc (s : σ) (is : List ι) (i : ι) :
    Since step E C s (is ++ [i]) ↔
      E (run step s is).1 i ∨ Since step E C s is ∧ C (run step s is).1 i := by
  constructor
  · rintro ⟨pre, j, post, h, he, hm⟩
    rcases List.eq_nil_or_concat post with rfl | ⟨post, k, rfl⟩
    · obtain ⟨rfl, hj⟩ := List.append_inj' h rfl
      rw [List.cons.injEq] at hj
      exact Or.inl (hj.1 ▸ he)
    · rw [List.concat_eq_append, ← List.cons_append, ← List.append_assoc] at h
      obtain ⟨rfl, hk⟩ := List.append_inj' h rfl
      rw [List.concat_eq_append, meets_append, ← run_state_append, List.append_assoc,
        List.singleton_append] at hm
      rw [List.cons.injEq] at hk
      exact Or.inr ⟨⟨pre, j, post, rfl, he, hm.1⟩, hk.1 ▸ hm.2.1⟩
  · rintro (he | ⟨⟨pre, j, post, rfl, he, hm⟩, hc⟩)
    · exact ⟨is, i, [], rfl, he, trivial⟩
    · refine ⟨pre, j, post ++ [i], by simp, he, ?_⟩
      rw [meets_append, ← run_state_append, List.append_assoc, List.singleton_append]
      exact ⟨hm, hc, trivial⟩

/-- A fact that `E` brings about and `C` keeps, in steps that meet `A` and in the states of an
invariant. -/
theorem iff_since_of_invariant {A : σ → ι → Prop} (I P : σ → Prop)
    (hinv : ∀ s i, I s → A s i → I (step s i).1)
    (hstep : ∀ s i, I s → A s i → (P (step s i).1 ↔ E s i ∨ P s ∧ C s i)) (s : σ) (is : List ι)
    (hs : I s) (h0 : ¬ P s) (ha : Meets step A s is) :
    P (run step s is).1 ↔ Since step E C s is := by
  induction is using List.reverseRecOn with
  | nil => exact iff_of_false h0 (not_since_nil s)
  | append_singleton is i ih =>
    rw [meets_append] at ha
    have hi : I (run step s is).1 :=
      run_invariant (fun s _ => I s) (fun s _ i hs ha => hinv s i hs ha) s [] is hs ha.1
    rw [run_snoc, since_snoc, ← ih ha.1]
    exact hstep _ i hi ha.2.1

theorem iff_since {A : σ → ι → Prop} (P : σ → Prop)
    (hstep : ∀ s i, A s i → (P (step s i).1 ↔ E s i ∨ P s ∧ C s i)) (s : σ) (is : List ι)
    (h0 : ¬ P s) (ha : Meets step A s is) : P (run step s is).1 ↔ Since step E C s is :=
  iff_since_of_invariant (fun _ => True) P (fun _ _ _ _ => trivial) (fun s i _ ha => hstep s i ha)
    s is trivial h0 ha

end Since

/-- An event in a longer trace stood there before or is one of the new ones. -/
theorem snoc_prefix_append (pre tr outs : List ο) (e : ο) (h : pre ++ [e] <+: tr ++ outs) :
    pre ++ [e] <+: tr ∨ ∃ pre', pre = tr ++ pre' ∧ pre' ++ [e] <+: outs := by
  obtain ⟨post, hp⟩ := h
  rcases List.append_eq_append_iff.mp hp with ⟨a, htr, -⟩ | ⟨a, hpre, hout⟩
  · exact Or.inl ⟨a, htr.symm⟩
  · rcases List.eq_nil_or_concat a with rfl | ⟨pre', e', rfl⟩
    · refine Or.inl ⟨[], ?_⟩
      rw [List.append_nil, hpre, List.append_nil]
    · right
      rw [List.concat_eq_append, ← List.append_assoc] at hpre
      obtain ⟨rfl, he⟩ := List.append_inj' hpre rfl
      refine ⟨pre', rfl, post, ?_⟩
      rw [hout, List.concat_eq_append, ← he]

/-- An event of a run is one of the step that follows some beginning of the run. -/
theorem exists_step_of_snoc_prefix (s : σ) (is : List ι) (pre : List ο) (e : ο)
    (h : pre ++ [e] <+: (run step s is).2) :
    ∃ js i pre', js ++ [i] <+: is ∧ pre = (run step s js).2 ++ pre' ∧
      pre' ++ [e] <+: (step (run step s js).1 i).2 := by
  induction is using List.reverseRecOn with
  | nil => simp [run] at h
  | append_singleton is i ih =>
    rw [run_outputs_snoc] at h
    rcases snoc_prefix_append _ _ _ _ h with hold | ⟨pre', rfl, hnew⟩
    · obtain ⟨js, j, pre', hj, hpre, he⟩ := ih hold
      exact ⟨js, j, pre', hj.trans (List.prefix_append is [i]), hpre, he⟩
    · exact ⟨is, i, pre', List.prefix_refl _, rfl, hnew⟩

end Machine
