import Mathlib.Tactic.Ring
import Mathlib.Data.List.Nodup
import Mathlib.Data.List.DropRight

/-! `BoundedAckSet`: the last `MAX` sequences a client acknowledged, in insertion order, and
the highest one ever inserted. The fields after the data are its representation invariant. -/
namespace MetricMQ

open Std

def maxAcksKept : ℕ := 10000

structure BoundedAckSet where
  order : List UInt64
  lookup : TreeSet UInt64
  maxSeq : UInt64
  mem_lookup : ∀ s, s ∈ lookup ↔ s ∈ order
  nodup : order.Nodup
  le_maxSeq : ∀ s ∈ order, s ≤ maxSeq
  maxSeq_empty : order = [] → maxSeq = 0

namespace BoundedAckSet

def empty : BoundedAckSet where
  order := []
  lookup := ∅
  maxSeq := 0
  mem_lookup := by simp
  nodup := List.nodup_nil
  le_maxSeq := by simp
  maxSeq_empty := fun _ => rfl

def contains (a : BoundedAckSet) (s : UInt64) : Bool := a.lookup.contains s

def isEmpty (a : BoundedAckSet) : Bool := a.lookup.isEmpty

/-- The first part of `insert`: a full set loses its oldest entry. -/
def evicted (a : BoundedAckSet) : List UInt64 × TreeSet UInt64 :=
  if a.order.length ≥ maxAcksKept then
    match a.order with
    | [] => ([], a.lookup)
    | oldest :: rest => (rest, a.lookup.erase oldest)
  else (a.order, a.lookup)

theorem mem_evicted (a : BoundedAckSet) (s : UInt64) : s ∈ a.evicted.2 ↔ s ∈ a.evicted.1 := by
  rw [evicted]
  split_ifs
  · cases ho : a.order with
    | nil =>
      rw [a.mem_lookup, ho]
    | cons oldest rest =>
      have hn := a.nodup
      rw [ho, List.nodup_cons] at hn
      dsimp only
      rw [TreeSet.mem_erase, a.mem_lookup, ho, List.mem_cons]
      simp only [ne_eq, LawfulEqCmp.compare_eq_iff_eq]
      constructor
      · rintro ⟨hne, rfl | h⟩
        · exact absurd rfl hne
        · exact h
      · exact fun h => ⟨fun he => hn.1 (he ▸ h), Or.inr h⟩
  · exact a.mem_lookup s

theorem evicted_sublist (a : BoundedAckSet) : a.evicted.1.Sublist a.order := by
  rw [evicted]
  split_ifs
  · cases a.order with
    | nil => exact List.Sublist.refl _
    | cons oldest rest => exact List.sublist_cons_self oldest rest
  · exact List.Sublist.refl _

def insert (a : BoundedAckSet) (seq : UInt64) : BoundedAckSet :=
  if h : a.contains seq then a
  else
    { order := a.evicted.1 ++ [seq]
      lookup := a.evicted.2.insert seq
      maxSeq := if seq > a.maxSeq then seq else a.maxSeq
      mem_lookup := by
        intro s
        rw [TreeSet.mem_insert, a.mem_evicted, List.mem_append, List.mem_singleton,
          LawfulEqCmp.compare_eq_iff_eq, or_comm, eq_comm]
      nodup := by
        rw [List.nodup_append_comm]
        have hn : seq ∉ a.order := fun hm => h (TreeSet.contains_iff_mem.mpr ((a.mem_lookup seq).mpr hm))
        exact List.nodup_cons.mpr ⟨fun hm => hn (a.evicted_sublist.subset hm),
          a.nodup.sublist a.evicted_sublist⟩
      le_maxSeq := by
        intro s hs
        rcases List.mem_append.mp hs with hs | hs
        · have hle := a.le_maxSeq s (a.evicted_sublist.subset hs)
          split_ifs with hgt
          · exact Std.le_trans hle (Std.le_of_lt hgt)
          · exact hle
        · rw [List.mem_singleton.mp hs]
          split_ifs with hgt
          · exact Std.le_refl seq
          · exact Std.not_lt.mp hgt
      maxSeq_empty := fun he => absurd he (by simp) }

@[simp] theorem contains_eq (a : BoundedAckSet) (s : UInt64) : a.contains s = decide (s ∈ a.order) := by
  rw [Bool.eq_iff_iff, contains, TreeSet.contains_iff_mem, a.mem_lookup, decide_eq_true_eq]

theorem maxSeq_insert (a : BoundedAckSet) (s : UInt64) :
    (a.insert s).maxSeq = if s > a.maxSeq then s else a.maxSeq := by
  rw [insert]
  split_ifs with h hgt hgt
  · rw [contains_eq, decide_eq_true_eq] at h
    exact absurd hgt (Std.not_lt.mpr (a.le_maxSeq s h))
  all_goals rfl

theorem order_insert (a : BoundedAckSet) (s : UInt64) :
    (a.insert s).order = if s ∈ a.order then a.order else a.evicted.1 ++ [s] := by
  by_cases h : s ∈ a.order
  · have hc : a.contains s = true := by rw [contains_eq, decide_eq_true_eq]; exact h
    rw [insert, dif_pos hc, if_pos h]
  · have hc : ¬ a.contains s = true := by rw [contains_eq, decide_eq_true_eq]; exact h
    rw [insert, dif_neg hc, if_neg h]

theorem mem_insert_self (a : BoundedAckSet) (s : UInt64) : s ∈ (a.insert s).order := by
  rw [order_insert]
  split_ifs with h
  · exact h
  · exact List.mem_append_right _ (List.mem_singleton.mpr rfl)

theorem mem_of_mem_insert (a : BoundedAckSet) (s n : UInt64) (h : n ∈ (a.insert s).order) :
    n = s ∨ n ∈ a.order := by
  rw [order_insert] at h
  split_ifs at h
  · exact Or.inr h
  · rcases List.mem_append.mp h with h | h
    · exact Or.inr (a.evicted_sublist.subset h)
    · exact Or.inl (List.mem_singleton.mp h)

def insertAll (a : BoundedAckSet) (seqs : List UInt64) : BoundedAckSet := seqs.foldl insert a

theorem mem_of_mem_insertAll (seqs : List UInt64) (a : BoundedAckSet) (n : UInt64)
    (h : n ∈ (a.insertAll seqs).order) : n ∈ seqs ∨ n ∈ a.order := by
  induction seqs generalizing a with
  | nil => exact Or.inr h
  | cons s seqs ih =>
    rcases ih (a.insert s) h with h | h
    · exact Or.inl (List.mem_cons_of_mem s h)
    · rcases a.mem_of_mem_insert s n h with rfl | h
      · exact Or.inl List.mem_cons_self
      · exact Or.inr h

theorem maxSeq_insert_le_iff (a : BoundedAckSet) (s n : UInt64) :
    (a.insert s).maxSeq ≤ n ↔ a.maxSeq ≤ n ∧ s ≤ n := by
  rw [maxSeq_insert]
  split_ifs with hgt
  · exact ⟨fun h => ⟨Std.le_trans (Std.le_of_lt hgt) h, h⟩, fun h => h.2⟩
  · exact ⟨fun h => ⟨h, Std.le_trans (Std.not_lt.mp hgt) h⟩, fun h => h.1⟩

/-- The mark is the least bound of everything inserted, also of what was evicted again. -/
theorem maxSeq_insertAll_le_iff (seqs : List UInt64) (a : BoundedAckSet) (n : UInt64) :
    (a.insertAll seqs).maxSeq ≤ n ↔ a.maxSeq ≤ n ∧ ∀ s ∈ seqs, s ≤ n := by
  induction seqs generalizing a with
  | nil => simp [insertAll]
  | cons s seqs ih =>
    change ((a.insert s).insertAll seqs).maxSeq ≤ n ↔ _
    rw [ih, maxSeq_insert_le_iff, List.forall_mem_cons, and_assoc]

theorem maxSeq_le_insertAll (seqs : List UInt64) (a : BoundedAckSet) :
    a.maxSeq ≤ (a.insertAll seqs).maxSeq :=
  ((maxSeq_insertAll_le_iff seqs a _).mp (Std.le_refl _)).1

theorem maxSeq_insertAll_eq (seqs : List UInt64) (a : BoundedAckSet) :
    (a.insertAll seqs).maxSeq = a.maxSeq ∨ (a.insertAll seqs).maxSeq ∈ seqs := by
  induction seqs generalizing a with
  | nil => exact Or.inl rfl
  | cons s seqs ih =>
    change ((a.insert s).insertAll seqs).maxSeq = _ ∨ ((a.insert s).insertAll seqs).maxSeq ∈ _
    rcases ih (a.insert s) with h | h
    · rw [h, maxSeq_insert]
      split_ifs
      · exact Or.inr List.mem_cons_self
      · exact Or.inl rfl
    · exact Or.inr (List.mem_cons_of_mem s h)

theorem insertAll_append (a : BoundedAckSet) (l l' : List UInt64) :
    a.insertAll (l ++ l') = (a.insertAll l).insertAll l' := List.foldl_append

/-- The insertions of a run that change the set: of sequences it does not hold at that moment. -/
def effective (a : BoundedAckSet) : List UInt64 → List UInt64
  | [] => []
  | s :: seqs =>
    if a.contains s then (a.insert s).effective seqs else s :: (a.insert s).effective seqs

theorem effective_concat (seqs : List UInt64) (a : BoundedAckSet) (s : UInt64) :
    a.effective (seqs ++ [s]) =
      if s ∈ (a.insertAll seqs).order then a.effective seqs else a.effective seqs ++ [s] := by
  induction seqs generalizing a with
  | nil => by_cases hs : s ∈ a.order <;> simp [effective, insertAll, hs]
  | cons t seqs ih =>
    have hi : a.insertAll (t :: seqs) = (a.insert t).insertAll seqs := rfl
    rw [List.cons_append, effective, effective, ih, hi]
    split_ifs <;> rfl

theorem evicted_of_rtake (a : BoundedAckSet) (l : List UInt64) (h : a.order = l.rtake maxAcksKept) :
    a.evicted.1 = l.rtake (maxAcksKept - 1) := by
  have hlen : a.order.length = min l.length maxAcksKept := by
    rw [h, List.rtake, List.length_drop]
    omega
  have hpos : 0 < maxAcksKept := by decide
  rw [evicted]
  split_ifs with hfull
  · -- the oldest entry is the first of the last `MAX`
    have htail : l.rtake (maxAcksKept - 1) = a.order.tail := by
      have hd : l.length - (maxAcksKept - 1) = l.length - maxAcksKept + 1 := by omega
      rw [h, List.rtake, List.rtake, List.tail_drop, hd]
    rw [htail]
    cases a.order <;> rfl
  · have hl : l.length ≤ maxAcksKept - 1 := by omega
    dsimp only
    rw [h, List.rtake, List.rtake, Nat.sub_eq_zero_of_le hl, Nat.sub_eq_zero_of_le (by omega)]

/-- The queue holds the last `MAX` effective insertions, the oldest first. -/
theorem order_insertAll (seqs : List UInt64) :
    (empty.insertAll seqs).order = (empty.effective seqs).rtake maxAcksKept := by
  induction seqs using List.reverseRecOn with
  | nil => rfl
  | append_singleton seqs s ih =>
    have hi : (empty.insertAll seqs).insertAll [s] = (empty.insertAll seqs).insert s := rfl
    rw [insertAll_append, hi, order_insert, effective_concat]
    split_ifs
    · -- the sequence is held: no insertion and no effect
      exact ih
    · have hm : maxAcksKept = maxAcksKept - 1 + 1 := by decide
      rw [evicted_of_rtake _ _ ih]
      nth_rewrite 2 [hm]
      rw [List.rtake_concat_succ]

theorem maxSeq_insertAll (seqs : List UInt64) (a : BoundedAckSet) :
    (a.insertAll seqs).maxSeq = seqs.foldl max a.maxSeq := by
  induction seqs generalizing a with
  | nil => rfl
  | cons s seqs ih =>
    change ((a.insert s).insertAll seqs).maxSeq = _
    have hmax : max a.maxSeq s = if a.maxSeq ≤ s then s else a.maxSeq := rfl
    rw [ih, List.foldl_cons, maxSeq_insert, hmax]
    congr 1
    split_ifs with hgt hle hle
    · rfl
    · exact absurd (Std.le_of_lt hgt) hle
    · exact Std.le_antisymm (Std.not_lt.mp hgt) hle |>.symm
    · rfl

/-- The last `MAX` of the effective insertions into a fresh set, or all if there are fewer. -/
def kept (seqs : List UInt64) : List UInt64 :=
  (empty.effective seqs).rtake (min (empty.effective seqs).length maxAcksKept)

theorem length_kept (seqs : List UInt64) :
    (kept seqs).length = min (empty.effective seqs).length maxAcksKept := by
  rw [kept, List.rtake, List.length_drop]
  omega

theorem order_insertAll_eq_kept (seqs : List UInt64) : (empty.insertAll seqs).order = kept seqs := by
  have hd : (empty.effective seqs).length - min (empty.effective seqs).length maxAcksKept =
      (empty.effective seqs).length - maxAcksKept := by omega
  rw [order_insertAll, kept, List.rtake, List.rtake, hd]

/-- What the two containers and the mark hold after any run of insertions into a fresh set. -/
theorem representation_insertAll (seqs : List UInt64) :
    (empty.insertAll seqs).order.Nodup ∧
      (∀ s, s ∈ (empty.insertAll seqs).lookup ↔ s ∈ (empty.insertAll seqs).order) ∧
      (empty.insertAll seqs).order = kept seqs ∧
      (kept seqs).length = min (empty.effective seqs).length maxAcksKept ∧
      (∀ s, (empty.insertAll seqs).contains s = true ↔ s ∈ kept seqs) ∧
      (empty.insertAll seqs).maxSeq = seqs.foldl max 0 := by
  have hkept := order_insertAll_eq_kept seqs
  refine ⟨(empty.insertAll seqs).nodup, (empty.insertAll seqs).mem_lookup, hkept, length_kept seqs, ?_,
    maxSeq_insertAll seqs empty⟩
  intro s
  rw [contains_eq, decide_eq_true_eq, hkept]

theorem order_of_isEmpty (a : BoundedAckSet) (h : a.isEmpty = true) : a.order = [] := by
  rw [isEmpty, TreeSet.isEmpty_iff_forall_not_mem] at h
  rw [List.eq_nil_iff_forall_not_mem]
  exact fun s hs => h s ((a.mem_lookup s).mpr hs)

end BoundedAckSet

end MetricMQ
