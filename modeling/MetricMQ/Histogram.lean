import Mathlib.Algebra.BigOperators.Group.Finset.Piecewise
import Mathlib.Data.List.Basic
import Mathlib.Order.Basic

/-! Histograms. A value falls into the first bucket whose bound is above it, or into one more bucket
behind them all. Summed up from the front, the buckets count the values below each bound. -/
namespace Histogram

open Finset

variable {α β : Type} [LinearOrder α]

def place (bounds : List α) (x : α) : ℕ := bounds.findIdx fun b => x < b

/-- How many values fall into bucket `k`. -/
def tally (bounds : List α) (value : β → α) (xs : List β) (k : ℕ) : ℕ :=
  xs.countP fun x => place bounds (value x) = k

theorem place_le_length (bounds : List α) (x : α) : place bounds x ≤ bounds.length :=
  List.findIdx_le_length

/-- The bounds ascend, so a value below one of them is in its bucket or in one before it. -/
theorem place_le_iff (bounds : List α) (h : bounds.Pairwise (· ≤ ·)) (x : α) (k : ℕ)
    (hk : k < bounds.length) : place bounds x ≤ k ↔ x < bounds[k] := by
  constructor
  -- it is below the bound of its own bucket, which is at most the one at `k`
  · intro hle
    have hlt : bounds.findIdx (fun b => x < b) < bounds.length := lt_of_le_of_lt hle hk
    have hx := of_decide_eq_true (List.findIdx_getElem (w := hlt))
    rcases lt_or_eq_of_le hle with hlt' | heq
    · exact lt_of_lt_of_le hx (List.pairwise_iff_getElem.mp h _ k hlt hk hlt')
    · simpa only [place, ← heq] using hx
  -- every bucket before its own has a bound that it is not below
  · intro hx
    by_contra hlt
    have hno := List.not_of_lt_findIdx (p := fun b => decide (x < b)) (not_le.mp hlt)
    exact of_decide_eq_false hno hx

theorem sum_countP_eq (f : β → ℕ) (xs : List β) (k : ℕ) :
    ∑ j ∈ range k, xs.countP (fun x => f x = j) = xs.countP fun x => f x < k := by
  induction xs with
  | nil => simp
  | cons x xs ih =>
    simp only [List.countP_cons, sum_add_distrib, ih, decide_eq_true_eq]
    rw [Finset.sum_ite_eq]
    simp

variable (bounds : List α) (value : β → α) (xs : List β)

/-- The values below a bound are those in its bucket and in the buckets before it. -/
theorem sum_tally (h : bounds.Pairwise (· ≤ ·)) (k : ℕ) (hk : k < bounds.length) :
    ∑ j ∈ range (k + 1), tally bounds value xs j = xs.countP fun x => value x < bounds[k] := by
  simp only [tally, sum_countP_eq, Nat.lt_succ_iff, place_le_iff bounds h _ k hk]

/-- Every value is in some bucket. -/
theorem sum_tally_length :
    ∑ j ∈ range (bounds.length + 1), tally bounds value xs j = xs.length := by
  simp only [tally, sum_countP_eq, Nat.lt_succ_iff, place_le_length, decide_true]
  exact congrFun List.countP_true xs

theorem tally_append (ys : List β) (k : ℕ) :
    tally bounds value (xs ++ ys) k = tally bounds value xs k + tally bounds value ys k :=
  List.countP_append

theorem tally_singleton (x : β) (k : ℕ) :
    tally bounds value [x] k = if place bounds (value x) = k then 1 else 0 := by
  rw [tally, List.countP_singleton]
  simp

end Histogram
