import Mathlib.Tactic.Ring
import Mathlib.Data.List.Pairwise

/-! Cursors over an ordered map. A cursor is the list of the entries it has still to visit;
seeking to a key leaves the entries at or after it, and a scan that stops at the first key
outside a downward closed region visits exactly the entries of the region. -/
namespace SortedCursor

open Std

section Lists

variable {α : Type*} {R : α → α → Prop}

theorem dropWhile_eq_filter (p : α → Bool) (l : List α) (hl : l.Pairwise R)
    (hp : ∀ a b, R a b → p b = true → p a = true) :
    l.dropWhile p = l.filter (fun a => !p a) := by
  induction l with
  | nil => rfl
  | cons a l ih =>
    obtain ⟨ha, hl'⟩ := List.pairwise_cons.mp hl
    by_cases hpa : p a = true
    · simp only [List.dropWhile_cons_of_pos hpa, ih hl', List.filter_cons, hpa, Bool.not_true,
        Bool.false_eq_true, ↓reduceIte]
    · rw [List.dropWhile_cons_of_neg hpa]
      symm
      apply List.filter_eq_self.mpr
      intro b hb
      rcases List.mem_cons.mp hb with rfl | hb
      · simpa using hpa
      · simp only [Bool.not_eq_true']
        exact Bool.eq_false_iff.mpr (fun hpb => hpa (hp a b (ha b hb) hpb))

theorem takeWhile_eq_filter (p : α → Bool) (l : List α) (hl : l.Pairwise R)
    (hp : ∀ a b, R a b → p b = true → p a = true) : l.takeWhile p = l.filter p := by
  induction l with
  | nil => rfl
  | cons a l ih =>
    obtain ⟨ha, hl'⟩ := List.pairwise_cons.mp hl
    by_cases hpa : p a = true
    · simp only [List.takeWhile_cons, List.filter_cons, hpa, ↓reduceIte, ih hl']
    · rw [List.takeWhile_cons_of_neg hpa]
      symm
      apply List.filter_eq_nil_iff.mpr
      intro b hb hpb
      rcases List.mem_cons.mp hb with rfl | hb
      · exact hpa hpb
      · exact hpa (hp a b (ha b hb) hpb)

/-- Membership in the part of a sorted list before its first entry that fails `p`. -/
theorem mem_takeWhile_iff (p : α → Bool) (l : List α) (hl : l.Pairwise R)
    (hasym : ∀ a b, R a b → ¬R b a) (x : α) :
    x ∈ l.takeWhile p ↔ x ∈ l ∧ p x = true ∧ ∀ y ∈ l, R y x → p y = true := by
  induction l with
  | nil => simp
  | cons a l ih =>
    obtain ⟨ha, hl'⟩ := List.pairwise_cons.mp hl
    by_cases hpa : p a = true
    · rw [List.takeWhile_cons_of_pos hpa, List.mem_cons, ih hl']
      constructor
      · rintro (rfl | ⟨hx, hpx, hy⟩)
        · refine ⟨List.mem_cons_self, hpa, ?_⟩
          intro y hy hyx
          rcases List.mem_cons.mp hy with rfl | hy
          · exact hpa
          · exact absurd hyx (hasym _ _ (ha y hy))
        · refine ⟨List.mem_cons_of_mem a hx, hpx, ?_⟩
          intro y hy' hyx
          rcases List.mem_cons.mp hy' with rfl | hy'
          · exact hpa
          · exact hy y hy' hyx
      · rintro ⟨hx, hpx, hy⟩
        rcases List.mem_cons.mp hx with rfl | hx
        · exact Or.inl rfl
        · exact Or.inr ⟨hx, hpx, fun y hm hyx => hy y (List.mem_cons_of_mem a hm) hyx⟩
    · rw [List.takeWhile_cons_of_neg hpa]
      constructor
      · simp
      · rintro ⟨hx, hpx, hy⟩
        exfalso
        rcases List.mem_cons.mp hx with rfl | hx
        · exact hpa hpx
        · exact hpa (hy a List.mem_cons_self (ha x hx))

end Lists

section Seek

variable {α β : Type} {cmp : α → α → Ordering}

/-- `MDB_SET_RANGE`: the cursor stands at the first key that is not below `k`. -/
def setRange (m : TreeMap α β cmp) (k : α) : List (α × β) :=
  m.toList.dropWhile (fun e => cmp e.1 k == .lt)

variable [TransCmp cmp]

theorem setRange_eq_filter (m : TreeMap α β cmp) (k : α) :
    setRange m k = m.toList.filter (fun e => !(cmp e.1 k == .lt)) := by
  apply dropWhile_eq_filter _ _ (TreeMap.ordered_keys_toList (t := m))
  intro a b hab hb
  rw [beq_iff_eq] at hb ⊢
  exact TransCmp.lt_trans hab hb

theorem setRange_pairwise (m : TreeMap α β cmp) (k : α) :
    (setRange m k).Pairwise (fun a b => cmp a.1 b.1 = .lt) := by
  rw [setRange_eq_filter]
  exact (TreeMap.ordered_keys_toList (t := m)).filter _

theorem mem_setRange [LawfulEqCmp cmp] (m : TreeMap α β cmp) (k a : α) (b : β) :
    (a, b) ∈ setRange m k ↔ m[a]? = some b ∧ cmp a k ≠ .lt := by
  rw [setRange_eq_filter, List.mem_filter, TreeMap.mem_toList_iff_getElem?_eq_some]
  simp

end Seek

section Delete

variable {α β : Type} {cmp : α → α → Ordering} [TransCmp cmp] [LawfulEqCmp cmp] [DecidableEq α]

def eraseAll (m : TreeMap α β cmp) (keys : List α) : TreeMap α β cmp :=
  keys.foldl (fun m k => m.erase k) m

theorem getElem?_eraseAll (m : TreeMap α β cmp) (keys : List α) (a : α) :
    (eraseAll m keys)[a]? = if a ∈ keys then none else m[a]? := by
  rw [eraseAll]
  induction keys generalizing m with
  | nil => rfl
  | cons k keys ih =>
    rw [List.foldl_cons, ih, TreeMap.getElem?_erase]
    simp only [LawfulEqCmp.compare_eq_iff_eq, List.mem_cons]
    by_cases hk : k = a
    · subst hk
      simp only [true_or, ↓reduceIte, ite_self]
    · simp only [hk, Ne.symm hk, false_or, ↓reduceIte]

end Delete

section Prefix

variable {γ β : Type} [Ord γ] [LawfulEqOrd γ]

/-- Between a string and one of its extensions, every string extends it too. -/
theorem prefix_of_between (p a b : List γ) (hpa : compare a p ≠ .lt)
    (hab : compare a b = .lt) (hb : p <+: b) : p <+: a := by
  induction p generalizing a b with
  | nil => exact List.nil_prefix
  | cons x p ih =>
    obtain ⟨t, rfl⟩ := hb
    cases a with
    | nil => exact absurd rfl hpa
    | cons y a =>
      rw [List.cons_append, List.compare_cons_cons] at hab
      rw [List.compare_cons_cons] at hpa
      cases hc : compare y x with
      | lt => simp [hc] at hpa
      | gt => simp [hc] at hab
      | eq =>
        have he : y = x := LawfulEqOrd.eq_of_compare hc
        subst he
        simp only [hc, Ordering.eq_then] at hab hpa
        rw [List.cons_prefix_cons]
        exact ⟨rfl, ih a (p ++ t) hpa hab (List.prefix_append p t)⟩

/-- The entries a cursor visits from `p` on until a key no longer starts with `p`. -/
def prefixScan [BEq γ] (m : TreeMap (List γ) β) (p : List γ) : List (List γ × β) :=
  (setRange m p).takeWhile (fun e => p.isPrefixOf e.1)

theorem not_lt_of_prefix (p k : List γ) (h : p <+: k) : compare k p ≠ .lt := by
  obtain ⟨t, rfl⟩ := h
  induction p with
  | nil => cases t <;> simp [compare, List.compareLex]
  | cons x p ih =>
    rw [List.cons_append, List.compare_cons_cons, ReflOrd.compare_self]
    exact ih

variable [BEq γ] [LawfulBEq γ] [TransOrd γ]

theorem prefixScan_eq_filter (m : TreeMap (List γ) β) (p : List γ) :
    prefixScan m p = (setRange m p).filter (fun e => p.isPrefixOf e.1) := by
  have hl : (setRange m p).Pairwise
      (fun a b => compare a.1 b.1 = .lt ∧ compare a.1 p ≠ .lt) := by
    apply (setRange_pairwise m p).imp_of_mem
    intro a b ha _ hab
    exact ⟨hab, ((mem_setRange m p a.1 a.2).mp ha).2⟩
  apply takeWhile_eq_filter _ _ hl
  intro a b hab hb
  rw [ List.isPrefixOf_iff_prefix] at hb ⊢
  exact prefix_of_between p a.1 b.1 hab.2 hab.1 hb

theorem mem_prefixScan (m : TreeMap (List γ) β) (p k : List γ) (v : β) :
    (k, v) ∈ prefixScan m p ↔ m[k]? = some v ∧ p <+: k := by
  rw [prefixScan_eq_filter, List.mem_filter, mem_setRange, List.isPrefixOf_iff_prefix]
  constructor
  · rintro ⟨⟨hm, _⟩, hp⟩
    exact ⟨hm, hp⟩
  · rintro ⟨hm, hp⟩
    exact ⟨⟨hm, not_lt_of_prefix p k hp⟩, hp⟩

end Prefix

end SortedCursor
