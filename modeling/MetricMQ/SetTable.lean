import Std.Data.TreeMap
import Std.Data.TreeSet
import Mathlib.Data.Set.Card

/-! A binary relation kept as a sorted map from keys to sets: membership, and the number of
related pairs and of related keys. -/
namespace SetTable

open Std

variable {α β : Type} [Ord α] [TransOrd α] [LawfulEqOrd α] [Ord β] [TransOrd β] [LawfulEqOrd β]

def Related (m : TreeMap α (TreeSet β)) (a : α) (b : β) : Prop := ∃ s, m[a]? = some s ∧ b ∈ s

/-- Keys without members are not kept. -/
def NoEmpty (m : TreeMap α (TreeSet β)) : Prop :=
  ∀ (a : α) (s : TreeSet β), m[a]? = some s → s.isEmpty = false

variable (m : TreeMap α (TreeSet β))

omit [LawfulEqOrd α] [TransOrd β] [LawfulEqOrd β] in
theorem related_iff_mem_getD (a : α) (b : β) : Related m a b ↔ b ∈ m.getD a ∅ := by
  rw [TreeMap.getD_eq_getD_getElem?, Related]
  cases m[a]? with
  | none => simp
  | some s => simp

theorem nodup_toList (s : TreeSet β) : s.toList.Nodup := by
  apply (TreeSet.distinct_toList (t := s)).imp
  intro a b hab he
  exact hab (by rw [he]; exact ReflCmp.compare_self)

/-- All related pairs, key by key. -/
def pairs : List (α × β) := m.toList.flatMap fun e => e.2.toList.map (Prod.mk e.1)

theorem mem_pairs (p : α × β) : p ∈ pairs m ↔ Related m p.1 p.2 := by
  rw [pairs, List.mem_flatMap]
  constructor
  · rintro ⟨⟨a, s⟩, he, hp⟩
    obtain ⟨b, hb, rfl⟩ := List.mem_map.mp hp
    exact ⟨s, TreeMap.mem_toList_iff_getElem?_eq_some.mp he, TreeSet.mem_toList.mp hb⟩
  · rintro ⟨s, hs, hb⟩
    refine ⟨(p.1, s), TreeMap.mem_toList_iff_getElem?_eq_some.mpr hs, ?_⟩
    exact List.mem_map.mpr ⟨p.2, TreeSet.mem_toList.mpr hb, rfl⟩

theorem nodup_pairs : (pairs m).Nodup := by
  rw [pairs, List.nodup_flatMap]
  constructor
  · intro e _
    exact (nodup_toList e.2).map fun _ _ h => (Prod.mk.inj h).2
  · -- two entries of a map have different keys
    have hk : m.toList.Pairwise fun x y => x.1 ≠ y.1 := by
      apply (TreeMap.ordered_keys_toList (t := m)).imp
      intro x y hxy he
      rw [he, ReflOrd.compare_self] at hxy
      cases hxy
    apply hk.imp
    intro x y hne p hx hy
    obtain ⟨b, -, rfl⟩ := List.mem_map.mp hx
    obtain ⟨c, -, hc⟩ := List.mem_map.mp hy
    exact hne (Prod.mk.inj hc).1.symm

omit [TransOrd α] [LawfulEqOrd α] [TransOrd β] [LawfulEqOrd β] in
theorem values_eq : m.values = m.toList.map Prod.snd := by
  change DTreeMap.Internal.Impl.values _ = (DTreeMap.Internal.Impl.Const.toList _).map Prod.snd
  rw [DTreeMap.Internal.Impl.values_eq_map_snd, DTreeMap.Internal.Impl.Const.toList_eq_toListModel_map,
    List.map_map]
  rfl

omit [TransOrd α] [LawfulEqOrd α] [LawfulEqOrd β] in
theorem length_pairs : (pairs m).length = (m.values.map TreeSet.size).sum := by
  rw [pairs, List.length_flatMap, values_eq, List.map_map]
  congr 1
  apply List.map_congr_left
  intro e _
  simp

theorem finite_related : {p : α × β | Related m p.1 p.2}.Finite := by
  apply (pairs m).finite_toSet.subset
  intro p hp
  exact (mem_pairs m p).mpr hp

theorem ncard_related : {p : α × β | Related m p.1 p.2}.ncard = (m.values.map TreeSet.size).sum := by
  classical
  have hset : {p : α × β | Related m p.1 p.2} = ↑(pairs m).toFinset := by
    ext p
    simp [mem_pairs]
  rw [hset, Set.ncard_coe_finset, List.toFinset_card_of_nodup (nodup_pairs m), length_pairs]

omit [LawfulEqOrd β] in
theorem ncard_keys (h : NoEmpty m) : {a : α | ∃ b, Related m a b}.ncard = m.size := by
  classical
  have hset : {a : α | ∃ b, Related m a b} = ↑m.keys.toFinset := by
    ext a
    rw [Set.mem_ofPred_eq, List.coe_toFinset, Set.mem_ofPred_eq, TreeMap.mem_keys,
      TreeMap.mem_iff_isSome_getElem?, Option.isSome_iff_exists]
    constructor
    · rintro ⟨b, s, hs, -⟩
      exact ⟨s, hs⟩
    · rintro ⟨s, hs⟩
      obtain ⟨b, hb⟩ := TreeSet.isEmpty_eq_false_iff_exists_mem.mp (h a s hs)
      exact ⟨b, s, hs, hb⟩
  have hn : m.keys.Nodup := by
    apply (TreeMap.distinct_keys (t := m)).imp
    intro a b hab he
    exact hab (by rw [he]; exact ReflCmp.compare_self)
  rw [hset, Set.ncard_coe_finset, List.toFinset_card_of_nodup hn, TreeMap.length_keys]

omit [LawfulEqOrd α] in
/-- The members of one key. -/
theorem ncard_row (a : α) : {b : β | Related m a b}.ncard = (m.getD a ∅).size := by
  classical
  have hset : {b : β | Related m a b} = ↑(m.getD a ∅).toList.toFinset := by
    ext b
    simp [related_iff_mem_getD]
  rw [hset, Set.ncard_coe_finset, List.toFinset_card_of_nodup (nodup_toList _), TreeSet.length_toList]

omit [TransOrd β] [LawfulEqOrd β] in
/-- Without empty sets there are at least as many pairs as keys. -/
theorem size_le_sum (h : NoEmpty m) : m.size ≤ (m.values.map TreeSet.size).sum := by
  rw [← TreeMap.length_keys, ← TreeMap.map_fst_toList_eq_keys, values_eq,
    List.map_map, List.length_map]
  have hpos : ∀ n ∈ m.toList.map (TreeSet.size ∘ Prod.snd), 1 ≤ n := by
    intro n hn
    obtain ⟨⟨a, s⟩, he, rfl⟩ := List.mem_map.mp hn
    have hs := h a s (TreeMap.mem_toList_iff_getElem?_eq_some.mp he)
    rw [TreeSet.isEmpty_eq_size_eq_zero] at hs
    simp only [Function.comp_apply]
    simp at hs
    omega
  simpa using List.length_le_sum_of_one_le _ hpos

end SetTable
