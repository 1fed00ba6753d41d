import Mathlib.Algebra.BigOperators.Group.List.Basic
import Mathlib.Algebra.Order.BigOperators.Group.List
import Mathlib.Algebra.Order.Field.Basic
import Mathlib.Data.List.Sort

/-!
Exact statistics of lists over an ordered field: the median of the sorted list, the mean
and the sample variance. Replacing every value by one at least as large, in place, keeps the
order of the two sorted lists, and so of the medians and the means.
-/
namespace Statistics
open List

section Sorting
variable {α : Type} [LinearOrder α]

/-- Inserting the larger value into the larger list gives the larger list. -/
theorem forall₂_orderedInsert {xs ys : List α} (h : Forall₂ (· ≤ ·) xs ys)
    (hxs : xs.Pairwise (· ≤ ·)) (hys : ys.Pairwise (· ≤ ·)) {x y : α} (hxy : x ≤ y) :
    Forall₂ (· ≤ ·) (xs.orderedInsert (· ≤ ·) x) (ys.orderedInsert (· ≤ ·) y) := by
  induction h generalizing x y with
  | nil => exact .cons hxy .nil
  | @cons a b as bs hab htail ih =>
      obtain ⟨ha, has⟩ := pairwise_cons.mp hxs
      obtain ⟨hb, hbs⟩ := pairwise_cons.mp hys
      -- a value in front of its list is the one inserted into the rest of it
      have front : ∀ {c : α} {cs : List α}, (∀ z ∈ cs, c ≤ z) →
          cs.orderedInsert (· ≤ ·) c = c :: cs := by
        intro c cs hc
        cases cs with
        | nil => rfl
        | cons z zs => exact orderedInsert_cons_of_le _ zs (hc z (mem_cons_self ..))
      by_cases hxa : x ≤ a <;> by_cases hyb : y ≤ b
      · rw [orderedInsert_cons_of_le _ as hxa, orderedInsert_cons_of_le _ bs hyb]
        exact .cons hxy (.cons hab htail)
      · rw [orderedInsert_cons_of_le _ as hxa, orderedInsert_of_not_le _ bs hyb, ← front ha]
        exact .cons (hxa.trans hab) (ih has hbs (hab.trans (le_of_not_ge hyb)))
      · rw [orderedInsert_of_not_le _ as hxa, orderedInsert_cons_of_le _ bs hyb, ← front hb]
        exact .cons ((le_of_not_ge hxa).trans hxy) (ih has hbs (hxy.trans hyb))
      · rw [orderedInsert_of_not_le _ as hxa, orderedInsert_of_not_le _ bs hyb]
        exact .cons hab (ih has hbs hxy)

/-- Sorting keeps a list below another: the smallest values, the next ones, and so on. -/
theorem forall₂_insertionSort {xs ys : List α} (h : Forall₂ (· ≤ ·) xs ys) :
    Forall₂ (· ≤ ·) (xs.insertionSort (· ≤ ·)) (ys.insertionSort (· ≤ ·)) := by
  induction h with
  | nil => exact .nil
  | cons hxy _ ih =>
      rw [insertionSort_cons, insertionSort_cons]
      exact forall₂_orderedInsert ih (pairwise_insertionSort _ _) (pairwise_insertionSort _ _) hxy

theorem forall₂_getD {xs ys : List α} (h : Forall₂ (· ≤ ·) xs ys) (i : Nat) (d : α) :
    xs.getD i d ≤ ys.getD i d := by
  induction h generalizing i with
  | nil => exact le_refl _
  | cons hxy _ ih =>
      cases i with
      | zero => simpa using hxy
      | succ i => simpa using ih i

end Sorting

section Field
variable {K : Type} [Field K] [LinearOrder K]

/-- The middle of the sorted values, or the mean of the two in the middle. -/
def median (values : List K) : K :=
  let data := values.insertionSort (· ≤ ·)
  let i := data.length / 2
  if data.length % 2 = 1 then data.getD i 0 else (data.getD (i - 1) 0 + data.getD i 0) / 2

def mean (values : List K) : K := values.sum / values.length

/-- The squared deviations from the mean, over one less than the number of values. -/
def variance (values : List K) : K :=
  (values.map fun x => (x - mean values) ^ 2).sum / (values.length - 1 : K)

variable [IsStrictOrderedRing K] {xs ys : List K}

theorem median_mono (h : Forall₂ (· ≤ ·) xs ys) : median xs ≤ median ys := by
  have hsort := forall₂_insertionSort h
  simp only [median, length_insertionSort, h.length_eq]
  split
  · exact forall₂_getD hsort _ _
  · have hlow := forall₂_getD hsort (ys.length / 2 - 1) 0
    have hhigh := forall₂_getD hsort (ys.length / 2) 0
    exact div_le_div_of_nonneg_right (add_le_add hlow hhigh) (by norm_num)

theorem forall₂_median {rounds rounds' : List (List K)}
    (h : Forall₂ (Forall₂ (· ≤ ·)) rounds rounds') :
    Forall₂ (· ≤ ·) (rounds.map median) (rounds'.map median) := by
  rw [forall₂_map_left_iff, forall₂_map_right_iff]
  exact h.imp fun _ _ => median_mono

/-- The median of positive values is positive. -/
theorem median_pos (hne : xs ≠ []) (h : ∀ x ∈ xs, 0 < x) : 0 < median xs := by
  have hlen : 0 < xs.length := length_pos_iff.mpr hne
  have hentry : ∀ i, i < xs.length → 0 < (xs.insertionSort (· ≤ ·)).getD i 0 := by
    intro i hi
    rw [List.getD_eq_getElem?_getD, List.getElem?_eq_getElem (by simpa using hi)]
    exact h _ ((mem_insertionSort _).mp (getElem_mem _))
  simp only [median, length_insertionSort]
  split
  · exact hentry _ (by omega)
  · have hlow := hentry (xs.length / 2 - 1) (by omega)
    have hhigh := hentry (xs.length / 2) (by omega)
    exact div_pos (add_pos hlow hhigh) (by norm_num)

theorem mean_mono (h : Forall₂ (· ≤ ·) xs ys) : mean xs ≤ mean ys := by
  unfold mean
  rw [h.length_eq]
  exact div_le_div_of_nonneg_right h.sum_le_sum (Nat.cast_nonneg _)

theorem mean_pos (hne : xs ≠ []) (h : ∀ x ∈ xs, 0 < x) : 0 < mean xs :=
  div_pos (sum_pos xs h hne) (Nat.cast_pos.mpr (length_pos_iff.mpr hne))

theorem mean_nonpos (h : ∀ x ∈ xs, x ≤ 0) : mean xs ≤ 0 := by
  have hsum : xs.sum ≤ xs.length • (0 : K) := sum_le_card_nsmul xs 0 h
  rw [nsmul_zero] at hsum
  exact div_nonpos_of_nonpos_of_nonneg hsum (Nat.cast_nonneg _)

omit [LinearOrder K] [IsStrictOrderedRing K] in
theorem mean_zero (h : ∀ x ∈ xs, x = 0) : mean xs = 0 := by
  rw [mean, sum_eq_zero h, zero_div]

omit [LinearOrder K] [IsStrictOrderedRing K] in
/-- Values that are all zero do not vary. -/
theorem variance_zero (h : ∀ x ∈ xs, x = 0) : variance xs = 0 := by
  rw [variance, mean_zero h, sum_eq_zero, zero_div]
  intro square hsquare
  obtain ⟨x, hx, rfl⟩ := mem_map.mp hsquare
  rw [h x hx, sub_self]
  exact zero_pow two_ne_zero

end Field
end Statistics
