import Mathlib

/-!
Keys that come up again and again with weights, and a list of those whose weights reach a
limit, which moves a key to its end whenever the key comes up. The list is the keys in the
order of their last occurrences, without those below the limit.
-/
namespace Recency
variable {κ α : Type} [DecidableEq κ]

/-- All the weight that came up with a key. -/
def weight (items : List (κ × ℕ)) (k : κ) : ℕ :=
  ((items.filter fun item => item.1 = k).map (·.2)).sum

/-- Add an item's weight to its key; a key that reaches the limit goes to the end. -/
def strike (limit : ℕ) (acc : List (κ × ℕ) × List κ) (item : κ × ℕ) : List (κ × ℕ) × List κ :=
  let strikes := (acc.1.lookup item.1).getD 0 + item.2
  ((item.1, strikes) :: acc.1,
    if limit ≤ strikes then acc.2.filter (· != item.1) ++ [item.1] else acc.2)

theorem dedup_concat (keys : List κ) (k : κ) :
    (keys ++ [k]).dedup = keys.dedup.filter (· != k) ++ [k] := by
  induction keys with
  | nil => simp
  | cons x keys ih =>
      rw [List.cons_append]
      by_cases hx : x = k
      · subst hx
        have hlater : x ∈ keys ++ [x] := by simp
        rw [List.dedup_cons_of_mem hlater, ih]
        by_cases hmem : x ∈ keys
        · rw [List.dedup_cons_of_mem hmem]
        · rw [List.dedup_cons_of_notMem hmem, List.filter_cons_of_neg (by simp)]
      · by_cases hmem : x ∈ keys
        · have hlater : x ∈ keys ++ [k] := List.mem_append_left _ hmem
          rw [List.dedup_cons_of_mem hlater, List.dedup_cons_of_mem hmem, ih]
        · have hlater : x ∉ keys ++ [k] := by simp [hmem, hx]
          rw [List.dedup_cons_of_notMem hlater, List.dedup_cons_of_notMem hmem,
            List.filter_cons_of_pos (by simpa using hx), ih, List.cons_append]

theorem weight_concat (items : List (κ × ℕ)) (item : κ × ℕ) (k : κ) :
    weight (items ++ [item]) k = weight items k + if item.1 = k then item.2 else 0 := by
  rw [weight, List.filter_append, List.map_append, List.sum_append, weight]
  by_cases h : item.1 = k
  · simp [h]
  · simp [h]

theorem weight_pos_mem {items : List (κ × ℕ)} {k : κ} (h : 0 < weight items k) :
    k ∈ items.map (·.1) := by
  by_contra hnone
  have hfilter : items.filter (fun item => item.1 = k) = [] := by
    apply List.filter_eq_nil_iff.mpr
    intro item hitem heq
    exact hnone (List.mem_map.mpr ⟨item, hitem, of_decide_eq_true heq⟩)
  rw [weight, hfilter] at h
  exact absurd h (Nat.lt_irrefl 0)

/-- The pass keeps the weights, and lists what reached the limit by its last occurrence. -/
theorem strike_foldl {limit : ℕ} (items : List (κ × ℕ)) :
    (∀ k, ((items.foldl (strike limit) ([], [])).1.lookup k).getD 0 = weight items k)
      ∧ (items.foldl (strike limit) ([], [])).2
        = (items.map (·.1)).dedup.filter fun k => limit ≤ weight items k := by
  induction items using List.reverseRecOn with
  | nil => exact ⟨fun k => rfl, rfl⟩
  | append_singleton items item ih =>
      obtain ⟨hstrikes, hlist⟩ := ih
      rw [List.foldl_append, List.foldl_cons, List.foldl_nil]
      constructor
      · intro k
        rw [weight_concat, strike, hstrikes]
        by_cases h : k = item.1
        · subst h
          simp
        · rw [List.lookup_cons, beq_eq_false_iff_ne.mpr h, if_neg (Ne.symm h), Nat.add_zero]
          exact hstrikes k
      · have hothers : ∀ k, k ≠ item.1 → weight (items ++ [item]) k = weight items k := by
          intro k hk
          rw [weight_concat, if_neg (Ne.symm hk), Nat.add_zero]
        have hkept : ((items.map (·.1)).dedup.filter (· != item.1)).filter
              (fun k => limit ≤ weight (items ++ [item]) k)
            = ((items.map (·.1)).dedup.filter fun k => limit ≤ weight items k).filter
              (· != item.1) := by
          rw [List.filter_filter, List.filter_filter]
          apply List.filter_congr
          intro k _
          by_cases hk : k = item.1
          · simp [hk]
          · rw [hothers k hk, Bool.and_comm]
        rw [strike, hstrikes, hlist, List.map_append, List.map_cons, List.map_nil, dedup_concat,
          List.filter_append, hkept]
        have hself : weight (items ++ [item]) item.1 = weight items item.1 + item.2 := by
          rw [weight_concat, if_pos rfl]
        by_cases h : limit ≤ weight items item.1 + item.2
        · simp [h, hself]
        · have hbelow : ¬ limit ≤ weight items item.1 := by omega
          have habsent : ∀ k ∈ (items.map (·.1)).dedup.filter (fun k => limit ≤ weight items k),
              (k != item.1) = true := by
            intro k hk
            apply bne_iff_ne.mpr
            intro heq
            exact hbelow (heq ▸ of_decide_eq_true (List.mem_filter.mp hk).2)
          simp [h, hself, List.filter_eq_self.mpr habsent]

/-- The keys of a sorted list come in the order of their last stamps. -/
theorem dedup_last (key : α → κ) (stamp : α → ℕ) {xs : List α}
    (hsorted : xs.Pairwise fun x y => stamp x ≤ stamp y) :
    (xs.map key).dedup.Pairwise fun a b =>
      ∀ x ∈ xs, key x = a → ∃ y ∈ xs, key y = b ∧ stamp x ≤ stamp y := by
  induction xs using List.reverseRecOn with
  | nil => exact List.Pairwise.nil
  | append_singleton xs last ih =>
      have hbefore := List.pairwise_append.mp hsorted
      have hlast : ∀ x ∈ xs ++ [last], stamp x ≤ stamp last := by
        intro x hx
        cases List.mem_append.mp hx with
        | inl hx => exact hbefore.2.2 x hx last List.mem_cons_self
        | inr hx => exact Nat.le_of_eq (congrArg stamp (List.mem_singleton.mp hx))
      rw [List.map_append, List.map_cons, List.map_nil, dedup_concat]
      apply List.pairwise_append.mpr
      refine ⟨?_, List.pairwise_singleton _ _, ?_⟩
      · apply ((ih hbefore.1).filter _).imp_of_mem
        intro a b ha _ hab x hx hkey
        have hne : a ≠ key last := bne_iff_ne.mp (List.mem_filter.mp ha).2
        cases List.mem_append.mp hx with
        | inl hx =>
            obtain ⟨y, hy, hb, hle⟩ := hab x hx hkey
            exact ⟨y, List.mem_append_left _ hy, hb, hle⟩
        | inr hx =>
            have heq : a = key last := by rw [← hkey, List.mem_singleton.mp hx]
            exact absurd heq hne
      · intro a _ b hb x hx _
        refine ⟨last, by simp, (List.mem_singleton.mp hb).symm, hlast x hx⟩

section Sorting
variable (r : α → α → Prop) [DecidableRel r] [Std.Total r] [IsTrans α r]

omit [Std.Total r] [IsTrans α r] in
theorem orderedInsert_front {a : α} {xs : List α} (h : ∀ x ∈ xs, r a x) :
    xs.orderedInsert r a = a :: xs := by
  cases xs with
  | nil => rfl
  | cons x xs => rw [List.orderedInsert, if_pos (h x List.mem_cons_self)]

omit [Std.Total r] in
theorem filter_orderedInsert (p : α → Bool) (a : α) {xs : List α} (hxs : xs.Pairwise r) :
    (xs.orderedInsert r a).filter p
      = if p a then (xs.filter p).orderedInsert r a else xs.filter p := by
  induction xs with
  | nil =>
      by_cases ha : p a
      · simp [ha]
      · simp [ha]
  | cons x xs ih =>
      obtain ⟨hx, hxs⟩ := List.pairwise_cons.mp hxs
      by_cases hax : r a x
      · have hfront : ∀ y ∈ (x :: xs).filter p, r a y := by
          intro y hy
          cases List.mem_cons.mp (List.mem_filter.mp hy).1 with
          | inl heq => exact heq ▸ hax
          | inr hmem => exact IsTrans.trans a x y hax (hx y hmem)
        rw [List.orderedInsert, if_pos hax, orderedInsert_front r hfront, List.filter_cons]
      · rw [List.orderedInsert, if_neg hax, List.filter_cons, ih hxs]
        by_cases hpx : p x
        · by_cases ha : p a
          · simp [hpx, ha, hax]
          · simp [hpx, ha]
        · by_cases ha : p a
          · simp [hpx, ha]
          · simp [hpx, ha]

/-- Sorting does not depend on what is filtered out. -/
theorem filter_insertionSort (p : α → Bool) (xs : List α) :
    (xs.insertionSort r).filter p = (xs.filter p).insertionSort r := by
  induction xs with
  | nil => rfl
  | cons x xs ih =>
      rw [List.insertionSort_cons,
        filter_orderedInsert r p x (List.pairwise_insertionSort r xs), ih]
      by_cases hx : p x
      · rw [if_pos hx, List.filter_cons_of_pos hx, List.insertionSort_cons]
      · rw [if_neg hx, List.filter_cons_of_neg hx]

end Sorting
end Recency
