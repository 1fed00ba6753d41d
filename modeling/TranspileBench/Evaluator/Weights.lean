import TranspileBench.Lib.Hierarchy
import TranspileBench.Lib.Tally

/-!
The frozen weights of a panel: one is divided evenly among the groups of each dimension in
turn, and at the end among the cases of a group.
-/
namespace TranspileBench.Evaluator
open Hierarchy

def WEIGHT_DIMENSIONS : List String :=
  ["family", "optimization_level", "size_band", "topology", "native_basis",
    "input_group", "variant"]

/-- A case of a panel with its weight dimensions; a dimension may be missing. -/
structure WeightedCase (ι δ V : Type) where
  case_id : ι
  get : δ → Option V

section Weights
variable {ι δ V : Type} [DecidableEq ι] [DecidableEq V] (numeric : V)

/-- `row.get(dimension, "numeric")`. -/
def WeightedCase.value (row : WeightedCase ι δ V) (dimension : δ) : V :=
  (row.get dimension).getD numeric

/-- The assignments that `divideWeight` makes, in order. -/
def divideWeight : List δ → List (WeightedCase ι δ V) → ℚ → List (ι × ℚ)
  | [], rows, weight => rows.map fun row => (row.case_id, weight / rows.length)
  | dimension :: dimensions, rows, weight =>
      let children := groupBy (·.value numeric dimension) rows
      children.flatMap fun child => divideWeight dimensions child.2 (weight / children.length)

/-- The dictionary that is filled: the last assignment to an id counts. -/
def weights (dimensions : List δ) (cases : List (WeightedCase ι δ V)) : AList fun _ : ι => ℚ :=
  (divideWeight numeric dimensions cases 1).foldl
    (fun result entry => result.insert entry.1 entry.2) ∅

def hierarchicalWeights (dimensions : List δ) (cases : List (WeightedCase ι δ V)) :
    Except String (AList fun _ : ι => ℚ) :=
  if cases = [] then .error "Cannot weight an empty panel"
  else
    let result := weights numeric dimensions cases
    if result.entries.length ≠ cases.length then .error "Duplicate case IDs" else .ok result

def levels (dimensions : List δ) : List (WeightedCase ι δ V → V) :=
  dimensions.map fun dimension row => row.value numeric dimension

omit [DecidableEq ι] in
/-- Every row is assigned once, its share of the weight. -/
theorem divideWeight_perm (dimensions : List δ) (rows : List (WeightedCase ι δ V)) (weight : ℚ) :
    (divideWeight numeric dimensions rows weight).Perm
      (rows.map fun row => (row.case_id, weight * share (levels numeric dimensions) rows row)) := by
  induction dimensions generalizing rows weight with
  | nil =>
      have hrows : divideWeight numeric [] rows weight
          = rows.map fun row => (row.case_id, weight * share (levels numeric []) rows row) := by
        apply List.map_congr_left
        intro row _
        rw [levels, List.map_nil, share, mul_one_div]
      rw [hrows]
  | cons dimension dimensions ih =>
      let key : WeightedCase ι δ V → V := fun row => row.value numeric dimension
      obtain ⟨_, _, hparts⟩ := groupBy_spec key rows
      have hcount : (groupBy key rows).length = (rows.map key).dedup.length := by
        rw [← (groupBy_keys_perm key rows).length_eq, List.length_map]
      have hchild : ∀ child ∈ groupBy key rows,
          (divideWeight numeric dimensions child.2 (weight / (groupBy key rows).length)).Perm
            (child.2.map fun row =>
              (row.case_id, weight * share (levels numeric (dimension :: dimensions)) rows row))
                := by
        intro child hchild
        apply (ih child.2 _).trans
        apply List.Perm.of_eq
        apply List.map_congr_left
        intro row hrow
        have hpart := hparts child hchild
        rw [hpart] at hrow
        have hlevels : levels numeric (dimension :: dimensions)
            = key :: levels numeric dimensions := rfl
        rw [hpart, ← (mem_part.mp hrow).2, hlevels, share, hcount, ← mul_assoc, mul_one_div]
      have hall : (divideWeight numeric (dimension :: dimensions) rows weight).Perm
          ((groupBy key rows).flatMap fun child => child.2.map fun row =>
            (row.case_id, weight * share (levels numeric (dimension :: dimensions)) rows row)) :=
        List.Perm.flatMap_left _ hchild
      apply hall.trans
      rw [← List.map_flatMap]
      exact groupBy_perm.map _

theorem hierarchicalWeights_ok {dimensions : List δ} {cases : List (WeightedCase ι δ V)}
    {w : AList fun _ : ι => ℚ} :
    hierarchicalWeights numeric dimensions cases = .ok w
      ↔ cases ≠ [] ∧ (cases.map (·.case_id)).Nodup ∧ weights numeric dimensions cases = w := by
  have hids : ((divideWeight numeric dimensions cases 1).map (·.1)).Perm
      (cases.map (·.case_id)) := by
    have h := (divideWeight_perm numeric dimensions cases 1).map (·.1)
    rwa [List.map_map] at h
  have hsize : (weights numeric dimensions cases).entries.length = cases.length
      ↔ (cases.map (·.case_id)).Nodup := by
    rw [weights, Tally.size_insert, hids.dedup.length_eq]
    constructor
    · intro hlen
      rw [← List.dedup_eq_self]
      exact (List.dedup_sublist _).eq_of_length (by rw [hlen, List.length_map])
    · intro hnodup
      rw [hnodup.dedup, List.length_map]
  rw [hierarchicalWeights]
  by_cases hempty : cases = []
  · simp [hempty]
  · rw [if_neg hempty]
    by_cases hnodup : (cases.map (·.case_id)).Nodup
    · simp [hsize.mpr hnodup, hempty, hnodup]
    · simp [mt hsize.mp hnodup, hnodup]

theorem lookup_weights (dimensions : List δ) {cases : List (WeightedCase ι δ V)}
    (hnodup : (cases.map (·.case_id)).Nodup) (row : WeightedCase ι δ V) (hrow : row ∈ cases) :
    (weights numeric dimensions cases).lookup row.case_id
      = some (share (levels numeric dimensions) cases row) := by
  have hperm := divideWeight_perm numeric dimensions cases 1
  have hids : ((divideWeight numeric dimensions cases 1).map (·.1)).Nodup := by
    have h := hperm.map (·.1)
    rw [List.map_map] at h
    exact h.nodup_iff.mpr hnodup
  rw [weights, Tally.lookup_insert_nodup hids, hperm.mem_iff, List.mem_map]
  exact ⟨row, hrow, by rw [one_mul]⟩

theorem lookup_weights_none {dimensions : List δ} {cases : List (WeightedCase ι δ V)}
    (hnodup : (cases.map (·.case_id)).Nodup) {id : ι} (hid : id ∉ cases.map (·.case_id)) :
    (weights numeric dimensions cases).lookup id = none := by
  have hperm := divideWeight_perm numeric dimensions cases 1
  have hids : ((divideWeight numeric dimensions cases 1).map (·.1)).Nodup := by
    have h := hperm.map (·.1)
    rw [List.map_map] at h
    exact h.nodup_iff.mpr hnodup
  apply Option.eq_none_iff_forall_ne_some.mpr
  intro x hx
  rw [weights, Tally.lookup_insert_nodup hids, hperm.mem_iff, List.mem_map] at hx
  obtain ⟨row, hrow, heq⟩ := hx
  exact hid (List.mem_map.mpr ⟨row, hrow, congrArg Prod.fst heq⟩)

/-- The weights do not depend on the order of the cases. -/
theorem lookup_weights_perm {dimensions : List δ} {cases cases' : List (WeightedCase ι δ V)}
    (hnodup : (cases.map (·.case_id)).Nodup) (h : cases'.Perm cases) (id : ι) :
    (weights numeric dimensions cases').lookup id
      = (weights numeric dimensions cases).lookup id := by
  have hids : (cases'.map (·.case_id)).Perm (cases.map (·.case_id)) := h.map _
  have hnodup' := hids.nodup_iff.mpr hnodup
  by_cases hid : id ∈ cases.map (·.case_id)
  · obtain ⟨row, hrow, heq⟩ := List.mem_map.mp hid
    rw [← heq, lookup_weights numeric _ hnodup' _ (h.mem_iff.mpr hrow),
      lookup_weights numeric _ hnodup _ hrow, share_perm h]
  · rw [lookup_weights_none numeric hnodup' (mt hids.mem_iff.mp hid),
      lookup_weights_none numeric hnodup hid]

/-- What the chosen cases weigh together. -/
def weigh (w : AList fun _ : ι => ℚ) (cases : List (WeightedCase ι δ V))
    (chosen : WeightedCase ι δ V → Bool) : ℚ :=
  ((cases.filter chosen).map fun row => (w.lookup row.case_id).getD 0).sum

theorem weigh_weights {dimensions : List δ} {cases : List (WeightedCase ι δ V)}
    (hnodup : (cases.map (·.case_id)).Nodup) (chosen : WeightedCase ι δ V → Bool) :
    weigh (weights numeric dimensions cases) cases chosen
      = total (levels numeric dimensions) cases chosen := by
  rw [weigh, total]
  congr 1
  apply List.map_congr_left
  intro row hrow
  rw [lookup_weights numeric _ hnodup _ (List.mem_filter.mp hrow).1, Option.getD_some]

/-- The weights are refused for an empty panel and for repeated ids only. They are positive
and sum to one; groups with the same parent weigh the same, at every level, and so do cases
that are equal in all dimensions; and the order of the cases does not matter. -/
theorem hierarchicalWeights_fair (dimensions : List δ) (cases : List (WeightedCase ι δ V)) :
    ((∃ message, hierarchicalWeights numeric dimensions cases = .error message)
      ↔ cases = [] ∨ ¬ (cases.map (·.case_id)).Nodup)
    ∧ ∀ w, hierarchicalWeights numeric dimensions cases = .ok w →
      (∀ id, w.lookup id ≠ none ↔ id ∈ cases.map (·.case_id))
      ∧ (∀ row ∈ cases, ∃ x, w.lookup row.case_id = some x ∧ 0 < x)
      ∧ weigh w cases (fun _ => true) = 1
      ∧ (∀ k < dimensions.length, ∀ a ∈ cases, ∀ b ∈ cases,
          agree (levels numeric (dimensions.take k)) a b = true →
          weigh w cases (agree (levels numeric (dimensions.take (k + 1))) a)
            = weigh w cases (agree (levels numeric (dimensions.take (k + 1))) b))
      ∧ (∀ a ∈ cases, ∀ b ∈ cases, agree (levels numeric dimensions) a b = true →
          w.lookup a.case_id = w.lookup b.case_id)
      ∧ ∀ cases' : List (WeightedCase ι δ V), cases'.Perm cases →
          ∃ w', hierarchicalWeights numeric dimensions cases' = .ok w'
            ∧ ∀ id, w'.lookup id = w.lookup id := by
  constructor
  · have hok : (∃ w, hierarchicalWeights numeric dimensions cases = .ok w)
        ↔ cases ≠ [] ∧ (cases.map (·.case_id)).Nodup := by
      constructor
      · intro h
        obtain ⟨w, hw⟩ := h
        obtain ⟨hne, hnodup, _⟩ := (hierarchicalWeights_ok numeric).mp hw
        exact ⟨hne, hnodup⟩
      · intro h
        exact ⟨_, (hierarchicalWeights_ok numeric).mpr ⟨h.1, h.2, rfl⟩⟩
    cases hresult : hierarchicalWeights numeric dimensions cases with
    | error message =>
        apply iff_of_true ⟨message, rfl⟩
        by_contra hnone
        obtain ⟨hne, hnodup⟩ := not_or.mp hnone
        obtain ⟨w, hw⟩ := hok.mpr ⟨hne, not_not.mp hnodup⟩
        rw [hresult] at hw
        cases hw
    | ok w =>
        obtain ⟨hne, hnodup⟩ := hok.mp ⟨w, hresult⟩
        apply iff_of_false
        · intro h
          obtain ⟨message, h⟩ := h
          cases h
        · intro h
          cases h with
          | inl hempty => exact hne hempty
          | inr hrepeat => exact hrepeat hnodup
  · intro w hw
    obtain ⟨hne, hnodup, rfl⟩ := (hierarchicalWeights_ok numeric).mp hw
    have hlookup := fun row hrow =>
      lookup_weights numeric dimensions hnodup row hrow
    refine ⟨fun id => ?_, fun row hrow => ?_, ?_, fun k hk a ha b hb hab => ?_,
      fun a ha b hb hab => ?_, fun cases' hperm => ?_⟩
    · by_cases hid : id ∈ cases.map (·.case_id)
      · obtain ⟨row, hrow, heq⟩ := List.mem_map.mp hid
        rw [← heq, hlookup row hrow]
        exact iff_of_true (Option.some_ne_none _) (List.mem_map.mpr ⟨row, hrow, rfl⟩)
      · rw [lookup_weights_none numeric hnodup hid]
        exact iff_of_false (fun h => h rfl) hid
    · exact ⟨_, hlookup row hrow, share_pos hrow⟩
    · rw [weigh_weights numeric hnodup, total_all hne]
    · rw [weigh_weights numeric hnodup, weigh_weights numeric hnodup]
      have hlevels : ∀ n, levels numeric (dimensions.take n)
          = (levels numeric dimensions : List (WeightedCase ι δ V → V)).take n := by
        intro n
        rw [levels, levels, List.map_take]
      rw [hlevels] at hab ⊢
      apply total_siblings _ ha hb hab
      rwa [levels, List.length_map]
    · rw [hlookup a ha, hlookup b hb, share_agree hab]
    · have hne' : cases' ≠ [] := by
        intro hempty
        rw [hempty] at hperm
        exact hne (List.nil_perm.mp hperm)
      have hnodup' := (hperm.map (·.case_id)).nodup_iff.mpr hnodup
      exact ⟨_, (hierarchicalWeights_ok numeric).mpr ⟨hne', hnodup', rfl⟩,
        lookup_weights_perm numeric hnodup hperm⟩

end Weights

/-- Two cases of one family share its half. -/
example :
    let case (id family : String) : WeightedCase String String String :=
      ⟨id, fun dimension => if dimension = "family" then some family else none⟩
    let result := hierarchicalWeights "numeric" WEIGHT_DIMENSIONS
      [case "a" "qft", case "b" "qft", case "c" "ising"]
    result.toOption.map (fun w => ["a", "b", "c"].map w.lookup)
      = some [some (1 / 4), some (1 / 4), some (1 / 2)] := by
  decide +kernel

end TranspileBench.Evaluator
