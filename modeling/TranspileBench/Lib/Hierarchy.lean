import Mathlib.Algebra.BigOperators.Ring.List
import Mathlib.Algebra.Order.BigOperators.Group.List
import Mathlib.Algebra.Order.Field.Rat
import Mathlib.Data.List.Dedup
import Mathlib.Data.List.Induction
import Mathlib.Tactic.FieldSimp
import Mathlib.Tactic.Positivity

/-!
Rows grouped by one key after another, and the share of each row when every group divides
what it gets evenly among the groups below it. The shares of all rows are one, and groups
with the same parent get the same.
-/
namespace Hierarchy
variable {α V : Type} [DecidableEq V]

/-! ## Grouping by one key -/

/-- Append a row to its group, which is new when the row is the first with its key. -/
def addRow (key : α → V) (groups : List (V × List α)) (row : α) : List (V × List α) :=
  if key row ∈ groups.map (·.1) then
    groups.map fun g => if g.1 = key row then (g.1, g.2 ++ [row]) else g
  else groups ++ [(key row, [row])]

/-- A dictionary of the rows with each key. -/
def groupBy (key : α → V) (rows : List α) : List (V × List α) := rows.foldl (addRow key) []

/-- The rows with one value of the key. -/
def part (key : α → V) (rows : List α) (v : V) : List α := rows.filter fun row => key row = v

section Grouping
variable {key : α → V} {rows : List α}

theorem mem_part {row : α} {v : V} : row ∈ part key rows v ↔ row ∈ rows ∧ key row = v := by
  simp [part]

theorem part_concat (row : α) (v : V) :
    part key (rows ++ [row]) v = part key rows v ++ if key row = v then [row] else [] := by
  rw [part, List.filter_append, part]
  by_cases h : key row = v
  · simp [h]
  · simp [h]

theorem groupBy_spec (key : α → V) (rows : List α) :
    ((groupBy key rows).map (·.1)).Nodup
      ∧ (∀ v, v ∈ (groupBy key rows).map (·.1) ↔ v ∈ rows.map key)
      ∧ ∀ g ∈ groupBy key rows, g.2 = part key rows g.1 := by
  induction rows using List.reverseRecOn with
  | nil => exact ⟨List.Pairwise.nil, fun v => Iff.rfl, fun g hg => absurd hg List.not_mem_nil⟩
  | append_singleton rows row ih =>
      obtain ⟨honce, hkeys, hparts⟩ := ih
      have hstep : groupBy key (rows ++ [row]) = addRow key (groupBy key rows) row := by
        rw [groupBy, List.foldl_append]
        rfl
      rw [hstep, addRow]
      by_cases hold : key row ∈ (groupBy key rows).map (·.1)
      · rw [if_pos hold]
        have hsame : ((groupBy key rows).map
            fun g => if g.1 = key row then (g.1, g.2 ++ [row]) else g).map (·.1)
              = (groupBy key rows).map (·.1) := by
          rw [List.map_map]
          apply List.map_congr_left
          intro g _
          by_cases h : g.1 = key row
          · simp [h]
          · simp [h]
        rw [hsame]
        refine ⟨honce, fun v => ?_, fun g hg => ?_⟩
        · rw [hkeys, List.map_append, List.mem_append, List.map_singleton, List.mem_singleton]
          apply (or_iff_left_of_imp _).symm
          intro hv
          exact hv ▸ (hkeys _).mp hold
        · obtain ⟨g', hg', rfl⟩ := List.mem_map.mp hg
          by_cases h : g'.1 = key row
          · rw [if_pos h, part_concat, if_pos h.symm, hparts g' hg']
          · rw [if_neg h, part_concat, if_neg (Ne.symm h), List.append_nil, hparts g' hg']
      · rw [if_neg hold]
        refine ⟨?_, fun v => ?_, fun g hg => ?_⟩
        · rw [List.map_append]
          apply List.nodup_append.mpr
          refine ⟨honce, List.nodup_cons.mpr ⟨List.not_mem_nil, List.Pairwise.nil⟩, ?_⟩
          intro v hv v' hv' heq
          have hnew : v' = key row := List.mem_singleton.mp hv'
          exact hold (hnew ▸ heq ▸ hv)
        · rw [List.map_append, List.mem_append, hkeys, List.map_append, List.mem_append]
          rfl
        · rw [part_concat]
          cases List.mem_append.mp hg with
          | inl hg =>
              have hne : key row ≠ g.1 := fun heq => hold (heq ▸ List.mem_map.mpr ⟨g, hg, rfl⟩)
              rw [if_neg hne, List.append_nil, hparts g hg]
          | inr hg =>
              rw [List.mem_singleton.mp hg, if_pos rfl]
              have hnone : part key rows (key row) = [] := by
                apply List.filter_eq_nil_iff.mpr
                intro r hr heq
                exact hold ((hkeys _).mpr (List.mem_map.mpr ⟨r, hr, of_decide_eq_true heq⟩))
              rw [hnone, List.nil_append]

theorem groupBy_keys_perm (key : α → V) (rows : List α) :
    ((groupBy key rows).map (·.1)).Perm (rows.map key).dedup := by
  obtain ⟨honce, hkeys, _⟩ := groupBy_spec key rows
  apply (List.perm_ext_iff_of_nodup honce (List.nodup_dedup _)).mpr
  intro v
  rw [hkeys, List.mem_dedup]

theorem parts_perm (key : α → V) {rows : List α} {values : List V} (honce : values.Nodup)
    (hall : ∀ row ∈ rows, key row ∈ values) :
    (values.flatMap (part key rows)).Perm rows := by
  induction values generalizing rows with
  | nil =>
      have hnone : rows = [] := List.eq_nil_iff_forall_not_mem.mpr fun row hrow =>
        List.not_mem_nil (hall row hrow)
      rw [hnone]
      exact List.Perm.refl _
  | cons v values ih =>
      obtain ⟨hv, honce⟩ := List.nodup_cons.mp honce
      let others := rows.filter fun row => ¬ key row = v
      have hothers : ∀ w ∈ values, part key rows w = part key others w := by
        intro w hw
        have hne : w ≠ v := fun heq => hv (heq ▸ hw)
        rw [part, part, List.filter_filter]
        apply List.filter_congr
        intro row _
        by_cases h : key row = w
        · simp [h, hne]
        · simp [h]
      have hrest : (values.flatMap (part key others)).Perm others := by
        apply ih honce
        intro row hrow
        obtain ⟨hmem, hne⟩ := List.mem_filter.mp hrow
        cases List.mem_cons.mp (hall row hmem) with
        | inl heq => simp [heq] at hne
        | inr h => exact h
      have hsplit : (part key rows v ++ others).Perm rows := by
        have h := List.filter_append_perm (fun row => decide (key row = v)) rows
        simpa [part, others] using h
      rw [List.flatMap_cons, List.flatMap_congr hothers]
      exact (hrest.append_left _).trans hsplit

theorem groupBy_perm : ((groupBy key rows).flatMap (·.2)).Perm rows := by
  obtain ⟨honce, hkeys, hparts⟩ := groupBy_spec key rows
  have hvalues : (groupBy key rows).flatMap (·.2)
      = ((groupBy key rows).map (·.1)).flatMap (part key rows) := by
    rw [List.flatMap_map]
    exact List.flatMap_congr hparts
  rw [hvalues]
  exact parts_perm key honce fun row hrow => (hkeys _).mpr (List.mem_map.mpr ⟨row, hrow, rfl⟩)

end Grouping

/-! ## Dividing evenly -/

/-- What a row gets of one, when each level divides evenly among its groups, and the last
groups among their rows. -/
def share : List (α → V) → List α → α → ℚ
  | [], rows, _ => 1 / rows.length
  | key :: levels, rows, row =>
      1 / (rows.map key).dedup.length * share levels (part key rows (key row)) row

/-- The rows have the same values at all these levels. -/
def agree (levels : List (α → V)) (a b : α) : Bool := levels.all fun key => key a = key b

/-- What the chosen rows get together. -/
def total (levels : List (α → V)) (rows : List α) (chosen : α → Bool) : ℚ :=
  ((rows.filter chosen).map (share levels rows)).sum

section Shares
variable {rows : List α} {levels : List (α → V)}

theorem dedup_length_pos (key : α → V) {row : α} (h : row ∈ rows) :
    (0 : ℚ) < (rows.map key).dedup.length := by
  have hmem : key row ∈ (rows.map key).dedup := List.mem_dedup.mpr (List.mem_map.mpr ⟨row, h, rfl⟩)
  exact Nat.cast_pos.mpr (List.length_pos_of_mem hmem)

theorem share_pos {row : α} (h : row ∈ rows) : 0 < share levels rows row := by
  induction levels generalizing rows with
  | nil =>
      have hpos : (0 : ℚ) < rows.length := Nat.cast_pos.mpr (List.length_pos_of_mem h)
      exact one_div_pos.mpr hpos
  | cons key levels ih =>
      have hrest := ih (mem_part.mpr ⟨h, rfl⟩ : row ∈ part key rows (key row))
      exact mul_pos (one_div_pos.mpr (dedup_length_pos _ h)) hrest

theorem share_perm {rows' : List α} (h : rows.Perm rows') (row : α) :
    share levels rows row = share levels rows' row := by
  induction levels generalizing rows rows' with
  | nil => rw [share, share, h.length_eq]
  | cons key levels ih =>
      rw [share, share, (h.map key).dedup.length_eq]
      congr 1
      exact ih (h.filter _)

theorem share_agree {a b : α} (h : agree levels a b = true) :
    share levels rows a = share levels rows b := by
  induction levels generalizing rows with
  | nil => rfl
  | cons key levels ih =>
      rw [agree, List.all_cons, Bool.and_eq_true] at h
      rw [share, share, of_decide_eq_true h.1, ih h.2]

/-- At the rows of one group, the level above counts by its part of the whole. -/
theorem sum_part (rows : List α) (levels : List (α → V)) (key : α → V) (v : V) (chosen : α → Bool) :
    ((rows.filter fun row => key row = v && chosen row).map (share (key :: levels) rows)).sum
      = 1 / (rows.map key).dedup.length * total levels (part key rows v) chosen := by
  have hrows : (rows.filter fun row => key row = v && chosen row)
      = (part key rows v).filter chosen := by
    rw [part, List.filter_filter]
    apply List.filter_congr
    intro row _
    exact Bool.and_comm _ _
  rw [hrows, total, ← List.sum_map_mul_left]
  congr 1
  apply List.map_congr_left
  intro row hrow
  rw [share, (mem_part.mp (List.mem_filter.mp hrow).1).2]

theorem sum_map_flatMap {β : Type} (f : α → ℚ) (g : β → List α) (xs : List β) :
    ((xs.flatMap g).map f).sum = (xs.map fun x => ((g x).map f).sum).sum := by
  induction xs with
  | nil => rfl
  | cons x xs ih => rw [List.flatMap_cons, List.map_append, List.sum_append, ih, List.map_cons,
      List.sum_cons]

theorem share_sum (h : rows ≠ []) : (rows.map (share levels rows)).sum = 1 := by
  induction levels generalizing rows with
  | nil =>
      have hpos : (rows.length : ℚ) ≠ 0 :=
        Nat.cast_ne_zero.mpr (mt List.length_eq_zero_iff.mp h)
      have hconst : rows.map (share ([] : List (α → V)) rows)
          = List.replicate rows.length (1 / (rows.length : ℚ)) := List.map_const'
      rw [hconst, List.sum_replicate, nsmul_eq_mul, mul_one_div_cancel hpos]
  | cons key levels ih =>
      obtain ⟨first, hfirst⟩ := List.exists_mem_of_ne_nil rows h
      have hcount := dedup_length_pos key hfirst
      have hperm := parts_perm key (List.nodup_dedup (rows.map key))
        fun row hrow => List.mem_dedup.mpr (List.mem_map.mpr ⟨row, hrow, rfl⟩)
      have hpart : ∀ v ∈ (rows.map key).dedup,
          ((part key rows v).map (share (key :: levels) rows)).sum
            = 1 / (rows.map key).dedup.length := by
        intro v hv
        obtain ⟨row, hrow, hkey⟩ := List.mem_map.mp (List.mem_dedup.mp hv)
        have hne : part key rows v ≠ [] := List.ne_nil_of_mem (mem_part.mpr ⟨hrow, hkey⟩)
        have hsum := sum_part rows levels key v fun _ => true
        have hall : total levels (part key rows v) (fun _ => true) = 1 := by
          rw [total, List.filter_true, ih hne]
        rw [hall, mul_one] at hsum
        simpa only [Bool.and_true, part] using hsum
      rw [← (hperm.map _).sum_eq, sum_map_flatMap, List.map_congr_left hpart, List.map_const',
        List.sum_replicate, nsmul_eq_mul, mul_one_div_cancel hcount.ne']

theorem total_all (h : rows ≠ []) : total levels rows (fun _ => true) = 1 := by
  rw [total, List.filter_true, share_sum h]

/-- Two groups with the same parent get the same. -/
theorem total_siblings {k : ℕ} (hk : k < levels.length) {a b : α} (ha : a ∈ rows) (hb : b ∈ rows)
    (h : agree (levels.take k) a b = true) :
    total levels rows (agree (levels.take (k + 1)) a)
      = total levels rows (agree (levels.take (k + 1)) b) := by
  induction levels generalizing rows k with
  | nil => exact absurd hk (Nat.not_lt_zero k)
  | cons key levels ih =>
      have hgroup : ∀ c, total (key :: levels) rows (agree ((key :: levels).take (k + 1)) c)
          = 1 / (rows.map key).dedup.length
            * total levels (part key rows (key c)) (agree (levels.take k) c) := by
        intro c
        rw [← sum_part, total]
        congr 2
        apply List.filter_congr
        intro row _
        rw [List.take_succ_cons, agree, List.all_cons]
        congr 1
        exact decide_eq_decide.mpr eq_comm
      rw [hgroup, hgroup]
      congr 1
      cases k with
      | zero =>
          have hone : ∀ c ∈ rows,
              total levels (part key rows (key c)) (agree (levels.take 0) c) = 1 :=
            fun c hc => total_all (List.ne_nil_of_mem (mem_part.mpr ⟨hc, rfl⟩))
          rw [hone a ha, hone b hb]
      | succ k =>
          rw [List.take_succ_cons, agree, List.all_cons, Bool.and_eq_true] at h
          have hkey : key a = key b := of_decide_eq_true h.1
          rw [← hkey]
          apply ih (Nat.lt_of_succ_lt_succ hk) (mem_part.mpr ⟨ha, rfl⟩)
          · exact mem_part.mpr ⟨hb, hkey.symm⟩
          · exact h.2

end Shares
end Hierarchy
