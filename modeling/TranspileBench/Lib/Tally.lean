import Mathlib.Data.List.AList
import Mathlib.Data.List.Dedup
import Mathlib.Algebra.BigOperators.Group.List.Basic
import Mathlib.Tactic.Abel

/-!
Dictionaries that add up the values given for each key.
-/
namespace Tally
variable {κ M : Type} [DecidableEq κ]

section Lookup
variable [AddMonoid M]

def accumulate (sums : AList fun _ : κ => M) (entry : κ × M) : AList fun _ : κ => M :=
  sums.insert entry.1 ((sums.lookup entry.1).getD 0 + entry.2)

theorem lookup_accumulate (sums : AList fun _ : κ => M) (entry : κ × M) (k : κ) :
    (accumulate sums entry).lookup k
      = if entry.1 = k then some ((sums.lookup k).getD 0 + entry.2) else sums.lookup k := by
  by_cases h : entry.1 = k
  · subst h
    rw [if_pos rfl]
    exact AList.lookup_insert sums
  · rw [if_neg h]
    exact AList.lookup_insert_ne (Ne.symm h)

theorem lookup_foldl (entries : List (κ × M)) (sums : AList fun _ : κ => M) (k : κ) :
    (entries.foldl accumulate sums).lookup k
      = if k ∈ entries.map (·.1) then
          some ((sums.lookup k).getD 0 + ((entries.filter (·.1 = k)).map (·.2)).sum)
        else sums.lookup k := by
  induction entries generalizing sums with
  | nil => rfl
  | cons entry entries ih =>
      rw [List.foldl_cons, ih, lookup_accumulate]
      by_cases hkey : entry.1 = k
      · subst hkey
        by_cases hmore : entry.1 ∈ entries.map (·.1)
        · simp [hmore, add_assoc]
        · have hnone : entries.filter (·.1 = entry.1) = [] := by
            refine List.filter_eq_nil_iff.mpr fun e he heq => hmore ?_
            exact List.mem_map.mpr ⟨e, he, of_decide_eq_true heq⟩
          simp [hmore, hnone]
      · have hmem : k ∈ (entry :: entries).map (·.1) ↔ k ∈ entries.map (·.1) := by
          rw [List.map_cons, List.mem_cons]
          exact or_iff_right (Ne.symm hkey)
        have hfilter : (entry :: entries).filter (·.1 = k) = entries.filter (·.1 = k) :=
          List.filter_cons_of_neg (by simpa using hkey)
        simp only [hmem, if_neg hkey, hfilter]

/-- A key that some entry has gets the sum of its entries' values. -/
theorem lookup_tally (entries : List (κ × M)) (k : κ) :
    (entries.foldl accumulate ∅).lookup k
      = if k ∈ entries.map (·.1) then some ((entries.filter (·.1 = k)).map (·.2)).sum
        else none := by
  rw [lookup_foldl, AList.lookup_empty, Option.getD_none, zero_add]

end Lookup

/-- Values that are set for one key each. -/
theorem lookup_foldl_fresh {V : Type} {f : (AList fun _ : κ => V) → κ × V → AList fun _ : κ => V}
    (hf : ∀ sums entry, sums.lookup entry.1 = none → ∀ k,
      (f sums entry).lookup k = if entry.1 = k then some entry.2 else sums.lookup k)
    {entries : List (κ × V)} (hkeys : (entries.map (·.1)).Nodup) {sums : AList fun _ : κ => V}
    (hsums : ∀ entry ∈ entries, sums.lookup entry.1 = none) {k : κ} {v : V} :
    (entries.foldl f sums).lookup k = some v ↔ (k, v) ∈ entries ∨ sums.lookup k = some v := by
  induction entries generalizing sums with
  | nil => simp
  | cons entry entries ih =>
      obtain ⟨hfresh, hkeys⟩ := List.nodup_cons.mp hkeys
      have hentry := hf sums entry (hsums entry List.mem_cons_self)
      have hlater : ∀ e ∈ entries, (f sums entry).lookup e.1 = none := fun e he => by
        have hne : entry.1 ≠ e.1 := fun heq =>
          hfresh (List.mem_map.mpr ⟨e, he, heq.symm⟩)
        rw [hentry, if_neg hne, hsums e (List.mem_cons_of_mem _ he)]
      rw [List.foldl_cons, ih hkeys hlater, hentry, List.mem_cons]
      by_cases hk : entry.1 = k
      · subst hk
        have hnone : sums.lookup entry.1 = none := hsums entry List.mem_cons_self
        simp only [if_pos, hnone, reduceCtorEq, or_false, Option.some.injEq, Prod.ext_iff, true_and]
        rw [or_comm, eq_comm]
      · have hne : (k, v) ≠ entry := fun heq => hk (heq ▸ rfl)
        rw [if_neg hk, or_iff_right hne]

omit [DecidableEq κ] in
theorem nodup_keys {α V : Type} (key : α → κ) {xs : List α} (hxs : xs.Nodup)
    {f : α → Option (κ × V)}
    (hf : ∀ x ∈ xs, ∀ entry, f x = some entry → entry.1 = key x)
    (hkey : ∀ x ∈ xs, ∀ y ∈ xs, key x = key y → x = y) :
    ((xs.filterMap f).map (·.1)).Nodup := by
  refine List.pairwise_map.mpr (List.pairwise_filterMap.mpr ?_)
  refine hxs.imp_of_mem fun {x y} hx hy hne entry he entry' he' heq => hne (hkey x hx y hy ?_)
  rw [← hf x hx entry he, ← hf y hy entry' he', heq]

theorem lookup_tally_nodup [AddMonoid M] {entries : List (κ × M)}
    (hkeys : (entries.map (·.1)).Nodup) {k : κ} {v : M} :
    (entries.foldl accumulate ∅).lookup k = some v ↔ (k, v) ∈ entries := by
  rw [lookup_foldl_fresh (fun sums entry hnone k => ?_) hkeys fun entry _ => AList.lookup_empty _,
    AList.lookup_empty, or_iff_left (by simp)]
  rw [lookup_accumulate]
  by_cases hk : entry.1 = k
  · rw [if_pos hk, if_pos hk, ← hk, hnone, Option.getD_none, zero_add]
  · rw [if_neg hk, if_neg hk]

theorem lookup_insert_nodup {V : Type} {entries : List (κ × V)}
    (hkeys : (entries.map (·.1)).Nodup) {k : κ} {v : V} :
    (entries.foldl (fun (sums : AList fun _ : κ => V) entry => sums.insert entry.1 entry.2)
      ∅).lookup k = some v ↔ (k, v) ∈ entries := by
  rw [lookup_foldl_fresh (fun sums entry hnone k => ?_) hkeys fun entry _ => AList.lookup_empty _,
    AList.lookup_empty, or_iff_left (by simp)]
  by_cases hk : entry.1 = k
  · subst hk
    rw [if_pos rfl]
    exact AList.lookup_insert sums
  · rw [if_neg hk]
    exact AList.lookup_insert_ne (Ne.symm hk)

/-- A dictionary has an entry for each different key. -/
theorem size_insert {V : Type} (entries : List (κ × V)) :
    (entries.foldl (fun (sums : AList fun _ : κ => V) entry => sums.insert entry.1 entry.2)
      ∅).entries.length = (entries.map (·.1)).dedup.length := by
  have hkeys : ∀ (entries : List (κ × V)) (sums : AList fun _ : κ => V) (k : κ),
      k ∈ (entries.foldl (fun (sums : AList fun _ : κ => V) entry =>
        sums.insert entry.1 entry.2) sums).keys ↔ k ∈ sums.keys ∨ k ∈ entries.map (·.1) := by
    intro entries
    induction entries with
    | nil => simp
    | cons entry entries ih =>
        intro sums k
        rw [List.foldl_cons, ih, ← AList.mem_keys, AList.mem_insert, AList.mem_keys, List.map_cons,
          List.mem_cons, ← or_assoc, or_comm (a := k = entry.1)]
  generalize hsums : entries.foldl (fun (sums : AList fun _ : κ => V) entry =>
    sums.insert entry.1 entry.2) ∅ = sums
  have hperm : sums.keys.Perm (entries.map (·.1)).dedup := by
    apply (List.perm_ext_iff_of_nodup sums.keys_nodup (List.nodup_dedup _)).mpr
    intro k
    rw [← hsums, hkeys, List.mem_dedup]
    exact or_iff_right List.not_mem_nil
  rw [← hperm.length_eq, AList.keys, List.keys, List.length_map]

variable [AddCommMonoid M] {N : Type} [AddCommMonoid N]

/-- What is given is what is kept. -/
theorem sum_accumulate (f : M →+ N) (sums : AList fun _ : κ => M) (entry : κ × M) :
    ((accumulate sums entry).entries.map fun e => f e.2).sum
      = (sums.entries.map fun e => f e.2).sum + f entry.2 := by
  obtain ⟨k, v⟩ := entry
  rw [accumulate, AList.entries_insert]
  by_cases hk : k ∈ sums.entries.keys
  · obtain ⟨old, l₁, l₂, -, heq, hrest⟩ := List.exists_of_kerase hk
    have hlookup : sums.lookup k = some old := by
      refine AList.mem_lookup_iff.mpr ?_
      rw [heq]
      exact List.mem_append_right _ List.mem_cons_self
    rw [hrest, hlookup, heq, Option.getD_some]
    simp only [List.map_cons, List.map_append, List.sum_cons, List.sum_append, map_add]
    abel
  · have hnone : sums.lookup k = none := AList.lookup_eq_none.mpr hk
    rw [List.kerase_of_notMem_keys hk, hnone, Option.getD_none, zero_add,
      List.map_cons, List.sum_cons, add_comm]

theorem sum_tally (f : M →+ N) (entries : List (κ × M)) (sums : AList fun _ : κ => M) :
    ((entries.foldl accumulate sums).entries.map fun e => f e.2).sum
      = (sums.entries.map fun e => f e.2).sum + (entries.map fun e => f e.2).sum := by
  induction entries generalizing sums with
  | nil => simp
  | cons entry entries ih =>
      rw [List.foldl_cons, ih, sum_accumulate, List.map_cons, List.sum_cons, add_assoc]

end Tally
