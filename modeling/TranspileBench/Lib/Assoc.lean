import Mathlib.Algebra.BigOperators.Group.List.Basic
import Mathlib.Data.List.Forall2
import Mathlib.Data.List.Nodup

/-!
Association lists read by `List.lookup`: which entry is found, and lists with the same keys
and related values.
-/
namespace Assoc

section Lookup
variable {κ α β : Type} [BEq κ] [LawfulBEq κ]

theorem exists_lookup {entries : List (κ × α)} {k : κ} {a : α} (h : (k, a) ∈ entries) :
    ∃ b, entries.lookup k = some b :=
  Option.isSome_iff_exists.mp (List.lookup_isSome_iff.mpr ⟨_, h, beq_self_eq_true k⟩)

theorem mem_of_lookup {entries : List (κ × α)} {k : κ} {a : α}
    (h : entries.lookup k = some a) : (k, a) ∈ entries := by
  obtain ⟨l, r, rfl, -⟩ := List.lookup_eq_some_iff.mp h
  simp

theorem exists_lookup_of_key {entries : List (κ × α)} {k : κ} (h : k ∈ entries.map (·.1)) :
    ∃ b, entries.lookup k = some b := by
  obtain ⟨entry, hentry, rfl⟩ := List.mem_map.mp h
  exact exists_lookup hentry

theorem lookup_of_nodup {entries : List (κ × α)} (hkeys : (entries.map (·.1)).Nodup) {k : κ}
    {a : α} (h : (k, a) ∈ entries) : entries.lookup k = some a := by
  obtain ⟨b, hb⟩ := exists_lookup h
  have heq : (k, b) = (k, a) := List.inj_on_of_nodup_map hkeys (mem_of_lookup hb) h rfl
  cases heq
  exact hb

/-- Values that depend on the key alone. -/
theorem lookup_map_key (f : κ → β) {entries : List (κ × α)} {k : κ}
    (hk : k ∈ entries.map (·.1)) : (entries.map fun x => (x.1, f x.1)).lookup k = some (f k) := by
  have hkey : k ∈ (entries.map fun x => (x.1, f x.1)).map (·.1) := by rwa [List.map_map]
  obtain ⟨b, hb⟩ := exists_lookup_of_key hkey
  obtain ⟨entry, -, heq⟩ := List.mem_map.mp (mem_of_lookup hb)
  cases heq
  exact hb

/-- Entries with the same keys in the same order, and values related under them. -/
theorem lookup_related {R : κ → α → β → Prop} {xs : List (κ × α)} {ys : List (κ × β)}
    (h : List.Forall₂ (fun x y => x.1 = y.1 ∧ R x.1 x.2 y.2) xs ys) (k : κ) :
    Option.Rel (R k) (xs.lookup k) (ys.lookup k) := by
  induction h with
  | nil => exact .none
  | @cons x y xs ys hxy _ ih =>
      rw [List.lookup_cons, List.lookup_cons, ← hxy.1]
      cases hk : k == x.1 with
      | false => exact ih
      | true =>
          rw [eq_of_beq hk]
          exact .some hxy.2

theorem lookup_related_some {R : κ → α → β → Prop} {xs : List (κ × α)} {ys : List (κ × β)}
    (h : List.Forall₂ (fun x y => x.1 = y.1 ∧ R x.1 x.2 y.2) xs ys) {k : κ} {a : α}
    (ha : xs.lookup k = some a) : ∃ b, ys.lookup k = some b ∧ R k a b := by
  have hrel := lookup_related h k
  rw [ha] at hrel
  generalize ys.lookup k = found at hrel
  cases hrel with
  | some hab => exact ⟨_, rfl, hab⟩

end Lookup

section Sums
variable {κ M : Type} [DecidableEq κ] [AddCommMonoid M]

theorem sum_indicator {keys : List κ} (hkeys : keys.Nodup) (k : κ) (v : M) :
    (keys.map fun p => if p = k then v else 0).sum = if k ∈ keys then v else 0 := by
  induction keys with
  | nil => simp
  | cons p keys ih =>
      obtain ⟨hp, hkeys⟩ := List.nodup_cons.mp hkeys
      rw [List.map_cons, List.sum_cons, ih hkeys]
      by_cases h : p = k
      · subst h
        simp [hp]
      · simp [h, Ne.symm h]

/-- The values at some keys, and those at all other keys, are together all the values. -/
theorem sum_lookup_add {keys : List κ} (hkeys : keys.Nodup)
    {entries : List (κ × M)} (hentries : (entries.map (·.1)).Nodup) :
    (keys.map fun p => (entries.lookup p).getD 0).sum
        + ((entries.filter fun e => e.1 ∉ keys).map (·.2)).sum
      = (entries.map (·.2)).sum := by
  induction entries with
  | nil => simp
  | cons entry entries ih =>
      obtain ⟨hentry, hrest⟩ := List.nodup_cons.mp hentries
      have hsplit : (keys.map fun p => ((entry :: entries).lookup p).getD 0)
          = keys.map fun p => (if p = entry.1 then entry.2 else 0) + (entries.lookup p).getD 0 := by
        apply List.map_congr_left
        intro p _
        rw [List.lookup_cons]
        by_cases h : p = entry.1
        · have hnone : entries.lookup p = none := by
            apply List.lookup_eq_none_iff.mpr
            intro e he
            apply bne_iff_ne.mpr
            exact fun heq => hentry (List.mem_map.mpr ⟨e, he, by rw [← heq, h]⟩)
          rw [hnone, h]
          simp
        · rw [beq_eq_false_iff_ne.mpr h, if_neg h, zero_add]
      rw [hsplit, List.sum_map_add, sum_indicator hkeys, List.map_cons, List.sum_cons, ← ih hrest]
      by_cases h : entry.1 ∈ keys
      · rw [if_pos h, List.filter_cons_of_neg (by simpa using h), add_assoc]
      · rw [if_neg h, List.filter_cons_of_pos (by simpa using h), List.map_cons, List.sum_cons,
          zero_add, add_left_comm]

end Sums

end Assoc
