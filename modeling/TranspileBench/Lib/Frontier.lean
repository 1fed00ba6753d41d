import Mathlib.Data.List.Nodup
import Mathlib.Data.List.Perm.Subperm
import Mathlib.Logic.Relation

/-!
The search of a table in which every row names one parent, with a stack of the keys that are
still to be looked at and no record of the keys already seen. The rows may contain cycles. A
key with one parent is entered from that parent only, so the search never comes back to a
key, unless its root is below itself.
-/
namespace Frontier
variable {κ ρ : Type} [DecidableEq κ]

/-- A row of the table leads from `a` to `b`. -/
def Child (rows : List ρ) (key parent : ρ → κ) (a b : κ) : Prop :=
  ∃ row ∈ rows, key row = b ∧ parent row = a

/-- A way down, of one row or more. -/
def Below (rows : List ρ) (key parent : ρ → κ) : κ → κ → Prop :=
  Relation.TransGen (Child rows key parent)

def children (rows : List ρ) (parent : ρ → κ) (p : κ) : List ρ :=
  rows.filter fun row => parent row = p

/-- Take the last key off the frontier and add its children, until the frontier is empty. -/
def search (rows : List ρ) (key parent : ρ → κ) :
    ℕ → List κ → List ρ → Option (List ρ)
  | 0, _, _ => none
  | fuel + 1, frontier, found =>
      match frontier.getLast? with
      | none => some found
      | some p =>
          search rows key parent fuel
            (frontier.dropLast ++ (children rows parent p).map key)
            (found ++ children rows parent p)

/-- What the search has done: the keys already expanded and those in the frontier are the
root and the keys found, each once, and found are the children of the expanded keys. -/
structure Searched (rows : List ρ) (key parent : ρ → κ) (root : κ)
    (done frontier : List κ) (found : List ρ) : Prop where
  seen : (done ++ frontier).Perm (root :: found.map key)
  once : (root :: found.map key).Nodup
  expanded : ∀ row, row ∈ found ↔ row ∈ rows ∧ parent row ∈ done
  below : ∀ row ∈ found, Below rows key parent root (key row)

section Search
variable {rows : List ρ} {key parent : ρ → κ} {root : κ}

theorem mem_children {p : κ} {row : ρ} :
    row ∈ children rows parent p ↔ row ∈ rows ∧ parent row = p := by
  simp [children]

theorem child_key {p : κ} {row : ρ} (h : row ∈ children rows parent p) :
    Child rows key parent p (key row) :=
  ⟨row, (mem_children.mp h).1, rfl, (mem_children.mp h).2⟩

omit [DecidableEq κ] in
theorem row_of_key (hkeys : (rows.map key).Nodup) {row row' : ρ} (h : row ∈ rows)
    (h' : row' ∈ rows) (heq : key row = key row') : row = row' :=
  List.inj_on_of_nodup_map hkeys h h' heq

omit [DecidableEq κ] in
theorem exists_row {a b : κ} (h : Below rows key parent a b) : ∃ row ∈ rows, key row = b := by
  cases h with
  | single hchild =>
      obtain ⟨row, hrow, hkey, _⟩ := hchild
      exact ⟨row, hrow, hkey⟩
  | tail _ hchild =>
      obtain ⟨row, hrow, hkey, _⟩ := hchild
      exact ⟨row, hrow, hkey⟩

omit [DecidableEq κ] in
/-- What holds the children of a key, and of everything it holds, holds all that is below. -/
theorem Below.inside {S : κ → Prop} {a b : κ}
    (hS : ∀ row ∈ rows, parent row = a ∨ S (parent row) → S (key row))
    (h : Below rows key parent a b) : S b := by
  induction h with
  | single hchild =>
      obtain ⟨row, hrow, hkey, hparent⟩ := hchild
      exact hkey ▸ hS row hrow (.inl hparent)
  | tail _ hchild ih =>
      obtain ⟨row, hrow, hkey, hparent⟩ := hchild
      exact hkey ▸ hS row hrow (.inr (hparent ▸ ih))

omit [DecidableEq κ] in
theorem searched_start : Searched rows key parent root [] [root] [] where
  seen := List.Perm.refl _
  once := List.nodup_singleton root
  expanded row := by simp
  below row h := by simp at h

namespace Searched
variable {done frontier : List κ} {found : List ρ}

omit [DecidableEq κ] in
theorem mem_root_or_found (h : Searched rows key parent root done frontier found) {p : κ}
    (hp : p ∈ done ++ frontier) : p = root ∨ Below rows key parent root p := by
  rcases List.mem_cons.mp (h.seen.mem_iff.mp hp) with hroot | hfound
  · exact .inl hroot
  · obtain ⟨row, hrow, rfl⟩ := List.mem_map.mp hfound
    exact .inr (h.below row hrow)

theorem below_child (h : Searched rows key parent root done frontier found) {p : κ}
    (hp : p ∈ frontier) {row : ρ} (hrow : row ∈ children rows parent p) :
    Below rows key parent root (key row) := by
  have hchild : Child rows key parent p (key row) := child_key hrow
  cases h.mem_root_or_found (List.mem_append_right done hp) with
  | inl hroot => exact .single (hroot ▸ hchild)
  | inr hbelow => exact hbelow.tail hchild

/-- Only the expansion of a row's own parent finds it. -/
theorem child_fresh (h : Searched rows key parent root done frontier found)
    (hkeys : (rows.map key).Nodup) {p : κ} (hp : p ∈ frontier) {row : ρ}
    (hrow : row ∈ children rows parent p) : key row ∉ found.map key := by
  intro hfound
  obtain ⟨row', hrow', heq⟩ := List.mem_map.mp hfound
  obtain ⟨htable, hparent⟩ := mem_children.mp hrow
  have hdone := (h.expanded row').mp hrow'
  have hsame : row' = row := row_of_key hkeys hdone.1 htable heq
  have hdisjoint := (List.nodup_append.mp (h.seen.nodup_iff.mpr h.once)).2.2
  exact hdisjoint p (by rw [← hparent, ← hsame]; exact hdone.2) p hp rfl

theorem step (h : Searched rows key parent root done frontier found)
    (hkeys : (rows.map key).Nodup) (hroot : ¬ Below rows key parent root root) {p : κ}
    (hlast : frontier.getLast? = some p) :
    Searched rows key parent root (done ++ [p])
      (frontier.dropLast ++ (children rows parent p).map key)
      (found ++ children rows parent p) := by
  have hp : p ∈ frontier := List.mem_of_getLast? hlast
  have hfrontier : frontier.dropLast ++ [p] = frontier := List.dropLast_append_getLast? p hlast
  constructor
  · have hmoved : ((done ++ [p]) ++ frontier.dropLast).Perm (done ++ frontier) := by
      rw [List.append_assoc]
      apply List.Perm.append_left
      apply List.Perm.trans List.perm_append_comm
      rw [hfrontier]
    rw [List.map_append, ← List.append_assoc, ← List.cons_append]
    exact (hmoved.trans h.seen).append_right _
  · rw [List.map_append, ← List.cons_append]
    apply List.Nodup.append h.once
    · exact hkeys.sublist (List.filter_sublist.map key)
    · intro k hk hchild
      obtain ⟨row, hrow, rfl⟩ := List.mem_map.mp hchild
      cases List.mem_cons.mp hk with
      | inl heq => exact hroot (heq ▸ h.below_child hp hrow)
      | inr hfound => exact h.child_fresh hkeys hp hrow hfound
  · intro row
    rw [List.mem_append, h.expanded, mem_children, List.mem_append, List.mem_singleton,
      and_or_left]
  · intro row hrow
    cases List.mem_append.mp hrow with
    | inl hfound => exact h.below row hfound
    | inr hchild => exact h.below_child hp hchild

omit [DecidableEq κ] in
theorem length_le (h : Searched rows key parent root done frontier found) :
    done.length + frontier.length ≤ rows.length + 1 := by
  have hfound : found.Nodup := List.Nodup.of_map key (List.nodup_cons.mp h.once).2
  have hsub : found ⊆ rows := fun row hrow => ((h.expanded row).mp hrow).1
  have hle : found.length ≤ rows.length := (List.subperm_of_subset hfound hsub).length_le
  have hlen := h.seen.length_eq
  rw [List.length_append, List.length_cons, List.length_map] at hlen
  omega

omit [DecidableEq κ] in
theorem mem_found (h : Searched rows key parent root done [] found)
    (hkeys : (rows.map key).Nodup) {row : ρ} :
    row ∈ found ↔ row ∈ rows ∧ Below rows key parent root (key row) := by
  have hdone : ∀ k, k ∈ done ↔ k = root ∨ k ∈ found.map key := fun k => by
    rw [← List.mem_cons, ← h.seen.mem_iff, List.append_nil]
  refine ⟨fun hrow => ⟨((h.expanded row).mp hrow).1, h.below row hrow⟩, ?_⟩
  intro hrow
  obtain ⟨hrow, hbelow⟩ := hrow
  generalize hk : key row = k at hbelow
  -- along the way down from the root: the parent of each row on it is expanded
  induction hbelow generalizing row with
  | single hchild =>
      obtain ⟨row', hrow', hkey, hparent⟩ := hchild
      have hsame : row = row' := row_of_key hkeys hrow hrow' (hk.trans hkey.symm)
      apply (h.expanded row).mpr
      exact ⟨hrow, (hdone _).mpr (.inl (hsame ▸ hparent))⟩
  | tail hbelow hchild ih =>
      obtain ⟨row', hrow', hkey, hparent⟩ := hchild
      have hsame : row = row' := row_of_key hkeys hrow hrow' (hk.trans hkey.symm)
      obtain ⟨above, habove, hkey'⟩ := exists_row hbelow
      have hfound : above ∈ found := ih habove hkey'
      have howner : key above = parent row := by rw [hkey', ← hparent, hsame]
      apply (h.expanded row).mpr
      exact ⟨hrow, (hdone _).mpr (.inr (List.mem_map.mpr ⟨above, hfound, howner⟩))⟩

/-- From any point, the search ends and its result is everything below the root. -/
theorem search_eq (hkeys : (rows.map key).Nodup) (hroot : ¬ Below rows key parent root root)
    {fuel : ℕ} (h : Searched rows key parent root done frontier found)
    (hfuel : rows.length + 2 ≤ fuel + done.length) :
    ∃ all, search rows key parent fuel frontier found = some all
      ∧ (root :: all.map key).Nodup
      ∧ ∀ row, row ∈ all ↔ row ∈ rows ∧ Below rows key parent root (key row) := by
  have hlen := h.length_le
  induction fuel generalizing done frontier found with
  | zero => omega
  | succ fuel ih =>
      cases hlast : frontier.getLast? with
      | none =>
          have hnil : frontier = [] := List.getLast?_eq_none_iff.mp hlast
          subst hnil
          exact ⟨found, rfl, h.once, fun row => h.mem_found hkeys⟩
      | some p =>
          have hstep := h.step hkeys hroot hlast
          have hmore : rows.length + 2 ≤ fuel + (done ++ [p]).length := by
            rw [List.length_append, List.length_singleton]
            omega
          obtain ⟨all, hall, hresult⟩ := ih hstep hmore hstep.length_le
          exact ⟨all, by rw [search, hlast]; exact hall, hresult⟩

end Searched

theorem search_mono {fuel more : ℕ} (hle : fuel ≤ more) {frontier : List κ}
    {found all : List ρ} (h : search rows key parent fuel frontier found = some all) :
    search rows key parent more frontier found = some all := by
  induction fuel generalizing more frontier found with
  | zero => cases h
  | succ fuel ih =>
      obtain ⟨more, rfl⟩ : ∃ m, more = m + 1 := ⟨more - 1, by omega⟩
      rw [search] at h ⊢
      cases hlast : frontier.getLast? with
      | none => rw [hlast] at h; exact h
      | some p =>
          rw [hlast] at h
          exact ih (by omega) h

theorem search_unique {fuel fuel' : ℕ} {frontier : List κ} {found all all' : List ρ}
    (h : search rows key parent fuel frontier found = some all)
    (h' : search rows key parent fuel' frontier found = some all') : all = all' := by
  have hmore := search_mono (Nat.le_max_left fuel fuel') h
  have hmore' := search_mono (Nat.le_max_right fuel fuel') h'
  exact Option.some.inj (hmore.symm.trans hmore')

/-- The search of a table with unique keys ends within one round for every row and two
more, and finds each row below the root once and nothing else. -/
theorem search_exact (hkeys : (rows.map key).Nodup) (hroot : ¬ Below rows key parent root root) :
    ∃ all, (∀ fuel, rows.length + 2 ≤ fuel → search rows key parent fuel [root] [] = some all)
      ∧ (root :: all.map key).Nodup
      ∧ ∀ row, row ∈ all ↔ row ∈ rows ∧ Below rows key parent root (key row) := by
  have hfuel : rows.length + 2 ≤ rows.length + 2 + ([] : List κ).length := Nat.le_refl _
  obtain ⟨all, hall, hresult⟩ := searched_start.search_eq hkeys hroot hfuel
  exact ⟨all, fun fuel hle => search_mono hle hall, hresult⟩

end Search
end Frontier
