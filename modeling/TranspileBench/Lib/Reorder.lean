import Mathlib.Data.List.Perm.Basic
import Mathlib.Data.List.Pairwise

/-!
Legal reorderings of a sequence of actions under a dependency relation: the
elements are taken one at a time, each only when nothing it depends on is still
waiting in front of it. A legal reordering loses and duplicates nothing, keeps
the order of dependent elements, and runs to the same state in every system
whose independent actions commute.
-/
namespace Reorder
universe u v
variable {α : Type u} {σ : Type v}

/-- `Linearizes dep xs ys`: `ys` takes the elements of `xs` one by one, each with
no dependent element left in front of it. -/
inductive Linearizes (dep : α → α → Prop) : List α → List α → Prop
  | nil : Linearizes dep [] []
  | take (pre post : List α) (a : α) (ys : List α)
      (free : ∀ b ∈ pre, ¬ dep b a) (rest : Linearizes dep (pre ++ post) ys) :
      Linearizes dep (pre ++ a :: post) (a :: ys)

variable {dep : α → α → Prop}

theorem Linearizes.perm {xs ys : List α} (h : Linearizes dep xs ys) : ys.Perm xs := by
  induction h with
  | nil => exact List.Perm.refl _
  | take pre post a ys free rest ih =>
      exact (ih.cons a).trans List.perm_middle.symm

/-- Dependent elements keep the order they have in the original sequence. -/
theorem Linearizes.pairwise {xs ys : List α} {before : α → α → Prop}
    (h : Linearizes dep xs ys) (hx : xs.Pairwise before) :
    ys.Pairwise (fun a b => dep b a → before a b) := by
  induction h with
  | nil => exact List.Pairwise.nil
  | take pre post a ys free rest ih =>
      rw [List.pairwise_append] at hx
      obtain ⟨hpre, hpost, hcross⟩ := hx
      have hrest : (pre ++ post).Pairwise before := by
        rw [List.pairwise_append]
        refine ⟨hpre, hpost.of_cons, ?_⟩
        intro x hx y hy
        exact hcross x hx y (List.mem_cons_of_mem _ hy)
      refine List.Pairwise.cons ?_ (ih hrest)
      intro b hb hdep
      have hmem : b ∈ pre ++ post := rest.perm.mem_iff.mp hb
      cases List.mem_append.mp hmem with
      | inl hbpre => exact absurd hdep (free b hbpre)
      | inr hbpost => exact (List.pairwise_cons.mp hpost).1 b hbpost

/-- Running a sequence of state transformers from the left. -/
def run (act : α → σ → σ) : List α → σ → σ
  | [], s => s
  | a :: rest, s => run act rest (act a s)

theorem run_append (act : α → σ → σ) (xs ys : List α) (s : σ) :
    run act (xs ++ ys) s = run act ys (run act xs s) := by
  induction xs generalizing s with
  | nil => rfl
  | cons a rest ih => exact ih (act a s)

theorem run_map {β : Type*} (act : α → σ → σ) (f : β → α) (xs : List β) (s : σ) :
    run act (xs.map f) s = run (fun b => act (f b)) xs s := by
  induction xs generalizing s with
  | nil => rfl
  | cons b rest ih => exact ih (act (f b) s)

theorem run_past (act : α → σ → σ) (pre : List α) (a : α) (s : σ)
    (h : ∀ b ∈ pre, ∀ t, act a (act b t) = act b (act a t)) :
    run act (pre ++ [a]) s = run act pre (act a s) := by
  induction pre generalizing s with
  | nil => rfl
  | cons b rest ih =>
      have hrest := ih (act b s) fun c hc => h c (List.mem_cons_of_mem _ hc)
      simpa [run, h b List.mem_cons_self] using hrest

/-- A legal reordering reaches the same state, when independent actions commute. -/
theorem Linearizes.run_eq {act : α → σ → σ} {xs ys : List α}
    (h : Linearizes dep xs ys)
    (comm : ∀ a ∈ xs, ∀ b ∈ xs, ¬ dep b a → ∀ t, act a (act b t) = act b (act a t))
    (s : σ) : run act xs s = run act ys s := by
  induction h generalizing s with
  | nil => rfl
  | take pre post a ys free rest ih =>
      have hpast : run act (pre ++ [a]) s = run act pre (act a s) := by
        apply run_past
        intro b hb
        exact comm a (by simp) b (by simp [hb]) (free b hb)
      have hsplit : pre ++ a :: post = (pre ++ [a]) ++ post := by simp
      rw [hsplit, run_append, hpast, ← run_append]
      apply ih
      intro x hx y hy
      apply comm
      · simp only [List.mem_append, List.mem_cons] at hx ⊢; tauto
      · simp only [List.mem_append, List.mem_cons] at hy ⊢; tauto

end Reorder
