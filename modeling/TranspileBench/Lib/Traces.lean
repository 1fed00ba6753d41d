import Mathlib.Data.List.Forall2
import Mathlib.Data.List.Pairwise
import Mathlib.Algebra.BigOperators.Group.List.Basic

/-!
Relations whose steps leave traces, and lists that enumerate all their runs from a point:
every run once, no trace a prefix of another. The enumerating list may hold other objects
than the relation speaks of, as long as they represent them.
-/
namespace Traces

section Each
variable {B : Type}

/-- `f` of every element in turn, the results one after another. -/
inductive Each (E : B → List B → Prop) : List B → List B → Prop
  | nil : Each E [] []
  | cons {b : B} {rs bs rest : List B} (first : E b rs) (later : Each E bs rest) :
      Each E (b :: bs) (rs ++ rest)

variable {E F : B → List B → Prop}

theorem Each.mono (h : ∀ b rs, E b rs → F b rs) {bs rs : List B} (each : Each E bs rs) :
    Each F bs rs := by
  induction each with
  | nil => exact .nil
  | cons first _ ih => exact .cons (h _ _ first) ih

theorem Each.split {xs ys rs : List B} (h : Each E (xs ++ ys) rs) :
    ∃ r₁ r₂, rs = r₁ ++ r₂ ∧ Each E xs r₁ ∧ Each E ys r₂ := by
  induction xs generalizing rs with
  | nil => exact ⟨[], rs, rfl, .nil, h⟩
  | cons x xs ih =>
      cases h with
      | cons first later =>
          obtain ⟨r₁, r₂, rfl, h₁, h₂⟩ := ih later
          exact ⟨_, r₂, (List.append_assoc ..).symm, .cons first h₁, h₂⟩

theorem Each.refl (h : ∀ b, E b [b]) (bs : List B) : Each E bs bs := by
  induction bs with
  | nil => exact .nil
  | cons b bs ih => exact .cons (h b) ih

theorem Each.singleton {b : B} {rs : List B} (h : Each E [b] rs) : E b rs := by
  cases h with
  | cons first later =>
      cases later
      rwa [List.append_nil]

/-- One pass after another. -/
theorem Each.trans {G : B → List B → Prop}
    (step : ∀ b mid rs, E b mid → Each F mid rs → G b rs) {bs mid rs : List B}
    (first : Each E bs mid) (second : Each F mid rs) : Each G bs rs := by
  induction first generalizing rs with
  | nil =>
      cases second
      exact .nil
  | cons one _ ih =>
      obtain ⟨r₁, r₂, rfl, h₁, h₂⟩ := second.split
      exact .cons (step _ _ _ one h₁) (ih h₂)

/-- A weight that every pass conserves. -/
theorem Each.sum {M : Type} [AddMonoid M] {w : B → M}
    (h : ∀ b rs, E b rs → (rs.map w).sum = w b) {bs rs : List B} (each : Each E bs rs) :
    (rs.map w).sum = (bs.map w).sum := by
  induction each with
  | nil => rfl
  | cons first _ ih => rw [List.map_append, List.sum_append, h _ _ first, ih, List.map_cons,
      List.sum_cons]

end Each

variable {τ A B : Type}

/-- `S a t c`: from `a` there is a run to `c` that leaves the trace `t`. -/
abbrev Traced (τ A : Type) := A → List τ → A → Prop

/-- Neither trace is a prefix of the other. -/
def Apart (s t : List τ) : Prop := ∀ u v, s ++ u ≠ t ++ v

def seq (S T : Traced τ A) : Traced τ A := fun a t c =>
  ∃ s b u, S a s b ∧ T b u c ∧ t = s ++ u

variable {S T : Traced τ A} {Rep : B → A → Prop}

theorem Apart.append_left {s t : List τ} (h : Apart s t) (r : List τ) :
    Apart (r ++ s) (r ++ t) := by
  intro u v heq
  rw [List.append_assoc, List.append_assoc] at heq
  exact h u v (List.append_cancel_left heq)

theorem Apart.append_right {s t : List τ} (h : Apart s t) (u v : List τ) :
    Apart (s ++ u) (t ++ v) := by
  intro x y heq
  rw [List.append_assoc, List.append_assoc] at heq
  exact h _ _ heq

/-- All runs from a point, each once. -/
structure Runs (S : Traced τ A) (a : A) (runs : List (List τ × A)) : Prop where
  apart : runs.Pairwise fun x y => Apart x.1 y.1
  all : ∀ x, x ∈ runs ↔ S a x.1 x.2

theorem Runs.nodup {a : A} {runs : List (List τ × A)} (h : Runs S a runs) : runs.Nodup :=
  h.apart.imp fun happart heq => happart [] [] (by rw [heq])

/-- `rs` represents the ends of all runs of `S` from what `b` represents. -/
def Enumerates (Rep : B → A → Prop) (S : Traced τ A) (b : B) (rs : List B) : Prop :=
  ∀ a, Rep b a → ∃ runs, Runs S a runs ∧ List.Forall₂ (fun r x => Rep r x.2) rs runs

theorem Enumerates.congr {b : B} {rs : List B} (h : Enumerates Rep S b rs)
    (same : ∀ a, Rep b a → ∀ t c, T a t c ↔ S a t c) : Enumerates Rep T b rs := by
  intro a ha
  obtain ⟨runs, hruns, hrep⟩ := h a ha
  exact ⟨runs, ⟨hruns.apart, fun x => by rw [hruns.all, same a ha]⟩, hrep⟩

/-- A step that leaves no trace. -/
theorem Enumerates.silent {b r : B} (f : A → A) (rep : ∀ a, Rep b a → Rep r (f a))
    (same : ∀ a, Rep b a → ∀ t c, S a t c ↔ t = [] ∧ c = f a) : Enumerates Rep S b [r] := by
  intro a ha
  refine ⟨[([], f a)], ⟨List.pairwise_singleton _ _, fun x => ?_⟩, .cons (rep a ha) .nil⟩
  rw [same a ha, List.mem_singleton, Prod.ext_iff]

/-- A step that leaves the choice it made. -/
theorem Enumerates.choice {b : B} {values : List τ} (hnodup : values.Nodup)
    (possible : τ → Prop) [DecidablePred possible] (result : τ → B) (next : A → τ → A)
    (rep : ∀ a, Rep b a → ∀ v, possible v → Rep (result v) (next a v))
    (same : ∀ a, Rep b a → ∀ t c, S a t c ↔
      ∃ v ∈ values, possible v ∧ t = [v] ∧ c = next a v) :
    Enumerates Rep S b ((values.filter (decide <| possible ·)).map result) := by
  intro a ha
  refine ⟨(values.filter (decide <| possible ·)).map fun v => ([v], next a v),
    ⟨?_, fun x => ?_⟩, ?_⟩
  · refine List.pairwise_map.mpr ((hnodup.filter _).imp fun hne u v heq => hne ?_)
    exact (List.cons.inj heq).1
  · rw [same a ha, List.mem_map]
    constructor
    · rintro ⟨v, hv, rfl⟩
      obtain ⟨hmem, hposs⟩ := List.mem_filter.mp hv
      exact ⟨v, hmem, of_decide_eq_true hposs, rfl, rfl⟩
    · rintro ⟨v, hmem, hposs, ht, hc⟩
      exact ⟨v, List.mem_filter.mpr ⟨hmem, decide_eq_true hposs⟩, Prod.ext ht.symm hc.symm⟩
  · rw [List.forall₂_map_left_iff, List.forall₂_map_right_iff, List.forall₂_same]
    intro v hv
    exact rep a ha v (of_decide_eq_true (List.mem_filter.mp hv).2)

/-- The runs that go on from each of some runs. -/
theorem runs_seq {rs rest : List B} {runs : List (List τ × A)}
    (rep : List.Forall₂ (fun r x => Rep r x.2) rs runs)
    (apart : runs.Pairwise fun x y => Apart x.1 y.1)
    (each : Each (Enumerates Rep T) rs rest) :
    ∃ all : List (List τ × A), all.Pairwise (fun x y => Apart x.1 y.1) ∧
      (∀ y, y ∈ all ↔ ∃ x ∈ runs, ∃ u, T x.2 u y.2 ∧ y.1 = x.1 ++ u) ∧
      List.Forall₂ (fun r x => Rep r x.2) rest all := by
  induction rep generalizing rest with
  | nil =>
      cases each
      exact ⟨[], .nil, by simp, .nil⟩
  | @cons r x rs runs hr _ ih =>
      cases each with
      | @cons _ r₁ _ r₂ first later =>
          obtain ⟨hx, apart⟩ := List.pairwise_cons.mp apart
          obtain ⟨all, hall, hmem, hrep⟩ := ih apart later
          obtain ⟨own, hown, hownrep⟩ := first x.2 hr
          refine ⟨own.map (fun y => (x.1 ++ y.1, y.2)) ++ all, ?_, fun y => ?_, ?_⟩
          · refine List.pairwise_append.mpr ⟨?_, hall, fun y hy z hz => ?_⟩
            · exact List.pairwise_map.mpr (hown.apart.imp fun h => h.append_left x.1)
            · obtain ⟨y', -, rfl⟩ := List.mem_map.mp hy
              obtain ⟨x', hx', u, -, hz⟩ := (hmem z).mp hz
              rw [hz]
              exact (hx x' hx').append_right _ _
          · rw [List.mem_append, List.mem_map, hmem]
            constructor
            · rintro (⟨y', hy', rfl⟩ | ⟨x', hx', h⟩)
              · exact ⟨x, List.mem_cons_self, y'.1, (hown.all y').mp hy', rfl⟩
              · exact ⟨x', List.mem_cons_of_mem _ hx', h⟩
            · rintro ⟨x', hx', u, hT, hy⟩
              rcases List.mem_cons.mp hx' with rfl | hx'
              · exact .inl ⟨(u, y.2), (hown.all (u, y.2)).mpr hT, Prod.ext hy.symm rfl⟩
              · exact .inr ⟨x', hx', u, hT, hy⟩
          · refine List.rel_append ?_ hrep
            exact List.forall₂_map_right_iff.mpr hownrep

theorem Enumerates.seq {b : B} {mid rs : List B} (first : Enumerates Rep S b mid)
    (second : Each (Enumerates Rep T) mid rs) : Enumerates Rep (seq S T) b rs := by
  intro a ha
  obtain ⟨runs, hruns, hrep⟩ := first a ha
  obtain ⟨all, hall, hmem, hallrep⟩ := runs_seq hrep hruns.apart second
  refine ⟨all, ⟨hall, fun y => ?_⟩, hallrep⟩
  rw [hmem]
  constructor
  · rintro ⟨x, hx, u, hT, hy⟩
    exact ⟨x.1, x.2, u, (hruns.all x).mp hx, hT, hy⟩
  · rintro ⟨s, c, u, hS, hT, hy⟩
    exact ⟨(s, c), (hruns.all (s, c)).mpr hS, u, hT, hy⟩

end Traces
