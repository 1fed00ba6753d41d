import Mathlib
import TranspileBench.Lib.Tally
import TranspileBench.Verifier.Branching
import TranspileBench.Verifier.Steps

/-!
What the simulation returns: for each value of the classical bits, the density of the paths
that end with it. It returns this within any bound that holds the operations of its
execution; with a smaller bound it is refused, and so is an execution without an end.
-/
namespace TranspileBench.Verifier
open Amplitudes Traces Fallible

variable {P K : Type} [CommRing K] [StarRing K] [DecidableEq K] {n m q c : Nat}
  (assign : Assign P K)

section Densities
variable (branches : List (Branch n K))

omit [DecidableEq K] in
theorem densities_eq : branches.foldl addDensity (∅ : AList fun _ : Nat => Density n K)
    = (branches.map fun b => (b.2, outer b.1)).foldl Tally.accumulate ∅ := by
  rw [List.foldl_map]
  rfl

def traceHom : Density n K →+ K where
  toFun := trace
  map_zero' := by simp [trace]
  map_add' := fun ρ σ => by simp [trace, Finset.sum_add_distrib]

end Densities

variable (circuit : Circuit P K n m)

/-- The densities of some paths: for each value they end with, the sum of the outer products
of their states. -/
structure Sums (densities : AList fun _ : Nat => Density n K)
    (paths : Finset (List Bool × Point n m K)) : Prop where
  none : ∀ key, densities.lookup key = none ↔ ∀ p ∈ paths, Nat.ofBits p.2.2 ≠ key
  some : ∀ key ρ, densities.lookup key = some ρ →
    ρ = ∑ p ∈ paths with Nat.ofBits p.2.2 = key, outer p.2.1

omit [DecidableEq K] in
/-- Branches that stand for the ends of all paths add up to the densities of the paths. -/
theorem sums_of_runs {branches : List (Branch n K)} {runs : List (List Bool × Point n m K)}
    [DecidableEq (List Bool × Point n m K)] (hnodup : runs.Nodup)
    (hrep : List.Forall₂ (fun b x => Represents b x.2) branches runs) :
    Sums (branches.foldl addDensity ∅) runs.toFinset := by
  have hentries : branches.map (fun b => (b.2, outer b.1))
      = runs.map fun x => (Nat.ofBits x.2.2, outer x.2.1) := by
    induction hrep with
    | nil => rfl
    | cons hb _ ih =>
        obtain ⟨u, hu, hstate⟩ := hb.state
        rw [List.map_cons, List.map_cons, ih (List.nodup_cons.mp hnodup).2, hb.classical, hstate,
          outer_smul hu]
  have hlookup := Tally.lookup_tally (runs.map fun x => (Nat.ofBits x.2.2, outer x.2.1))
  rw [← hentries, ← densities_eq] at hlookup
  have hkey : ∀ key, key ∈ (branches.map fun b => (b.2, outer b.1)).map (·.1) ↔
      ∃ x ∈ runs, Nat.ofBits x.2.2 = key := fun key => by
    rw [hentries, List.map_map, List.mem_map]
    rfl
  constructor
  · intro key
    rw [hlookup]
    by_cases h : ∃ x ∈ runs, Nat.ofBits x.2.2 = key
    · rw [if_pos ((hkey key).mpr h)]
      simpa using h
    · rw [if_neg fun hmem => h ((hkey key).mp hmem)]
      simpa using h
  · intro key ρ hρ
    rw [hlookup] at hρ
    by_cases h : ∃ x ∈ runs, Nat.ofBits x.2.2 = key
    · rw [if_pos ((hkey key).mpr h)] at hρ
      have hfilter : runs.toFinset.filter (fun p => Nat.ofBits p.2.2 = key)
          = (runs.filter fun p => decide (Nat.ofBits p.2.2 = key)).toFinset := by
        rw [List.toFinset_filter]
        simp only [decide_eq_true_eq]
      rw [← Option.some.inj hρ, hentries, hfilter, List.sum_toFinset _ (hnodup.filter _),
        List.filter_map, List.map_map]
      rfl
    · rw [if_neg fun hmem => h ((hkey key).mp hmem)] at hρ
      cases hρ

/-- A simulation's densities are those of all paths from the zero state, and lose nothing. -/
theorem densities_paths {max_steps : Nat} {densities : AList fun _ : Nat => Density n K}
    (h : simulate assign circuit max_steps = .ok densities) :
    (∃ paths : Finset (List Bool × Point n m K),
      (∀ p, p ∈ paths ↔ Path assign circuit (.refl _) id (zeroState n K, fun _ => false) p.1 p.2) ∧
      Sums densities paths) ∧
    (densities.entries.map fun d => trace d.2).sum = 1 := by
  classical
  rw [simulate] at h
  split at h
  case isTrue => cases h
  case isFalse =>
    obtain ⟨⟨branches, steps⟩, hrun, h⟩ := bind_eq_ok.mp h
    cases h
    have hfollows := (run_follows max_steps _ _ _ circuit _ _ _ _ _ _ hrun).singleton
    have hstart : Represents (zeroState n K, 0) (zeroState n K, fun _ : Fin m => false) := by
      refine ⟨⟨1, by simp, (one_smul K _).symm⟩, Nat.eq_of_testBit_eq fun i => ?_⟩
      rw [Nat.zero_testBit, Nat.testBit_ofBits]
      split <;> rfl
    obtain ⟨runs, hruns, hrep⟩ := hfollows.paths _ hstart
    refine ⟨⟨runs.toFinset, fun p => ?_, sums_of_runs hruns.nodup hrep⟩, ?_⟩
    · rw [List.mem_toFinset]
      exact hruns.all p
    · have hsum := Tally.sum_tally (traceHom : Density n K →+ K)
        (branches.map fun b => (b.2, outer b.1)) ∅
      rw [← densities_eq, AList.empty_entries, List.map_nil, List.sum_nil, zero_add,
        List.map_map] at hsum
      calc ((branches.foldl addDensity ∅).entries.map fun d => trace d.2).sum
          = (branches.map fun b => trace (outer b.1)).sum := hsum
        _ = (branches.map fun b => normSq b.1).sum := by simp only [trace_outer]
        _ = 1 := hfollows.norm.trans (normSq_zeroState n)

/-- The execution of the whole circuit from the zero state. -/
def Circuit.execution : Task P K n m :=
  .circuit circuit [(zeroState n K, 0)] (Function.Embedding.refl _) id

/-- What is returned of an outcome. -/
def Outcome.densities : Outcome n K → Except Stop (AList fun _ : Nat => Density n K)
  | .ended branches => .ok (branches.foldl addDensity ∅)
  | .failed stop => .error stop
  | .cut => .error exceeded

section Bound
variable {assign circuit} {outcome : Outcome n K} {k : Nat}

/-- More operations than the bound has are refused. -/
theorem simulate_exceeded (hwidth : n ≤ 8) (h : Executes assign circuit.execution outcome k)
    {max_steps : Nat} (hmany : max_steps < k) :
    simulate assign circuit max_steps = .error exceeded := by
  obtain ⟨hlong, -⟩ := h.bounded (show max_steps < 0 + (max_steps + 1) by omega) (Nat.zero_le _)
  have hrun : run assign max_steps (max_steps + 1) n m circuit 0 [(zeroState n K, 0)]
      (Function.Embedding.refl _) id = .error exceeded := hlong (by omega)
  rw [simulate, if_neg (by omega), hrun]
  rfl

/-- An execution that is over within the bound gives its outcome. -/
theorem simulate_within (hwidth : n ≤ 8) (h : Executes assign circuit.execution outcome k)
    (hover : outcome ≠ .cut) {max_steps : Nat} (hfew : k ≤ max_steps) :
    simulate assign circuit max_steps = outcome.densities := by
  obtain ⟨-, hshort⟩ := h.bounded (show max_steps < 0 + (max_steps + 1) by omega) (Nat.zero_le _)
  have hrun : run assign max_steps (max_steps + 1) n m circuit 0 [(zeroState n K, 0)]
      (Function.Embedding.refl _) id = outcome.result (0 + k) := hshort (by omega) hover
  rw [simulate, if_neg (by omega), hrun]
  cases outcome with
  | ended branches => rfl
  | failed stop => rfl
  | cut => exact absurd rfl hover

variable (assign circuit) in
/-- An execution is over after some operations, or it goes on beyond every number of them. -/
theorem execution_total :
    (∃ outcome k, Executes assign circuit.execution outcome k ∧ outcome ≠ .cut) ∨
      ∀ k, Executes assign circuit.execution .cut k := by
  by_cases hover : ∃ outcome k, Executes assign circuit.execution outcome k ∧ outcome ≠ .cut
  · exact .inl hover
  · refine .inr fun k => ?_
    cases k with
    | zero => exact .cut _
    | succ max_steps =>
        have explained : Explained assign max_steps (max_steps + 1) circuit.execution 0 :=
          circuit_explained circuit [(zeroState n K, 0)] (Function.Embedding.refl _) id (by omega)
            (Nat.zero_le _)
        obtain ⟨outcome, k, hexec, hgave⟩ := explained
        cases outcome with
        | ended branches => exact absurd ⟨_, k, hexec, nofun⟩ hover
        | failed stop => exact absurd ⟨_, k, hexec, nofun⟩ hover
        | cut =>
            have hk : k = max_steps + 1 := by have := hgave.2; omega
            exact hk ▸ hexec

end Bound

/-- A rotation by an angle of the 3-4-5 triangle. -/
def tilt : Isometry (BitVec 1) ℚ where
  matrix a b := if a = b then 3 / 5 else if a = 0#1 then -4 / 5 else 4 / 5
  isometric := by decide +kernel

/-- A tilted wire is measured, and reset if the outcome is one. -/
def tiltedReset : Circuit Unit ℚ 1 1 :=
  .cons (.gate "ry" (some tilt) (.refl _) []) <| .cons (.measure 0 0) <|
    .cons (.ifThen ⟨[0], 1⟩ (.cons (.reset 0) (.done 1) : Circuit Unit ℚ 1 0) (.refl _)
      fun i => i.elim0) <| .done 1

example : ((simulate (fun _ _ _ _ body => some body) tiltedReset 4).toOption.map fun densities =>
    [0, 1].map fun key => (densities.lookup key).map fun ρ => ρ 0#1 0#1)
      = some [some (9 / 25), some (16 / 25)] := by decide +kernel

end TranspileBench.Verifier
