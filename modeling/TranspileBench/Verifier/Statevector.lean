import Mathlib
import TranspileBench.Lib.Amplitudes

/-!
State vectors as the verifier keeps them: an array over the basis indices `0` to `2^n - 1`,
where bit `i` of an index is the value of wire `i`, in exact arithmetic.
-/
namespace TranspileBench.Verifier
open Amplitudes

variable {K : Type} [CommRing K] [StarRing K] {n k : Nat}

abbrev State (n : Nat) (K : Type) := BitVec n → K

/-- The gate's wire that is put on wire `i`. -/
def wireOf (qs : Fin k ↪ Fin n) (i : Fin n) : Option (Fin k) :=
  (List.finRange k).find? fun j => qs j = i

theorem wireOf_eq_some {qs : Fin k ↪ Fin n} {i : Fin n} {j : Fin k} :
    wireOf qs i = some j ↔ qs j = i := by
  constructor
  · intro h
    simpa using List.find?_some h
  · rintro rfl
    cases hfound : wireOf qs (qs j) with
    | none => simpa using List.find?_eq_none.mp hfound j (List.mem_finRange j)
    | some j' =>
        have hj : qs j' = qs j := by simpa using List.find?_some hfound
        rw [qs.injective hj]

theorem wireOf_eq_none {qs : Fin k ↪ Fin n} {i : Fin n} :
    wireOf qs i = none ↔ ∀ j, qs j ≠ i := by
  simp [wireOf]

def gather (qs : Fin k ↪ Fin n) (b : BitVec n) : BitVec k :=
  BitVec.ofFnLE fun j => b.getLsbD (qs j)

def scatter (qs : Fin k ↪ Fin n) (b : BitVec n) (c : BitVec k) : BitVec n :=
  BitVec.ofFnLE fun i => ((wireOf qs i).map fun j => c.getLsbD j).getD (b.getLsbD i)

@[simp] theorem getLsbD_gather (qs : Fin k ↪ Fin n) (b : BitVec n) (j : Fin k) :
    (gather qs b).getLsbD j = b.getLsbD (qs j) := by
  simp [gather]

@[simp] theorem getLsbD_scatter (qs : Fin k ↪ Fin n) (b : BitVec n) (c : BitVec k) (i : Fin n) :
    (scatter qs b c).getLsbD i
      = ((wireOf qs i).map fun j => c.getLsbD j).getD (b.getLsbD i) := by
  simp [scatter]

theorem index_ext {a b : BitVec n} (h : ∀ i : Fin n, a.getLsbD i = b.getLsbD i) : a = b :=
  BitVec.eq_of_getLsbD_eq fun i hi => h ⟨i, hi⟩

/-- The wires a gate is put on, as a part of an index: its bit `j` is wire `qs j`. -/
def wires (qs : Fin k ↪ Fin n) : Lens (BitVec n) (BitVec k) where
  get := gather qs
  set := scatter qs
  get_set b c := index_ext fun j => by
    rw [getLsbD_gather, getLsbD_scatter, wireOf_eq_some.mpr rfl]
    rfl
  set_get b := index_ext fun i => by
    rw [getLsbD_scatter]
    cases h : wireOf qs i with
    | none => rfl
    | some j =>
        obtain rfl := wireOf_eq_some.mp h
        exact getLsbD_gather qs b j
  set_set b c d := index_ext fun i => by
    rw [getLsbD_scatter, getLsbD_scatter, getLsbD_scatter]
    cases wireOf qs i <;> rfl

/-- `Statevector(state).evolve(op, qargs)`. -/
def evolve (U : Isometry (BitVec k) K) (qs : Fin k ↪ Fin n) (state : State n K) : State n K :=
  onPart (wires qs) U.matrix state

/-- `project`: the amplitudes of the other value of the wire are set to zero. -/
def projectWire (wire : Fin n) (bit : Bool) (state : State n K) : State n K :=
  project (fun b => b.getLsbD wire == bit) state

/-- `part[np.arange(len(part)) ^ (1 << wire)]`. -/
def flipWire (wire : Fin n) (state : State n K) : State n K :=
  fun b => state (b ^^^ (1#n <<< (wire : Nat)))

def zeroState (n : Nat) (K : Type) [CommRing K] : State n K := fun b => if b = 0#n then 1 else 0

@[simp] theorem getLsbD_flip (b : BitVec n) (wire i : Fin n) :
    (b ^^^ (1#n <<< (wire : Nat))).getLsbD i = (b.getLsbD i != decide (i = wire)) := by
  have hbit : (!decide (i < wire) && decide ((i : Nat) - (wire : Nat) = 0))
      = decide ((i : Nat) = wire) := by
    rw [Bool.eq_iff_iff]
    simp only [Bool.and_eq_true, Bool.not_eq_true', decide_eq_false_iff_not, decide_eq_true_eq,
      Fin.lt_def]
    omega
  simp [Fin.ext_iff, hbit]

theorem scatter_other {qs : Fin k ↪ Fin n} {wire : Fin n} (h : ∀ j, qs j ≠ wire) (b : BitVec n)
    (c : BitVec k) : (scatter qs b c).getLsbD wire = b.getLsbD wire := by
  rw [getLsbD_scatter, wireOf_eq_none.mpr h]
  rfl

section Laws

variable {U : Isometry (BitVec k) K} {qs : Fin k ↪ Fin n} {wire : Fin n} {bit : Bool}
  {state : State n K}

theorem evolve_smul (u : K) : evolve U qs (u • state) = u • evolve U qs state := onPart_smul u state

omit [StarRing K] in
theorem projectWire_smul (u : K) :
    projectWire wire bit (u • state) = u • projectWire wire bit state := project_smul u state

omit [StarRing K] in
theorem flipWire_smul (u : K) : flipWire wire (u • state) = u • flipWire wire state := rfl

theorem normSq_evolve : normSq (evolve U qs state) = normSq state := U.normSq_onPart state

theorem evolve_eq_zero : evolve U qs state = 0 ↔ state = 0 := U.onPart_eq_zero

/-- The two outcomes of a measurement share the norm. -/
theorem normSq_projectWire (wire : Fin n) (state : State n K) :
    normSq (projectWire wire false state) + normSq (projectWire wire true state)
      = normSq state := by
  have hneg : projectWire wire false state = project
      (fun b => !(b.getLsbD wire == true)) state := by
    funext b
    simp [projectWire, project]
  rw [hneg, add_comm]
  exact normSq_project _ _

theorem flip_flip (b : BitVec n) (wire : Fin n) :
    (b ^^^ (1#n <<< (wire : Nat))) ^^^ (1#n <<< (wire : Nat)) = b := by
  rw [BitVec.xor_assoc, BitVec.xor_self, BitVec.xor_zero]

theorem normSq_flipWire : normSq (flipWire wire state) = normSq state := by
  let e : BitVec n ≃ BitVec n :=
    { toFun := fun b => b ^^^ (1#n <<< (wire : Nat))
      invFun := fun b => b ^^^ (1#n <<< (wire : Nat))
      left_inv := fun b => flip_flip b wire
      right_inv := fun b => flip_flip b wire }
  exact Fintype.sum_equiv e _ _ fun _ => rfl

theorem normSq_zeroState (n : Nat) : normSq (zeroState n K) = 1 := by
  simp [normSq, innerProduct, zeroState]

end Laws

end TranspileBench.Verifier
