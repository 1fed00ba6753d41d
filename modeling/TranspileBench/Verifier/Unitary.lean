import TranspileBench.Verifier.Compaction
import TranspileBench.Lib.Phase
import Mathlib

/-!
C1: the dense operators of the reference and of the output, compared entry by entry up to a
phase, or with a control in front of both, in exact arithmetic.
-/
namespace TranspileBench.Verifier
open Amplitudes Metrics Fallible

variable {P : Type} {n m m' k w : Nat}

/-! ## Operators -/

section Operators
variable {K : Type} [CommRing K] [StarRing K]

theorem evolve_add (U : Isometry (BitVec k) K) (qs : Fin k ↪ Fin n) (ψ φ : State n K) :
    evolve U qs (ψ + φ) = evolve U qs ψ + evolve U qs φ := by
  funext b
  simp only [evolve, onPart, Pi.add_apply, mul_add, Finset.sum_add_distrib]

/-- `evolve`, as a linear map. -/
def evolveMap (U : Isometry (BitVec k) K) (qs : Fin k ↪ Fin n) : State n K →ₗ[K] State n K where
  toFun := evolve U qs
  map_add' := evolve_add U qs
  map_smul' u _ := evolve_smul u

/-- What a circuit does to a vector, if it has gates only. -/
def Circuit.act : Circuit P K n m → Option (State n K →ₗ[K] State n K)
  | .done phase => some ((phase : K) • LinearMap.id)
  | .cons .barrier rest => rest.act
  | .cons (.gate _ (some U) qs []) rest => rest.act.map (· ∘ₗ evolveMap U qs)
  | .cons _ _ => none

/-- The matrix of a map: a column for each basis vector. -/
def matrixOf (f : State n K →ₗ[K] State n K) :
    BitVec n → BitVec n → K := fun b c => f (Pi.single c 1) b

/-- `append(operation, qubits)`, before the global phase. -/
def Circuit.snoc : Circuit P K n m → Op P K n m → Circuit P K n m
  | .done phase, op => .cons op (.done phase)
  | .cons first rest, op => .cons first (rest.snoc op)

theorem gather_injective {qs : Fin n ↪ Fin n} : Function.Injective (gather qs) := by
  intro b c h
  refine index_ext fun i => ?_
  obtain ⟨j, rfl⟩ := Finite.injective_iff_surjective.mp qs.injective i
  rw [← getLsbD_gather, h, getLsbD_gather]

/-- What C1 uses of Qiskit: `Operator(circuit).data` and `PermutationGate`. -/
structure Dense (P K : Type) [CommRing K] [StarRing K] where
  operator : ∀ n m, Circuit P K n m → Except Stop (BitVec n → BitVec n → K)
  permutation : ∀ n, (Fin n ↪ Fin n) → Isometry (BitVec n) K

/-- And what is documented of it. -/
structure Dense.Documented (q : Dense P K) : Prop where
  /-- A circuit of gates is the matrix of what its gates do in turn. -/
  operator : ∀ n m (circuit : Circuit P K n m) f, circuit.act = some f →
    q.operator n m circuit = .ok (matrixOf f)
  /-- Wire `i` gets what wire `pattern[i]` has. -/
  permutation : ∀ n (pattern : Fin n ↪ Fin n) b c,
    (q.permutation n pattern).matrix b c = if b = gather pattern c then 1 else 0

end Operators

/-- `expected_circuit`, of a circuit whose gates are matrices. -/
def unitaryCircuit (q : Dense P ℂ) (logical : Circuit P ℂ k m) (width : Nat)
    (layout : Option Layout) :
    Except ReferenceError (Circuit P ℂ width m) :=
  let errors := layoutErrors layout k width none
  if errors ≠ [] then .error (.value errors)
  else
    let initial := initialOf layout width
    let final := finalOf layout width
    match wireList width k (initial.take k),
      wireList width width (permutationPattern initial final width) with
    | some wires, some pattern =>
        .ok ((logical.place wires).snoc
          (.gate "permutation" (some (q.permutation width pattern)) (.refl _) []))
    | _, _ => .error .circuit

/-- A control, the lowest bit of the index, in front of an operator. -/
def controlledOf (A : BitVec n → BitVec n → ℂ) : BitVec n × Bool → BitVec n × Bool → ℂ :=
  fun x y => if x.2 && y.2 then A x.1 y.1 else if x = y then 1 else 0

open Classical in
/-- The verdict on two operators. -/
noncomputable def compareOperators {B : Type} [Fintype B] (a b : B → B → ℂ) : OracleReport :=
  { status := if PhaseEqual (flat a) (flat b) 1e-7 1e-8 then .verified else .mismatch
    process_infidelity := some (max 0
      (1 - ‖innerProduct (flat a) (flat b)‖ ^ 2 / (Fintype.card B : ℝ) ^ 2)) }

noncomputable def verifyUnitary (q : Dense P ℂ) (logical : Circuit P ℂ k m)
    (output : Circuit P ℂ n m') (layout : Option Layout)
    (contract : String) (max_qubits : Nat) (controlled : Bool) : Except Failure OracleReport :=
  if contract ≠ "all_inputs" then
    .ok { status := .unverified, detail := some "All-input compile contract required" }
  else if max_qubits < n then
    .ok { status := .unverified, detail := some "Dense operator width limit" }
  else do
    let expected ← (unitaryCircuit q logical n layout).mapError .reference
    let a ← (q.operator n m expected).mapError .stopped
    let b ← (q.operator n m' output).mapError .stopped
    pure (if controlled then compareOperators (controlledOf a)
      (controlledOf b) else compareOperators a b)

end TranspileBench.Verifier
