import TranspileBench.Lib.RankOne
import TranspileBench.Verifier.References
import TranspileBench.Verifier.Terminal
import Mathlib

/-!
The verdicts of C2 and C3 on a reference and an output, in exact arithmetic. C2 drops the wires
that are idle in both, reads one vector for each outcome and compares them in closed form; C3
compares the full-width densities of its branching simulation by their eigenvalues.
-/
namespace TranspileBench.Verifier
open Amplitudes Metrics

variable {P : Type} {n m m' : Nat}

inductive Judgement
  | verified
  | mismatch
  | unverified
  deriving DecidableEq

/-! ## compact_union -/

section Compact
variable {K : Type} [CommRing K] [StarRing K]

def Op.qubits : Op P K n m → List (Fin n)
  | .gate _ _ qs _ => (List.finRange _).map qs
  | .barrier => []
  | .measure wire _ => [wire]
  | .reset wire => [wire]
  | .ifThen _ _ qs _ => (List.finRange _).map qs
  | .ifElse _ _ _ qs _ => (List.finRange _).map qs
  | .whileLoop _ _ qs _ => (List.finRange _).map qs
  | .forLoop _ _ _ qs _ => (List.finRange _).map qs

/-- The wires that some instruction other than a barrier acts on. -/
def Circuit.active : Circuit P K n m → List (Fin n)
  | .done _ => []
  | .cons op rest => op.qubits ++ rest.active

/-- `sorted(active)`. -/
def unionWires (a : Circuit P K n m) (b : Circuit P K n m') (required : List (Fin n)) :
    List (Fin n) :=
  (List.finRange n).filter fun q =>
    required.contains q || a.active.contains q || b.active.contains q

/-- `indices[q]`; a wire that is not kept is a `KeyError`. -/
def narrow (wires : List (Fin n)) {k : Nat} (qs : Fin k ↪ Fin n) :
    Option (Fin k ↪ Fin wires.length) :=
  if h : ∀ j, wires.contains (qs j) then
    some ⟨fun j => ⟨wires.idxOf (qs j),
      List.idxOf_lt_length_of_mem (List.contains_iff_mem.mp (h j))⟩,
      fun i _ hij => qs.injective ((List.idxOf_inj (List.contains_iff_mem.mp (h i))).mp
        (Fin.mk.inj hij))⟩
  else none

def narrowWire (wires : List (Fin n)) (q : Fin n) : Option (Fin wires.length) :=
  if h : wires.contains q then
    some ⟨wires.idxOf q, List.idxOf_lt_length_of_mem (List.contains_iff_mem.mp h)⟩
  else none

def Op.narrow (wires : List (Fin n)) : Op P K n m → Option (Op P K wires.length m)
  | .gate name matrix qs cs => (Verifier.narrow wires qs).map fun qs => .gate name matrix qs cs
  | .barrier => some .barrier
  | .measure wire bit => (narrowWire wires wire).map fun wire => .measure wire bit
  | .reset wire => (narrowWire wires wire).map .reset
  | .ifThen condition body qs cs => (Verifier.narrow wires qs).map fun qs =>
      .ifThen condition body qs cs
  | .ifElse condition body orelse qs cs =>
      (Verifier.narrow wires qs).map fun qs => .ifElse condition body orelse qs cs
  | .whileLoop condition body qs cs =>
      (Verifier.narrow wires qs).map fun qs => .whileLoop condition body qs cs
  | .forLoop indices parameter body qs cs =>
      (Verifier.narrow wires qs).map fun qs => .forLoop indices parameter body qs cs

/-- The circuit on the kept wires, without its barriers. -/
def Circuit.compact (wires : List (Fin n)) : Circuit P K n m → Option (Circuit P K wires.length m)
  | .done phase => some (.done phase)
  | .cons .barrier rest => rest.compact wires
  | .cons op rest => do
      let op ← op.narrow wires
      let rest ← rest.compact wires
      pure (.cons op rest)

/-- Whether an instruction of the circuit itself is a measurement. -/
def Circuit.measures : Circuit P K n m → Bool
  | .done _ => false
  | .cons (.measure _ _) _ => true
  | .cons _ rest => rest.measures

/-! ## The reference -/

def Op.place {k : Nat} (emb : Fin k ↪ Fin n) : Op P K k m → Op P K n m
  | .gate name matrix qs cs => .gate name matrix (qs.trans emb) cs
  | .barrier => .barrier
  | .measure wire bit => .measure (emb wire) bit
  | .reset wire => .reset (emb wire)
  | .ifThen condition body qs cs => .ifThen condition body (qs.trans emb) cs
  | .ifElse condition body orelse qs cs => .ifElse condition body orelse (qs.trans emb) cs
  | .whileLoop condition body qs cs => .whileLoop condition body (qs.trans emb) cs
  | .forLoop indices parameter body qs cs => .forLoop indices parameter body (qs.trans emb) cs

/-- The circuit on wires of a wider one. -/
def Circuit.place {k : Nat} (emb : Fin k ↪ Fin n) : Circuit P K k m → Circuit P K n m
  | .done phase => .done phase
  | .cons op rest => .cons (op.place emb) (rest.place emb)

end Compact

/-- The wires that a circuit is put on. -/
def wireList (n k : Nat) (qubits : List Int) : Option (Fin k ↪ Fin n) :=
  if h : qubits.length = k ∧ qubits.Nodup ∧ ∀ q ∈ qubits, 0 ≤ q ∧ q < n then
    let at_ : Fin k → Int := fun j => qubits.get (j.cast h.1.symm)
    have inside : ∀ j, 0 ≤ at_ j ∧ at_ j < n := fun j => h.2.2 _ (List.get_mem _ _)
    some ⟨fun j => ⟨(at_ j).toNat, by have := inside j; omega⟩, fun i j hij => by
      have heq := Fin.mk.inj hij
      have hi := inside i
      have hj := inside j
      have hat : at_ i = at_ j := by omega
      simpa [Fin.ext_iff] using (List.nodup_iff_injective_get.mp h.2.1) hat⟩
  else none

/-- `zero_reference`, of a circuit whose gates are matrices. -/
def zeroCircuit {k : Nat} (logical : Circuit P ℂ k m) (width : Nat) (layout : Option Layout) :
    Except ReferenceError (Circuit P ℂ width m) :=
  let errors := layoutErrors layout k width none
  if errors ≠ [] then .error (.value errors)
  else match wireList width k ((finalOf layout width).take k) with
    | some wires => .ok (logical.place wires)
    | none => .error .circuit

/-! ## Distances -/

def PhaseEqual {B : Type} [Fintype B] (a b : B → ℂ) (rtol atol : ℝ) : Prop :=
  let overlap := innerProduct a b
  if overlap = 0 then ∀ i, ‖a i - b i‖ ≤ atol + rtol * ‖b i‖
  else ∀ i, ‖a i * overlap / (‖overlap‖ : ℂ) - b i‖ ≤ atol + rtol * ‖b i‖

/-- What stops `verify_zero`. -/
inductive Failure
  | reference (error : ReferenceError)
  | key_error
  | stopped (stop : Stop)
  /-- `MeasurementMismatch`. -/
  | measurement (text : String)

/-- The trace distance of two rank-one blocks. -/
noncomputable def blockDistance {B : Type} [Fintype B] (x y : B → ℂ) : ℝ :=
  let p := weight x
  let q := weight y
  -- nearly equal squares are not subtracted
  let orthogonal := if p ≠ 0 ∧ q ≠ 0 then weight (y - (innerProduct x y / (p : ℂ)) • x) else 0
  √((p - q) ^ 2 + (4 : ℕ) * p * orthogonal) / (2 : ℕ)

/-- A vector on the same wires, listed by an equal list. -/
def recast {l l' : List (Fin n)} (h : l = l') (v : BitVec l'.length → ℂ) : BitVec l.length → ℂ :=
  fun w => v (w.cast (congrArg List.length h))

open Classical in
/-- `measurement_distance`: the total variation and the joint trace distance. -/
noncomputable def measurementDistance (a : Circuit P ℂ n m) (b : Circuit P ℂ n m') :
    Except Failure (ℝ × ℝ) := do
  let left ← (terminalBranches a).mapError .stopped
  let right ← (terminalBranches b).mapError .stopped
  if h : left.remaining = right.remaining then
    let outcomes := left.branches.keys ∪ right.branches.keys
    let x := fun key => (left.branches.lookup key).getD 0
    let y := fun key => recast h ((right.branches.lookup key).getD 0)
    pure ((outcomes.map fun key => |weight (x key) - weight (y key)| / (2 : ℕ)).sum,
      (outcomes.map fun key => blockDistance (x key) (y key)).sum)
  else throw (.measurement "Different exposed residual wire sets")

/-! ## Verdicts -/

structure OracleReport where
  status : Judgement
  union_width : Option Nat := none
  detail : Option String := none
  TVD : Option ℝ := none
  joint_trace_distance : Option ℝ := none
  process_infidelity : Option ℝ := none

def MAX_ESTIMATED_STATE_BYTES : Nat := 2 <<< 30

/-- `Statevector(circuit).data`, for circuits of any size. -/
abbrev StatevectorOf (P : Type) := ∀ w c : Nat, Circuit P ℂ w c → Except Stop (State w ℂ)

open Classical in
/-- The comparison of the two compacted circuits. -/
noncomputable def compareZero (statevector : StatevectorOf P) (a : Circuit P ℂ n m)
    (b : Circuit P ℂ n m') : Except Failure OracleReport :=
  if a.measures ∨ b.measures then do
    let (tvd, distance) ← measurementDistance a b
    pure { status := if tvd < 1e-8 ∧ distance < 1e-8 then .verified else .mismatch
           union_width := some n, TVD := some tvd, joint_trace_distance := some distance }
  else do
    let x ← (statevector n m a).mapError .stopped
    let y ← (statevector n m' b).mapError .stopped
    pure { status := if PhaseEqual x y 0 1e-8 then .verified else .mismatch, union_width := some n }

/-- `verify_zero`; the two lists are the names and widths of the classical registers. -/
noncomputable def verifyZero (statevector : StatevectorOf P) {k : Nat}
    (registers registers' : List (String × Nat)) (logical : Circuit P ℂ k m)
    (output : Circuit P ℂ n m')
    (layout : Option Layout) (max_qubits : Nat) : Except Failure OracleReport :=
  if registers ≠ registers' then
    .ok { status := .mismatch, detail := some "Classical registers changed" }
  else do
    let expected ← (zeroCircuit logical n layout).mapError .reference
    let required := ((finalOf layout n).take k ++ (initialOf layout n).take k).filterMap fun q =>
      (List.finRange n)[q.toNat]?
    let wires := unionWires expected output required
    match expected.compact wires, output.compact wires with
    | some a, some b =>
        if max_qubits < wires.length then
          pure { status := .unverified, union_width := some wires.length,
                 detail := some "Union width exceeds limit" }
        else if MAX_ESTIMATED_STATE_BYTES < 4 * (1 <<< wires.length) * 16 then
          pure { status := .unverified, union_width := some wires.length,
                 detail := some "Statevector memory budget exceeded" }
        else
          match compareZero statevector a b with
          | .error (.measurement text) =>
              pure { status := .mismatch, union_width := some wires.length, detail := some text }
          | .error (.stopped (.unsupported text)) =>
              pure { status := .unverified, union_width := some wires.length, detail := some text }
          | answer => answer
    | _, _ => throw .key_error

open Classical in
/-- `np.abs(np.linalg.eigvalsh(A)).sum()`. -/
noncomputable def eigenvalueSum {B : Type} [Fintype B] (A : Matrix B B ℂ) : ℝ :=
  if h : A.IsHermitian then traceNorm h else 0

open Classical in
noncomputable def verifyDynamic (assign : Assign P ℂ) (max_steps : Nat) {n' : Nat}
    (reference : Circuit P ℂ n m) (output : Circuit P ℂ n' m') : Except Stop OracleReport :=
  if h : n' = n ∧ m' = m then do
    let a ← simulate assign reference max_steps
    let b ← simulate assign (h.1 ▸ h.2 ▸ output) max_steps
    let distance := ((a.keys ∪ b.keys).map fun key =>
      eigenvalueSum (((a.lookup key).getD 0 - (b.lookup key).getD 0 : Density n ℂ)) / (2 : ℕ)).sum
    pure { status := if distance < 1e-8 then .verified else .mismatch
           joint_trace_distance := some distance }
  else .ok { status := .mismatch, detail := some "Quantum or classical output width changed" }

end TranspileBench.Verifier
