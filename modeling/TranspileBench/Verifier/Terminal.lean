import Mathlib
import TranspileBench.Verifier.Dynamic

/-!
C2: the terminal-measurement instrument. The gates are run first and the measurements are
read off the tensor of the state afterwards, one slice for each outcome.
-/
namespace TranspileBench.Verifier
open Amplitudes

variable {P K : Type} [CommRing K] [StarRing K] {n m : Nat}

/-- An operation that was appended to the circuit of gates. -/
structure Placed (n : Nat) (K : Type) [CommRing K] [StarRing K] where
  width : Nat
  matrix : Option (Isometry (BitVec width) K)
  qs : Fin width ↪ Fin n

/-- The gates so far, and `measured`, whose values are `destinations`. -/
structure Scan (n m : Nat) (K : Type) [CommRing K] [StarRing K] where
  gates : List (Placed n K)
  measured : List (Fin n × Fin m)

/-- The scan of the instructions, with the circuit's global phase. -/
def scan : Circuit P K n m → Scan n m K → Except Stop (unitary K × Scan n m K)
  | .done phase, s => .ok (phase, s)
  | .cons .barrier rest, s => scan rest s
  | .cons (.measure wire bit) rest, s =>
      if wire ∈ s.measured.map (·.1) ∨ bit ∈ s.measured.map (·.2) then
        .error (.unsupported "Repeated terminal measurement")
      else scan rest { s with measured := s.measured ++ [(wire, bit)] }
  | .cons (.gate name matrix qs cs) rest, s =>
      if name = "switch_case" ∨ cs ≠ [] then
        .error (.unsupported "Not a terminal-measurement circuit")
      else if ∃ j, qs j ∈ s.measured.map (·.1) then
        .error (.unsupported "Operation after measurement on the same wire")
      else scan rest { s with gates := s.gates ++ [⟨_, matrix, qs⟩] }
  | .cons _ _, _ => .error (.unsupported "Not a terminal-measurement circuit")

/-- `Statevector(prefix)`, without the global phase. -/
def prepare (gates : List (Placed n K)) : Except Stop (State n K) :=
  gates.foldlM (fun state gate => match gate.matrix with
    | some U => .ok (evolve U gate.qs state)
    | none => .error .qiskit) (zeroState n K)

omit [CommRing K] [StarRing K] in
/-- `state.reshape([2] * n)`: the last axis is the lowest wire. -/
def reshape (state : State n K) : (Fin n → Bool) → K := fun axes =>
  state (BitVec.ofFnLE fun wire => axes wire.rev)

/-- `tensor[tuple(index)]`, read in order: a slice takes all values, the last the fastest. -/
def slice (tensor : (Fin n → Bool) → K) (index : Fin n → Option Bool) (r : Nat) : BitVec r → K :=
  fun w =>
    let free := (List.finRange n).filter fun axis => (index axis).isNone
    tensor fun axis => (index axis).getD (w.getLsbD (free.length - 1 - free.idxOf axis))

/-- The residual vectors by the value of the classical bits, and the wires that they are on. -/
structure Residual (n : Nat) (K : Type) where
  remaining : List (Fin n)
  branches : AList fun _ : Nat => BitVec remaining.length → K

section Outcome
variable (measured : List (Fin n × Fin m))

def remaining : List (Fin n) := (List.finRange n).filter (· ∉ measured.map (·.1))

def measuredWires : List (Fin n) := (measured.map (·.1)).mergeSort

/-- `measured[q]`. -/
def destination (wire : Fin n) : Nat := ((measured.lookup wire).map Fin.val).getD 0

/-- `sum(((outcome >> i) & 1) << measured[q] for i, q in enumerate(measured_wires))`. -/
def outcomeBits (outcome : Nat) : Nat :=
  ((measuredWires measured).zipIdx.map fun x =>
    ((outcome >>> x.2) &&& 1) <<< destination measured x.1).sum

/-- `index[circuit.num_qubits - 1 - q] = (outcome >> i) & 1`. -/
def outcomeIndex (outcome : Nat) (axis : Fin n) : Option Bool :=
  if axis.rev ∈ measuredWires measured then
    some (outcome.testBit ((measuredWires measured).idxOf axis.rev))
  else none

def residualVector (state : State n K) (outcome : Nat) : BitVec (remaining measured).length → K :=
  slice (reshape state) (outcomeIndex measured outcome) _

end Outcome

def MAX_MEASURED_BRANCH_WIRES : Nat := 15

def terminalBranches [DecidableEq K] (circuit : Circuit P K n m) : Except Stop (Residual n K) := do
  let (phase, scanned) ← scan circuit ⟨[], []⟩
  if MAX_MEASURED_BRANCH_WIRES < scanned.measured.length then
    .error (.unsupported "Terminal measurement branch budget exceeded")
  else do
    let prepared ← prepare scanned.gates
    let state := (phase : K) • prepared
    let branches := (List.range (1 <<< (measuredWires scanned.measured).length)).foldl
      (fun branches outcome =>
        let vector := residualVector scanned.measured state outcome
        if vector = 0 then branches
        else branches.insert (outcomeBits scanned.measured outcome) vector) ∅
    pure ⟨remaining scanned.measured, branches⟩

end TranspileBench.Verifier
