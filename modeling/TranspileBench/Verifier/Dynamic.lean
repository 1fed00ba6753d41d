import Mathlib
import TranspileBench.Verifier.Statevector

/-!
C3: the branching simulator. A circuit is the list of its operations; the blocks of a
control-flow operation are circuits over its own wires and bits, which are put on those of
the enclosing circuit.
-/
namespace TranspileBench.Verifier
open Amplitudes

/-- What the simulators raise, themselves or from a call into Qiskit that fails there;
running out of fuel stands for a run that does not end. -/
inductive Stop
  | unsupported (text : String)
  | qiskit
  | outOfFuel
  deriving DecidableEq

/-- A condition on a bit, or on the bits of a register, lowest first. -/
structure Condition (c : Nat) where
  bits : List (Fin c)
  value : Int

mutual

/-- An operation on `q` wires and `c` bits. A gate acts as its matrix; it has none where
`evolve` does not accept it. -/
inductive Op (P K : Type) [CommRing K] [StarRing K] : Nat → Nat → Type
  | gate {q c k : Nat} (name : String) (matrix : Option (Isometry (BitVec k) K))
      (qs : Fin k ↪ Fin q) (cs : List (Fin c)) : Op P K q c
  | barrier {q c : Nat} : Op P K q c
  | measure {q c : Nat} (wire : Fin q) (bit : Fin c) : Op P K q c
  | reset {q c : Nat} (wire : Fin q) : Op P K q c
  | ifThen {q c k l : Nat} (condition : Condition c) (body : Circuit P K k l)
      (qs : Fin k ↪ Fin q) (cs : Fin l → Fin c) : Op P K q c
  | ifElse {q c k l : Nat} (condition : Condition c) (body orelse : Circuit P K k l)
      (qs : Fin k ↪ Fin q) (cs : Fin l → Fin c) : Op P K q c
  | whileLoop {q c k l : Nat} (condition : Condition c) (body : Circuit P K k l)
      (qs : Fin k ↪ Fin q) (cs : Fin l → Fin c) : Op P K q c
  | forLoop {q c k l : Nat} (indices : List Int) (parameter : Option P) (body : Circuit P K k l)
      (qs : Fin k ↪ Fin q) (cs : Fin l → Fin c) : Op P K q c

/-- A circuit: its operations, and its global phase at the end. -/
inductive Circuit (P K : Type) [CommRing K] [StarRing K] : Nat → Nat → Type
  | done {q c : Nat} (phase : unitary K) : Circuit P K q c
  | cons {q c : Nat} (op : Op P K q c) (rest : Circuit P K q c) : Circuit P K q c

end

abbrev Density (n : Nat) (K : Type) := BitVec n → BitVec n → K

/-- An unnormalized state and the value of the classical bits. -/
abbrev Branch (n : Nat) (K : Type) := State n K × Nat

/-- `(classical & ~(1 << c)) | (bit << c)`. -/
def setBit (classical c : Nat) (bit : Bool) : Nat :=
  (classical &&& (classical ^^^ (1 <<< c))) ||| (bit.toNat <<< c)

/-- Whether the bits spell the value. -/
def Condition.test {c m : Nat} (condition : Condition c) (cmap : Fin c → Fin m)
    (classical : Nat) : Bool :=
  let value : Nat :=
    (condition.bits.zipIdx.map fun (b, i) => ((classical >>> (cmap b : Nat)) &&& 1) <<< i).sum
  (value : Int) == condition.value

section Run
variable {P K : Type} [CommRing K] [StarRing K] [DecidableEq K] {n m : Nat}

/-- What the simulation of a circuit does to a list of branches, after some steps. -/
abbrev Runner (P K : Type) [CommRing K] [StarRing K] (n m : Nat) :=
  ∀ q c : Nat, Circuit P K q c → Nat → List (Branch n K) → (Fin q ↪ Fin n) → (Fin c → Fin m) →
    Except Stop (List (Branch n K) × Nat)

/-- `following` of every branch in turn. -/
def eachBranch (f : Branch n K → Nat → Except Stop (List (Branch n K) × Nat)) :
    List (Branch n K) → Nat → Except Stop (List (Branch n K) × Nat)
  | [], steps => .ok ([], steps)
  | branch :: branches, steps => do
      let (parts, steps) ← f branch steps
      let (following, steps) ← eachBranch f branches steps
      pure (parts ++ following, steps)

/-- The outcomes of a measurement that are possible. -/
def outcomes (wire : Fin n) (state : State n K) : List (Bool × State n K) :=
  [false, true].filterMap fun bit =>
    let part := projectWire wire bit state
    if part = 0 then none else some (bit, part)

/-- The body of a `for` loop, once for each index. -/
def eachIndex (f : Int → Nat → List (Branch n K) → Except Stop (List (Branch n K) × Nat)) :
    List Int → Nat → List (Branch n K) → Except Stop (List (Branch n K) × Nat)
  | [], steps, parts => .ok (parts, steps)
  | index :: indices, steps, parts => do
      let (parts, steps) ← f index steps parts
      eachIndex f indices steps parts

/-- `assign_parameters`, of a block with another's parameter bound. -/
abbrev Assign (P K : Type) [CommRing K] [StarRing K] :=
  ∀ k l : Nat, P → Int → Circuit P K k l → Option (Circuit P K k l)

variable (assign : Assign P K)

/-- The block of a `for` loop at an index. -/
def blockAt {k l : Nat} (parameter : Option P) (body : Circuit P K k l) (index : Int) :
    Option (Circuit P K k l) :=
  match parameter with
  | some p => assign k l p index body
  | none => some body

/-- One operation on one branch. -/
def exec (run : Runner P K n m) {q c : Nat} (qmap : Fin q ↪ Fin n) (cmap : Fin c → Fin m) :
    Op P K q c → Branch n K → Nat → Except Stop (List (Branch n K) × Nat)
  | .gate _ (some U) qs _, (state, classical), steps =>
      .ok ([(evolve U (qs.trans qmap) state, classical)], steps)
  | .gate name none _ _, _, _ => .error (.unsupported ("Dynamic operation unsupported: " ++ name))
  | .barrier, branch, steps => .ok ([branch], steps)
  | .measure wire bit, (state, classical), steps =>
      .ok ((outcomes (qmap wire) state).map fun (value, part) =>
        (part, setBit classical (cmap bit) value), steps)
  | .reset wire, (state, classical), steps =>
      .ok ((outcomes (qmap wire) state).map fun (value, part) =>
        (if value then flipWire (qmap wire) part else part, classical), steps)
  | .ifThen condition body qs cs, (state, classical), steps =>
      if condition.test cmap classical then
        run _ _ body steps [(state, classical)] (qs.trans qmap) (cmap ∘ cs)
      else .ok ([(state, classical)], steps)
  | .ifElse condition body orelse qs cs, (state, classical), steps =>
      if condition.test cmap classical then
        run _ _ body steps [(state, classical)] (qs.trans qmap) (cmap ∘ cs)
      else run _ _ orelse steps [(state, classical)] (qs.trans qmap) (cmap ∘ cs)
  | .whileLoop condition body qs cs, (state, classical), steps =>
      if condition.test cmap classical then do
        let (parts, steps) ← run _ _ body steps [(state, classical)] (qs.trans qmap) (cmap ∘ cs)
        -- the loop instruction alone, in a circuit of its own whose phase is not read
        run q c (.cons (.whileLoop condition body qs cs) (.done 1)) steps parts qmap cmap
      else .ok ([(state, classical)], steps)
  | .forLoop indices parameter body qs cs, (state, classical), steps =>
      eachIndex (fun index steps parts =>
        match blockAt assign parameter body index with
        | some block => run _ _ block steps parts (qs.trans qmap) (cmap ∘ cs)
        | none => .error .qiskit)
        indices steps [(state, classical)]

def exceeded : Stop := .unsupported "Dynamic execution exceeds frozen loop bound"

def countStep (max_steps steps : Nat) : Except Stop Nat :=
  if max_steps < steps + 1 then .error exceeded else .ok (steps + 1)

/-- `run`: every operation is a step, of all the branches it is run on. -/
def run (max_steps : Nat) : Nat → Runner P K n m
  | _, _, _, .done _, steps, branches, _, _ => .ok (branches, steps)
  | 0, _, _, .cons _ _, _, _, _, _ => .error .outOfFuel
  | fuel + 1, q, c, .cons op rest, steps, branches, qmap, cmap => do
      let steps ← countStep max_steps steps
      let (following, steps) ←
        eachBranch (exec assign (run max_steps fuel) qmap cmap op) branches steps
      run max_steps fuel q c rest steps following qmap cmap

/-- `densities[outcome] = densities.get(outcome, 0) + rho`. -/
def addDensity (densities : AList fun _ : Nat => Density n K) (branch : Branch n K) :
    AList fun _ : Nat => Density n K :=
  densities.insert branch.2 ((densities.lookup branch.2).getD 0 + outer branch.1)

def simulate (circuit : Circuit P K n m) (max_steps : Nat) :
    Except Stop (AList fun _ : Nat => Density n K) :=
  if 8 < n then .error (.unsupported "Dynamic oracle width exceeds eight qubits")
  else do
    let (branches, _) ← run assign max_steps (max_steps + 1) n m circuit 0 [(zeroState n K, 0)]
      (Function.Embedding.refl _) id
    pure (branches.foldl addDensity ∅)

end Run

end TranspileBench.Verifier
