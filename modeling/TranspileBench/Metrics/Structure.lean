import TranspileBench.Evaluator.Verdict
import TranspileBench.Metrics.Replay
import TranspileBench.Lib.Keyed
import Mathlib.Data.Finset.Basic
import Mathlib.Data.Rat.Floor

/-!
C0: the structural checker, one operation after another, and `d2_n2`. An operation is
a row of a circuit file whose payload may nest further circuits; what cannot be told
apart from a row of five fields stays out, save for a row of another shape.
-/
namespace TranspileBench.Metrics

/-- A parameter of an operation, as far as `consume` reads it. -/
inductive Param
  /-- A dictionary, by its `kind`. -/
  | symbolic (kind : Option String)
  /-- A dictionary whose `kind` cannot be hashed; also a parameter field that cannot be
  iterated, taken as a list of one. -/
  | unhashable
  /-- What `numeric` makes a number of. -/
  | number (value : ℚ)
  /-- What `numeric` refuses. -/
  | invalid
  /-- What `float` finds too large. -/
  | overflow
  deriving DecidableEq

/-- The first four fields of an operation. -/
structure Head where
  name : String
  qubits : List Int
  clbits : List Int
  params : List Param
  deriving DecidableEq

mutual

inductive Node
  /-- Not a list of five fields. -/
  | malformed
  /-- Five fields of which the first cannot be hashed. -/
  | unnamed (qubits clbits : List Int)
  | op (head : Head) (payload : Payload)

inductive Payload
  /-- What is false: nothing, or an empty list, dictionary or text. -/
  | none
  /-- A dictionary of another kind. -/
  | other
  /-- What raises when its kind or its blocks are read: not a dictionary, or `control_flow/1`
  with no blocks to iterate. -/
  | unreadable (error : String)
  | controlFlow (blocks : List Block)

inductive Block
  | mk (num_qubits num_clbits : Nat) (operations : List Node)
  /-- What raises when its operations are read. -/
  | unreadable (error : String)

end

def Head.wires (head : Head) : List Wire :=
  head.qubits.map Wire.q ++ head.clbits.map Wire.c

structure Header where
  num_qubits : Nat
  num_clbits : Nat

structure InstructionSpec where
  name : String
  arity : Option Nat
  parameters : List String
  qargs : Option (List (List Int)) := none
  angle_bounds : List (Option (ℚ × ℚ)) := []
  fixed_parameters : List (Nat × ℚ) := []

structure Target where
  num_qubits : Nat
  instructions : List InstructionSpec
  native_2q_names : List String

def DIRECTIVES : List String := ["barrier"]

/-- The arity, the classical arity and the parameters of an implied instruction. -/
def LOOSE_IMPLICIT (name : String) : Option (Option Nat × Option Nat × List String) :=
  if name = "measure" then some (some 1, some 1, [])
  else if name = "reset" then some (some 1, some 0, [])
  else if name = "delay" then some (some 1, some 0, ["duration"])
  else if controlFlow.contains name then some (none, none, [])
  else none

/-! ## The constant part of a checker -/

structure Rules where
  header : Header
  target : Target
  constraint_form : String

namespace Rules
variable (rules : Rules)

/-- The target's own entry; a later one replaces an earlier one. -/
def declared (name : String) : Option InstructionSpec :=
  rules.target.instructions.reverse.find? (·.name == name)

def impliedLoose (name : String) : Bool :=
  rules.constraint_form == "loose" && (rules.declared name).isNone && (LOOSE_IMPLICIT name).isSome

/-- `support.get(name)`. -/
def support (name : String) : Option InstructionSpec :=
  (rules.declared name).or <|
    if rules.constraint_form = "loose" then
      (LOOSE_IMPLICIT name).map fun entry =>
        { name, arity := entry.1, parameters := entry.2.2 }
    else none

/-- Why an operation is turned away before anything else is looked at. -/
def wireError (qs cs : List Int) : Option String :=
  if qs.any fun q => decide ¬ (0 ≤ q ∧ q < rules.header.num_qubits) then
    some "Invalid qubit index"
  else if cs.any fun c => decide ¬ (0 ≤ c ∧ c < rules.header.num_clbits) then
    some "Invalid classical index"
  else if ¬ qs.Nodup ∨ ¬ cs.Nodup then some "Repeated operation wire"
  else none

end Rules

/-- `[map[w] for w in wires] if map else wires`; the indices are not negative. -/
def mapWires (map : Option (List Int)) (wires : List Int) : Except Exn (List Int) :=
  match map with
  | none | some [] => .ok wires
  | some map =>
      wires.mapM fun w =>
        match map[w.toNat]? with
        | some wire => .ok wire
        | none => .error (.other "IndexError")

/-- A number against the bounds and the fixed value of its position. -/
def numberErrors (spec : InstructionSpec) (name : String) (index : Nat) (value : ℚ) :
    List String :=
  let fixed :=
    if (spec.fixed_parameters.lookup index).any (· ≠ value) then
      ["Fixed parameter mismatch: " ++ name]
    else []
  if spec.angle_bounds = [] then fixed
  else
    match spec.angle_bounds[index]? with
    | none => ["Invalid numeric parameter: " ++ name]
    | some none => fixed
    | some (some (lo, hi)) =>
        (if lo ≤ value ∧ value ≤ hi then [] else ["Parameter outside bounds: " ++ name]) ++ fixed

def paramErrors (spec : InstructionSpec) (name : String) : Param × Nat → Except Exn (List String)
  | (.symbolic kind, _) =>
      .ok (if kind = some "expression/1" ∨ kind = some "symbolic/1" then []
        else ["Invalid symbolic parameter: " ++ name])
  | (.unhashable, _) => .error (.other "TypeError")
  | (.number value, index) => .ok (numberErrors spec name index value)
  | (.invalid, _) => .ok ["Invalid numeric parameter: " ++ name]
  | (.overflow, _) => .error (.other "OverflowError")

/-- The checks of an instruction that the target supports. -/
def specErrors (rules : Rules) (spec : InstructionSpec) (name : String) (qs cs : List Int)
    (params : List Param) : List String :=
  (if spec.arity.any (· ≠ qs.length) then ["Wrong arity: " ++ name] else []) ++
  (if rules.impliedLoose name
      && ((LOOSE_IMPLICIT name).bind (·.2.1)).any (· ≠ cs.length) then
    ["Wrong classical arity: " ++ name] else []) ++
  (if spec.qargs.any (!·.contains qs) then
    ["Illegal ordered qubits: " ++ name ++ toString qs] else []) ++
  (if !controlFlow.contains name && params.length != spec.parameters.length then
    ["Wrong parameter count: " ++ name] else [])

/-- What an operation other than a directive is reported for. -/
def instructionErrors (rules : Rules) (name : String) (qs cs : List Int) (params : List Param) :
    Except Exn (List String) :=
  if DIRECTIVES.contains name then .ok []
  else
    match rules.support name with
    | none => .ok ["Unsupported instruction " ++ name]
    | some spec => do
        let errors ← params.zipIdx.mapM (paramErrors spec name)
        pure (specErrors rules spec name qs cs params ++ errors.flatten)

/-- What a checker has found so far. -/
structure Checker where
  levels : AList fun _ : Wire => Nat
  n2 : Nat
  errors : List String
  active_qubits : Finset Int
  dynamic : Bool

/-- `StructuralChecker.__init__`. -/
def Checker.start (rules : Rules) : Checker where
  levels := ∅
  n2 := 0
  errors :=
    if rules.header.num_qubits ≠ rules.target.num_qubits then
      ["Output width differs from target width"]
    else []
  active_qubits := ∅
  dynamic := false

/-- `levels.get(wire, 0)`. -/
def levelAt (levels : AList fun _ : Wire => Nat) (w : Wire) : Nat := (levels.lookup w).getD 0

/-- An operation on top of the levels of its wires. -/
def advance (levels : AList fun _ : Wire => Nat) (wires : List Wire) (counted : Bool) :
    AList fun _ : Wire => Nat :=
  Keyed.assign levels wires ((wires.map (levelAt levels)).max?.getD 0 + counted.toNat)

namespace Checker

def fail (checker : Checker) (text : String) : Checker :=
  { checker with errors := checker.errors ++ [text] }

/-- The part of `consume` before the payload: `none` when the wires are refused, else the
physical wires. -/
def admits (rules : Rules) (checker : Checker) (qmap cmap : Option (List Int)) (head : Head) :
    Except Exn (Checker × Option (List Int × List Int)) :=
  match rules.wireError head.qubits head.clbits with
  | some text => .ok (checker.fail text, none)
  | none => do
      let qs ← mapWires qmap head.qubits
      let cs ← mapWires cmap head.clbits
      let errors ← instructionErrors rules head.name qs cs head.params
      pure ({ checker with
        errors := checker.errors ++ errors
        active_qubits :=
          if head.name = "barrier" then checker.active_qubits
          else checker.active_qubits ∪ qs.toFinset }, some (qs, cs))

/-- The metrics of an operation that is no control flow. -/
def count (rules : Rules) (checker : Checker) (name : String) (qs cs : List Int) : Checker :=
  let counted := rules.target.native_2q_names.contains name && qs.length == 2
  { checker with
    levels := advance checker.levels (qs.map Wire.q ++ cs.map Wire.c) counted
    n2 := checker.n2 + counted.toNat }

mutual

def consume (rules : Rules) (checker : Checker) (qmap cmap : Option (List Int)) :
    Node → Except Exn Checker
  | .malformed => .ok (checker.fail "Malformed operation")
  | .unnamed qubits clbits =>
      match rules.wireError qubits clbits with
      | some text => .ok (checker.fail text)
      | none => do
          let _ ← mapWires qmap qubits
          let _ ← mapWires cmap clbits
          .error (.other "TypeError")
  | .op head payload => do
      let (checker, wires) ← checker.admits rules qmap cmap head
      match wires with
      | none => pure checker
      | some (qs, cs) =>
          if controlFlow.contains head.name then
            consumePayload rules { checker with dynamic := true } qs cs payload
          else pure (checker.count rules head.name qs cs)

def consumePayload (rules : Rules) (checker : Checker) (qs cs : List Int) :
    Payload → Except Exn Checker
  | .none | .other => .ok (checker.fail "Missing control-flow payload")
  | .unreadable error => .error (.other error)
  | .controlFlow blocks => consumeBlocks rules checker qs cs blocks

def consumeBlocks (rules : Rules) (checker : Checker) (qs cs : List Int) :
    List Block → Except Exn Checker
  | [] => .ok checker
  | .unreadable error :: _ => .error (.other error)
  | .mk _ _ operations :: blocks => do
      let checker ← consumeAll rules checker (some qs) (some cs) operations
      consumeBlocks rules checker qs cs blocks

def consumeAll (rules : Rules) (checker : Checker) (qmap cmap : Option (List Int)) :
    List Node → Except Exn Checker
  | [] => .ok checker
  | node :: nodes => do
      let checker ← consume rules checker qmap cmap node
      consumeAll rules checker qmap cmap nodes

end

/-- The status, D2 and N2 of `result`. -/
structure Result where
  status : Status
  errors : List String
  D2 : Option Nat
  N2 : Option Nat

def result (checker : Checker) : Result where
  status := if checker.errors ≠ [] then .mismatch else .verified
  errors := checker.errors
  D2 := if checker.dynamic then none else some (Keyed.peak checker.levels)
  N2 := if checker.dynamic then none else some checker.n2

end Checker

/-- The operations of a circuit, through a fresh checker. -/
def checkCircuit (rules : Rules) (operations : List Node) : Except Exn Checker :=
  Checker.consumeAll rules (.start rules) none none operations

/-! ## `d2_n2` -/

/-- Whether `d2_n2` counts an operation. -/
def countedD2 (native : List String) (head : Head) : Bool :=
  native.contains head.name && head.qubits.length == 2
    && !(["barrier", "delay", "measure", "reset"].contains head.name)

def d2n2Loop (native : List String) (levels : AList fun _ : Wire => Nat) (count : Nat) :
    List Node → Except Exn (Nat × Nat)
  | [] => .ok (Keyed.peak levels, count)
  | .malformed :: _ => .error (.other "ValueError")
  | .unnamed _ _ :: _ => .error (.other "TypeError")
  | .op head _ :: operations =>
      if controlFlow.contains head.name then
        .error (.harness "D2 is undefined for dynamic circuits")
      else
        d2n2Loop native (advance levels head.wires (countedD2 native head))
          (count + (countedD2 native head).toNat) operations

def d2n2 (operations : List Node) (native : List String) : Except Exn (Nat × Nat) :=
  d2n2Loop native ∅ 0 operations

/-! ## Admission -/

section Admission
variable {rules : Rules} {checker checker' : Checker} {qmap cmap : Option (List Int)} {head : Head}
  {wires : Option (List Int × List Int)}

theorem wireError_eq_none {qs cs : List Int} : rules.wireError qs cs = none ↔
    ((∀ q ∈ qs, 0 ≤ q ∧ q < rules.header.num_qubits) ∧
      ∀ c ∈ cs, 0 ≤ c ∧ c < rules.header.num_clbits) ∧ qs.Nodup ∧ cs.Nodup := by
  unfold Rules.wireError
  split_ifs <;> grind

/-- What admission may change: more errors, more active qubits. -/
theorem Checker.admits_keeps (h : checker.admits rules qmap cmap head = .ok (checker', wires)) :
    checker.errors <+: checker'.errors ∧ checker'.levels = checker.levels ∧
      checker'.n2 = checker.n2 ∧ checker'.dynamic = checker.dynamic ∧
      (wires = none → checker'.errors ≠ []) := by
  unfold Checker.admits at h
  cases hwire : rules.wireError head.qubits head.clbits with
  | some text =>
      rw [hwire] at h
      cases h
      exact ⟨List.prefix_append _ _, rfl, rfl, rfl, fun _ => by simp [Checker.fail]⟩
  | none =>
      rw [hwire] at h
      simp only [bind, Except.bind] at h
      split at h
      · cases h
      split at h
      · cases h
      split at h
      · cases h
      cases h
      exact ⟨List.prefix_append _ _, rfl, rfl, rfl, nofun⟩

/-- At the top level an operation is refused for its wires or keeps them. -/
theorem Checker.admits_top (h : checker.admits rules none none head = .ok (checker', wires)) :
    (wires = none ∧ rules.wireError head.qubits head.clbits ≠ none) ∨
      (wires = some (head.qubits, head.clbits) ∧
        rules.wireError head.qubits head.clbits = none) := by
  unfold Checker.admits at h
  cases hwire : rules.wireError head.qubits head.clbits with
  | some text =>
      rw [hwire] at h
      cases h
      exact .inl ⟨rfl, by simp⟩
  | none =>
      rw [hwire] at h
      simp only [bind, Except.bind, mapWires] at h
      split at h
      · cases h
      · cases h
        exact .inr ⟨rfl, rfl⟩

theorem Checker.consumeAll_append (checker : Checker) (xs ys : List Node) :
    checker.consumeAll rules qmap cmap (xs ++ ys) = (do
      let checker ← checker.consumeAll rules qmap cmap xs
      checker.consumeAll rules qmap cmap ys) := by
  induction xs generalizing checker with
  | nil => simp [Checker.consumeAll, bind, Except.bind]
  | cons x xs ih =>
      rw [List.cons_append, Checker.consumeAll, Checker.consumeAll]
      cases checker.consume rules qmap cmap x with
      | error e => rfl
      | ok checker => exact ih checker

end Admission
end TranspileBench.Metrics
