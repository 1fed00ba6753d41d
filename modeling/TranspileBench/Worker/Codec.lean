import TranspileBench.Worker.Circuit
import TranspileBench.Evaluator.Quality

/-!
The circuit codec of the adapter: `export_circuit`, without `opaque`, and
`import_circuit`, with what they call.
-/
namespace TranspileBench.Worker
open Evaluator (sortedSet)

variable {F E S : Type}

def CIRCUIT_FORMAT : String := "qtb-circuit/1"

section Values
variable (q : Qiskit F E)

/-- `number` and `numeric`: a float is written exactly. -/
def number (x : F) : Except Refusal F :=
  if q.finite x then .ok x else .error (.harness "Non-finite canonical number")

/-- The functions of `sympify` that have a name in a document. -/
def FUNCTIONS : List (String × String) :=
  [("Add", "add"), ("Mul", "mul"), ("Pow", "pow"), ("sin", "sin"), ("cos", "cos"), ("tan", "tan"),
    ("exp", "exp"), ("log", "log"), ("Abs", "abs"), ("asin", "arcsin"), ("acos", "arccos"),
    ("atan", "arctan")]

mutual

/-- `tree` of `encode_value`. -/
def encodeTree (ids : String → Option Nat) : Sym F → Except Refusal (Tree F)
  | .symbol name =>
      match ids name with
      | some id => .ok (.parameter id)
      | none => .error (.lookup name)
  | .integer n => .ok (.integer n)
  | .rational p d => .ok (.rational p d)
  | .float x => (number q x).map .float
  | .pi => .ok .pi
  | .func name args =>
      match FUNCTIONS.lookup name with
      | some op => (encodeTrees ids args).map (.node op)
      | none => .error (.unsupported ("Unsupported symbolic operation: " ++ name))

def encodeTrees (ids : String → Option Nat) : List (Sym F) → Except Refusal (List (Tree F))
  | [] => .ok []
  | arg :: args => do
      let arg ← encodeTree ids arg
      let args ← encodeTrees ids args
      pure (arg :: args)

end

def encode_value (ids : String → Option Nat) (value : Value F E) : Except Refusal (Encoded F) :=
  match value with
  | .expr e =>
      if q.parameters e ≠ [] then (encodeTree q ids (q.sympify e)).map .expression
      else do
        let x ← q.toFloat value
        (number q x).map .number
  | _ => do
      let x ← q.toFloat value
      (number q x).map .number

/-- Python's fractions among the operands, and the others. -/
def Value.fraction? : Value F E → Option ℚ
  | .fraction r => some r
  | _ => none

def Value.others (values : List (Value F E)) : List (Value F E) :=
  values.filter (·.fraction?.isNone)

def combineAdd (values : List (Value F E)) : Except Refusal (Value F E) := do
  let rational := (values.filterMap (·.fraction?)).sum
  let result ← (Value.others values).foldlM q.add (.int 0)
  let result ← q.mul result (.int rational.den)
  let result ← q.add result (.int rational.num)
  q.div result (.int rational.den)

def combineMul (values : List (Value F E)) : Except Refusal (Value F E) := do
  let rational := (values.filterMap (·.fraction?)).prod
  let result ← (Value.others values).foldlM q.mul (.int 1)
  let result ← q.mul result (.int rational.num)
  q.div result (.int rational.den)

def combine (op : String) (values : List (Value F E)) : Except Refusal (Value F E) :=
  if op = "add" then combineAdd q values
  else if op = "mul" then combineMul q values
  else
    match values with
    | [] => .error (.lookup "list index out of range")
    | a :: rest =>
        if op = "pow" then
          match rest with
          | b :: _ => q.pow a b
          | [] => .error (.lookup "list index out of range")
        else if ["sin", "cos", "tan", "exp", "log", "abs", "arcsin", "arccos", "arctan"].contains op
        then q.apply op a
        else .error (.unsupported ("Unsupported expression operation " ++ op))

mutual

/-- `tree` of `decode_value`. -/
def decodeTree (objects : Nat → Option Param) : Tree F → Except Refusal (Value F E)
  | .parameter id =>
      match objects id with
      | some p => .ok (.expr (q.symbol p))
      | none => .error (.lookup (toString id))
  | .integer n => .ok (.int n)
  | .rational p d => .ok (.fraction (mkRat p d))
  | .float x => (number q x).map .float
  | .pi => .ok (.float q.pi)
  | .node op args => do
      let values ← decodeTrees objects args
      combine q op values

def decodeTrees (objects : Nat → Option Param) :
    List (Tree F) → Except Refusal (List (Value F E))
  | [] => .ok []
  | arg :: args => do
      let value ← decodeTree objects arg
      let values ← decodeTrees objects args
      pure (value :: values)

end

def decode_value (objects : Nat → Option Param) : Encoded F → Except Refusal (Value F E)
  | .number x => (number q x).map .float
  | .expression tree => decodeTree q objects tree
  | .symbolic _ _ =>
      .error (.unsupported "Opaque output expressions cannot be imported; use a bound export")

/-- `_matrix`, and its reading. -/
def numbers (matrix : Matrix F) : Except Refusal (Matrix F) :=
  matrix.mapM fun row => row.mapM fun (re, im) => do
    let re ← number q re
    let im ← number q im
    pure (re, im)

def numberTerms (groups : List (Terms F)) : Except Refusal (List (Terms F)) :=
  groups.mapM fun terms => terms.mapM fun (pauli, re, im) => do
    let re ← number q re
    let im ← number q im
    pure (pauli, re, im)

def encodeModifier (ids : String → Option Nat) : Modifier F E → Except Refusal (EncodedModifier F)
  | .inverse => .ok .inverse
  | .control n state => .ok (.control n state)
  | .power power => (encode_value q ids power).map .power
  | .other kind => .error (.unsupported ("Unsupported annotated modifier: " ++ kind))

def decodeModifier (objects : Nat → Option Param) :
    EncodedModifier F → Except Refusal (Modifier F E)
  | .inverse => .ok .inverse
  | .control n state => .ok (.control n state)
  | .power power => (decode_value q objects power).map .power

end Values

/-! ## Export -/

/-- The names of a circuit's parameters; their positions are the ids. -/
def Circuit.names (l : Library F E S) (c : Circuit F E S) : List String :=
  sortedSet ((l.parameters c).map (·.name))

def Circuit.ids (l : Library F E S) (c : Circuit F E S) (name : String) : Option Nat :=
  (c.names l).idxOf? name

/-- The classes of product formulas. -/
def FORMULAS : List String := ["LieTrotter", "SuzukiTrotter"]

/-- A gate of a standard class, not controlled by other states. -/
def Gate.isStandard (q : Qiskit F E) (g : Gate F E) : Bool :=
  (q.standard g.name).any (·.base_class == g.base_class) &&
    g.control.all fun (n, state) => state == 2 ^ n - 1

/-- The descriptor of an operation that is no other's base and has no blocks. -/
def Gate.descriptor (q : Qiskit F E) (ids : String → Option Nat) (g : Gate F E) :
    Except Refusal (Descriptor F S) :=
  if g.name = "barrier" then .ok (.mk g.name g.num_qubits g.num_clbits [] .none)
  else if g.name = "delay" then .error (.lookup "duration")
  else if g.isStandard q then do
    let params ← g.params.mapM (encode_value q ids)
    pure (.mk g.name g.num_qubits g.num_clbits params .none)
  else .error (.unsupported ("No typed constructor for " ++ g.base_class ++ " (" ++ g.name ++ ")"))

def Adder.payload : Adder → Payload F S
  | .multiplier n r => .library "MultiplierGate" n (some r)
  | .half n => .library "HalfAdderGate" n none
  | .full n => .library "FullAdderGate" n none
  | .modular n => .library "ModularAdderGate" n none

/-- The payload of a control-flow operation, before its condition is attached. -/
def Flow.payload (kind : Flow) (blocks : List (Document F S)) : Except Refusal (Payload F S) :=
  match kind with
  | .ifElse _ | .whileLoop _ => .ok (.controlFlow blocks none none)
  | .forLoop indices none => .ok (.controlFlow blocks (some indices) none)
  | .forLoop _ (some _) =>
      .error (.unsupported "Parameterized loop bodies require explicit unrolling at curation")
  | .other name => .error (.unsupported ("Unsupported control flow " ++ name))

def Condition.encode : Condition → Except Refusal (List Nat × Int)
  | .bit index value => .ok ([index], value)
  | .register r value => .ok (r.bits, value)
  | .expr => .error (.unsupported "Only bit/register equality conditions are supported")

/-- The payload of a row: a condition needs the indices of the enclosing circuit. -/
def attach (operation : Operation F E S) (payload : Payload F S) : Except Refusal (Payload F S) :=
  match operation, payload with
  | .flow (.ifElse condition) _, .controlFlow blocks indices _
  | .flow (.whileLoop condition) _, .controlFlow blocks indices _ => do
      let condition ← condition.encode
      pure (.controlFlow blocks indices (some condition))
  | _, payload => .ok payload

mutual

def operation_descriptor (q : Qiskit F E) (l : Library F E S) (ids : String → Option Nat) :
    Operation F E S → Except Refusal (Descriptor F S)
  | .unitary matrix => do
      let encoded ← numbers q matrix
      pure (.mk "unitary" (Nat.log2 matrix.length) 0 [] (.matrix (Nat.log2 matrix.length) encoded))
  | .evolution operators synthesis time => do
      let groups ← numberTerms q operators.groups
      if !FORMULAS.contains synthesis.cls then
        throw (.unsupported "Unsupported evolution synthesis")
      match synthesis.settings with
      | none => throw (.unsupported "Custom evolution callbacks are unsupported")
      | some settings => do
          let time ← encode_value q ids time
          let width := termsWidth operators.groups
          pure (.mk "PauliEvolution" width 0 [time]
            (.evolution width groups operators.isList synthesis.cls settings))
  | .annotated base modifiers => do
      let encoded ← modifiers.mapM (encodeModifier q ids)
      let descriptor ← operation_descriptor q l ids base
      pure (.mk "annotated" (base.num_qubits + (modifiers.map (·.num_ctrl_qubits)).sum)
        base.num_clbits [] (.annotated descriptor encoded))
  | .mcmt base num_ctrl_qubits num_target_qubits ctrl_state => do
      let descriptor ← operation_descriptor q l ids base
      pure (.mk "mcmt" (num_ctrl_qubits + num_target_qubits) 0 []
        (.mcmt descriptor num_ctrl_qubits num_target_qubits ctrl_state))
  | .adder a => .ok (.mk a.name a.num_qubits 0 [] a.payload)
  | .flow kind blocks => do
      let documents ← exportBlocks q l blocks
      let payload ← kind.payload documents
      pure (.mk kind.name ((blocks.head?.map (·.frame.num_qubits)).getD 0)
        ((blocks.head?.map (·.frame.num_clbits)).getD 0) [] payload)
  | .barrier n => .ok (.mk "barrier" n 0 [] .none)
  | .delay duration unit => do
      let duration ← encode_value q ids duration
      pure (.mk "delay" 1 0 [duration] (.delay unit))
  | .gate g => g.descriptor q ids

def export_circuit (q : Qiskit F E) (l : Library F E S) : Circuit F E S →
    Except Refusal (Document F S)
  | .mk frame data => do
      let c : Circuit F E S := .mk frame data
      if ¬ ((l.parameters c).dedup.map (·.name)).Nodup then
        throw (.unsupported "Duplicate parameter names")
      let global_phase ← encode_value q (c.ids l) frame.global_phase
      let operations ← export_operations q l (c.ids l) data
      pure (.mk
        { format := CIRCUIT_FORMAT
          num_qubits := frame.num_qubits
          num_clbits := frame.num_clbits
          qregs := frame.qregs
          cregs := frame.cregs
          global_phase
          parameters := (c.names l).zipIdx.map fun (name, id) => (id, name) }
        operations)

def exportBlocks (q : Qiskit F E) (l : Library F E S) : List (Circuit F E S) →
    Except Refusal (List (Document F S))
  | [] => .ok []
  | block :: blocks => do
      let document ← export_circuit q l block
      let documents ← exportBlocks q l blocks
      pure (document :: documents)

def export_operations (q : Qiskit F E) (l : Library F E S) (ids : String → Option Nat) :
    List (Instruction F E S) → Except Refusal (List (Row F S))
  | [] => .ok []
  | .mk operation qubits clbits :: data => do
      let descriptor ← operation_descriptor q l ids operation
      match descriptor with
      | .mk name _ _ params payload => do
          let payload ← attach operation payload
          let rows ← export_operations q l ids data
          pure (.mk name qubits clbits params payload :: rows)

end

/-! ## Import -/

def libraryAdder (cls : String) (n : Nat) (r : Option Nat) : Except Refusal Adder :=
  match r with
  | none =>
      if cls = "HalfAdderGate" then .ok (.half n)
      else if cls = "FullAdderGate" then .ok (.full n)
      else if cls = "ModularAdderGate" then .ok (.modular n)
      else if cls = "MultiplierGate" then .ok (.multiplier n (2 * n))
      else .error (.unsupported "Unknown typed library constructor")
  | some r =>
      if cls = "MultiplierGate" then .ok (.multiplier n r)
      else if ["HalfAdderGate", "FullAdderGate", "ModularAdderGate"].contains cls then
        .error (.other "unexpected keyword argument 'num_result_qubits'")
      else .error (.unsupported "Unknown typed library constructor")

/-- The first parameter of a constructor. -/
def firstParam (params : List (Value F E)) : Except Refusal (Value F E) :=
  match params with
  | param :: _ => .ok param
  | [] => .error (.lookup "list index out of range")

def buildOperators (grouped : Bool) (groups : List (Terms F)) : Except Refusal (Operators F) :=
  if grouped then .ok (.grouped groups)
  else
    match groups with
    | terms :: _ => .ok (.single terms)
    | [] => .error (.lookup "list index out of range")

mutual

def construct_operation (q : Qiskit F E) (l : Library F E S) (objects : Nat → Option Param) :
    Descriptor F S → Except Refusal (Operation F E S)
  | .mk name arity clbits parameters payload => do
      let params ← parameters.mapM (decode_value q objects)
      constructPayload q l objects name arity clbits params payload

def constructPayload (q : Qiskit F E) (l : Library F E S)
    (objects : Nat → Option Param) (name : String)
    (arity clbits : Nat) (params : List (Value F E)) :
    Payload F S → Except Refusal (Operation F E S)
  | .none =>
      if name = "barrier" then .ok (.barrier arity)
      else
        match q.standard name with
        | none => .error (.unsupported ("Unknown standard operation " ++ name))
        | some template =>
            if arity ≠ template.num_qubits ∨ clbits ≠ template.num_clbits then
              .error (.unsupported ("Arity mismatch for " ++ name))
            else (l.construct template name params).map .gate
  | .delay unit => do
      let duration ← firstParam params
      pure (.delay duration unit)
  | .matrix _ matrix => do
      let matrix ← numbers q matrix
      pure (.unitary matrix)
  | .evolution _ groups grouped cls settings => do
      let groups ← numberTerms q groups
      if !FORMULAS.contains cls then throw (.unsupported "Unknown synthesis class")
      let operators ← buildOperators grouped groups
      let time ← firstParam params
      pure (.evolution operators ⟨cls, some settings⟩ time)
  | .annotated base modifiers => do
      let modifiers ← modifiers.mapM (decodeModifier q objects)
      let base ← construct_operation q l objects base
      pure (.annotated base modifiers)
  | .mcmt base num_ctrl_qubits num_target_qubits ctrl_state => do
      let base ← construct_operation q l objects base
      pure (.mcmt base num_ctrl_qubits num_target_qubits ctrl_state)
  | .library cls n r => (libraryAdder cls n r).map .adder
  | .controlFlow _ _ _ => .error (.unsupported "Unknown payload kind: control_flow/1")

end

/-- Parameters of their own for the entries of a header, numbered from `n` on. -/
def fresh (n : Nat) (parameters : List (Nat × String)) : List (Nat × Param) :=
  parameters.zipIdx.map fun ((id, name), k) => (id, ⟨name, n + k⟩)

/-- The table of a circuit; a later entry of an id replaces an earlier one. -/
def objects (table : List (Nat × Param)) (id : Nat) : Option Param := table.reverse.lookup id

/-- The condition of a branch or a loop, in a circuit that declares its register. -/
def decodeCondition (frame : Frame F E) (bits : List Nat) (value : Int) :
    Except Refusal Condition :=
  match bits with
  | [index] =>
      if index < frame.num_clbits then .ok (.bit index value)
      else .error (.lookup "list index out of range")
  | _ =>
      match frame.cregs.find? (·.bits == bits) with
      | some r => .ok (.register r value)
      | none => .error (.unsupported "Condition register is not declared")

def controlFlow (frame : Frame F E) (name : String) (blocks : List (Circuit F E S))
    (indices : Option (List Int)) (condition : Option (List Nat × Int)) :
    Except Refusal (Operation F E S) :=
  if name = "for_loop" then
    match indices, blocks with
    | some indices, body :: _ => .ok (.flow (.forLoop indices none) [body])
    | none, _ => .error (.lookup "indices")
    | _, [] => .error (.lookup "list index out of range")
  else
    match condition with
    | none => .error (.lookup "condition")
    | some (bits, value) => do
        let condition ← decodeCondition frame bits value
        if name = "if_else" then
          match blocks with
          | [] => .error (.lookup "list index out of range")
          | body :: rest => pure (.flow (.ifElse condition) (body :: rest.take 1))
        else if name = "while_loop" then
          match blocks with
          | [] => .error (.lookup "list index out of range")
          | body :: _ => pure (.flow (.whileLoop condition) [body])
        else .error (.unsupported "Unknown control-flow operation")

/-- Registers over the wires of a circuit. -/
def buildRegisters (width : Nat) (registers : List Register) : Except Refusal (List Register) :=
  registers.mapM fun r =>
    if r.bits.all (· < width) then .ok r else .error (.lookup "list index out of range")

mutual

/-- `import_circuit`, where the next new parameter is number `n`, and what is next then. -/
def import_circuit (q : Qiskit F E) (l : Library F E S) (n : Nat) :
    Document F S → Except Refusal (Circuit F E S × Nat)
  | .mk header operations => do
      if header.format ≠ CIRCUIT_FORMAT then throw (.unsupported "Unknown circuit format")
      let qregs ← buildRegisters header.num_qubits header.qregs
      let cregs ← buildRegisters header.num_clbits header.cregs
      let table := fresh n header.parameters
      let value ← decode_value q (objects table) header.global_phase
      let global_phase ← l.setPhase value
      let frame : Frame F E :=
        { num_qubits := header.num_qubits, num_clbits := header.num_clbits, qregs, cregs,
          global_phase }
      let (data, next) ←
        importRows q l (objects table) frame (n + header.parameters.length) [] operations
      pure (.mk frame data, next)

def importBlocks (q : Qiskit F E) (l : Library F E S) (n : Nat) :
    List (Document F S) → Except Refusal (List (Circuit F E S) × Nat)
  | [] => .ok ([], n)
  | document :: documents => do
      let (block, n) ← import_circuit q l n document
      let (blocks, n) ← importBlocks q l n documents
      pure (block :: blocks, n)

/-- The loop over the operations, on a circuit that has `data` so far. -/
def importRows (q : Qiskit F E) (l : Library F E S) (objects : Nat → Option Param)
    (frame : Frame F E) (n : Nat)
    (data : List (Instruction F E S)) :
    List (Row F S) → Except Refusal (List (Instruction F E S) × Nat)
  | [] => .ok (data, n)
  | .mk name qubits clbits params payload :: rows => do
      let (operation, n) ← importPayload q l objects frame n name qubits clbits params payload
      let data ← l.append frame data operation qubits clbits
      importRows q l objects frame n data rows

def importPayload (q : Qiskit F E) (l : Library F E S) (objects : Nat → Option Param)
    (frame : Frame F E) (n : Nat)
    (name : String) (qubits clbits : List Nat) (params : List (Encoded F)) :
    Payload F S → Except Refusal (Operation F E S × Nat)
  | .controlFlow blocks indices condition => do
      let (blocks, n) ← importBlocks q l n blocks
      let operation ← controlFlow frame name blocks indices condition
      pure (operation, n)
  | payload => do
      let operation ←
        construct_operation q l objects (.mk name qubits.length clbits.length params payload)
      pure (operation, n)

end

end TranspileBench.Worker
