import Mathlib

/-!
Circuits as Qiskit keeps them, as far as the adapter reads and builds them, and the
documents they are exported to.
-/
namespace TranspileBench.Worker

/-- What the adapter and the libraries under it raise. -/
inductive Refusal
  | unsupported (text : String)
  | harness (text : String)
  /-- Qiskit's `CircuitError`. -/
  | circuit (text : String)
  /-- A missing key, index or attribute. -/
  | lookup (text : String)
  | other (text : String)
  deriving DecidableEq

/-! ## Values -/

/-- A `Parameter` object: two objects of one name are not the same parameter. -/
structure Param where
  name : String
  uuid : Nat
  deriving DecidableEq

/-- What an operation takes as an argument: a number of Python, with floats in `F`, or a
parameter expression in `E`. -/
inductive Value (F E : Type)
  | int (n : Int)
  | fraction (q : ℚ)
  | float (x : F)
  | expr (e : E)

/-- What `sympify` makes of an expression. -/
inductive Sym (F : Type)
  | symbol (name : String)
  | integer (n : Int)
  | rational (p : Int) (q : Nat)
  | float (x : F)
  | pi
  | func (name : String) (args : List (Sym F))

/-! ## Circuits -/

/-- A register, by the indices its bits have in the circuit it is used in. -/
structure Register where
  name : String
  bits : List Nat
  deriving DecidableEq

inductive Condition
  | bit (index : Nat) (value : Int)
  | register (register : Register) (value : Int)
  /-- A classical expression. -/
  | expr

/-- A control-flow operation without its blocks. -/
inductive Flow
  | ifElse (condition : Condition)
  | whileLoop (condition : Condition)
  | forLoop (indices : List Int) (parameter : Option Param)
  | other (name : String)

inductive Modifier (F E : Type)
  | inverse
  | control (num_ctrl_qubits ctrl_state : Nat)
  | power (power : Value F E)
  | other (kind : String)

/-- The adders and the multiplier of the library. -/
inductive Adder
  | half (num_state_qubits : Nat)
  | full (num_state_qubits : Nat)
  | modular (num_state_qubits : Nat)
  | multiplier (num_state_qubits num_result_qubits : Nat)

abbrev Terms (F : Type) := List (String × F × F)

/-- The operator of an evolution: one, or a list of them. -/
inductive Operators (F : Type)
  | single (terms : Terms F)
  | grouped (groups : List (Terms F))

abbrev Matrix (F : Type) := List (List (F × F))

/-- A product formula; one with callbacks of its own has no settings. -/
structure Synthesis (S : Type) where
  cls : String
  settings : Option S

/-- An operation of any other class, by its name and its base class. -/
structure Gate (F E : Type) where
  name : String
  base_class : String
  num_qubits : Nat
  num_clbits : Nat
  params : List (Value F E)
  /-- Of a controlled gate: how many controls it has, and their state. -/
  control : Option (Nat × Nat)

/-- A circuit without its operations. -/
structure Frame (F E : Type) where
  num_qubits : Nat
  num_clbits : Nat
  qregs : List Register
  cregs : List Register
  global_phase : Value F E

mutual

inductive Operation (F E S : Type)
  | unitary (matrix : Matrix F)
  | evolution (operators : Operators F) (synthesis : Synthesis S) (time : Value F E)
  | annotated (base : Operation F E S) (modifiers : List (Modifier F E))
  | mcmt (base : Operation F E S) (num_ctrl_qubits num_target_qubits ctrl_state : Nat)
  | adder (adder : Adder)
  | flow (flow : Flow) (blocks : List (Circuit F E S))
  | barrier (num_qubits : Nat)
  | delay (duration : Value F E) (unit : String)
  | gate (gate : Gate F E)

inductive Circuit (F E S : Type)
  | mk (frame : Frame F E) (data : List (Instruction F E S))

inductive Instruction (F E S : Type)
  | mk (operation : Operation F E S) (qubits clbits : List Nat)

end

/-- A standard gate, by its class and its widths. -/
structure Template where
  base_class : String
  num_qubits : Nat
  num_clbits : Nat
  num_ctrl_qubits : Option Nat := none

/-- What the adapter uses of Qiskit and of Python's numbers. -/
structure Qiskit (F E : Type) where
  finite : F → Bool
  pi : F
  /-- `float`. -/
  toFloat : Value F E → Except Refusal F
  parameters : E → List Param
  sympify : E → Sym F
  /-- A parameter is an expression. -/
  symbol : Param → E
  add : Value F E → Value F E → Except Refusal (Value F E)
  mul : Value F E → Value F E → Except Refusal (Value F E)
  div : Value F E → Value F E → Except Refusal (Value F E)
  pow : Value F E → Value F E → Except Refusal (Value F E)
  /-- A function of `math`, or the method of that name of an expression. -/
  apply : String → Value F E → Except Refusal (Value F E)
  standard : String → Option Template

/-- What it uses of Qiskit's circuits and of the classes of standard gates. -/
structure Library (F E S : Type) where
  /-- `circuit.parameters`. -/
  parameters : Circuit F E S → List Param
  /-- The arguments that a class takes. -/
  num_params : String → Nat
  /-- A class, called. -/
  construct : Template → String → List (Value F E) → Except Refusal (Gate F E)
  /-- What the setter of `global_phase` keeps of a value. -/
  setPhase : Value F E → Except Refusal (Value F E)
  /-- `circuit.append`, by the operations that are there then. -/
  append : Frame F E → List (Instruction F E S) → Operation F E S → List Nat → List Nat →
    Except Refusal (List (Instruction F E S))

/-! ## Documents -/

inductive Tree (F : Type)
  | parameter (id : Nat)
  | integer (n : Int)
  | rational (p : Int) (q : Nat)
  | float (x : F)
  | pi
  | node (op : String) (args : List (Tree F))

/-- A value of a document. Floats are written exactly, and `p3` is the id 3. -/
inductive Encoded (F : Type)
  | number (x : F)
  | expression (tree : Tree F)
  /-- Of an opaque export. -/
  | symbolic (text : String) (free_parameters : List String)

inductive EncodedModifier (F : Type)
  | inverse
  | control (num_ctrl_qubits ctrl_state : Nat)
  | power (power : Encoded F)

structure Header (F : Type) where
  format : String
  num_qubits : Nat
  num_clbits : Nat
  qregs : List Register
  cregs : List Register
  global_phase : Encoded F
  /-- Ids and names. -/
  parameters : List (Nat × String)

mutual

inductive Descriptor (F S : Type)
  | mk (name : String) (arity clbits : Nat) (parameters : List (Encoded F)) (payload : Payload F S)

inductive Payload (F S : Type)
  | none
  | delay (unit : String)
  | matrix (arity : Nat) (matrix : Matrix F)
  | evolution (width : Nat) (groups : List (Terms F)) (grouped : Bool) (cls : String) (settings : S)
  | annotated (base : Descriptor F S) (modifiers : List (EncodedModifier F))
  | mcmt (base : Descriptor F S) (num_ctrl_qubits num_target_qubits ctrl_state : Nat)
  | library (cls : String) (num_state_qubits : Nat) (num_result_qubits : Option Nat)
  | controlFlow (blocks : List (Document F S)) (indices : Option (List Int))
      (condition : Option (List Nat × Int))

inductive Document (F S : Type)
  | mk (header : Header F) (operations : List (Row F S))

inductive Row (F S : Type)
  | mk (name : String) (qubits clbits : List Nat) (params : List (Encoded F))
      (payload : Payload F S)

end

/-! ## What a circuit says of itself -/

section Reading
variable {F E S : Type}

def Value.parameters (q : Qiskit F E) : Value F E → List Param
  | .expr e => q.parameters e
  | _ => []

def Flow.name : Flow → String
  | .ifElse _ => "if_else"
  | .whileLoop _ => "while_loop"
  | .forLoop _ _ => "for_loop"
  | .other name => name

def Adder.num_qubits : Adder → Nat
  | .half n => 2 * n + 1
  | .full n => 2 * n + 2
  | .modular n => 2 * n
  | .multiplier n r => 2 * n + r

def Adder.cls : Adder → String
  | .half _ => "HalfAdderGate"
  | .full _ => "FullAdderGate"
  | .modular _ => "ModularAdderGate"
  | .multiplier _ _ => "MultiplierGate"

def Adder.name : Adder → String
  | .half _ => "HalfAdder"
  | .full _ => "FullAdder"
  | .modular _ => "ModularAdder"
  | .multiplier _ _ => "Multiplier"

def Modifier.num_ctrl_qubits : Modifier F E → Nat
  | .control n _ => n
  | _ => 0

def Circuit.frame : Circuit F E S → Frame F E
  | .mk frame _ => frame

def Circuit.data : Circuit F E S → List (Instruction F E S)
  | .mk _ data => data

def Operation.name : Operation F E S → String
  | .unitary _ => "unitary"
  | .evolution .. => "PauliEvolution"
  | .annotated .. => "annotated"
  | .mcmt .. => "mcmt"
  | .adder a => a.name
  | .flow kind _ => kind.name
  | .barrier _ => "barrier"
  | .delay _ _ => "delay"
  | .gate g => g.name

def Operators.groups : Operators F → List (Terms F)
  | .single terms => [terms]
  | .grouped groups => groups

def Operators.isList : Operators F → Bool
  | .single _ => false
  | .grouped _ => true

/-- The width of Pauli strings is that of the first one. -/
def termsWidth (groups : List (Terms F)) : Nat :=
  ((groups.head?.bind (·.head?)).map (·.1.length)).getD 0

def Operation.num_qubits : Operation F E S → Nat
  | .unitary matrix => Nat.log2 matrix.length
  | .evolution operators _ _ => termsWidth operators.groups
  | .annotated base modifiers => base.num_qubits + (modifiers.map (·.num_ctrl_qubits)).sum
  | .mcmt _ num_ctrl_qubits num_target_qubits _ => num_ctrl_qubits + num_target_qubits
  | .adder a => a.num_qubits
  | .flow _ blocks => (blocks.head?.map (·.frame.num_qubits)).getD 0
  | .barrier n => n
  | .delay _ _ => 1
  | .gate g => g.num_qubits

def Operation.num_clbits : Operation F E S → Nat
  | .annotated base _ => base.num_clbits
  | .flow _ blocks => (blocks.head?.map (·.frame.num_clbits)).getD 0
  | .gate g => g.num_clbits
  | _ => 0

mutual

/-- The parameters that an operation uses. -/
def Operation.parameters (q : Qiskit F E) : Operation F E S → List Param
  | .evolution _ _ time => time.parameters q
  | .annotated base _ => base.parameters q
  | .mcmt base _ _ _ => base.parameters q
  | .flow _ blocks => blocksParameters q blocks
  | .delay duration _ => duration.parameters q
  | .gate g => g.params.flatMap (·.parameters q)
  | _ => []

def Circuit.parameters (q : Qiskit F E) : Circuit F E S → List Param
  | .mk frame data => frame.global_phase.parameters q ++ dataParameters q data

def blocksParameters (q : Qiskit F E) : List (Circuit F E S) → List Param
  | [] => []
  | block :: blocks => block.parameters q ++ blocksParameters q blocks

def dataParameters (q : Qiskit F E) : List (Instruction F E S) → List Param
  | [] => []
  | .mk operation _ _ :: data => operation.parameters q ++ dataParameters q data

end

end Reading
end TranspileBench.Worker
