import TranspileBench.Worker.Levels
import Mathlib

/-!
Operations without blocks. What a descriptor is rebuilt as is described alike, on as many
wires, with the new objects of the same ids; only a descriptor around control flow is
refused.
-/
namespace TranspileBench.Worker
open Fallible

variable {F E S : Type}

/-! ## Well-formed circuits -/

section WellFormed
variable (q : Qiskit F E) (l : Library F E S)

/-- A gate has the widths of its class and as many arguments; a barrier has neither
classical wires nor arguments. -/
def Gate.Fits (g : Gate F E) : Prop :=
  (g.name = "barrier" → g.num_clbits = 0 ∧ g.params = []) ∧
    ∀ t, q.standard g.name = some t → t.base_class = g.base_class →
      g.num_qubits = t.num_qubits ∧ g.num_clbits = t.num_clbits ∧
        g.params.length = l.num_params g.name

/-- A global phase that is kept when it is set again: one with parameters, or a number that
the setter leaves as it is. -/
def Value.Settled (value : Value F E) : Prop :=
  value.parameters q ≠ [] ∨
    ∃ x, q.toFloat value = .ok x ∧ l.setPhase (.float x) = .ok (.float x)

/-- A condition is on wires of the circuit, or on a register of it. -/
def Condition.In (frame : Frame F E) : Condition → Prop
  | .bit index _ => index < frame.num_clbits
  | .register r _ => r ∈ frame.cregs
  | .expr => True

/-- A branch has one block or two, and a loop has one. -/
def Flow.Takes (frame : Frame F E) (blocks : List (Circuit F E S)) : Flow → Prop
  | .ifElse condition => condition.In frame ∧ (blocks.length = 1 ∨ blocks.length = 2)
  | .whileLoop condition => condition.In frame ∧ blocks.length = 1
  | .forLoop _ _ => blocks.length = 1
  | .other _ => True

/-- The wires of a circuit and its phase. -/
structure Frame.WellFormed (frame : Frame F E) : Prop where
  qregs : ∀ r ∈ frame.qregs, ∀ i ∈ r.bits, i < frame.num_qubits
  cregs : ∀ r ∈ frame.cregs, ∀ i ∈ r.bits, i < frame.num_clbits
  global_phase : frame.global_phase.Settled q l

mutual

/-- What the constructors of Qiskit's operations ensure. -/
def Operation.WellFormed (frame : Frame F E) : Operation F E S → Prop
  | .annotated base _ => base.WellFormed frame
  | .mcmt base _ _ _ => base.WellFormed frame
  | .flow kind blocks => kind.Takes frame blocks ∧ BlocksWellFormed blocks
  | .gate g => g.Fits q l
  | _ => True

/-- And its circuits: the wires of a register and of an operation are there. -/
def Circuit.WellFormed : Circuit F E S → Prop
  | .mk frame data => frame.WellFormed q l ∧ DataWellFormed frame data

def BlocksWellFormed : List (Circuit F E S) → Prop
  | [] => True
  | block :: blocks => block.WellFormed ∧ BlocksWellFormed blocks

def DataWellFormed (frame : Frame F E) : List (Instruction F E S) → Prop
  | [] => True
  | .mk operation qubits clbits :: data =>
      accepts frame operation qubits clbits = true ∧ operation.WellFormed frame ∧
        DataWellFormed frame data

end

end WellFormed

/-- No operation that others are made of is control flow. -/
def Operation.Plain : Operation F E S → Prop
  | .annotated base _ => base.Plain
  | .mcmt base _ _ _ => base.Plain
  | .flow _ _ => False
  | _ => True

/-! ## Descriptors -/

/-- What an operation is described as, and what that takes. -/
inductive Described (q : Qiskit F E) (l : Library F E S) (ids : String → Option Nat) :
    Operation F E S → Descriptor F S → Prop
  | unitary {matrix : Matrix F} (finite : numbers q matrix = .ok matrix) :
      Described q l ids (.unitary matrix)
        (.mk "unitary" (Nat.log2 matrix.length) 0 [] (.matrix (Nat.log2 matrix.length) matrix))
  | evolution {operators : Operators F} {cls : String} {settings : S} {time : Value F E}
      {encoded : Encoded F} (finite : numberTerms q operators.groups = .ok operators.groups)
      (formula : FORMULAS.contains cls = true) (value : encode_value q ids time = .ok encoded) :
      Described q l ids (.evolution operators ⟨cls, some settings⟩ time)
        (.mk "PauliEvolution" (termsWidth operators.groups) 0 [encoded]
          (.evolution (termsWidth operators.groups) operators.groups operators.isList cls settings))
  | annotated {base : Operation F E S} {modifiers : List (Modifier F E)}
      {encoded : List (EncodedModifier F)} {descriptor : Descriptor F S}
      (values : modifiers.mapM (encodeModifier q ids) = .ok encoded)
      (inner : operation_descriptor q l ids base = .ok descriptor) :
      Described q l ids (.annotated base modifiers)
        (.mk "annotated" (base.num_qubits + (modifiers.map (·.num_ctrl_qubits)).sum)
          base.num_clbits [] (.annotated descriptor encoded))
  | mcmt {base : Operation F E S} {descriptor : Descriptor F S}
      (inner : operation_descriptor q l ids base = .ok descriptor)
      (num_ctrl_qubits num_target_qubits ctrl_state : Nat) :
      Described q l ids (.mcmt base num_ctrl_qubits num_target_qubits ctrl_state)
        (.mk "mcmt" (num_ctrl_qubits + num_target_qubits) 0 []
          (.mcmt descriptor num_ctrl_qubits num_target_qubits ctrl_state))
  | adder (a : Adder) : Described q l ids (.adder a) (.mk a.name a.num_qubits 0 [] a.payload)
  | flow {kind : Flow} {blocks : List (Circuit F E S)} {documents : List (Document F S)}
      {payload : Payload F S} (exported : exportBlocks q l blocks = .ok documents)
      (kept : kind.payload documents = .ok payload) :
      Described q l ids (.flow kind blocks)
        (.mk kind.name ((blocks.head?.map (·.frame.num_qubits)).getD 0)
          ((blocks.head?.map (·.frame.num_clbits)).getD 0) [] payload)
  | barrier (n : Nat) : Described q l ids (.barrier n) (.mk "barrier" n 0 [] .none)
  | delay {duration : Value F E} {encoded : Encoded F}
      (value : encode_value q ids duration = .ok encoded) (unit : String) :
      Described q l ids (.delay duration unit) (.mk "delay" 1 0 [encoded] (.delay unit))
  | directive {g : Gate F E} (named : g.name = "barrier") :
      Described q l ids (.gate g) (.mk g.name g.num_qubits g.num_clbits [] .none)
  | gate {g : Gate F E} {params : List (Encoded F)} (named : g.name ≠ "barrier")
      (timeless : g.name ≠ "delay") (standard : g.isStandard q = true)
      (values : g.params.mapM (encode_value q ids) = .ok params) :
      Described q l ids (.gate g) (.mk g.name g.num_qubits g.num_clbits params .none)

section Descriptors
variable {q : Qiskit F E} {l : Library F E S} {ids : String → Option Nat}
  {operation : Operation F E S}
  {descriptor : Descriptor F S}

theorem Gate.descriptor_eq_ok {g : Gate F E} (h : g.descriptor q ids = .ok descriptor) :
    Described q l ids (.gate g) descriptor := by
  by_cases hbarrier : g.name = "barrier"
  · rw [Gate.descriptor, if_pos hbarrier] at h
    cases h
    exact .directive hbarrier
  · rw [Gate.descriptor, if_neg hbarrier] at h
    by_cases hdelay : g.name = "delay"
    · rw [if_pos hdelay] at h
      cases h
    · rw [if_neg hdelay] at h
      by_cases hstandard : g.isStandard q = true
      · rw [if_pos hstandard] at h
        obtain ⟨params, hparams, h⟩ := bind_eq_ok.mp h
        cases h
        exact .gate hbarrier hdelay hstandard hparams
      · rw [if_neg hstandard] at h
        cases h

theorem described (h : operation_descriptor q l ids operation = .ok descriptor) :
    Described q l ids operation descriptor := by
  cases operation with
  | unitary matrix =>
      rw [operation_descriptor] at h
      obtain ⟨encoded, hencoded, h⟩ := bind_eq_ok.mp h
      cases h
      obtain rfl := numbers_eq hencoded
      exact .unitary hencoded
  | evolution operators synthesis time =>
      obtain ⟨cls, settings⟩ := synthesis
      rw [operation_descriptor] at h
      obtain ⟨groups, hgroups, h⟩ := bind_eq_ok.mp h
      obtain ⟨hformula, h⟩ := check_eq_ok.mp h
      cases settings with
      | none => cases h
      | some settings =>
          obtain ⟨encoded, htime, h⟩ := bind_eq_ok.mp h
          cases h
          obtain rfl := numberTerms_eq hgroups
          exact .evolution hgroups (by simpa using hformula) htime
  | annotated base modifiers =>
      rw [operation_descriptor] at h
      obtain ⟨encoded, hencoded, h⟩ := bind_eq_ok.mp h
      obtain ⟨descriptor, hinner, h⟩ := bind_eq_ok.mp h
      cases h
      exact .annotated hencoded hinner
  | mcmt base num_ctrl_qubits num_target_qubits ctrl_state =>
      rw [operation_descriptor] at h
      obtain ⟨descriptor, hinner, h⟩ := bind_eq_ok.mp h
      cases h
      exact .mcmt hinner ..
  | adder a =>
      rw [operation_descriptor] at h
      cases h
      exact .adder a
  | flow kind blocks =>
      rw [operation_descriptor] at h
      obtain ⟨documents, hdocuments, h⟩ := bind_eq_ok.mp h
      obtain ⟨payload, hpayload, h⟩ := bind_eq_ok.mp h
      cases h
      exact .flow hdocuments hpayload
  | barrier n =>
      rw [operation_descriptor] at h
      cases h
      exact .barrier n
  | delay duration unit =>
      rw [operation_descriptor] at h
      obtain ⟨encoded, hvalue, h⟩ := bind_eq_ok.mp h
      cases h
      exact .delay hvalue unit
  | gate g =>
      rw [operation_descriptor] at h
      exact Gate.descriptor_eq_ok h

theorem Flow.payload_eq_ok {kind : Flow} {documents : List (Document F S)} {payload : Payload F S}
    (h : kind.payload documents = .ok payload) :
    ∃ indices, payload = .controlFlow documents indices none := by
  cases kind with
  | ifElse condition => cases h; exact ⟨none, rfl⟩
  | whileLoop condition => cases h; exact ⟨none, rfl⟩
  | forLoop indices parameter =>
      cases parameter with
      | none => cases h; exact ⟨some indices, rfl⟩
      | some parameter => cases h
  | other name => cases h

/-- The widths of a descriptor are those of the operation. -/
theorem Described.widths {name : String} {arity clbits : Nat} {params : List (Encoded F)}
    {payload : Payload F S} (h : Described q l ids operation
      (.mk name arity clbits params payload)) :
    arity = operation.num_qubits ∧ clbits = operation.num_clbits := by
  cases h with
  | _ => exact ⟨rfl, rfl⟩

theorem Described.payload_ne {name : String} {arity clbits : Nat} {params : List (Encoded F)}
    {payload : Payload F S} (h : Described q l ids operation (.mk name arity clbits params payload))
    (outside : ∀ kind blocks, operation ≠ .flow kind blocks)
    (blocks : List (Document F S)) (indices : Option (List Int))
    (condition : Option (List Nat × Int)) : payload ≠ .controlFlow blocks indices condition := by
  cases h with
  | flow hdocuments hpayload => exact absurd rfl (outside _ _)
  | adder a => cases a with | _ => exact nofun
  | _ => exact nofun

/-- An operation as it was described, on as many wires, with the parameters `Renames` says. -/
structure Rebuilt (q : Qiskit F E) (l : Library F E S) (ids : String → Option Nat)
    (objects : Nat → Option Param)
    (operation : Operation F E S) (descriptor : Descriptor F S) (operation' : Operation F E S) :
    Prop where
  described : operation_descriptor q l ids operation' = .ok descriptor
  num_qubits : operation'.num_qubits = operation.num_qubits
  num_clbits : operation'.num_clbits = operation.num_clbits
  parameters : Renames ids objects (operation.parameters q) (operation'.parameters q)
  plain : operation'.Plain

end Descriptors

/-! ## Construction -/

section Construction
variable {q : Qiskit F E} {l : Library F E S} {ids : String → Option Nat}
  {objects : Nat → Option Param}
  {frame : Frame F E}

theorem parameters_rebuilt (laws : q.Lawful) (agrees : Agrees ids objects)
    {values : List (Value F E)} {encoded : List (Encoded F)}
    (h : values.mapM (encode_value q ids) = .ok encoded) :
    ∃ values', encoded.mapM (decode_value q objects) = .ok values' ∧
      values'.mapM (encode_value q ids) = .ok encoded ∧
      (∀ value ∈ values', value.fraction? = none) ∧
      Renames ids objects (values.flatMap (·.parameters q)) (values'.flatMap (·.parameters q)) := by
  obtain ⟨values', hdecode, hencode, hall⟩ := (value_copies laws agrees).mapM h
  have back : List.Forall₂ (fun value' value => Value.Copied q ids objects value value')
      values' values := .flip hall
  have kinds := (List.forall₂_and_left _ _).mp
    (back.imp fun _ _ copied => ⟨copied.fraction_eq_none, copied⟩)
  exact ⟨values', hdecode, hencode, kinds.1, .flatMap (hall.imp fun _ _ copied => copied.renames)⟩

theorem modifiers_rebuilt (laws : q.Lawful) (agrees : Agrees ids objects)
    {modifiers : List (Modifier F E)} {encoded : List (EncodedModifier F)}
    (h : modifiers.mapM (encodeModifier q ids) = .ok encoded) :
    ∃ modifiers', encoded.mapM (decodeModifier q objects) = .ok modifiers' ∧
      modifiers'.mapM (encodeModifier q ids) = .ok encoded ∧
      (modifiers'.map (·.num_ctrl_qubits)).sum = (modifiers.map (·.num_ctrl_qubits)).sum := by
  obtain ⟨modifiers', hdecode, hencode, hall⟩ := (modifier_copies laws agrees).mapM h
  refine ⟨modifiers', hdecode, hencode, congrArg List.sum ?_⟩
  clear h hdecode hencode
  induction hall with
  | nil => rfl
  | cons hm _ ih => rw [List.map_cons, List.map_cons, hm, ih]

theorem operators_rebuilt (operators : Operators F) :
    buildOperators operators.isList operators.groups = .ok operators := by
  cases operators with
  | single terms => rfl
  | grouped groups => rfl

/-- A gate of a class, rebuilt from its template. -/
theorem gate_rebuilt (laws : q.Lawful) (documented : l.Documented q)
    (agrees : Agrees ids objects) {g : Gate F E}
    {params : List (Encoded F)} (fits : g.Fits q l) (named : g.name ≠ "barrier")
    (timeless : g.name ≠ "delay") (standard : g.isStandard q = true)
    (values : g.params.mapM (encode_value q ids) = .ok params) :
    ∃ operation' : Operation F E S,
      construct_operation q l objects (.mk g.name g.num_qubits g.num_clbits params .none) =
        .ok operation' ∧
      Rebuilt q l ids objects (.gate g) (.mk g.name g.num_qubits g.num_clbits params .none)
        operation' := by
  obtain ⟨values', hdecode, hencode, hkinds, hrenames⟩ := parameters_rebuilt laws agrees values
  rw [Gate.isStandard, Bool.and_eq_true] at standard
  cases hclass : q.standard g.name with
  | none =>
      rw [hclass] at standard
      cases standard.1
  | some t =>
      have hbase : t.base_class = g.base_class := by simpa [hclass] using standard.1
      obtain ⟨hqubits, hclbits, hcount⟩ := fits.2 t hclass hbase
      have hlength : values'.length = l.num_params g.name := by
        rw [← hcount, ← mapM_length values, mapM_length hdecode]
      refine ⟨.gate (t.gate g.name values'), ?_, ?_⟩
      · rw [construct_operation, hdecode]
        simp only [bind, Except.bind]
        rw [constructPayload, if_neg named, hclass]
        simp only
        rw [if_neg (by simp [hqubits, hclbits]), documented.construct t _ _ hclass hlength hkinds]
        rfl
      · have again : (t.gate g.name values').isStandard q = true := by
          simp only [Gate.isStandard, Template.gate, hclass, Option.any_some, beq_self_eq_true,
            Bool.true_and]
          cases t.num_ctrl_qubits with | _ => simp
        refine ⟨?_, hqubits.symm, hclbits.symm, ?_, trivial⟩
        · rw [operation_descriptor, Gate.descriptor, if_neg (by exact named),
            if_neg (by exact timeless), if_pos again, hqubits, hclbits]
          exact bind_eq_ok.mpr ⟨params, hencode, rfl⟩
        · simpa [Operation.parameters, Template.gate] using hrenames

theorem construct_ok {name : String} {arity clbits : Nat} {params : List (Encoded F)}
    {payload : Payload F S} {values : List (Value F E)} {operation : Operation F E S}
    (hparams : params.mapM (decode_value q objects) = .ok values)
    (hpayload : constructPayload q l objects name arity clbits values payload = .ok operation) :
    construct_operation q l objects (.mk name arity clbits params payload) = .ok operation := by
  rw [construct_operation]
  exact bind_eq_ok.mpr ⟨values, hparams, hpayload⟩

theorem value_rebuilt (laws : q.Lawful) (agrees : Agrees ids objects) {value : Value F E}
    {encoded : Encoded F} (h : encode_value q ids value = .ok encoded) :
    ∃ value', [encoded].mapM (decode_value q objects) = .ok [value'] ∧
      encode_value q ids value' = .ok encoded ∧
      Renames ids objects (value.parameters q) (value'.parameters q) := by
  obtain ⟨value', hdecode, hencode, hcopied⟩ := value_copies laws agrees _ _ h
  exact ⟨value', by rw [List.mapM_cons, hdecode]; rfl, hencode, hcopied.renames⟩

/-- What a settled phase is read back as is kept. -/
theorem phase_kept (documented : l.Documented q) {phase phase' : Value F E}
    (settled : phase.Settled q l) (copied : phase.Copied q ids objects phase') :
    l.setPhase phase' = .ok phase' := by
  cases copied.kind with
  | inl symbolic =>
      obtain ⟨e, rfl, hfree⟩ := symbolic
      exact documented.setPhase e hfree
  | inr constant =>
      obtain ⟨hnone, x, rfl, hx⟩ := constant
      cases settled with
      | inl hfree => exact absurd hnone hfree
      | inr kept =>
          obtain ⟨y, hy, hkept⟩ := kept
          obtain rfl : x = y := Except.ok.inj (hx.symm.trans hy)
          exact hkept

theorem libraryAdder_payload (a : Adder) :
    constructPayload q l objects a.name a.num_qubits 0 [] (a.payload : Payload F S) =
      .ok (.adder a : Operation F E S) := by
  cases a with | _ => rfl

/-- A descriptor gives its operation back exactly when no control flow is inside of it. -/
theorem construct_succeeds (laws : q.Lawful) (documented : l.Documented q)
    (agrees : Agrees ids objects)
    (operation : Operation F E S) (wellFormed : operation.WellFormed q l frame)
    (descriptor : Descriptor F S) (h : operation_descriptor q l ids operation = .ok descriptor) :
    Succeeds operation.Plain (Rebuilt q l ids objects operation descriptor)
      (construct_operation q l objects descriptor) := by
  cases described h with
  | @unitary matrix finite =>
      have built : constructPayload q l objects "unitary" (Nat.log2 matrix.length) 0 []
          (.matrix (Nat.log2 matrix.length) matrix : Payload F S) =
            .ok (.unitary matrix : Operation F E S) := by
        rw [constructPayload]
        exact bind_eq_ok.mpr ⟨matrix, finite, rfl⟩
      exact .ok (construct_ok rfl built) trivial ⟨h, rfl, rfl, .nil, trivial⟩
  | @evolution operators cls settings time encoded finite formula value =>
      obtain ⟨time', hdecode, hencode, hrenames⟩ := value_rebuilt laws agrees value
      have built : constructPayload q l objects "PauliEvolution" (termsWidth operators.groups) 0
          [time'] (.evolution (termsWidth operators.groups) operators.groups operators.isList cls
            settings : Payload F S) =
            .ok (.evolution operators ⟨cls, some settings⟩ time' : Operation F E S) := by
        rw [constructPayload]
        refine bind_eq_ok.mpr ⟨_, finite, check_eq_ok.mpr ⟨by simpa using formula, ?_⟩⟩
        exact bind_eq_ok.mpr ⟨operators, operators_rebuilt operators, rfl⟩
      refine .ok (construct_ok hdecode built) trivial ⟨?_, rfl, rfl, hrenames, trivial⟩
      rw [operation_descriptor]
      refine bind_eq_ok.mpr ⟨_, finite, check_eq_ok.mpr ⟨by simpa using formula, ?_⟩⟩
      exact bind_eq_ok.mpr ⟨encoded, hencode, rfl⟩
  | @annotated base modifiers encoded inside values inner =>
      obtain ⟨modifiers', hdecode, hencode, hsum⟩ := modifiers_rebuilt laws agrees values
      have built : construct_operation q l objects (.mk "annotated"
          (base.num_qubits + (modifiers.map (·.num_ctrl_qubits)).sum) base.num_clbits []
          (.annotated inside encoded)) =
            (construct_operation q l objects inside >>= fun base =>
              pure (.annotated base modifiers') : Except Refusal (Operation F E S)) := by
        rw [construct_operation, List.mapM_nil]
        simp only [pure_bind]
        rw [constructPayload, hdecode]
        rfl
      rw [built]
      have ih := construct_succeeds laws documented agrees base wellFormed inside inner
      refine ih.then fun base' hbase => ⟨_, rfl, ?_⟩
      refine ⟨?_, ?_, hbase.num_clbits, hbase.parameters, hbase.plain⟩
      · rw [operation_descriptor, hencode, hbase.described, hsum, hbase.num_qubits,
          hbase.num_clbits]
        rfl
      · rw [Operation.num_qubits, Operation.num_qubits, hbase.num_qubits, hsum]
  | @mcmt base inside inner num_ctrl_qubits num_target_qubits ctrl_state =>
      have built : construct_operation q l objects (.mk "mcmt" (num_ctrl_qubits + num_target_qubits)
          0 [] (.mcmt inside num_ctrl_qubits num_target_qubits ctrl_state)) =
            (construct_operation q l objects inside >>= fun base =>
              pure (.mcmt base num_ctrl_qubits num_target_qubits ctrl_state) :
              Except Refusal (Operation F E S)) := by
        rw [construct_operation, List.mapM_nil]
        simp only [pure_bind]
        rw [constructPayload]
      rw [built]
      have ih := construct_succeeds laws documented agrees base wellFormed inside inner
      refine ih.then fun base' hbase => ⟨_, rfl, ?_⟩
      refine ⟨?_, rfl, rfl, hbase.parameters, hbase.plain⟩
      rw [operation_descriptor, hbase.described]
      rfl
  | adder a =>
      exact .ok (construct_ok rfl (libraryAdder_payload a)) trivial ⟨h, rfl, rfl, .nil, trivial⟩
  | @flow kind blocks documents payload exported kept =>
      obtain ⟨indices, rfl⟩ := Flow.payload_eq_ok kept
      have refused : construct_operation q l objects (.mk kind.name
          ((blocks.head?.map (·.frame.num_qubits)).getD 0)
          ((blocks.head?.map (·.frame.num_clbits)).getD 0) []
          (.controlFlow documents indices none)) =
            .error (.unsupported "Unknown payload kind: control_flow/1") := by
        rw [construct_operation, List.mapM_nil]
        simp only [pure_bind]
        rw [constructPayload]
      exact .error refused id
  | barrier n =>
      have built : constructPayload q l objects "barrier" n 0 [] (.none : Payload F S) =
          .ok (.barrier n : Operation F E S) := by
        rw [constructPayload, if_pos rfl]
      exact .ok (construct_ok rfl built) trivial ⟨h, rfl, rfl, .nil, trivial⟩
  | @delay duration encoded value unit =>
      obtain ⟨duration', hdecode, hencode, hrenames⟩ := value_rebuilt laws agrees value
      have built : constructPayload q l objects "delay" 1 0 [duration']
          (.delay unit : Payload F S) =
          .ok (.delay duration' unit : Operation F E S) := rfl
      refine .ok (construct_ok hdecode built) trivial ⟨?_, rfl, rfl, hrenames, trivial⟩
      rw [operation_descriptor]
      exact bind_eq_ok.mpr ⟨encoded, hencode, rfl⟩
  | @directive g named =>
      obtain ⟨hclbits, hparams⟩ := wellFormed.1 named
      have built : constructPayload q l objects g.name g.num_qubits g.num_clbits []
          (.none : Payload F S) = .ok (.barrier g.num_qubits : Operation F E S) := by
        rw [constructPayload, if_pos named]
      refine .ok (construct_ok rfl built) trivial ⟨?_, rfl, hclbits.symm, ?_, trivial⟩
      · rw [operation_descriptor, named, hclbits]
      · simpa [Operation.parameters, hparams] using Renames.nil
  | gate named timeless standard values =>
      obtain ⟨operation', hbuilt, hrebuilt⟩ :=
        gate_rebuilt laws documented agrees wellFormed named timeless standard values
      exact .ok hbuilt trivial hrebuilt

end Construction
end TranspileBench.Worker
