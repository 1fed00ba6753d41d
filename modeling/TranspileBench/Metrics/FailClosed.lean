import TranspileBench.Metrics.Flatten
import TranspileBench.Lib.Fallible

/-!
When C0 is fail-closed on malformed nesting: which operations a run reaches, which of
them raise, and which escape their enclosing operation unnoticed.
-/
namespace TranspileBench.Metrics

/-- What a run of `consume` comes to. -/
inductive Visit
  /-- An operation, without what is nested in it, and the wires of its enclosing operation. -/
  | operation (qmap cmap : Option (List Int)) (node : Node)
  /-- A block whose operations cannot be read. -/
  | block (error : String)

def Node.leaf : Node → Node
  | .op head payload => .op head payload.leaf
  | node => node

/-- Nothing is nested in the operation. -/
def Visit.IsLeaf : Visit → Prop
  | .operation _ _ node => node.leaf = node
  | .block _ => True

/-- The wires that the nested operations of an operation see, if it is entered. -/
def entered (rules : Rules) (qmap cmap : Option (List Int)) (head : Head) :
    Option (List Int × List Int) :=
  if controlFlow.contains head.name && rules.accepts head.qubits head.clbits then
    match mapWires qmap head.qubits, mapWires cmap head.clbits with
    | .ok qs, .ok cs => some (qs, cs)
    | _, _ => none
  else none

mutual

/-- The visits of a run, in its order, as far as it gets. -/
def visits (rules : Rules) (qmap cmap : Option (List Int)) : Node → List Visit
  | .malformed => [.operation qmap cmap .malformed]
  | .unnamed qubits clbits => [.operation qmap cmap (.unnamed qubits clbits)]
  | .op head payload =>
      .operation qmap cmap (.op head payload.leaf) ::
        match entered rules qmap cmap head with
        | none => []
        | some (qs, cs) => visitsPayload rules qs cs payload

def visitsPayload (rules : Rules) (qs cs : List Int) : Payload → List Visit
  | .controlFlow blocks => visitsBlocks rules qs cs blocks
  | _ => []

def visitsBlocks (rules : Rules) (qs cs : List Int) : List Block → List Visit
  | [] => []
  | .unreadable error :: blocks => .block error :: visitsBlocks rules qs cs blocks
  | .mk _ _ operations :: blocks =>
      visitsAll rules (some qs) (some cs) operations ++ visitsBlocks rules qs cs blocks

def visitsAll (rules : Rules) (qmap cmap : Option (List Int)) : List Node → List Visit
  | [] => []
  | node :: nodes => visits rules qmap cmap node ++ visitsAll rules qmap cmap nodes

end

def Checker.visit (rules : Rules) (checker : Checker) : Visit → Except Exn Checker
  | .operation qmap cmap node => checker.consume rules qmap cmap node
  | .block error => .error (.other error)

/-- What the payload of a control-flow operation is reported for. -/
def payloadErrors : Payload → Except Exn (List String)
  | .none | .other => .ok ["Missing control-flow payload"]
  | .unreadable error => .error (.other error)
  | .controlFlow _ => .ok []

/-- What a visit reports, or the exception it raises. -/
def Visit.faults (rules : Rules) : Visit → Except Exn (List String)
  | .block error => .error (.other error)
  | .operation _ _ .malformed => .ok ["Malformed operation"]
  | .operation qmap cmap (.unnamed qubits clbits) =>
      match rules.wireError qubits clbits with
      | some text => .ok [text]
      | none => do
          let _ ← mapWires qmap qubits
          let _ ← mapWires cmap clbits
          .error (.other "TypeError")
  | .operation qmap cmap (.op head payload) =>
      match rules.wireError head.qubits head.clbits with
      | some text => .ok [text]
      | none => do
          let qs ← mapWires qmap head.qubits
          let cs ← mapWires cmap head.clbits
          let errors ← instructionErrors rules head.name qs cs head.params
          if controlFlow.contains head.name then
            let missing ← payloadErrors payload
            pure (errors ++ missing)
          else pure errors

theorem visit_faults {rules : Rules} (checker : Checker) {v : Visit} (leaf : v.IsLeaf) :
    (∀ e, v.faults rules = .error e → checker.visit rules v = .error e) ∧
    ∀ texts, v.faults rules = .ok texts →
      ∃ checker', checker.visit rules v = .ok checker' ∧
        checker'.errors = checker.errors ++ texts := by
  cases v with
  | block error => exact ⟨fun _ h => by cases h; rfl, fun _ h => by cases h⟩
  | operation qmap cmap node =>
  cases node with
  | malformed =>
      exact ⟨(fun _ h => by cases h), fun texts h => by cases h; exact ⟨_, rfl, rfl⟩⟩
  | unnamed qubits clbits =>
      rw [Checker.visit, Checker.consume, Visit.faults]
      cases rules.wireError qubits clbits with
      | some text =>
          exact ⟨(fun _ h => by cases h), fun texts h => by cases h; exact ⟨_, rfl, rfl⟩⟩
      | none =>
          dsimp only
          cases mapWires qmap qubits with
          | error e => exact ⟨fun _ h => by cases h; rfl, fun _ h => by cases h⟩
          | ok qs =>
          cases mapWires cmap clbits with
          | error e => exact ⟨fun _ h => by cases h; rfl, fun _ h => by cases h⟩
          | ok cs => exact ⟨fun _ h => by cases h; rfl, fun _ h => by cases h⟩
  | op head payload =>
      rw [Checker.visit, Checker.consume, Checker.admits, Visit.faults]
      dsimp only
      cases rules.wireError head.qubits head.clbits with
      | some text =>
          exact ⟨(fun _ h => by cases h), fun texts h => by cases h; exact ⟨_, rfl, rfl⟩⟩
      | none =>
          dsimp only
          cases mapWires qmap head.qubits with
          | error e => exact ⟨fun _ h => by cases h; rfl, fun _ h => by cases h⟩
          | ok qs =>
          cases mapWires cmap head.clbits with
          | error e => exact ⟨fun _ h => by cases h; rfl, fun _ h => by cases h⟩
          | ok cs =>
          simp only [bind, Except.bind]
          cases instructionErrors rules head.name qs cs head.params with
          | error e => exact ⟨fun _ h => by cases h; rfl, fun _ h => by cases h⟩
          | ok errors =>
              cases hflow : controlFlow.contains head.name with
              | false =>
                  refine ⟨(fun _ h => by cases h), fun texts h => ?_⟩
                  cases h
                  exact ⟨_, rfl, by simp [Checker.count]⟩
              | true =>
                  cases payload with
                  | unreadable error =>
                      exact ⟨fun _ h => by cases h; rfl, fun _ h => by cases h⟩
                  | none | other =>
                      refine ⟨(fun _ h => by cases h), fun texts h => ?_⟩
                      cases h
                      exact ⟨_, rfl, by simp [Checker.fail]⟩
                  | controlFlow blocks =>
                      refine ⟨(fun _ h => by cases h), fun texts h => ?_⟩
                      simp only [Visit.IsLeaf, Node.leaf, Payload.leaf, Node.op.injEq,
                        Payload.controlFlow.injEq, true_and] at leaf
                      subst leaf
                      cases h
                      exact ⟨_, rfl, by simp⟩

theorem entered_of_admits {rules : Rules} {checker checker' : Checker}
    {qmap cmap : Option (List Int)} {head : Head} {wires : Option (List Int × List Int)}
    (h : checker.admits rules qmap cmap head = .ok (checker', wires)) :
    entered rules qmap cmap head = if controlFlow.contains head.name then wires else none := by
  unfold Checker.admits at h
  unfold entered Rules.accepts
  cases hwire : rules.wireError head.qubits head.clbits with
  | some text =>
      rw [hwire] at h
      cases h
      simp
  | none =>
      rw [hwire] at h
      obtain ⟨qs, hqs, h⟩ := Fallible.bind_eq_ok.mp h
      obtain ⟨cs, hcs, h⟩ := Fallible.bind_eq_ok.mp h
      obtain ⟨errors, -, h⟩ := Fallible.bind_eq_ok.mp h
      cases h
      simp [hqs, hcs]

mutual

/-- A run is its visits, one after another. -/
theorem consume_visits (rules : Rules) (node : Node) (checker : Checker)
    (qmap cmap : Option (List Int)) :
    checker.consume rules qmap cmap node =
      (visits rules qmap cmap node).foldlM (Checker.visit rules) checker := by
  cases node with
  | malformed => exact (bind_pure _).symm
  | unnamed qubits clbits => exact (bind_pure _).symm
  | op head payload =>
      rw [visits, List.foldlM_cons, Checker.visit, Checker.consume, Checker.consume]
      cases hadmits : checker.admits rules qmap cmap head with
      | error e => rfl
      | ok admitted =>
          obtain ⟨checker₁, wires⟩ := admitted
          rw [entered_of_admits hadmits]
          cases wires with
          | none =>
              simp only [bind, Except.bind, ite_self]
              rfl
          | some wires =>
              obtain ⟨qs, cs⟩ := wires
              by_cases hflow : controlFlow.contains head.name = true
              · simp only [bind, Except.bind, if_pos hflow]
                exact consumePayload_visits rules payload _ qs cs
              · simp only [bind, Except.bind, if_neg hflow]
                rfl

theorem consumePayload_visits (rules : Rules) (payload : Payload) (checker : Checker)
    (qs cs : List Int) :
    checker.consumePayload rules qs cs payload = (do
      let checker ← checker.consumePayload rules qs cs payload.leaf
      (visitsPayload rules qs cs payload).foldlM (Checker.visit rules) checker) := by
  cases payload with
  | controlFlow blocks =>
      rw [Checker.consumePayload, consumeBlocks_visits rules blocks checker qs cs]
      rfl
  | none => rfl
  | other => rfl
  | unreadable error => rfl

theorem consumeBlocks_visits (rules : Rules) (blocks : List Block) (checker : Checker)
    (qs cs : List Int) :
    checker.consumeBlocks rules qs cs blocks =
      (visitsBlocks rules qs cs blocks).foldlM (Checker.visit rules) checker := by
  cases blocks with
  | nil => rfl
  | cons block blocks =>
      obtain ⟨num_qubits, num_clbits, operations⟩ | error := block
      case unreadable => rfl
      rw [Checker.consumeBlocks, visitsBlocks, List.foldlM_append,
        consumeAll_visits rules operations checker _ _]
      cases (visitsAll rules (some qs) (some cs) operations).foldlM
        (Checker.visit rules) checker with
      | error e => rfl
      | ok checker => exact consumeBlocks_visits rules blocks checker qs cs

theorem consumeAll_visits (rules : Rules) (nodes : List Node) (checker : Checker)
    (qmap cmap : Option (List Int)) :
    checker.consumeAll rules qmap cmap nodes =
      (visitsAll rules qmap cmap nodes).foldlM (Checker.visit rules) checker := by
  cases nodes with
  | nil => rfl
  | cons node nodes =>
      rw [Checker.consumeAll, visitsAll, List.foldlM_append, consume_visits rules node checker _ _]
      cases (visits rules qmap cmap node).foldlM (Checker.visit rules) checker with
      | error e => rfl
      | ok checker => exact consumeAll_visits rules nodes checker qmap cmap

end

theorem Node.leaf_leaf (node : Node) : node.leaf.leaf = node.leaf := by
  rcases node with _ | _ | ⟨head, _ | _ | _ | blocks⟩ <;> rfl

mutual

theorem visits_leaf (rules : Rules) (node : Node) (qmap cmap : Option (List Int)) :
    ∀ v ∈ visits rules qmap cmap node, v.IsLeaf := by
  cases node with
  | malformed => simp [visits, Visit.IsLeaf, Node.leaf]
  | unnamed qubits clbits => simp [visits, Visit.IsLeaf, Node.leaf]
  | op head payload =>
      rw [visits, List.forall_mem_cons]
      refine ⟨Node.leaf_leaf (.op head payload), ?_⟩
      cases entered rules qmap cmap head with
      | none => simp
      | some wires => exact visitsPayload_leaf rules payload wires.1 wires.2

theorem visitsPayload_leaf (rules : Rules) (payload : Payload) (qs cs : List Int) :
    ∀ v ∈ visitsPayload rules qs cs payload, v.IsLeaf := by
  cases payload with
  | controlFlow blocks => exact visitsBlocks_leaf rules blocks qs cs
  | none => exact nofun
  | other => exact nofun
  | unreadable error => exact nofun

theorem visitsBlocks_leaf (rules : Rules) (blocks : List Block) (qs cs : List Int) :
    ∀ v ∈ visitsBlocks rules qs cs blocks, v.IsLeaf := by
  cases blocks with
  | nil => exact nofun
  | cons block blocks =>
      obtain ⟨num_qubits, num_clbits, operations⟩ | error := block
      case unreadable =>
        rw [visitsBlocks, List.forall_mem_cons]
        exact ⟨trivial, visitsBlocks_leaf rules blocks qs cs⟩
      rw [visitsBlocks, List.forall_mem_append]
      exact ⟨visitsAll_leaf rules operations _ _, visitsBlocks_leaf rules blocks qs cs⟩

theorem visitsAll_leaf (rules : Rules) (nodes : List Node) (qmap cmap : Option (List Int)) :
    ∀ v ∈ visitsAll rules qmap cmap nodes, v.IsLeaf := by
  cases nodes with
  | nil => exact nofun
  | cons node nodes =>
      rw [visitsAll, List.forall_mem_append]
      exact ⟨visits_leaf rules node qmap cmap, visitsAll_leaf rules nodes qmap cmap⟩

end

/-! ## What the claim of fail-closedness is about, and what breaks it -/

mutual

/-- Some nested operation names a wire outside those its enclosing operation acts on. -/
def Node.Escapes : Node → Prop
  | .malformed | .unnamed _ _ => False
  | .op head payload => controlFlow.contains head.name = true ∧
      PayloadEscapes head.qubits.length head.clbits.length payload

def PayloadEscapes (num_qubits num_clbits : Nat) : Payload → Prop
  | .controlFlow blocks => BlocksEscape num_qubits num_clbits blocks
  | _ => False

def BlocksEscape (num_qubits num_clbits : Nat) : List Block → Prop
  | [] => False
  | .unreadable _ :: blocks => BlocksEscape num_qubits num_clbits blocks
  | .mk _ _ operations :: blocks =>
      ((∃ node ∈ operations, ¬ node.IndexesOnly num_qubits num_clbits) ∨ AnyEscapes operations) ∨
        BlocksEscape num_qubits num_clbits blocks

def AnyEscapes : List Node → Prop
  | [] => False
  | node :: nodes => node.Escapes ∨ AnyEscapes nodes

end

/-- A run returns, and reports a mismatch if a nested operation escapes. -/
def FailClosed (rules : Rules) (operations : List Node) : Prop :=
  ∃ checker, checkCircuit rules operations = .ok checker ∧
    (AnyEscapes operations → checker.result.status = .mismatch)

/-- A wire beyond the end of a list of wires that is not empty. -/
def Exceeds (map : Option (List Int)) (wires : List Int) : Prop :=
  ∃ m, map = some m ∧ m ≠ [] ∧ ∃ w ∈ wires, (m.length : Int) ≤ w

/-- The header has the wires of the operation, but not all are wires of its enclosing one. -/
def Visit.Overruns (rules : Rules) : Visit → Prop
  | .operation qmap cmap (.op head _) => rules.wireError head.qubits head.clbits = none ∧
      (Exceeds qmap head.qubits ∨ Exceeds cmap head.clbits)
  | _ => False

/-- A parameter that no check catches: `float` overflows on it or it cannot be hashed. -/
def Visit.Overflows (rules : Rules) : Visit → Prop
  | .operation _ _ (.op head _) => rules.wireError head.qubits head.clbits = none ∧
      DIRECTIVES.contains head.name = false ∧ (rules.support head.name).isSome ∧
      ∃ p ∈ head.params, p = .overflow ∨ p = .unhashable
  | _ => False

/-- A name, a payload or a block that is looked at and is not of its type. -/
def Visit.Unreadable (rules : Rules) : Visit → Prop
  | .operation _ _ (.unnamed qubits clbits) => rules.wireError qubits clbits = none
  | .operation _ _ (.op head payload) => rules.wireError head.qubits head.clbits = none ∧
      controlFlow.contains head.name = true ∧ ∃ error, payload = .unreadable error
  | .block _ => True
  | _ => False

/-- The operation names a wire where its enclosing operation acts on none. -/
def Visit.Strays : Visit → Prop
  | .operation qmap cmap (.op head _) =>
      (qmap = some [] ∧ head.qubits ≠ []) ∨ (cmap = some [] ∧ head.clbits ≠ [])
  | _ => False

/-- A number outside what the target allows at its position. -/
inductive NumberFlaw (spec : InstructionSpec) (index : Nat) (value : ℚ) : Prop
  | unbounded (hbounds : spec.angle_bounds ≠ []) (h : spec.angle_bounds.length ≤ index)
  | outside (lo hi : ℚ) (hbounds : spec.angle_bounds[index]? = some (some (lo, hi)))
      (h : ¬ (lo ≤ value ∧ value ≤ hi))
  | fixed (other : ℚ) (hfixed : spec.fixed_parameters.lookup index = some other)
      (h : other ≠ value)

def ParamFlaw (spec : InstructionSpec) : Param × Nat → Prop
  | (.symbolic kind, _) => kind ≠ some "expression/1" ∧ kind ≠ some "symbolic/1"
  | (.number value, index) => NumberFlaw spec index value
  | (.invalid, _) => True
  | (.unhashable, _) | (.overflow, _) => False

/-- Where an operation on physical wires departs from the target's instruction. -/
inductive Misfit (rules : Rules) (spec : InstructionSpec) (head : Head) : Prop
  | arity (n : Nat) (harity : spec.arity = some n) (h : n ≠ head.qubits.length)
  | clbits (n : Nat) (hloose : rules.impliedLoose head.name = true)
      (harity : (LOOSE_IMPLICIT head.name).bind (·.2.1) = some n) (h : n ≠ head.clbits.length)
  | qubits (allowed : List (List Int)) (hqargs : spec.qargs = some allowed)
      (h : head.qubits ∉ allowed)
  | count (hflow : controlFlow.contains head.name = false)
      (h : head.params.length ≠ spec.parameters.length)
  | param (p : Param × Nat) (hp : p ∈ head.params.zipIdx) (h : ParamFlaw spec p)

/-- An operation other than a directive that the target lacks or has otherwise. -/
def Head.Flawed (rules : Rules) (head : Head) : Prop :=
  DIRECTIVES.contains head.name = false ∧
    ∀ spec, rules.support head.name = some spec → Misfit rules spec head

/-- A row that is no list of five fields, wires that are repeated or not the header's, an
instruction that the target does not have so, or a control-flow operation without a payload. -/
def Visit.Flawed (rules : Rules) : Visit → Prop
  | .operation _ _ .malformed => True
  | .operation _ _ (.unnamed qubits clbits) => rules.wireError qubits clbits ≠ none
  | .operation qmap cmap (.op head payload) => rules.wireError head.qubits head.clbits ≠ none ∨
      (head.place qmap cmap).Flawed rules ∨
      controlFlow.contains head.name = true ∧ (payload = .none ∨ payload = .other)
  | .block _ => False

section Conditions
variable {rules : Rules} {v : Visit}

theorem mapWires_ok_iff (map : Option (List Int)) {wires : List Int}
    (nonneg : ∀ w ∈ wires, 0 ≤ w) :
    (∃ qs, mapWires map wires = .ok qs) ↔ ¬ Exceeds map wires := by
  rcases map with _ | _ | ⟨x, m⟩
  · simp [mapWires, Exceeds]
  · simp [mapWires, Exceeds]
  · rw [mapWires]
    · rw [Fallible.mapM_ok_iff]
      simp only [Exceeds, Option.some.injEq, not_exists, not_and, not_le]
      constructor
      · rintro h _ rfl - w hw
        obtain ⟨y, hy⟩ := h w hw
        split at hy
        · rename_i wire hwire
          have := (List.getElem?_eq_some_iff.mp hwire).1
          omega
        · cases hy
      · intro h w hw
        have hlt := h _ rfl (by simp) w hw
        have hnonneg := nonneg w hw
        rw [List.getElem?_eq_getElem (by omega)]
        exact ⟨_, rfl⟩
    · simp

theorem paramErrors_ok_iff {spec : InstructionSpec} {name : String} {p : Param × Nat} :
    (∃ texts, paramErrors spec name p = .ok texts) ↔ ¬ (p.1 = .overflow ∨ p.1 = .unhashable) := by
  obtain ⟨_ | _ | _ | _ | _, index⟩ := p <;> simp [paramErrors]

theorem instructionErrors_ok_iff {name : String} (qs cs : List Int) {params : List Param} :
    (∃ texts, instructionErrors rules name qs cs params = .ok texts) ↔
      ¬ (DIRECTIVES.contains name = false ∧ (rules.support name).isSome ∧
        ∃ p ∈ params, p = .overflow ∨ p = .unhashable) := by
  unfold instructionErrors
  cases DIRECTIVES.contains name with
  | true => simp
  | false =>
      cases rules.support name with
      | none => simp
      | some spec =>
          have h := Fallible.mapM_ok_iff (paramErrors spec name) params.zipIdx
          simp only [paramErrors_ok_iff] at h
          have hparams : (∀ x ∈ params.zipIdx, ¬ (x.1 = .overflow ∨ x.1 = .unhashable)) ↔
              ∀ p ∈ params, ¬ (p = .overflow ∨ p = .unhashable) := by
            rw [← List.forall_mem_map (f := Prod.fst)
              (P := fun p : Param => ¬ (p = .overflow ∨ p = .unhashable)), List.zipIdx_map_fst]
          rw [hparams] at h
          rw [if_neg (by simp), Fallible.bind_pure_ok_iff, h]
          simp

theorem payloadErrors_ok_iff {payload : Payload} :
    (∃ texts, payloadErrors payload = .ok texts) ↔ ¬ ∃ error, payload = .unreadable error := by
  cases payload <;> simp [payloadErrors]

/-- Which visits raise. -/
theorem faults_ok_iff : (∃ texts, v.faults rules = .ok texts) ↔
    ¬ v.Overruns rules ∧ ¬ v.Overflows rules ∧ ¬ v.Unreadable rules := by
  cases v with
  | block error => simp [Visit.faults, Visit.Unreadable]
  | operation qmap cmap node =>
  cases node with
  | malformed => simp [Visit.faults, Visit.Overruns, Visit.Overflows, Visit.Unreadable]
  | unnamed qubits clbits =>
      simp only [Visit.faults, Visit.Overruns, Visit.Overflows, Visit.Unreadable]
      cases rules.wireError qubits clbits with
      | some text => simp
      | none =>
          cases mapWires qmap qubits <;> cases mapWires cmap clbits <;> simp [bind, Except.bind]
  | op head payload =>
      simp only [Visit.faults, Visit.Overruns, Visit.Overflows, Visit.Unreadable]
      cases hwire : rules.wireError head.qubits head.clbits with
      | some text => simp
      | none =>
          obtain ⟨⟨hqs, hcs⟩, -⟩ := wireError_eq_none.mp hwire
          have hqmap := mapWires_ok_iff qmap fun q hq => (hqs q hq).1
          have hcmap := mapWires_ok_iff cmap fun c hc => (hcs c hc).1
          simp only [true_and, not_or, ← hqmap, ← hcmap, and_assoc]
          constructor
          · rintro ⟨texts, h⟩
            obtain ⟨qs, hq, h⟩ := Fallible.bind_eq_ok.mp h
            obtain ⟨cs, hc, h⟩ := Fallible.bind_eq_ok.mp h
            obtain ⟨errors, he, h⟩ := Fallible.bind_eq_ok.mp h
            refine ⟨⟨qs, hq⟩, ⟨cs, hc⟩, (instructionErrors_ok_iff qs cs).mp ⟨errors, he⟩, ?_⟩
            rintro ⟨hflow, hpayload⟩
            rw [if_pos hflow] at h
            obtain ⟨missing, hmissing, -⟩ := Fallible.bind_eq_ok.mp h
            exact payloadErrors_ok_iff.mp ⟨missing, hmissing⟩ hpayload
          · rintro ⟨⟨qs, hq⟩, ⟨cs, hc⟩, hparams, hpayload⟩
            obtain ⟨errors, he⟩ := (instructionErrors_ok_iff qs cs).mpr hparams
            rw [hq, hc]
            simp only [bind, Except.bind, he]
            split
            · rename_i hflow
              obtain ⟨missing, hmissing⟩ :=
                payloadErrors_ok_iff.mpr fun hpayload' => hpayload ⟨hflow, hpayload'⟩
              rw [hmissing]
              exact ⟨_, rfl⟩
            · exact ⟨_, rfl⟩

theorem mapWires_length {map : Option (List Int)} {wires qs : List Int}
    (h : mapWires map wires = .ok qs) : qs.length = wires.length := by
  rcases map with _ | _ | ⟨x, m⟩
  · cases h; rfl
  · cases h; rfl
  · exact Fallible.mapM_length h

/-- A row without a name is reported or raises. -/
theorem unnamed_faults {qmap cmap : Option (List Int)} {qubits clbits : List Int}
    {texts : List String}
    (h : Visit.faults rules (.operation qmap cmap (.unnamed qubits clbits)) = .ok texts) :
    texts ≠ [] ∧ rules.wireError qubits clbits ≠ none := by
  rw [Visit.faults] at h
  cases hwire : rules.wireError qubits clbits with
  | some text =>
      rw [hwire] at h
      cases h
      simp
  | none =>
      rw [hwire] at h
      obtain ⟨_, -, h⟩ := Fallible.bind_eq_ok.mp h
      obtain ⟨_, -, h⟩ := Fallible.bind_eq_ok.mp h
      cases h

/-- Nothing is reported of an operation whose wires are the header's and are mapped. -/
theorem clean_op {qmap cmap : Option (List Int)} {head : Head} {payload : Payload}
    (clean : Visit.faults rules (.operation qmap cmap (.op head payload)) = .ok []) :
    rules.wireError head.qubits head.clbits = none ∧
      ∃ qs cs, mapWires qmap head.qubits = .ok qs ∧ mapWires cmap head.clbits = .ok cs := by
  simp only [Visit.faults] at clean
  cases hwire : rules.wireError head.qubits head.clbits with
  | some text => rw [hwire] at clean; simp at clean
  | none =>
      rw [hwire] at clean
      obtain ⟨qs, hq, clean⟩ := Fallible.bind_eq_ok.mp clean
      obtain ⟨cs, hc, -⟩ := Fallible.bind_eq_ok.mp clean
      exact ⟨rfl, qs, cs, hq, hc⟩

/-- Where nothing is reported, only an operation under no wires at all escapes. -/
theorem outside_iff {qs cs : List Int} {head : Head} {payload : Payload}
    (clean : Visit.faults rules
      (.operation (some qs) (some cs) (.op head payload.leaf)) = .ok []) :
    ¬ (Node.op head payload).IndexesOnly qs.length cs.length ↔
      Visit.Strays (.operation (some qs) (some cs) (.op head payload.leaf)) := by
  obtain ⟨hwire, -⟩ := clean_op clean
  obtain ⟨hrange, -⟩ := wireError_eq_none.mp hwire
  have hover := (faults_ok_iff.mp ⟨_, clean⟩).1
  have side : ∀ (m wires : List Int) (bound : Nat), (∀ w ∈ wires, 0 ≤ w ∧ w < (bound : Int)) →
      ¬ Exceeds (some m) wires →
      ((∀ w ∈ wires, 0 ≤ w ∧ w < (m.length : Int)) ↔ ¬ (m = [] ∧ wires ≠ [])) := by
    intro m wires bound hbound hexceeds
    constructor
    · rintro hall ⟨rfl, hne⟩
      obtain ⟨w, hw⟩ := List.exists_mem_of_ne_nil _ hne
      have := hall w hw
      simp at this
      omega
    · intro hstray w hw
      refine ⟨(hbound w hw).1, ?_⟩
      by_contra hge
      refine hexceeds ⟨m, rfl, fun hnil => hstray ⟨hnil, List.ne_nil_of_mem hw⟩, w, hw, by omega⟩
  have hexceeds : ¬ Exceeds (some qs) head.qubits ∧ ¬ Exceeds (some cs) head.clbits := by
    simpa [Visit.Overruns, hwire] using hover
  simp only [Node.IndexesOnly, Visit.Strays, Option.some.injEq,
    side qs head.qubits _ hrange.1 hexceeds.1, side cs head.clbits _ hrange.2 hexceeds.2]
  grind

theorem entered_clean {qmap cmap : Option (List Int)} {head : Head} {payload : Payload}
    (flow : controlFlow.contains head.name = true)
    (clean : Visit.faults rules (.operation qmap cmap (.op head payload)) = .ok []) :
    ∃ qs cs, entered rules qmap cmap head = some (qs, cs) ∧ qs.length = head.qubits.length ∧
      cs.length = head.clbits.length := by
  obtain ⟨hwire, qs, cs, hq, hc⟩ := clean_op clean
  refine ⟨qs, cs, ?_, mapWires_length hq, mapWires_length hc⟩
  rw [entered, flow, Rules.accepts, hwire, hq, hc]
  rfl

mutual

/-- In a run without reports the escapes are the visits under no wires. -/
theorem escapes_iff (rules : Rules) (node : Node) (qmap cmap : Option (List Int))
    (clean : ∀ v ∈ visits rules qmap cmap node, v.faults rules = .ok []) :
    node.Escapes ↔ ∃ v ∈ (visits rules qmap cmap node).tail, v.Strays := by
  cases node with
  | malformed => simp [Node.Escapes, visits]
  | unnamed qubits clbits => simp [Node.Escapes, visits]
  | op head payload =>
      rw [visits, List.forall_mem_cons] at clean
      rw [visits, List.tail_cons, Node.Escapes]
      by_cases hflow : controlFlow.contains head.name = true
      · obtain ⟨qs, cs, hentered, hqs, hcs⟩ := entered_clean hflow clean.1
        rw [hentered] at clean ⊢
        rw [and_iff_right hflow, ← hqs, ← hcs]
        exact payloadEscapes_iff rules payload qs cs clean.2
      · have hentered : entered rules qmap cmap head = none := by
          rw [entered, Bool.eq_false_iff.mpr hflow]
          rfl
        rw [hentered]
        exact iff_of_false (fun h => hflow h.1) (by simp)

theorem payloadEscapes_iff (rules : Rules) (payload : Payload) (qs cs : List Int)
    (clean : ∀ v ∈ visitsPayload rules qs cs payload, v.faults rules = .ok []) :
    PayloadEscapes qs.length cs.length payload ↔
      ∃ v ∈ visitsPayload rules qs cs payload, v.Strays := by
  cases payload with
  | controlFlow blocks => exact blocksEscape_iff rules blocks qs cs clean
  | none => simp [PayloadEscapes, visitsPayload]
  | other => simp [PayloadEscapes, visitsPayload]
  | unreadable error => simp [PayloadEscapes, visitsPayload]

theorem blocksEscape_iff (rules : Rules) (blocks : List Block) (qs cs : List Int)
    (clean : ∀ v ∈ visitsBlocks rules qs cs blocks, v.faults rules = .ok []) :
    BlocksEscape qs.length cs.length blocks ↔
      ∃ v ∈ visitsBlocks rules qs cs blocks, v.Strays := by
  cases blocks with
  | nil => simp [BlocksEscape, visitsBlocks]
  | cons block blocks =>
      obtain ⟨num_qubits, num_clbits, operations⟩ | error := block
      case unreadable =>
        rw [visitsBlocks, List.forall_mem_cons] at clean
        exact absurd clean.1 nofun
      rw [visitsBlocks, List.forall_mem_append] at clean
      rw [visitsBlocks, BlocksEscape, nodesEscape_iff rules operations qs cs clean.1,
        blocksEscape_iff rules blocks qs cs clean.2]
      simp only [List.mem_append, or_and_right, exists_or]

theorem nodesEscape_iff (rules : Rules) (nodes : List Node) (qs cs : List Int)
    (clean : ∀ v ∈ visitsAll rules (some qs) (some cs) nodes, v.faults rules = .ok []) :
    ((∃ node ∈ nodes, ¬ node.IndexesOnly qs.length cs.length) ∨ AnyEscapes nodes) ↔
      ∃ v ∈ visitsAll rules (some qs) (some cs) nodes, v.Strays := by
  cases nodes with
  | nil => simp [AnyEscapes, visitsAll]
  | cons node nodes =>
      rw [visitsAll, List.forall_mem_append] at clean
      have hrest := nodesEscape_iff rules nodes qs cs clean.2
      have hnode := escapes_iff rules node (some qs) (some cs) clean.1
      have hhead : ¬ node.IndexesOnly qs.length cs.length ↔
          Visit.Strays (.operation (some qs) (some cs) node.leaf) := by
        cases node with
        | malformed => simp [Node.IndexesOnly, Visit.Strays, Node.leaf]
        | unnamed qubits clbits =>
            exact absurd rfl (unnamed_faults (clean.1 _ (List.mem_singleton_self _))).1
        | op head payload =>
            exact outside_iff (clean.1 _ (by rw [visits]; exact List.mem_cons_self ..))
      have hvisits : visits rules (some qs) (some cs) node =
          .operation (some qs) (some cs) node.leaf ::
            (visits rules (some qs) (some cs) node).tail := by
        cases node <;> simp [visits, Node.leaf]
      rw [visitsAll, AnyEscapes, hvisits]
      simp only [List.mem_append, List.mem_cons, or_and_right, exists_or, exists_eq_left,
        ← hrest, ← hnode, ← hhead]
      grind

end

/-- At the top level nothing strays. -/
theorem anyEscapes_iff (nodes : List Node)
    (clean : ∀ v ∈ visitsAll rules none none nodes, v.faults rules = .ok []) :
    AnyEscapes nodes ↔ ∃ v ∈ visitsAll rules none none nodes, v.Strays := by
  induction nodes with
  | nil => simp [AnyEscapes, visitsAll]
  | cons node nodes ih =>
      rw [visitsAll, List.forall_mem_append] at clean
      have hhead : ¬ Visit.Strays (.operation none none node.leaf) := by
        cases node <;> simp [Visit.Strays, Node.leaf]
      have hvisits : visits rules none none node =
          .operation none none node.leaf :: (visits rules none none node).tail := by
        cases node <;> simp [visits, Node.leaf]
      rw [visitsAll, AnyEscapes, ih clean.2, escapes_iff rules node none none clean.1, hvisits]
      simp [hhead, or_and_right, exists_or]

/-! ## What is reported -/

theorem mapWires_placed {map : Option (List Int)} {wires qs : List Int}
    (h : mapWires map wires = .ok qs) : qs = wires.map (placed map) := by
  rcases map with _ | _ | ⟨x, m⟩
  · cases h
    exact (map_placed_none wires).symm
  · cases h
    exact (List.map_id' wires).symm
  · rw [mapWires] at h
    · induction wires generalizing qs with
      | nil => cases h; rfl
      | cons w wires ih =>
          rw [List.mapM_cons] at h
          obtain ⟨q, hq, h⟩ := Fallible.bind_eq_ok.mp h
          obtain ⟨rest, hrest, h⟩ := Fallible.bind_eq_ok.mp h
          cases h
          split at hq
          · rename_i wire hwire
            cases hq
            rw [List.map_cons, ih hrest, placed, List.getD_eq_getElem?_getD, hwire,
              Option.getD_some]
          · cases hq
    · simp

theorem numberErrors_ne_nil {spec : InstructionSpec} {name : String} {index : Nat} {value : ℚ} :
    numberErrors spec name index value ≠ [] ↔ NumberFlaw spec index value := by
  have hfixed : (spec.fixed_parameters.lookup index).any (· ≠ value) = true ↔
      ∃ other, spec.fixed_parameters.lookup index = some other ∧ other ≠ value := by
    rw [Option.any_eq_true]
    simp
  unfold numberErrors
  constructor
  · intro h
    by_cases hvalue : (spec.fixed_parameters.lookup index).any (· ≠ value) = true
    · obtain ⟨other, hother, hne⟩ := hfixed.mp hvalue
      exact .fixed other hother hne
    simp only [if_neg hvalue] at h
    split at h
    · exact absurd rfl h
    · rename_i hbounds
      split at h
      · rename_i hnone
        exact .unbounded hbounds (List.getElem?_eq_none_iff.mp hnone)
      · exact absurd rfl h
      · rename_i lo hi hsome
        split at h
        · exact absurd rfl h
        · rename_i hout
          exact .outside lo hi hsome hout
  · rintro (⟨hbounds, h⟩ | ⟨lo, hi, hbounds, h⟩ | ⟨other, hother, hne⟩)
    · simp [hbounds, List.getElem?_eq_none_iff.mpr h]
    · have hne : spec.angle_bounds ≠ [] := by
        rintro hnil
        simp [hnil] at hbounds
      simp [hne, hbounds, h]
    · have hvalue := hfixed.mpr ⟨other, hother, hne⟩
      simp only [if_pos hvalue]
      split
      · simp
      · split <;> simp

theorem paramErrors_flaw {spec : InstructionSpec} {name : String} {p : Param × Nat}
    {texts : List String} (h : paramErrors spec name p = .ok texts) :
    texts ≠ [] ↔ ParamFlaw spec p := by
  obtain ⟨kind | _ | value | _ | _, index⟩ := p <;> cases h
  · simp [ParamFlaw]
  · exact numberErrors_ne_nil
  · simp [ParamFlaw]

/-- The reports of some parameters are those of the flawed ones. -/
theorem mapM_paramErrors {spec : InstructionSpec} {name : String} {params : List (Param × Nat)}
    {errors : List (List String)} (h : params.mapM (paramErrors spec name) = .ok errors) :
    errors.flatten ≠ [] ↔ ∃ p ∈ params, ParamFlaw spec p := by
  induction params generalizing errors with
  | nil => cases h; simp
  | cons p params ih =>
      rw [List.mapM_cons] at h
      obtain ⟨texts, htexts, h⟩ := Fallible.bind_eq_ok.mp h
      obtain ⟨rest, hrest, h⟩ := Fallible.bind_eq_ok.mp h
      cases h
      rw [List.flatten_cons, List.exists_mem_cons_iff, ← ih hrest, ← paramErrors_flaw htexts, ne_eq,
        List.append_eq_nil_iff, not_and_or]

theorem instructionErrors_flawed {head : Head} {texts : List String}
    (h : instructionErrors rules head.name head.qubits head.clbits head.params = .ok texts) :
    texts ≠ [] ↔ head.Flawed rules := by
  unfold instructionErrors at h
  unfold Head.Flawed
  cases hname : DIRECTIVES.contains head.name with
  | true =>
      rw [hname] at h
      cases h
      simp
  | false =>
      rw [hname] at h
      cases hspec : rules.support head.name with
      | none =>
          rw [hspec] at h
          cases h
          simp
      | some spec =>
          rw [hspec] at h
          obtain ⟨errors, herrors, h⟩ := Fallible.bind_eq_ok.mp h
          cases h
          have hparams := mapM_paramErrors herrors
          have hmisfit : specErrors rules spec head.name head.qubits head.clbits head.params ++
              errors.flatten ≠ [] ↔ Misfit rules spec head := by
            constructor
            · intro hne
              by_cases hflat : errors.flatten = []
              · rw [hflat, List.append_nil] at hne
                simp only [specErrors, ne_eq, List.append_eq_nil_iff, ite_eq_right_iff,
                  List.cons_ne_self, imp_false] at hne
                simp only [not_and_or, not_not] at hne
                rcases hne with ((hne | hne) | hne) | hne
                · obtain ⟨n, hn, hne⟩ := (Option.any_eq_true _ _).mp hne
                  exact .arity n hn (by simpa using hne)
                · rw [Bool.and_eq_true] at hne
                  obtain ⟨n, hn, hlength⟩ := (Option.any_eq_true _ _).mp hne.2
                  exact .clbits n hne.1 hn (by simpa using hlength)
                · obtain ⟨allowed, hallowed, hout⟩ := (Option.any_eq_true _ _).mp hne
                  exact .qubits allowed hallowed (by simpa using hout)
                · rw [Bool.and_eq_true] at hne
                  exact .count (by simpa using hne.1) (by simpa using hne.2)
              · obtain ⟨p, hp, hflaw⟩ := hparams.mp hflat
                exact .param p hp hflaw
            · intro hmisfit hnil
              simp only [specErrors, List.append_eq_nil_iff, ite_eq_right_iff, reduceCtorEq,
                imp_false] at hnil
              obtain ⟨⟨⟨⟨harity, hclbits⟩, hqubits⟩, hcount⟩, hflat⟩ := hnil
              cases hmisfit with
              | arity n hn hne => exact harity (by simp [hn, hne])
              | clbits n hloose hn hne => exact hclbits (by simp [hloose, hn, hne])
              | qubits allowed hn hne => exact hqubits (by simp [hn, hne])
              | count hflow hne =>
                  exact hcount (by rw [hflow]; simpa using hne)
              | param p hp hflaw => exact hparams.mpr ⟨p, hp, hflaw⟩ hflat
          rw [hmisfit]
          simp

/-- What a visit that does not raise is reported for. -/
theorem faults_flawed {texts : List String} (h : v.faults rules = .ok texts) :
    texts ≠ [] ↔ v.Flawed rules := by
  cases v with
  | block error => cases h
  | operation qmap cmap node =>
  cases node with
  | malformed => cases h; simp [Visit.Flawed]
  | unnamed qubits clbits => exact iff_of_true (unnamed_faults h).1 (unnamed_faults h).2
  | op head payload =>
      rw [Visit.faults] at h
      rw [Visit.Flawed]
      cases hwire : rules.wireError head.qubits head.clbits with
      | some text =>
          rw [hwire] at h
          cases h
          simp
      | none =>
          rw [hwire] at h
          obtain ⟨qs, hqs, h⟩ := Fallible.bind_eq_ok.mp h
          obtain ⟨cs, hcs, h⟩ := Fallible.bind_eq_ok.mp h
          obtain ⟨errors, herrors, h⟩ := Fallible.bind_eq_ok.mp h
          rw [mapWires_placed hqs, mapWires_placed hcs] at herrors
          have hflawed : errors ≠ [] ↔ (head.place qmap cmap).Flawed rules :=
            instructionErrors_flawed herrors
          rw [← hflawed]
          cases hflow : controlFlow.contains head.name with
          | false =>
              rw [hflow] at h
              cases h
              simp
          | true =>
              rw [hflow] at h
              obtain ⟨missing, hmissing, h⟩ := Fallible.bind_eq_ok.mp h
              cases h
              cases payload <;> cases hmissing <;> simp

end Conditions

/-- C0 is fail-closed exactly on the circuits where no visit runs beyond the wires of its
enclosing operation, meets a parameter that no check catches or cannot be read, and where a
visit under no wires comes with a width that is not the target's or a flawed visit. -/
theorem failClosed_iff (rules : Rules) (operations : List Node) :
    FailClosed rules operations ↔
      (∀ v ∈ visitsAll rules none none operations,
        ¬ v.Overruns rules ∧ ¬ v.Overflows rules ∧ ¬ v.Unreadable rules) ∧
      ((∃ v ∈ visitsAll rules none none operations, v.Strays) →
        rules.header.num_qubits ≠ rules.target.num_qubits ∨
          ∃ v ∈ visitsAll rules none none operations, v.Flawed rules) := by
  have hleaf := visitsAll_leaf rules operations none none
  obtain ⟨hok, hreports⟩ := Fallible.foldlM_reports
    (fun checker v hv => (visit_faults checker (hleaf v hv)).1)
    (fun checker v hv => (visit_faults checker (hleaf v hv)).2) (Checker.start rules)
  rw [← consumeAll_visits] at hok hreports
  simp only [faults_ok_iff] at hok
  rw [← hok]
  have hstart : (Checker.start rules).errors = [] ↔
      rules.header.num_qubits = rules.target.num_qubits := by
    simp [Checker.start]
  -- in a run that returns, nothing is reported exactly where no visit is flawed
  have hclean : (∃ checker, Checker.consumeAll rules (.start rules) none none operations =
      .ok checker) → ∀ v ∈ visitsAll rules none none operations,
        (v.faults rules = .ok [] ↔ ¬ v.Flawed rules) := by
    intro hrun v hv
    obtain ⟨texts, htexts⟩ := faults_ok_iff.mpr (hok.mp hrun v hv)
    rw [← faults_flawed htexts, htexts]
    simp
  constructor
  · rintro ⟨checker, hrun, hclosed⟩
    refine ⟨⟨checker, hrun⟩, fun hstrays => ?_⟩
    by_contra hnone
    obtain ⟨hwidth, hflawless⟩ : _ ∧ _ := by
      simpa only [not_or, not_exists, not_and, not_not] using hnone
    have hfaults : ∀ v ∈ visitsAll rules none none operations, v.faults rules = .ok [] :=
      fun v hv => (hclean ⟨checker, hrun⟩ v hv).mpr (hflawless v hv)
    have herrors : checker.errors = [] :=
      (hreports checker hrun).mpr ⟨hstart.mpr hwidth, hfaults⟩
    have hstatus := hclosed ((anyEscapes_iff operations hfaults).mpr hstrays)
    simp [Checker.result, herrors] at hstatus
  · rintro ⟨⟨checker, hrun⟩, hstrays⟩
    refine ⟨checker, hrun, fun hescapes => ?_⟩
    by_contra hstatus
    have herrors : checker.errors = [] := by
      by_contra hne
      exact hstatus (by simp [Checker.result, hne])
    obtain ⟨hwidth, hfaults⟩ := (hreports checker hrun).mp herrors
    rcases hstrays ((anyEscapes_iff operations hfaults).mp hescapes) with hne | ⟨v, hv, hflawed⟩
    · exact hne (hstart.mp hwidth)
    · exact (hclean ⟨checker, hrun⟩ v hv).mp (hfaults v hv) hflawed

def loopRules : Rules where
  header := ⟨2, 0⟩
  target :=
    { num_qubits := 2
      instructions := [{ name := "while_loop", arity := none, parameters := [] },
        { name := "x", arity := some 1, parameters := [] }]
      native_2q_names := [] }
  constraint_form := "target"

/-- A loop on some wires whose block acts on wire 1. -/
def loopOn (qs : List Int) : List Node :=
  [.op ⟨"while_loop", qs, [], []⟩ (.controlFlow [.mk qs.length 0 [.op ⟨"x", [1], [], []⟩ .none]])]

theorem loopOn_escapes {qs : List Int} (h : qs.length ≤ 1) : AnyEscapes (loopOn qs) := by
  simp [loopOn, AnyEscapes, Node.Escapes, PayloadEscapes, BlocksEscape, Node.IndexesOnly,
    controlFlow]
  omega

/-- A loop on one wire raises, and a loop on none is verified. -/
theorem loopOn_not_failClosed :
    (checkCircuit loopRules (loopOn [0]) = .error (.other "IndexError") ∧
      ¬ FailClosed loopRules (loopOn [0])) ∧
    ((checkCircuit loopRules (loopOn [])).map (·.result.status) = .ok .verified ∧
      ¬ FailClosed loopRules (loopOn [])) := by
  have hraises : checkCircuit loopRules (loopOn [0]) = .error (.other "IndexError") := rfl
  have hverified : (checkCircuit loopRules (loopOn [])).map (·.result.status) = .ok .verified := by
    decide
  refine ⟨⟨hraises, ?_⟩, hverified, ?_⟩
  · rintro ⟨checker, hrun, -⟩
    rw [hraises] at hrun
    cases hrun
  · rintro ⟨checker, hrun, hclosed⟩
    rw [hrun] at hverified
    have hstatus : checker.result.status = .verified := Except.ok.inj hverified
    rw [hclosed (loopOn_escapes (by decide))] at hstatus
    cases hstatus

end TranspileBench.Metrics
