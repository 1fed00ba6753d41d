import TranspileBench.Metrics.Structure
import TranspileBench.Lib.Fallible

/-!
What D2 and N2 are: on a static stream that C0 accepts, N2 counts the native two-qubit
operations, and D2 is the greatest number of them on one chain of operations that share
wires. `d2_n2` finds the same numbers.
-/
namespace TranspileBench.Metrics

def Node.wires : Node → List Wire
  | .malformed => []
  | .unnamed qubits clbits => qubits.map Wire.q ++ clbits.map Wire.c
  | .op head _ => head.wires

/-- A row that names an operation. -/
def Node.IsNamed : Node → Prop
  | .malformed | .unnamed _ _ => False
  | .op _ _ => True

def Node.isControlFlow : Node → Bool
  | .malformed | .unnamed _ _ => false
  | .op head _ => controlFlow.contains head.name

/-- A native two-qubit operation. -/
def Node.counted (native : List String) : Node → Bool
  | .malformed | .unnamed _ _ => false
  | .op head _ => native.contains head.name && head.qubits.length == 2

/-- The chains of a stream: operations in its order, each sharing a qubit or a classical
bit with the next. -/
abbrev IsChain (operations chain : List Node) : Prop := Keyed.IsChainOf Node.wires operations chain

def levelStep (native : List String) (levels : AList fun _ : Wire => Nat) (node : Node) :
    AList fun _ : Wire => Nat :=
  advance levels node.wires (node.counted native)

def Node.weight (native : List String) (node : Node) : Nat := (node.counted native).toNat

section Levels
variable {native : List String} {operations : List Node}

theorem levelAt_advance (levels : AList fun _ : Wire => Nat) (node : Node) :
    levelAt (levelStep native levels node) =
      Keyed.raiseLevels Node.wires (Node.weight native) (levelAt levels) node := by
  funext w
  exact Keyed.getD_assign levels node.wires _ 0 w

theorem levelAt_foldl (levels : AList fun _ : Wire => Nat) :
    levelAt (operations.foldl (levelStep native) levels) =
      operations.foldl (Keyed.raiseLevels Node.wires (Node.weight native)) (levelAt levels) := by
  induction operations generalizing levels with
  | nil => rfl
  | cons node operations ih => rw [List.foldl_cons, List.foldl_cons, ih, levelAt_advance]

theorem levelAt_le_peak (levels : AList fun _ : Wire => Nat) (w : Wire) :
    levelAt levels w ≤ Keyed.peak levels := by
  unfold levelAt
  cases hw : levels.lookup w with
  | none => exact Nat.zero_le _
  | some v => exact Keyed.le_peak hw

theorem weigh_eq_countP (chain : List Node) :
    Keyed.weigh (Node.weight native) chain = chain.countP (Node.counted native) := by
  induction chain with
  | nil => rfl
  | cons node chain ih =>
      rw [← List.singleton_append, Keyed.weigh_append, ih, List.countP_append]
      cases h : node.counted native <;> simp [Keyed.weigh, Node.weight, h]

/-- An operation without wires is not counted. -/
theorem weight_of_no_wires {node : Node} (h : node.wires = []) : node.weight native = 0 := by
  cases node with
  | malformed => rfl
  | unnamed qubits clbits => rfl
  | op head payload =>
      have hqubits : head.qubits = [] := by
        simpa [Node.wires, Head.wires] using (List.append_eq_nil_iff.mp h).1
      simp [Node.weight, Node.counted, hqubits]

theorem peak_greatest (native : List String) (operations : List Node) :
    IsGreatest {n | ∃ chain, IsChain operations chain ∧ chain.countP (Node.counted native) = n}
      (Keyed.peak (operations.foldl (levelStep native) ∅)) := by
  have hlevels : ∀ w, Keyed.levels Node.wires (Node.weight native) operations w =
      levelAt (operations.foldl (levelStep native) ∅) w := by
    intro w
    rw [levelAt_foldl]
    rfl
  have h := Keyed.levels_greatest (Node.weight native) operations
    (fun _ _ => weight_of_no_wires) (fun w => hlevels w ▸ levelAt_le_peak _ w)
    ((Keyed.peak_attained _).imp_right fun ⟨w, hw⟩ => ⟨w, by rw [hlevels, levelAt, hw]; rfl⟩)
  simpa only [weigh_eq_countP] using h

end Levels

section Static
variable {rules : Rules} {checker checker' : Checker} {head : Head} {payload : Payload}
  {operations : List Node}

/-- A row without a name is refused for its wires if it does not raise. -/
theorem Checker.consume_unnamed {qmap cmap : Option (List Int)} {qubits clbits : List Int}
    (h : checker.consume rules qmap cmap (.unnamed qubits clbits) = .ok checker') :
    ∃ text, checker' = checker.fail text := by
  rw [Checker.consume] at h
  cases hwire : rules.wireError qubits clbits with
  | some text =>
      rw [hwire] at h
      exact ⟨text, (Except.ok.inj h).symm⟩
  | none =>
      rw [hwire] at h
      obtain ⟨_, -, h⟩ := Fallible.bind_eq_ok.mp h
      obtain ⟨_, -, h⟩ := Fallible.bind_eq_ok.mp h
      cases h

/-- A step of an accepted static stream counts its operation. -/
theorem Checker.consume_static {node : Node} (static : node.isControlFlow = false)
    (h : checker.consume rules none none node = .ok checker') :
    checker.errors <+: checker'.errors ∧ checker'.dynamic = checker.dynamic ∧
      (checker'.errors = [] →
        checker'.levels = levelStep rules.target.native_2q_names checker.levels node ∧
        checker'.n2 = checker.n2 + node.weight rules.target.native_2q_names) := by
  cases node with
  | malformed =>
      rw [Checker.consume] at h
      cases h
      exact ⟨List.prefix_append _ _, rfl, fun herrors => by simp [Checker.fail] at herrors⟩
  | unnamed qubits clbits =>
      obtain ⟨text, rfl⟩ := Checker.consume_unnamed h
      exact ⟨List.prefix_append _ _, rfl, fun herrors => by simp [Checker.fail] at herrors⟩
  | op head payload =>
      rw [Checker.consume] at h
      cases hadmits : checker.admits rules none none head with
      | error e => rw [hadmits] at h; cases h
      | ok admitted =>
          obtain ⟨checker₁, wires⟩ := admitted
          obtain ⟨herrors, hlevels, hn2, hdynamic, hrefused⟩ := Checker.admits_keeps hadmits
          rw [hadmits] at h
          rcases Checker.admits_top hadmits with ⟨rfl, -⟩ | ⟨rfl, -⟩
          · cases h
            exact ⟨herrors, hdynamic, fun hnil => absurd hnil (hrefused rfl)⟩
          · simp only [bind, Except.bind] at h
            rw [if_neg (by simpa [Node.isControlFlow] using static)] at h
            cases h
            refine ⟨herrors, hdynamic, fun _ => ⟨?_, ?_⟩⟩
            · simp only [Checker.count, hlevels]
              rfl
            · simp only [Checker.count, hn2]
              rfl

theorem Checker.consumeAll_static
    (static : ∀ node ∈ operations, node.isControlFlow = false)
    (h : checker.consumeAll rules none none operations = .ok checker') :
    checker.errors <+: checker'.errors ∧ checker'.dynamic = checker.dynamic ∧
      (checker'.errors = [] →
        checker'.levels =
          operations.foldl (levelStep rules.target.native_2q_names) checker.levels ∧
        checker'.n2 =
          checker.n2 + operations.countP (Node.counted rules.target.native_2q_names)) := by
  induction operations generalizing checker with
  | nil =>
      rw [Checker.consumeAll] at h
      cases h
      exact ⟨List.prefix_rfl, rfl, fun _ => ⟨rfl, rfl⟩⟩
  | cons node operations ih =>
      rw [Checker.consumeAll] at h
      rw [List.forall_mem_cons] at static
      cases hstep : checker.consume rules none none node with
      | error e => rw [hstep] at h; cases h
      | ok checker₁ =>
          rw [hstep] at h
          obtain ⟨herrors, hdynamic, hmetrics⟩ := Checker.consume_static static.1 hstep
          obtain ⟨herrors', hdynamic', hmetrics'⟩ := ih static.2 h
          refine ⟨herrors.trans herrors', hdynamic'.trans hdynamic, fun hnil => ?_⟩
          obtain ⟨hlevels', hn2'⟩ := hmetrics' hnil
          have hnil₁ : checker₁.errors = [] := List.prefix_nil.mp (hnil ▸ herrors')
          obtain ⟨hlevels, hn2⟩ := hmetrics hnil₁
          refine ⟨by rw [hlevels', hlevels, List.foldl_cons], ?_⟩
          rw [hn2', hn2, List.countP_cons, Node.weight]
          grind

/-- `d2_n2` counts like the checker when no directive has a native name. -/
theorem d2n2Loop_static {native : List String}
    (plain : ∀ name ∈ native, name ∉ ["barrier", "delay", "measure", "reset"])
    (static : ∀ node ∈ operations, node.isControlFlow = false ∧ node.IsNamed)
    (levels : AList fun _ : Wire => Nat) (count : Nat) :
    d2n2Loop native levels count operations =
      .ok (Keyed.peak (operations.foldl (levelStep native) levels),
        count + operations.countP (Node.counted native)) := by
  induction operations generalizing levels count with
  | nil => rfl
  | cons node operations ih =>
      rw [List.forall_mem_cons] at static
      cases node with
      | malformed => exact static.1.2.elim
      | unnamed qubits clbits => exact static.1.2.elim
      | op head payload =>
          have hcounted : countedD2 native head = (Node.op head payload).counted native := by
            simp only [countedD2, Node.counted]
            by_cases hname : head.name ∈ native
            · have := plain _ hname
              simp_all
            · simp [hname]
          rw [d2n2Loop, if_neg (by simpa [Node.isControlFlow] using static.1.1),
            ih static.2, hcounted,
            List.foldl_cons, List.countP_cons]
          congr 2
          grind

/-- A stream with a row that is no operation is not accepted. -/
theorem Checker.consumeAll_wellFormed
    (static : ∀ node ∈ operations, node.isControlFlow = false)
    (h : checker.consumeAll rules none none operations = .ok checker')
    (accepted : checker'.errors = []) : ∀ node ∈ operations, node.IsNamed := by
  induction operations generalizing checker with
  | nil => simp
  | cons node operations ih =>
      rw [Checker.consumeAll] at h
      rw [List.forall_mem_cons] at static ⊢
      cases hstep : checker.consume rules none none node with
      | error e => rw [hstep] at h; cases h
      | ok checker₁ =>
          rw [hstep] at h
          refine ⟨?_, ih static.2 h⟩
          have herrors := (Checker.consumeAll_static static.2 h).1
          rw [accepted, List.prefix_nil] at herrors
          cases node with
          | malformed =>
              rw [Checker.consume] at hstep
              cases hstep
              simp [Checker.fail] at herrors
          | unnamed qubits clbits =>
              obtain ⟨text, rfl⟩ := Checker.consume_unnamed hstep
              simp [Checker.fail] at herrors
          | op head payload => trivial

end Static

/-- D2 and N2 of an accepted static stream. -/
theorem d2_n2_spec (rules : Rules) (operations : List Node) (checker : Checker)
    (static : ∀ node ∈ operations, node.isControlFlow = false)
    (run : checkCircuit rules operations = .ok checker)
    (accepted : checker.result.status = .verified) :
    ∃ depth, checker.result.D2 = some depth ∧
      checker.result.N2 =
        some (operations.countP (Node.counted rules.target.native_2q_names)) ∧
      IsGreatest {n | ∃ chain, IsChain operations chain ∧
        chain.countP (Node.counted rules.target.native_2q_names) = n} depth ∧
      ((∀ name ∈ rules.target.native_2q_names,
          name ∉ ["barrier", "delay", "measure", "reset"]) →
        d2n2 operations rules.target.native_2q_names =
          .ok (depth, operations.countP (Node.counted rules.target.native_2q_names))) := by
  have herrors : checker.errors = [] := by
    by_contra hne
    simp [Checker.result, hne] at accepted
  obtain ⟨-, hdynamic, hmetrics⟩ := Checker.consumeAll_static static run
  obtain ⟨hlevels, hn2⟩ := hmetrics herrors
  have hstatic : checker.dynamic = false := hdynamic
  refine ⟨_, by rw [Checker.result, hstatic]; rfl, ?_, ?_, fun plain => ?_⟩
  · rw [Checker.result, hstatic, hn2]
    simp [Checker.start]
  · rw [hlevels]
    exact peak_greatest _ operations
  · rw [d2n2, d2n2Loop_static plain fun node hnode =>
      ⟨static node hnode, Checker.consumeAll_wellFormed static run herrors node hnode⟩, hlevels]
    simp [Checker.start]

/-- Two native gates in a row and a barrier between them. -/
def sampleRules : Rules where
  header := ⟨3, 0⟩
  target :=
    { num_qubits := 3
      instructions := [{ name := "cx", arity := some 2, parameters := [] }]
      native_2q_names := ["cx"] }
  constraint_form := "target"

def sampleStream : List Node :=
  [.op ⟨"cx", [0, 1], [], []⟩ .none, .op ⟨"barrier", [1, 2], [], []⟩ .none,
    .op ⟨"cx", [2, 0], [], []⟩ .none]

theorem d2_n2_sample : ∃ depth, IsGreatest {n | ∃ chain, IsChain sampleStream chain ∧
    chain.countP (Node.counted ["cx"]) = n} depth ∧ d2n2 sampleStream ["cx"] = .ok (depth, 2) := by
  have static : ∀ node ∈ sampleStream, node.isControlFlow = false := by decide
  obtain ⟨depth, -, -, hgreatest, hd2n2⟩ := d2_n2_spec sampleRules sampleStream _ static rfl rfl
  exact ⟨depth, hgreatest, hd2n2 (by decide)⟩

end TranspileBench.Metrics
