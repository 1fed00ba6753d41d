import TranspileBench.Metrics.Structure

/-!
Nested control flow is graded like its flattening: the operations in pre-order, every
wire index replaced by the physical wire it denotes, the blocks of an operation whose
own wires are refused left out.
-/
namespace TranspileBench.Metrics

/-- The physical wire that an index denotes under a list of wires. -/
def placed (map : Option (List Int)) (w : Int) : Int :=
  match map with
  | none => w
  | some map => map.getD w.toNat w

def Head.place (qmap cmap : Option (List Int)) (head : Head) : Head :=
  { head with qubits := head.qubits.map (placed qmap), clbits := head.clbits.map (placed cmap) }

/-- A payload without its nested operations. -/
def Payload.leaf : Payload → Payload
  | .controlFlow _ => .controlFlow []
  | payload => payload

mutual

/-- The pre-order flattening, which enters the blocks of a control-flow operation on wires
that `enters` allows. -/
def Node.flatten (enters : List Int → List Int → Bool) (qmap cmap : Option (List Int)) :
    Node → List Node
  | .malformed => [.malformed]
  | .unnamed qubits clbits => [.unnamed (qubits.map (placed qmap)) (clbits.map (placed cmap))]
  | .op head payload =>
      .op (head.place qmap cmap) payload.leaf ::
        if controlFlow.contains head.name
            && enters (head.place qmap cmap).qubits (head.place qmap cmap).clbits then
          flattenPayload enters (head.place qmap cmap).qubits (head.place qmap cmap).clbits payload
        else []

def flattenPayload (enters : List Int → List Int → Bool) (qs cs : List Int) :
    Payload → List Node
  | .controlFlow blocks => flattenBlocks enters qs cs blocks
  | _ => []

def flattenBlocks (enters : List Int → List Int → Bool) (qs cs : List Int) :
    List Block → List Node
  | [] => []
  | .unreadable _ :: blocks => flattenBlocks enters qs cs blocks
  | .mk _ _ operations :: blocks =>
      flattenAll enters (some qs) (some cs) operations ++ flattenBlocks enters qs cs blocks

def flattenAll (enters : List Int → List Int → Bool) (qmap cmap : Option (List Int)) :
    List Node → List Node
  | [] => []
  | node :: nodes => node.flatten enters qmap cmap ++ flattenAll enters qmap cmap nodes

end

/-- An operation names only the wires of its block. -/
def Node.IndexesOnly (num_qubits num_clbits : Nat) : Node → Prop
  | .malformed => True
  | .unnamed qubits clbits => (∀ q ∈ qubits, 0 ≤ q ∧ q < num_qubits) ∧
      ∀ c ∈ clbits, 0 ≤ c ∧ c < num_clbits
  | .op head _ => (∀ q ∈ head.qubits, 0 ≤ q ∧ q < num_qubits) ∧
      ∀ c ∈ head.clbits, 0 ≤ c ∧ c < num_clbits

mutual

/-- Block operations index only the wires of their block, and a control-flow operation
acts on as many wires as its blocks declare. -/
def Node.WellFormed : Node → Prop
  | .malformed | .unnamed _ _ => True
  | .op head payload => controlFlow.contains head.name = true →
      PayloadWellFormed head.qubits.length head.clbits.length payload

def PayloadWellFormed (num_qubits num_clbits : Nat) : Payload → Prop
  | .controlFlow blocks => BlocksWellFormed num_qubits num_clbits blocks
  | _ => True

def BlocksWellFormed (num_qubits num_clbits : Nat) : List Block → Prop
  | [] => True
  | .unreadable _ :: _ => False
  | .mk qubits clbits operations :: blocks =>
      (qubits = num_qubits ∧ clbits = num_clbits) ∧
        (∀ node ∈ operations, node.IndexesOnly qubits clbits) ∧ AllWellFormed operations ∧
        BlocksWellFormed num_qubits num_clbits blocks

def AllWellFormed : List Node → Prop
  | [] => True
  | node :: nodes => node.WellFormed ∧ AllWellFormed nodes

end

/-- The wires an enclosing operation acts on are distinct wires of the header. -/
def ValidMap (bound : Nat) (map : Option (List Int)) : Prop :=
  ∀ m, map = some m → m.Nodup ∧ ∀ w ∈ m, 0 ≤ w ∧ w < bound

/-- Indices within the wires of the enclosing operation. -/
def Within (map : Option (List Int)) (wires : List Int) : Prop :=
  ∀ m, map = some m → ∀ w ∈ wires, 0 ≤ w ∧ w < m.length

section Maps
variable {bound : Nat} {map : Option (List Int)} {wires : List Int}

@[simp]
theorem placed_none (w : Int) : placed none w = w := rfl

theorem placed_some {m : List Int} {w : Int} (h : w.toNat < m.length) :
    placed (some m) w = m[w.toNat] := by
  simp [placed, h]

theorem map_placed_none (wires : List Int) : wires.map (placed none) = wires :=
  (List.map_congr_left fun w _ => placed_none w).trans (List.map_id' wires)

theorem mapWires_within (h : Within map wires) :
    mapWires map wires = .ok (wires.map (placed map)) := by
  rcases map with _ | m
  · rw [map_placed_none, mapWires]
  · have hm := h m rfl
    cases m with
    | nil =>
        cases wires with
        | nil => rfl
        | cons w wires => have := hm w (by simp); simp at this; omega
    | cons x m =>
        rw [mapWires]
        · clear h
          induction wires with
          | nil => rfl
          | cons w wires ih =>
              rw [List.forall_mem_cons] at hm
              have hw : w.toNat < (x :: m).length := by omega
              rw [List.mapM_cons, List.map_cons, ih hm.2, List.getElem?_eq_getElem hw,
                placed_some hw]
              rfl
        · simp

/-- A valid map has no more wires than the header, so indices within it are in range. -/
theorem ValidMap.inRange (valid : ValidMap bound map) (h : Within map wires) :
    (∀ w ∈ wires, 0 ≤ w ∧ w < bound) ↔ ∀ w ∈ wires.map (placed map), 0 ≤ w ∧ w < bound := by
  rcases map with _ | m
  · rw [map_placed_none]
  · obtain ⟨hnodup, hrange⟩ := valid m rfl
    have hlength : m.length ≤ bound := by
      have hsub : m ⊆ (List.range bound).map Int.ofNat := by
        intro w hw
        have := hrange w hw
        exact List.mem_map.mpr ⟨w.toNat, by simp; omega, by simp; omega⟩
      simpa using (hnodup.subperm hsub).length_le
    refine iff_of_true (fun w hw => ?_) fun w' hw' => ?_
    · have := h m rfl w hw
      omega
    · obtain ⟨w, hw, rfl⟩ := List.mem_map.mp hw'
      have hw := h m rfl w hw
      have hget : w.toNat < m.length := by omega
      rw [placed_some hget]
      exact hrange _ (List.getElem_mem _)

theorem ValidMap.nodup_iff (valid : ValidMap bound map) (h : Within map wires) :
    (wires.map (placed map)).Nodup ↔ wires.Nodup := by
  refine ⟨List.Nodup.of_map _, fun hwires => hwires.map_on ?_⟩
  rcases map with _ | m
  · exact fun _ _ _ _ h => h
  · intro a ha b hb hab
    have ha := h m rfl a ha
    have hb := h m rfl b hb
    have hage : a.toNat < m.length := by omega
    have hbge : b.toNat < m.length := by omega
    rw [placed_some hage, placed_some hbge] at hab
    have := (valid m rfl).1.getElem_inj_iff.mp hab
    omega

end Maps

section Flattening
variable {rules : Rules} {qmap cmap : Option (List Int)} {head : Head}

/-- The wire checks of an operation are those of its placed wires. -/
theorem wireError_place {qs cs : List Int} (hq : ValidMap rules.header.num_qubits qmap)
    (hc : ValidMap rules.header.num_clbits cmap) (hqs : Within qmap qs) (hcs : Within cmap cs) :
    rules.wireError (qs.map (placed qmap)) (cs.map (placed cmap)) = rules.wireError qs cs := by
  have hqrange := hq.inRange hqs
  have hcrange := hc.inRange hcs
  have any_out : ∀ (wires wires' : List Int) (bound : Nat),
      ((∀ w ∈ wires, 0 ≤ w ∧ w < (bound : Int)) ↔ ∀ w ∈ wires', 0 ≤ w ∧ w < (bound : Int)) →
      (wires'.any fun w => decide ¬ (0 ≤ w ∧ w < (bound : Int))) =
        wires.any fun w => decide ¬ (0 ≤ w ∧ w < (bound : Int)) := by
    intro wires wires' bound h
    rw [Bool.eq_iff_iff, List.any_eq_true, List.any_eq_true]
    simp only [decide_eq_true_eq]
    grind
  simp only [Rules.wireError, any_out _ _ _ hqrange, any_out _ _ _ hcrange,
    hq.nodup_iff hqs, hc.nodup_iff hcs]

theorem place_name (head : Head) : (head.place qmap cmap).name = head.name := rfl

/-- An operation is admitted like its placed one. -/
theorem admit_place (checker : Checker) (hq : ValidMap rules.header.num_qubits qmap)
    (hc : ValidMap rules.header.num_clbits cmap) (hqs : Within qmap head.qubits)
    (hcs : Within cmap head.clbits) :
    checker.admits rules qmap cmap head =
      checker.admits rules none none (head.place qmap cmap) := by
  unfold Checker.admits Head.place
  rw [wireError_place hq hc hqs hcs]
  cases rules.wireError head.qubits head.clbits with
  | some text => rfl
  | none =>
      dsimp only
      rw [mapWires_within hqs, mapWires_within hcs]
      rfl

/-- The blocks that consuming enters. -/
def Rules.accepts (rules : Rules) (qs cs : List Int) : Bool := (rules.wireError qs cs).isNone

theorem validMap_of_wireError {qs cs : List Int} (h : rules.wireError qs cs = none) :
    ValidMap rules.header.num_qubits (some qs) ∧ ValidMap rules.header.num_clbits (some cs) := by
  obtain ⟨⟨hqs, hcs⟩, hqnodup, hcnodup⟩ := wireError_eq_none.mp h
  exact ⟨fun _ hm => Option.some.inj hm ▸ ⟨hqnodup, hqs⟩,
    fun _ hm => Option.some.inj hm ▸ ⟨hcnodup, hcs⟩⟩

/-- An operation under its enclosing wires. -/
def Node.Fits (qmap cmap : Option (List Int)) : Node → Prop
  | .malformed => True
  | .unnamed qubits clbits => Within qmap qubits ∧ Within cmap clbits
  | .op head _ => Within qmap head.qubits ∧ Within cmap head.clbits

theorem Node.IndexesOnly.fits {node : Node} {qs cs : List Int}
    (h : node.IndexesOnly qs.length cs.length) : node.Fits (some qs) (some cs) := by
  cases node with
  | malformed => trivial
  | unnamed qubits clbits =>
      exact ⟨fun _ hm => Option.some.inj hm ▸ h.1, fun _ hm => Option.some.inj hm ▸ h.2⟩
  | op head payload =>
      exact ⟨fun _ hm => Option.some.inj hm ▸ h.1, fun _ hm => Option.some.inj hm ▸ h.2⟩

mutual

theorem consume_flatten (rules : Rules) (node : Node) (checker : Checker)
    (qmap cmap : Option (List Int)) (hq : ValidMap rules.header.num_qubits qmap)
    (hc : ValidMap rules.header.num_clbits cmap) (fits : node.Fits qmap cmap)
    (wellFormed : node.WellFormed) :
    checker.consume rules qmap cmap node =
      checker.consumeAll rules none none (node.flatten rules.accepts qmap cmap) := by
  cases node with
  | malformed => rfl
  | unnamed qubits clbits =>
      rw [Checker.consume, Node.flatten, Checker.consumeAll, Checker.consume,
        wireError_place hq hc fits.1 fits.2]
      cases rules.wireError qubits clbits with
      | some text => rfl
      | none =>
          rw [mapWires_within fits.1, mapWires_within fits.2]
          rfl
  | op head payload =>
      rw [Checker.consume, Node.flatten, Checker.consumeAll, Checker.consume,
        admit_place checker hq hc fits.1 fits.2]
      cases hadmits : checker.admits rules none none (head.place qmap cmap) with
      | error e => rfl
      | ok admitted =>
          obtain ⟨checker₁, wires⟩ := admitted
          rcases Checker.admits_top hadmits with ⟨rfl, hwire⟩ | ⟨rfl, hwire⟩
          · have hrefused : rules.accepts (head.place qmap cmap).qubits
                (head.place qmap cmap).clbits = false := by
              simpa [Rules.accepts, Option.isSome_iff_ne_none] using hwire
            rw [hrefused, Bool.and_false]
            rfl
          · have haccepted : rules.accepts (head.place qmap cmap).qubits
                (head.place qmap cmap).clbits = true := by
              simp [Rules.accepts, hwire]
            rw [haccepted, Bool.and_true]
            by_cases hflow : controlFlow.contains head.name = true
            · obtain ⟨hqs, hcs⟩ := validMap_of_wireError hwire
              have hpayload := wellFormed hflow
              simp only [bind, Except.bind]
              rw [if_pos hflow, if_pos hflow, place_name, if_pos hflow]
              exact consumePayload_flatten rules payload _ _ _ hqs hcs (by
                simpa [Head.place] using hpayload)
            · simp only [bind, Except.bind]
              rw [if_neg hflow, if_neg hflow, place_name, if_neg hflow]
              rfl

theorem consumePayload_flatten (rules : Rules) (payload : Payload) (checker : Checker)
    (qs cs : List Int) (hq : ValidMap rules.header.num_qubits (some qs))
    (hc : ValidMap rules.header.num_clbits (some cs))
    (wellFormed : PayloadWellFormed qs.length cs.length payload) :
    checker.consumePayload rules qs cs payload = (do
      let checker ← checker.consumePayload rules qs cs payload.leaf
      checker.consumeAll rules none none (flattenPayload rules.accepts qs cs payload)) := by
  cases payload with
  | controlFlow blocks =>
      rw [Checker.consumePayload, consumeBlocks_flatten rules blocks checker qs cs hq hc wellFormed]
      rfl
  | none => rfl
  | other => rfl
  | unreadable error => rfl

theorem consumeBlocks_flatten (rules : Rules) (blocks : List Block) (checker : Checker)
    (qs cs : List Int) (hq : ValidMap rules.header.num_qubits (some qs))
    (hc : ValidMap rules.header.num_clbits (some cs))
    (wellFormed : BlocksWellFormed qs.length cs.length blocks) :
    checker.consumeBlocks rules qs cs blocks =
      checker.consumeAll rules none none (flattenBlocks rules.accepts qs cs blocks) := by
  cases blocks with
  | nil => rfl
  | cons block blocks =>
      obtain ⟨qubits, clbits, operations⟩ | error := block
      case unreadable => exact wellFormed.elim
      obtain ⟨⟨rfl, rfl⟩, hindexes, hoperations, hblocks⟩ := wellFormed
      rw [Checker.consumeBlocks, flattenBlocks, Checker.consumeAll_append,
        consumeNodes_flatten rules operations checker _ _ hq hc
          (fun node hnode => (hindexes node hnode).fits) hoperations]
      cases checker.consumeAll rules none none _ with
      | error e => rfl
      | ok checker => exact consumeBlocks_flatten rules blocks checker qs cs hq hc hblocks

theorem consumeNodes_flatten (rules : Rules) (nodes : List Node) (checker : Checker)
    (qmap cmap : Option (List Int)) (hq : ValidMap rules.header.num_qubits qmap)
    (hc : ValidMap rules.header.num_clbits cmap) (fits : ∀ node ∈ nodes, node.Fits qmap cmap)
    (wellFormed : AllWellFormed nodes) :
    checker.consumeAll rules qmap cmap nodes =
      checker.consumeAll rules none none (flattenAll rules.accepts qmap cmap nodes) := by
  cases nodes with
  | nil => rfl
  | cons node nodes =>
      rw [List.forall_mem_cons] at fits
      rw [Checker.consumeAll, flattenAll, Checker.consumeAll_append,
        consume_flatten rules node checker qmap cmap hq hc fits.1 wellFormed.1]
      cases checker.consumeAll rules none none _ with
      | error e => rfl
      | ok checker =>
          exact consumeNodes_flatten rules nodes checker qmap cmap hq hc fits.2 wellFormed.2

end

end Flattening

/-- Nested control flow is graded as if flattened, the blocks of refused operations left out. -/
theorem checkCircuit_flatten (rules : Rules) (operations : List Node)
    (wellFormed : AllWellFormed operations) :
    checkCircuit rules operations =
      checkCircuit rules (flattenAll rules.accepts none none operations) := by
  have valid : ∀ bound, ValidMap bound none := fun _ _ h => by cases h
  refine consumeNodes_flatten rules operations _ none none (valid _) (valid _) ?_ wellFormed
  rintro (_ | _ | ⟨head, payload⟩) -
  · trivial
  · exact ⟨fun _ h => (nomatch h), fun _ h => (nomatch h)⟩
  · exact ⟨fun _ h => (nomatch h), fun _ h => (nomatch h)⟩

/-- A loop on a repeated wire around an operation that the target lacks. -/
def refusedLoop : List Node :=
  [.op ⟨"while_loop", [0, 0], [], []⟩ (.controlFlow [.mk 2 0 [.op ⟨"x", [1], [], []⟩ .none]])]

def bareRules : Rules where
  header := ⟨2, 0⟩
  target := { num_qubits := 2, instructions := [], native_2q_names := [] }
  constraint_form := "target"

/-- The blocks of a refused operation are not looked at. -/
theorem refused_blocks_skipped : AllWellFormed refusedLoop ∧
    (checkCircuit bareRules refusedLoop).map (fun c => (c.errors, c.active_qubits)) ≠
      (checkCircuit bareRules (flattenAll (fun _ _ => true) none none refusedLoop)).map
        fun c => (c.errors, c.active_qubits) := by
  refine ⟨?_, by decide⟩
  simp [refusedLoop, AllWellFormed, Node.WellFormed, PayloadWellFormed, BlocksWellFormed,
    Node.IndexesOnly, controlFlow]

/-- A branch inside a loop, on one wire of the two of the loop. -/
def nestedLoop : List Node :=
  [.op ⟨"while_loop", [1, 0], [], []⟩ (.controlFlow [.mk 2 0
    [.op ⟨"if_else", [0], [], []⟩ (.controlFlow [.mk 1 0 [.op ⟨"x", [0], [], []⟩ .none]])]])]

theorem nestedLoop_flatten : checkCircuit bareRules nestedLoop = checkCircuit bareRules
    [.op ⟨"while_loop", [1, 0], [], []⟩ (.controlFlow []),
      .op ⟨"if_else", [1], [], []⟩ (.controlFlow []), .op ⟨"x", [1], [], []⟩ .none] := by
  refine checkCircuit_flatten bareRules nestedLoop ?_
  simp [nestedLoop, AllWellFormed, Node.WellFormed, PayloadWellFormed, BlocksWellFormed,
    Node.IndexesOnly, controlFlow]

end TranspileBench.Metrics
