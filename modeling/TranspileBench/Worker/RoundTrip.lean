import TranspileBench.Worker.Reimport
import TranspileBench.Evaluator.Required
import Mathlib

/-!
The round trip of the circuit codec. An exported document can be imported exactly when no
control flow stands inside another operation and no level shares a name with its blocks;
what is imported is then exported as the same document.
-/
namespace TranspileBench.Worker
open Fallible
open Evaluator (mem_sortedSet sortedSet_eq_iff)

variable {F E S : Type}

/-! ## Levels of an import -/

/-- The wires and the registers of two circuits are alike. -/
structure Frame.Like (frame' frame : Frame F E) : Prop where
  num_qubits : frame'.num_qubits = frame.num_qubits
  num_clbits : frame'.num_clbits = frame.num_clbits
  qregs : frame'.qregs = frame.qregs
  cregs : frame'.cregs = frame.cregs

/-- What a circuit has been given so far, `data'`, for the operations `data`. -/
structure Level (q : Qiskit F E) (l : Library F E S) (ids : String → Option Nat)
    (objects : Nat → Option Param)
    (lo hi : Nat) (phase phase' : Value F E) (data data' : List (Instruction F E S)) : Prop where
  rows : export_operations q l ids data' = export_operations q l ids data
  own : Renames ids objects (phase.parameters q ++ dataOwn q data)
    (phase'.parameters q ++ dataOwn q data')
  parts : List.Forall₂ SameNames (dataParts q data) (dataParts q data')
  numbered : Numbered lo hi (dataParts q data')

section Levels
variable {q : Qiskit F E} {l : Library F E S} {ids : String → Option Nat}
  {objects : Nat → Option Param}
  {base lo n hi : Nat} {frame frame' : Frame F E} {phase phase' : Value F E}
  {data data' : List (Instruction F E S)}

theorem export_operations_append (data more : List (Instruction F E S)) :
    export_operations q l ids (data ++ more) = (do
      let rows ← export_operations q l ids data
      let rows' ← export_operations q l ids more
      pure (rows ++ rows')) := by
  induction data with
  | nil =>
      rw [List.nil_append, export_operations]
      simp only [bind, Except.bind]
      cases export_operations q l ids more with | _ => rfl
  | cons instruction data ih =>
      cases instruction with
      | mk operation qubits clbits =>
          rw [List.cons_append, export_operations_cons, export_operations_cons, ih]
          simp only [bind_assoc, pure_bind, List.cons_append]

theorem dataParameters_append (data more : List (Instruction F E S)) :
    dataParameters q (data ++ more) =
      dataParameters q data ++ dataParameters q more := by
  induction data with
  | nil => rfl
  | cons instruction data ih =>
      cases instruction with
      | mk operation qubits clbits =>
          rw [List.cons_append, dataParameters, dataParameters, ih, List.append_assoc]

theorem Level.start (renames : Renames ids objects (phase.parameters q) (phase'.parameters q)) :
    Level q l ids objects lo hi phase phase' ([] : List (Instruction F E S)) [] :=
  ⟨rfl, by simpa [dataOwn] using renames, .nil, .nil⟩

theorem mem_level {p : Param} : p ∈ phase.parameters q ++ dataParameters q data ↔
    p ∈ ((phase.parameters q ++ dataOwn q data) :: dataParts q data).flatten := by
  rw [List.flatten_cons, List.mem_append, List.mem_append, List.mem_append, mem_dataParameters,
    or_assoc]

/-- The new parameters of a level are consistent when the names of the old are separated. -/
theorem Level.consistent_iff (level : Level q l ids objects lo hi phase phase' data data')
    (table : Table ids objects base lo)
    (known : ∀ p ∈ phase.parameters q ++ dataOwn q data, ∃ id, ids p.name = some id) :
    Consistent (phase'.parameters q ++ dataParameters q data') ↔
      Separated (phase.parameters q ++ dataOwn q data) (dataParts q data) := by
  have groups : Consistent (phase'.parameters q ++ dataParameters q data') ↔
      Consistent ((phase'.parameters q ++ dataOwn q data') :: dataParts q data').flatten :=
    ⟨fun h => h.congr fun p => mem_level.mpr, fun h => h.congr fun p => mem_level.mp⟩
  rw [groups, consistent_flatten, Separated]
  · exact (pairwise_disjoint_iff (.cons (table.sameNames level.own known) level.parts)).symm
  · exact List.forall_mem_cons.mpr ⟨table.consistent level.own, level.numbered.consistent⟩
  · refine List.pairwise_cons.mpr ⟨fun part hpart p hp hp' => ?_, level.numbered.disjoint⟩
    have := table.numbered level.own p hp
    have := level.numbered.bounds part hpart p hp'
    omega

theorem Level.concat {operation operation' : Operation F E S} (qubits clbits : List Nat)
    (level : Level q l ids objects lo n phase phase' data data') (hlo : lo ≤ n) (hhi : n ≤ hi)
    (copied : operation.Copied q l ids objects n hi operation') :
    Level q l ids objects lo hi phase phase' (data ++ [.mk operation qubits clbits])
      (data' ++ [.mk operation' qubits clbits]) where
  rows := by
    rw [export_operations_append, export_operations_append, level.rows, export_operations_cons,
      export_operations_cons, copied.row]
  own := by
    rw [dataOwn_append, dataOwn_append, dataOwn_single, dataOwn_single, ← List.append_assoc,
      ← List.append_assoc]
    exact level.own.append copied.own
  parts := by
    rw [dataParts_append, dataParts_append, dataParts_single, dataParts_single]
    exact List.rel_append level.parts copied.parts
  numbered := by
    rw [dataParts_append, dataParts_single]
    exact level.numbered.append copied.numbered hlo hhi

/-- The circuit takes the next operation exactly when the names stay separated. -/
theorem append_succeeds (documented : l.Documented q) {operation operation' : Operation F E S}
    {qubits clbits : List Nat}
    (table : Table ids objects base lo) (like : frame'.Like frame)
    (level : Level q l ids objects lo n frame.global_phase frame'.global_phase data data')
    (hlo : lo ≤ n) (hhi : n ≤ hi) (copied : operation.Copied q l ids objects n hi operation')
    (accepted : accepts frame operation qubits clbits = true)
    (known : ∀ p ∈ frame.global_phase.parameters q ++
      dataOwn q (data ++ [.mk operation qubits clbits]), ∃ id, ids p.name = some id) :
    Succeeds (frame.Separates q (data ++ [.mk operation qubits clbits]))
      (fun out => Level q l ids objects lo hi frame.global_phase frame'.global_phase
        (data ++ [.mk operation qubits clbits]) out)
      (l.append frame' data' operation' qubits clbits) := by
  have next := level.concat qubits clbits hlo hhi copied
  have accepted' : accepts frame' operation' qubits clbits = true := by
    rw [accepts] at accepted ⊢
    rwa [copied.num_qubits, copied.num_clbits, like.num_qubits, like.num_clbits]
  have params : frame'.global_phase.parameters q ++ dataParameters q data'
      ++ operation'.parameters q = frame'.global_phase.parameters q ++
        dataParameters q (data' ++ [.mk operation' qubits clbits]) := by
    rw [dataParameters_append, List.append_assoc, dataParameters, dataParameters, List.append_nil]
  have separated := next.consistent_iff table known
  rw [← params] at separated
  by_cases consistent : Consistent (frame'.global_phase.parameters q ++ dataParameters q data'
      ++ operation'.parameters q)
  · have appended := documented.appended _ _ _ _ _ accepted' consistent
    exact .ok appended (separated.mp consistent) next
  · obtain ⟨e, refused⟩ := documented.refused _ _ _ qubits clbits consistent
    exact .error refused fun h => consistent (separated.mpr h)

end Levels

/-! ## Circuits -/

/-- The header of a circuit with these parameters. -/
def Frame.header (frame : Frame F E) (names : List String) (phase : Encoded F) : Header F where
  format := CIRCUIT_FORMAT
  num_qubits := frame.num_qubits
  num_clbits := frame.num_clbits
  qregs := frame.qregs
  cregs := frame.cregs
  global_phase := phase
  parameters := numberedNames names

/-- A circuit is written like another, on as many wires; its parameters are new, and they
have the same names. -/
structure Circuit.Copied (q : Qiskit F E) (l : Library F E S) (lo hi : Nat)
    (c c' : Circuit F E S) : Prop where
  document : export_circuit q l c' = export_circuit q l c
  num_qubits : c'.frame.num_qubits = c.frame.num_qubits
  num_clbits : c'.frame.num_clbits = c.frame.num_clbits
  names : SameNames (c.parameters q) (c'.parameters q)
  consistent : Consistent (c'.parameters q)
  bounds : ∀ p ∈ c'.parameters q, lo ≤ p.uuid ∧ p.uuid < hi

/-- And the blocks of an operation, each with parameters of its own. -/
structure BlocksCopied (q : Qiskit F E) (l : Library F E S) (lo hi : Nat)
    (blocks blocks' : List (Circuit F E S)) :
    Prop where
  documents : exportBlocks q l blocks' = exportBlocks q l blocks
  num_qubits : blocks'.map (·.frame.num_qubits) = blocks.map (·.frame.num_qubits)
  num_clbits : blocks'.map (·.frame.num_clbits) = blocks.map (·.frame.num_clbits)
  parts : List.Forall₂ SameNames (blocks.map (·.parameters q))
    (blocks'.map (·.parameters q))
  numbered : Numbered lo hi (blocks'.map (·.parameters q))

section Circuits
variable {q : Qiskit F E} {l : Library F E S} {objects : Nat → Option Param} {base lo mid hi : Nat}
  {frame frame' : Frame F E} {data data' : List (Instruction F E S)}

theorem export_circuit_eq_ok {document : Document F S} :
    export_circuit q l (.mk frame data) = .ok document ↔
      ((l.parameters (.mk frame data)).dedup.map (·.name)).Nodup ∧
        ∃ phase rows,
          encode_value q ((Circuit.mk frame data).ids l) frame.global_phase = .ok phase ∧
          export_operations q l ((Circuit.mk frame data).ids l) data = .ok rows ∧
          document = .mk (frame.header ((Circuit.mk frame data).names l) phase) rows := by
  rw [export_circuit]
  constructor
  · intro h
    obtain ⟨hnodup, h⟩ := check_eq_ok.mp h
    obtain ⟨phase, hphase, h⟩ := bind_eq_ok.mp h
    obtain ⟨rows, hrows, h⟩ := bind_eq_ok.mp h
    cases h
    exact ⟨not_not.mp hnodup, phase, rows, hphase, hrows, rfl⟩
  · intro ⟨hnodup, phase, rows, hphase, hrows, hdocument⟩
    refine check_eq_ok.mpr ⟨not_not.mpr hnodup, ?_⟩
    refine bind_eq_ok.mpr ⟨phase, hphase, bind_eq_ok.mpr ⟨rows, hrows, ?_⟩⟩
    rw [hdocument]
    rfl

theorem Circuit.mem_parameters {p : Param} :
    p ∈ (Circuit.mk frame data).parameters q ↔
      p ∈ frame.global_phase.parameters q ++ dataParameters q data := by
  rw [Circuit.parameters]

theorem Circuit.known (documented : l.Documented q) {c : Circuit F E S} {p : Param}
    (hp : p ∈ c.parameters q) : ∃ id, c.ids l p.name = some id := by
  have hname : p.name ∈ c.names l :=
    mem_sortedSet.mpr (List.mem_map_of_mem ((documented.parameters c p).mpr hp))
  exact Option.isSome_iff_exists.mp (List.isSome_idxOf?.mpr hname)

theorem buildRegisters_ok {width : Nat} {registers : List Register}
    (h : ∀ r ∈ registers, ∀ i ∈ r.bits, i < width) :
    buildRegisters width registers = .ok registers := by
  have all : buildRegisters width registers = .ok (registers.map id) :=
    mapM_total fun r hr => if_pos (by simpa using h r hr)
  rwa [List.map_id] at all

/-- A level that is complete is a copy of the circuit. -/
theorem Level.copied (documented : l.Documented q) {document : Document F S} {encoded : Encoded F}
    (table : Table ((Circuit.mk frame data).ids l) objects base lo) (hlo : base ≤ lo)
    (hhi : lo ≤ hi) (like : frame'.Like frame)
    (hphase : encode_value q ((Circuit.mk frame data).ids l) frame.global_phase = .ok encoded)
    (hphase' : encode_value q ((Circuit.mk frame data).ids l) frame'.global_phase = .ok encoded)
    (level : Level q l ((Circuit.mk frame data).ids l) objects lo hi frame.global_phase
      frame'.global_phase data data')
    (separated : frame.Separates q data)
    (exported : export_circuit q l (.mk frame data) = .ok document) :
    (Circuit.mk frame data).Copied q l base hi (.mk frame' data') := by
  have known : ∀ p ∈ frame.global_phase.parameters q ++ dataOwn q data,
      ∃ id, (Circuit.mk frame data).ids l p.name = some id := by
    intro p hp
    refine Circuit.known documented (Circuit.mem_parameters.mpr (mem_level.mpr ?_))
    exact List.mem_append_left _ hp
  have names : SameNames ((Circuit.mk frame data).parameters q)
      ((Circuit.mk frame' data').parameters q) := by
    have flat := SameNames.flatten (.cons (table.sameNames level.own known) level.parts)
    exact flat.congr (fun p => mem_level.symm) fun p => mem_level.symm
  have consistent : Consistent ((Circuit.mk frame' data').parameters q) :=
    (level.consistent_iff table known).mpr separated
  have tracked := names.congr (fun p => (documented.parameters _ p).symm)
    fun p => (documented.parameters _ p).symm
  have hnames : (Circuit.mk frame' data').names l = (Circuit.mk frame data).names l :=
    sortedSet_eq_iff.mpr fun name => (tracked name).symm
  have hids : (Circuit.mk frame' data').ids l = (Circuit.mk frame data).ids l := by
    funext name
    rw [Circuit.ids, Circuit.ids, hnames]
  refine ⟨?_, like.num_qubits, like.num_clbits, names, consistent, fun p hp => ?_⟩
  · obtain ⟨-, phase, rows, hencode, hrows, hdocument⟩ := export_circuit_eq_ok.mp exported
    obtain rfl : encoded = phase := Except.ok.inj (hphase.symm.trans hencode)
    rw [exported]
    have nodup := consistent_iff_nodup.mp (consistent.congr fun p => (documented.parameters _ p).mp)
    refine export_circuit_eq_ok.mpr ⟨nodup, encoded, rows, ?_, ?_, ?_⟩
    · rw [hids, hphase']
    · rw [hids, level.rows, hrows]
    · rw [hdocument, hnames, Frame.header, Frame.header, like.num_qubits, like.num_clbits,
        like.qregs, like.cregs]
  · have hp := mem_level.mp hp
    rw [List.flatten_cons, List.mem_append] at hp
    cases hp with
    | inl hp =>
        have := table.numbered level.own p hp
        omega
    | inr hp =>
        obtain ⟨part, hpart, hp⟩ := List.mem_flatten.mp hp
        have := level.numbered.bounds part hpart p hp
        omega

/-- An import that has read the header goes on with the rows. -/
theorem import_circuit_header {names : List String} {encoded : Encoded F} {phase : Value F E}
    {rows : List (Row F S)} {n : Nat} (wellFormed : frame.WellFormed q l)
    (hphase : decode_value q (Worker.objects (fresh n (numberedNames names))) encoded =
      .ok phase) (hkept : l.setPhase phase = .ok phase) :
    import_circuit q l n (.mk (frame.header names encoded) rows) = (do
      let out ← importRows q l (Worker.objects (fresh n (numberedNames names)))
        { frame with global_phase := phase } (n + names.length) [] rows
      pure (.mk { frame with global_phase := phase } out.1, out.2)) := by
  have hlength : (frame.header names encoded).parameters.length = names.length := by
    simp [Frame.header, numberedNames]
  have hqregs : buildRegisters (frame.header names encoded).num_qubits
      (frame.header names encoded).qregs = .ok frame.qregs := buildRegisters_ok wellFormed.qregs
  have hcregs : buildRegisters (frame.header names encoded).num_clbits
      (frame.header names encoded).cregs = .ok frame.cregs := buildRegisters_ok wellFormed.cregs
  have hdecode : decode_value q
      (Worker.objects (fresh n (frame.header names encoded).parameters))
      (frame.header names encoded).global_phase = .ok phase := hphase
  have hformat : ¬ (frame.header names encoded).format ≠ CIRCUIT_FORMAT := not_not.mpr rfl
  rw [import_circuit, if_neg hformat]
  simp only [hqregs, hcregs, hdecode, hkept, hlength, bind, Except.bind]
  rfl

theorem BlocksCopied.nil : BlocksCopied q l lo hi ([] : List (Circuit F E S)) [] :=
  ⟨rfl, rfl, rfl, .nil, .nil⟩

theorem BlocksCopied.cons {block block' : Circuit F E S} {blocks blocks' : List (Circuit F E S)}
    (first : block.Copied q l lo mid block') (rest : BlocksCopied q l mid hi blocks blocks')
    (hlo : lo ≤ mid) (hhi : mid ≤ hi) :
    BlocksCopied q l lo hi (block :: blocks) (block' :: blocks') where
  documents := by rw [exportBlocks, exportBlocks, first.document, rest.documents]
  num_qubits := by rw [List.map_cons, List.map_cons, first.num_qubits, rest.num_qubits]
  num_clbits := by rw [List.map_cons, List.map_cons, first.num_clbits, rest.num_clbits]
  parts := .cons first.names rest.parts
  numbered := (Numbered.single first.consistent first.bounds).append rest.numbered hlo hhi

/-- An operation with blocks, by what becomes of these. -/
theorem importFlow_succeeds {ids : String → Option Nat} {kind : Flow}
    {blocks : List (Circuit F E S)} (takes : kind.Takes frame blocks)
    (wellFormed : frame.WellFormed q l) (like : frame'.Like frame) {qubits clbits : List Nat}
    {name : String} {params : List (Encoded F)} {payload : Payload F S}
    (h : exportRow q l ids (.flow kind blocks) = .ok (name, params, payload)) (n : Nat)
    (imported : ∀ documents, exportBlocks q l blocks = .ok documents →
      Succeeds (BlocksImportable q blocks)
        (fun out => n ≤ out.2 ∧ BlocksCopied q l n out.2 blocks out.1)
          (importBlocks q l n documents)) :
    Succeeds (BlocksImportable q blocks)
      (fun out => n ≤ out.2 ∧ (Operation.flow kind blocks).Copied q l ids objects n out.2 out.1)
      (importPayload q l objects frame' n name qubits clbits params payload) := by
  obtain ⟨arity, num_clbits, payload₀, hdescriptor, hattach⟩ := exportRow_eq_ok.mp h
  cases described hdescriptor with
  | @flow _ _ documents _ exported kept =>
      obtain ⟨indices, condition, -, rfl, -⟩ :=
        controlFlow_rebuilt takes wellFormed like.num_clbits like.cregs rfl kept hattach
      rw [importPayload]
      have blocksImported := imported documents exported
      refine blocksImported.then fun out hout => ?_
      obtain ⟨hle, copied⟩ := hout
      have hlength : out.1.length = blocks.length := by
        simpa using congrArg List.length copied.num_qubits
      obtain ⟨indices', condition', kind', hshape, hbuilt, hname, hpayload, hattach'⟩ :=
        controlFlow_rebuilt takes wellFormed like.num_clbits like.cregs hlength kept hattach
      cases hshape
      refine ⟨_, bind_eq_ok.mpr ⟨_, hbuilt, rfl⟩, hle, ?_, ?_, ?_, .nil, copied.parts,
        copied.numbered⟩
      · have again : operation_descriptor q l ids (.flow kind' out.1) =
            .ok (.mk kind'.name ((out.1.head?.map (·.frame.num_qubits)).getD 0)
              ((out.1.head?.map (·.frame.num_clbits)).getD 0) [] payload₀) := by
          rw [operation_descriptor, copied.documents, exported]
          exact bind_eq_ok.mpr ⟨documents, rfl, bind_eq_ok.mpr ⟨payload₀, hpayload, rfl⟩⟩
        rw [h, ← hname]
        exact exportRow_eq_ok.mpr ⟨_, _, _, again, hattach'⟩
      · rw [Operation.num_qubits, Operation.num_qubits, ← List.head?_map, ← List.head?_map,
          copied.num_qubits]
      · rw [Operation.num_clbits, Operation.num_clbits, ← List.head?_map, ← List.head?_map,
          copied.num_clbits]

end Circuits

/-! ## Imports -/

section Imports
variable {q : Qiskit F E} {l : Library F E S}

mutual

/-- An exported document can be imported exactly when the circuit is importable, and gives a
copy of it. -/
theorem import_succeeds (laws : q.Lawful) (documented : l.Documented q) (c : Circuit F E S)
    (wellFormed : c.WellFormed q l)
    {document : Document F S} (h : export_circuit q l c = .ok document) (n : Nat) :
    Succeeds (c.Importable q) (fun out => n ≤ out.2 ∧ c.Copied q l n out.2 out.1)
      (import_circuit q l n document) := by
  cases c with
  | mk frame data =>
      obtain ⟨-, encoded, rows, hencode, hrows, rfl⟩ := export_circuit_eq_ok.mp h
      have table : Table ((Circuit.mk frame data).ids l)
          (Worker.objects (fresh n (numberedNames ((Circuit.mk frame data).names l)))) n
          (n + ((Circuit.mk frame data).names l).length) := fresh_table n
      obtain ⟨phase, hdecode, hencode', copied⟩ := value_copies laws table.agrees _ _ hencode
      have kept := phase_kept documented wellFormed.1.global_phase copied
      rw [import_circuit_header wellFormed.1 hdecode kept]
      have like : Frame.Like { frame with global_phase := phase } frame := ⟨rfl, rfl, rfl, rfl⟩
      have known : ∀ p ∈ frame.global_phase.parameters q ++ dataOwn q data,
          ∃ id, (Circuit.mk frame data).ids l p.name = some id := fun p hp =>
        Circuit.known documented (Circuit.mem_parameters.mpr
          (mem_level.mpr (List.mem_append_left _ hp)))
      have run := importRows_succeeds laws documented table data wellFormed.1
          wellFormed.2 like hrows
        (Nat.le_refl _) (.start copied.renames) (.alone _) known
      refine run.condition.then fun out hout => ⟨_, rfl, ?_⟩
      obtain ⟨⟨separated, -⟩, hle, level⟩ := hout
      exact ⟨(Nat.le_add_right ..).trans hle, level.copied documented table
        (Nat.le_add_right ..) hle
        like hencode hencode' separated h⟩

theorem importBlocks_succeeds (laws : q.Lawful) (documented : l.Documented q)
    (blocks : List (Circuit F E S))
    (wellFormed : BlocksWellFormed q l blocks) {documents : List (Document F S)}
    (h : exportBlocks q l blocks = .ok documents) (n : Nat) :
    Succeeds (BlocksImportable q blocks)
      (fun out => n ≤ out.2 ∧ BlocksCopied q l n out.2 blocks out.1)
      (importBlocks q l n documents) := by
  cases blocks with
  | nil =>
      cases h
      exact .ok rfl trivial ⟨Nat.le_refl _, .nil⟩
  | cons block blocks =>
      rw [exportBlocks] at h
      obtain ⟨document, hdocument, h⟩ := bind_eq_ok.mp h
      obtain ⟨documents, hdocuments, h⟩ := bind_eq_ok.mp h
      cases h
      rw [importBlocks]
      have first := import_succeeds laws documented block wellFormed.1 hdocument n
      refine first.bind fun out hout => ?_
      have rest := importBlocks_succeeds laws documented blocks wellFormed.2 hdocuments out.2
      refine rest.then fun out' hout' => ⟨_, rfl, hout.1.trans hout'.1, ?_⟩
      exact .cons hout.2 hout'.2 hout.1 hout'.1

theorem importPayload_succeeds (laws : q.Lawful) (documented : l.Documented q)
    {ids : String → Option Nat}
    {objects : Nat → Option Param} (agrees : Agrees ids objects) (operation : Operation F E S)
    {frame frame' : Frame F E} (wellFormedFrame : frame.WellFormed q l)
    (wellFormed : operation.WellFormed q l frame) (like : frame'.Like frame)
    {qubits clbits : List Nat} (hqubits : qubits.length = operation.num_qubits)
    (hclbits : clbits.length = operation.num_clbits) {name : String} {params : List (Encoded F)}
    {payload : Payload F S} (h : exportRow q l ids operation = .ok (name, params, payload))
    (n : Nat) :
    Succeeds (operation.Importable q)
      (fun out => n ≤ out.2 ∧ operation.Copied q l ids objects n out.2 out.1)
      (importPayload q l objects frame' n name qubits clbits params payload) := by
  cases operation with
  | flow kind blocks =>
      refine importFlow_succeeds wellFormed.1 wellFormedFrame like h n fun documents exported => ?_
      exact importBlocks_succeeds laws documented blocks wellFormed.2 exported n
  | _ => exact importOutside_succeeds laws documented agrees wellFormed nofun hqubits hclbits h n

theorem importRows_succeeds (laws : q.Lawful) (documented : l.Documented q)
    {ids : String → Option Nat}
    {objects : Nat → Option Param} {base lo n : Nat} (table : Table ids objects base lo)
    (rest : List (Instruction F E S)) {frame frame' : Frame F E}
    (wellFormedFrame : frame.WellFormed q l) (wellFormed : DataWellFormed q l frame rest)
    (like : frame'.Like frame) {rows : List (Row F S)}
    (h : export_operations q l ids rest = .ok rows) (hlo : lo ≤ n)
    {data data' : List (Instruction F E S)}
    (level : Level q l ids objects lo n frame.global_phase frame'.global_phase data data')
    (separated : frame.Separates q data)
    (known : ∀ p ∈ frame.global_phase.parameters q ++ dataOwn q (data ++ rest),
      ∃ id, ids p.name = some id) :
    Succeeds (frame.Separates q (data ++ rest) ∧ DataImportable q rest)
      (fun out => n ≤ out.2 ∧ Level q l ids objects lo out.2 frame.global_phase
        frame'.global_phase (data ++ rest) out.1)
      (importRows q l objects frame' n data' rows) := by
  cases rest with
  | nil =>
      cases h
      rw [List.append_nil]
      exact .ok rfl ⟨separated, trivial⟩ ⟨Nat.le_refl _, level⟩
  | cons instruction rest =>
      cases instruction with
      | mk operation qubits clbits =>
          rw [export_operations_cons] at h
          obtain ⟨row, hrow, h⟩ := bind_eq_ok.mp h
          obtain ⟨rows, hrows, h⟩ := bind_eq_ok.mp h
          cases h
          obtain ⟨name, params, payload⟩ := row
          rw [importRows]
          obtain ⟨accepted, wellFormedOp, wellFormedRest⟩ := wellFormed
          have widths := accepted
          simp only [accepts, Bool.and_eq_true, beq_iff_eq] at widths
          have first := importPayload_succeeds laws documented table.agrees operation
            wellFormedFrame wellFormedOp like widths.1.1.1.1 widths.1.1.1.2 hrow n
          have onward : data ++ .mk operation qubits clbits :: rest =
              data ++ [.mk operation qubits clbits] ++ rest := by simp
          rw [onward] at known ⊢
          have knownNext : ∀ p ∈ frame.global_phase.parameters q ++
              dataOwn q (data ++ [.mk operation qubits clbits]), ∃ id, ids p.name = some id := by
            intro p hp
            refine known p ?_
            rw [dataOwn_append, ← List.append_assoc]
            exact List.mem_append_left _ hp
          have onwards : ∀ out : Operation F E S × Nat,
              (n ≤ out.2 ∧ operation.Copied q l ids objects n out.2 out.1) →
              Succeeds (frame.Separates q (data ++ [.mk operation qubits clbits]) ∧
                  frame.Separates q (data ++ [.mk operation qubits clbits] ++ rest) ∧
                    DataImportable q rest)
                (fun out' => n ≤ out'.2 ∧ Level q l ids objects lo out'.2 frame.global_phase
                  frame'.global_phase (data ++ [.mk operation qubits clbits] ++ rest) out'.1)
                (do
                  let data ← l.append frame' data' out.1 qubits clbits
                  importRows q l objects frame' out.2 data rows) := by
            intro out hout
            have appended := append_succeeds documented table like level hlo hout.1
                hout.2 accepted knownNext
            refine appended.condition.bind fun data'' hdata'' => ?_
            have run := importRows_succeeds laws documented table rest
                wellFormedFrame wellFormedRest like
              hrows (hlo.trans hout.1) hdata''.2 hdata''.1 known
            exact run.imp Iff.rfl fun out' hout' => ⟨hout.1.trans hout'.1, hout'.2⟩
          refine (first.bind onwards).imp ?_ fun _ h => h
          rw [DataImportable]
          refine ⟨fun h => ⟨h.2.2.1, h.1, h.2.2.2⟩, fun h => ⟨h.2.1, h.1.init, h.1, h.2.2⟩⟩

end

end Imports

/-! ## A sample -/

section Sample

/-- Expressions that are one symbol, and one gate. -/
def symbols : Qiskit Int Param where
  finite _ := true
  pi := 3
  toFloat
    | .float x => .ok x
    | .int n => .ok n
    | _ => .error (.other "not a number")
  parameters e := [e]
  sympify e := .symbol e.name
  symbol := id
  add _ _ := .error (.other "not a sum")
  mul _ _ := .error (.other "not a product")
  div _ _ := .error (.other "not a quotient")
  pow _ _ := .error (.other "not a power")
  apply _ _ := .error (.other "not a function")
  standard name := if name = "rx" then some ⟨"RXGate", 1, 0, none⟩ else none

theorem symbols_lawful : symbols.Lawful where
  toFloat _ := rfl
  rebuilt ids objects agrees e tree _ h := by
    have h : encodeTree symbols ids (.symbol e.name) = .ok tree := h
    rw [encodeTree] at h
    cases hid : ids e.name with
    | none =>
        rw [hid] at h
        cases h
    | some id =>
        rw [hid] at h
        cases h
        obtain ⟨p, hp, hname⟩ := agrees _ _ hid
        refine ⟨p, ?_, congrArg Sym.symbol hname, by simp [symbols], fun p' => ?_⟩
        · rw [decodeTree, hp]
          rfl
        · simp [symbols, hid, hp, eq_comm]

/-- Its circuits take what fits them, and keep a phase below 6. -/
def keeping : Library Int Param Unit where
  parameters c := (c.parameters symbols).dedup
  num_params _ := 1
  construct t name params :=
    if params.length = 1 then .ok (t.gate name params) else .error (.other "one angle")
  setPhase
    | .float x => .ok (.float (x % 6))
    | value => .ok value
  append frame data operation qubits clbits :=
    let parameters := frame.global_phase.parameters symbols ++ dataParameters symbols data
      ++ operation.parameters symbols
    if accepts frame operation qubits clbits ∧ (parameters.dedup.map (·.name)).Nodup then
      .ok (data ++ [.mk operation qubits clbits])
    else .error (.circuit "Name conflict")

theorem keeping_documented : keeping.Documented symbols where
  parameters _ _ := List.mem_dedup
  construct _ _ _ _ hlength _ := if_pos hlength
  setPhase _ _ := rfl
  appended _ _ _ _ _ accepted consistent := if_pos ⟨accepted, consistent_iff_nodup.mp consistent⟩
  refused _ _ _ _ _ inconsistent :=
    ⟨_, if_neg fun h => inconsistent (consistent_iff_nodup.mpr h.2)⟩

def rotation (parameter : Param) : Instruction Int Param Unit :=
  .mk (.gate ⟨"rx", "RXGate", 1, 0, [.expr parameter], none⟩) [0] []

def oneWire (data : List (Instruction Int Param Unit)) : Circuit Int Param Unit :=
  .mk ⟨1, 1, [⟨"q", [0]⟩], [⟨"c", [0]⟩], .float 0⟩ data

/-- A rotation by `theta`, and one by a parameter in a branch. -/
def branching (parameter : Param) : Circuit Int Param Unit :=
  oneWire [rotation ⟨"theta", 0⟩,
    .mk (.flow (.ifElse (.bit 0 1)) [oneWire [rotation parameter]]) [0] [0]]

theorem rotation_fits (parameter : Param) :
    (⟨"rx", "RXGate", 1, 0, [.expr parameter], none⟩ : Gate Int Param).Fits symbols keeping := by
  have named : "rx" ≠ "barrier" := by decide
  refine ⟨fun h => absurd h named, fun t ht _ => ?_⟩
  cases ht
  exact ⟨rfl, rfl, rfl⟩

theorem branching_wellFormed (parameter : Param) :
    (branching parameter).WellFormed symbols keeping := by
  have wires : Frame.WellFormed symbols keeping
      (⟨1, 1, [⟨"q", [0]⟩], [⟨"c", [0]⟩], .float 0⟩ : Frame Int Param) :=
    ⟨by simp, by simp, .inr ⟨0, rfl, rfl⟩⟩
  refine ⟨wires, rfl, rotation_fits _, rfl, ⟨⟨Nat.zero_lt_one, .inl rfl⟩, ?_⟩, trivial⟩
  exact ⟨⟨wires, rfl, rotation_fits _, trivial⟩, trivial⟩

theorem branching_importable (parameter : Param) :
    (branching parameter).Importable symbols ↔ parameter.name ≠ "theta" := by
  have inner : (oneWire [rotation parameter]).Importable symbols := ⟨.alone _, trivial, trivial⟩
  have outer : (branching parameter).Importable symbols ↔
      Separated [⟨"theta", 0⟩] [[parameter]] :=
    ⟨fun h => h.1, fun h => ⟨h, trivial, ⟨inner, trivial⟩, trivial⟩⟩
  rw [outer]
  simp [Separated, NamesDisjoint, eq_comm]

theorem branching_exported {parameter : Param}
    (h : parameter = ⟨"phi", 1⟩ ∨ parameter = ⟨"theta", 0⟩) :
    ∃ document, export_circuit symbols keeping (branching parameter) = .ok document := by
  rw [← isOk_iff]
  cases h with
  | inl h => rw [h]; rfl
  | inr h => rw [h]; rfl

end Sample

/-! ## The round trip -/

/-- A branch that shares its parameter with the circuit around it is exported, and the
document is refused. -/
theorem shared_parameter_refused : ∃ document,
    export_circuit symbols keeping (branching ⟨"theta", 0⟩) = .ok document ∧
      ∀ n out, import_circuit symbols keeping n document ≠ .ok out := by
  obtain ⟨document, h⟩ := branching_exported (.inr rfl)
  refine ⟨document, h, fun n out hout => ?_⟩
  have imported := import_succeeds symbols_lawful keeping_documented _ (branching_wellFormed _) h n
  exact (branching_importable _).mp (imported.iff.mp ⟨out, hout⟩) rfl

end TranspileBench.Worker
