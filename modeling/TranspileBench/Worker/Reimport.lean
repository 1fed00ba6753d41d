import TranspileBench.Worker.Rebuilding
import Mathlib

/-!
The rows of a circuit. What can be imported of it, the tables that an import looks its
parameters up in, and each operation with what it is read back as.
-/
namespace TranspileBench.Worker
open Assoc Fallible

variable {F E S : Type}

/-! ## What can be imported -/

section Importable
variable (q : Qiskit F E) (l : Library F E S)

/-- What a circuit uses itself and what its blocks use have no name in common. -/
def Frame.Separates (frame : Frame F E) (data : List (Instruction F E S)) : Prop :=
  Separated (frame.global_phase.parameters q ++ dataOwn q data) (dataParts q data)

mutual

/-- Control flow stands in circuits only, and the levels of these are separated. -/
def Operation.Importable : Operation F E S → Prop
  | .annotated base _ => base.Plain
  | .mcmt base _ _ _ => base.Plain
  | .flow _ blocks => BlocksImportable blocks
  | _ => True

def Circuit.Importable : Circuit F E S → Prop
  | .mk frame data =>
      frame.Separates q data ∧ DataImportable data

def BlocksImportable : List (Circuit F E S) → Prop
  | [] => True
  | block :: blocks => block.Importable ∧ BlocksImportable blocks

def DataImportable : List (Instruction F E S) → Prop
  | [] => True
  | .mk operation _ _ :: data => operation.Importable ∧ DataImportable data

end

end Importable

theorem Frame.Separates.init {q : Qiskit F E} {frame : Frame F E}
    {data more : List (Instruction F E S)} (h : frame.Separates q (data ++ more)) :
    frame.Separates q data := by
  rw [Frame.Separates, dataOwn_append, dataParts_append, ← List.append_assoc] at h
  exact h.mono (List.subset_append_left ..) (List.sublist_append_left ..)

/-! ## Tables -/

/-- The objects of a table have the names of the ids, and are numbered from `lo` below `hi`. -/
structure Table (ids : String → Option Nat) (objects : Nat → Option Param) (lo hi : Nat) :
    Prop where
  agrees : Agrees ids objects
  bounds : ∀ id p, objects id = some p → lo ≤ p.uuid ∧ p.uuid < hi

section Tables
variable {ids : String → Option Nat} {objects : Nat → Option Param} {lo hi : Nat}
  {old new : List Param}

theorem Table.renamed (table : Table ids objects lo hi) (h : Renames ids objects old new)
    {p : Param} (hp : p ∈ new) :
    (∃ p₀ ∈ old, p₀.name = p.name) ∧ (ids p.name).bind objects = some p := by
  obtain ⟨p₀, hp₀, hobject⟩ := (h p).mp hp
  obtain ⟨id, hid, hobject⟩ := Option.bind_eq_some_iff.mp hobject
  obtain ⟨p', hp', hname⟩ := table.agrees _ _ hid
  obtain rfl : p' = p := Option.some.inj (hp'.symm.trans hobject)
  exact ⟨⟨p₀, hp₀, hname.symm⟩, by rw [hname, hid]; exact hobject⟩

theorem Table.consistent (table : Table ids objects lo hi) (h : Renames ids objects old new) :
    Consistent new := by
  intro p hp p' hp' heq
  have hp := (table.renamed h hp).2
  rw [heq, (table.renamed h hp').2] at hp
  exact (Option.some.inj hp).symm

theorem Table.numbered (table : Table ids objects lo hi) (h : Renames ids objects old new) :
    ∀ p ∈ new, lo ≤ p.uuid ∧ p.uuid < hi := by
  intro p hp
  obtain ⟨id, -, hobject⟩ := Option.bind_eq_some_iff.mp (table.renamed h hp).2
  exact table.bounds id p hobject

theorem Table.sameNames (table : Table ids objects lo hi) (h : Renames ids objects old new)
    (known : ∀ p ∈ old, ∃ id, ids p.name = some id) : SameNames old new := by
  intro name
  constructor
  · intro hname
    obtain ⟨p₀, hp₀, rfl⟩ := List.mem_map.mp hname
    obtain ⟨id, hid⟩ := known p₀ hp₀
    obtain ⟨p, hobject, hname⟩ := table.agrees _ _ hid
    have hp : p ∈ new := (h p).mpr ⟨p₀, hp₀, by rw [hid]; exact hobject⟩
    exact List.mem_map.mpr ⟨p, hp, hname⟩
  · intro hname
    obtain ⟨p, hp, rfl⟩ := List.mem_map.mp hname
    obtain ⟨p₀, hp₀, hname⟩ := (table.renamed h hp).1
    exact List.mem_map.mpr ⟨p₀, hp₀, hname⟩

def numberedNames (names : List String) : List (Nat × String) :=
  names.zipIdx.map fun entry => (entry.2, entry.1)

theorem mem_fresh {names : List String} {n id : Nat} {p : Param} :
    (id, p) ∈ fresh n (numberedNames names) ↔
      names[id]? = some p.name ∧ p.uuid = n + id := by
  have entries : fresh n (numberedNames names) =
      names.zipIdx.map fun entry => (entry.2, (⟨entry.1, n + entry.2⟩ : Param)) := by
    apply List.ext_getElem
    · simp [fresh, numberedNames]
    · intro i hi hi'
      simp [fresh, numberedNames]
  rw [entries, List.mem_map]
  constructor
  · intro ⟨entry, hentry, heq⟩
    cases heq
    exact ⟨List.mem_zipIdx_iff_getElem?.mp hentry, rfl⟩
  · intro ⟨hname, huuid⟩
    exact ⟨(p.name, id), List.mem_zipIdx_iff_getElem?.mpr hname, by rw [← huuid]⟩

theorem fresh_keys {names : List String} {n : Nat} :
    ((fresh n (numberedNames names)).reverse.map (·.1)).Nodup := by
  have keys : (fresh n (numberedNames names)).map (·.1) =
      List.range names.length := by
    apply List.ext_getElem
    · simp [fresh, numberedNames]
    · intro i hi hi'
      simp [fresh, numberedNames]
  rw [List.map_reverse, List.nodup_reverse, keys]
  exact List.nodup_range

/-- The table of new objects for the header of a list of names. -/
theorem fresh_table {names : List String} (n : Nat) :
    Table (fun name => names.idxOf? name)
      (Worker.objects (fresh n (numberedNames names)))
      n (n + names.length) where
  agrees name id hid := by
    obtain ⟨hlt, hname, -⟩ := List.idxOf?_eq_some_iff.mp hid
    refine ⟨⟨name, n + id⟩, ?_, rfl⟩
    refine lookup_of_nodup fresh_keys (List.mem_reverse.mpr (mem_fresh.mpr ⟨?_, rfl⟩))
    rw [List.getElem?_eq_getElem hlt, hname]
  bounds id p hp := by
    obtain ⟨hname, huuid⟩ := mem_fresh.mp (List.mem_reverse.mp (mem_of_lookup hp))
    have hlt := (List.getElem?_eq_some_iff.mp hname).1
    omega

end Tables

/-! ## Rows -/

/-- What `export_operations` writes of an operation beside its wires. -/
def exportRow (q : Qiskit F E) (l : Library F E S) (ids : String → Option Nat)
    (operation : Operation F E S) :
    Except Refusal (String × List (Encoded F) × Payload F S) := do
  match ← operation_descriptor q l ids operation with
  | .mk name _ _ params payload => do
      let payload ← attach operation payload
      pure (name, params, payload)

section Rows
variable {q : Qiskit F E} {l : Library F E S} {ids : String → Option Nat}
  {objects : Nat → Option Param}
  {operation operation' : Operation F E S} {name : String} {params : List (Encoded F)}
  {payload : Payload F S}

theorem export_operations_cons {qubits clbits : List Nat} {data : List (Instruction F E S)} :
    export_operations q l ids (.mk operation qubits clbits :: data) = (do
      let row ← exportRow q l ids operation
      let rows ← export_operations q l ids data
      pure (.mk row.1 qubits clbits row.2.1 row.2.2 :: rows)) := by
  rw [export_operations, exportRow]
  cases operation_descriptor q l ids operation with
  | error e => rfl
  | ok descriptor =>
      cases descriptor with
      | mk name arity clbits params payload =>
          change (attach operation payload >>= _) = (attach operation payload >>= _) >>= _
          cases attach operation payload with
          | error e => rfl
          | ok payload => rfl

theorem exportRow_eq_ok :
    exportRow q l ids operation = .ok (name, params, payload) ↔ ∃ arity clbits payload₀,
      operation_descriptor q l ids operation = .ok (.mk name arity clbits params payload₀) ∧
        attach operation payload₀ = .ok payload := by
  constructor
  · intro h
    obtain ⟨descriptor, hdescriptor, h⟩ := bind_eq_ok.mp h
    cases descriptor with
    | mk name' arity clbits params' payload₀ =>
        obtain ⟨payload', hattach, h⟩ := bind_eq_ok.mp h
        cases h
        exact ⟨arity, clbits, payload₀, hdescriptor, hattach⟩
  · intro ⟨arity, clbits, payload₀, hdescriptor, hattach⟩
    exact bind_eq_ok.mpr ⟨_, hdescriptor, bind_eq_ok.mpr ⟨payload, hattach, rfl⟩⟩

theorem attach_outside (outside : ∀ kind blocks, operation ≠ .flow kind blocks) :
    attach operation payload = .ok payload := by
  cases operation with
  | flow kind blocks => exact absurd rfl (outside kind blocks)
  | _ => rfl

theorem Operation.Plain.outside (h : operation.Plain) (kind : Flow)
    (blocks : List (Circuit F E S)) : operation ≠ .flow kind blocks := by
  rintro rfl
  exact h

theorem Operation.own_outside (outside : ∀ kind blocks, operation ≠ .flow kind blocks) :
    operation.own q = operation.parameters q ∧ operation.parts q = [] := by
  cases operation with
  | flow kind blocks => exact absurd rfl (outside kind blocks)
  | _ => exact ⟨rfl, rfl⟩

theorem Operation.importable_outside (outside : ∀ kind blocks, operation ≠ .flow kind blocks) :
    operation.Importable q ↔ operation.Plain := by
  cases operation with
  | flow kind blocks => exact absurd rfl (outside kind blocks)
  | _ => exact Iff.rfl

theorem importPayload_outside {frame : Frame F E} {n : Nat} {qubits clbits : List Nat}
    (outside : ∀ (blocks : List (Document F S)) indices condition,
      payload ≠ .controlFlow blocks indices condition) :
    importPayload q l objects frame n name qubits clbits params payload = (do
      let operation ←
        construct_operation q l objects (.mk name qubits.length clbits.length params payload)
      pure (operation, n)) := by
  cases payload with
  | controlFlow blocks indices condition => exact absurd rfl (outside blocks indices condition)
  | _ => rw [importPayload]; exact nofun

/-- An operation is written like another and takes as many wires; its own parameters are
the objects of the ids, those of its blocks are new, and they have the same names. -/
structure Operation.Copied (q : Qiskit F E) (l : Library F E S) (ids : String → Option Nat)
    (objects : Nat → Option Param) (lo hi : Nat) (operation operation' : Operation F E S) :
    Prop where
  row : exportRow q l ids operation' = exportRow q l ids operation
  num_qubits : operation'.num_qubits = operation.num_qubits
  num_clbits : operation'.num_clbits = operation.num_clbits
  own : Renames ids objects (operation.own q) (operation'.own q)
  parts : List.Forall₂ SameNames (operation.parts q) (operation'.parts q)
  numbered : Numbered lo hi (operation'.parts q)

/-- An operation without blocks. -/
theorem importOutside_succeeds (laws : q.Lawful) (documented : l.Documented q)
    (agrees : Agrees ids objects)
    {frame frame' : Frame F E} (wellFormed : operation.WellFormed q l frame)
    (outside : ∀ kind blocks, operation ≠ .flow kind blocks) {qubits clbits : List Nat}
    (hqubits : qubits.length = operation.num_qubits)
    (hclbits : clbits.length = operation.num_clbits)
    (h : exportRow q l ids operation = .ok (name, params, payload)) (n : Nat) :
    Succeeds (operation.Importable q)
      (fun out => n ≤ out.2 ∧ operation.Copied q l ids objects n out.2 out.1)
      (importPayload q l objects frame' n name qubits clbits params payload) := by
  obtain ⟨arity, num_clbits, payload₀, hdescriptor, hattach⟩ := exportRow_eq_ok.mp h
  obtain rfl : payload₀ = payload := Except.ok.inj ((attach_outside outside).symm.trans hattach)
  have hdescribed := described hdescriptor
  obtain ⟨harity, hclbits'⟩ := hdescribed.widths
  rw [importPayload_outside (hdescribed.payload_ne outside), hqubits, hclbits, ← harity,
    ← hclbits']
  have built := construct_succeeds laws documented agrees operation wellFormed _ hdescriptor
  refine (built.then fun operation' hop => ⟨_, rfl, ?_⟩).imp
    (Operation.importable_outside outside).symm fun _ h => h
  have outside' := hop.plain.outside
  have hown := Operation.own_outside (q := q) outside
  have hown' := Operation.own_outside (q := q) outside'
  refine ⟨Nat.le_refl _, ?_, hop.num_qubits, hop.num_clbits, ?_, ?_, ?_⟩
  · rw [h]
    exact exportRow_eq_ok.mpr ⟨arity, num_clbits, payload₀, hop.described,
      attach_outside outside'⟩
  · rw [hown.1, hown'.1]
    exact hop.parameters
  · rw [hown.2, hown'.2]
    exact .nil
  · rw [hown'.2]
    exact .nil

end Rows

/-! ## Control flow -/

section Flows
variable {q : Qiskit F E} {l : Library F E S} {frame frame' : Frame F E}
  {blocks blocks' : List (Circuit F E S)}
  {documents : List (Document F S)} {payload : Payload F S}

/-- A condition is read back as one that is written alike; one on a register of one bit
comes back as one on the bit. -/
theorem decodeCondition_encode {condition : Condition} {bits : List Nat} {value : Int}
    (within : condition.In frame) (wellFormed : frame.WellFormed q l)
    (hclbits : frame'.num_clbits = frame.num_clbits) (hcregs : frame'.cregs = frame.cregs)
    (h : condition.encode = .ok (bits, value)) :
    ∃ condition', decodeCondition frame' bits value = .ok condition' ∧
      condition'.encode = .ok (bits, value) := by
  have bit : ∀ index, index < frame.num_clbits → ∃ condition',
      decodeCondition frame' [index] value = .ok condition' ∧
        condition'.encode = .ok ([index], value) := by
    intro index hindex
    refine ⟨.bit index value, ?_, rfl⟩
    rw [decodeCondition, if_pos (by rw [hclbits]; exact hindex)]
  cases condition with
  | expr => cases h
  | bit index value =>
      cases h
      exact bit index within
  | register r value =>
      cases h
      by_cases hone : ∃ index, r.bits = [index]
      · obtain ⟨index, hbits⟩ := hone
        have hlt := wellFormed.cregs r within index (by rw [hbits]; exact List.mem_singleton_self _)
        rw [hbits]
        exact bit index hlt
      · have found : (frame'.cregs.find? (·.bits == r.bits)).isSome := by
          rw [List.find?_isSome, hcregs]
          exact ⟨r, within, beq_self_eq_true _⟩
        obtain ⟨r', hr'⟩ := Option.isSome_iff_exists.mp found
        refine ⟨.register r' value, ?_, ?_⟩
        · rw [decodeCondition, hr']
          exact fun index hbits => hone ⟨index, hbits⟩
        · have hbits : r'.bits = r.bits := by simpa using List.find?_some hr'
          rw [Condition.encode, hbits]

theorem take_blocks (h : blocks.length = 1 ∨ blocks.length = 2) :
    ∃ body rest, blocks = body :: rest ∧ body :: rest.take 1 = blocks := by
  match blocks, h with
  | [body], _ => exact ⟨body, [], rfl, rfl⟩
  | [body, other], _ => exact ⟨body, [other], rfl, rfl⟩

/-- The operation around imported blocks is written like the one that was exported. -/
theorem controlFlow_rebuilt {kind : Flow} {payload₀ : Payload F S}
    (takes : kind.Takes frame blocks) (wellFormed : frame.WellFormed q l)
    (hclbits : frame'.num_clbits = frame.num_clbits) (hcregs : frame'.cregs = frame.cregs)
    (hlength : blocks'.length = blocks.length) (hpayload : kind.payload documents = .ok payload₀)
    (hattach : attach (.flow kind blocks) payload₀ = .ok payload) :
    ∃ indices condition kind', payload = .controlFlow documents indices condition ∧
      controlFlow frame' kind.name blocks' indices condition = .ok (.flow kind' blocks') ∧
      kind'.name = kind.name ∧ kind'.payload documents = .ok payload₀ ∧
      attach (.flow kind' blocks') payload₀ = .ok payload := by
  cases kind with
  | other name => cases hpayload
  | ifElse condition =>
      cases hpayload
      obtain ⟨⟨bits, value⟩, hencode, hattach⟩ := bind_eq_ok.mp hattach
      cases hattach
      obtain ⟨condition', hdecode, hencode'⟩ :=
        decodeCondition_encode takes.1 wellFormed hclbits hcregs hencode
      obtain ⟨body, rest, rfl, htake⟩ := take_blocks (hlength ▸ takes.2)
      refine ⟨none, some (bits, value), .ifElse condition', rfl, ?_, rfl, rfl, ?_⟩
      · rw [controlFlow, Flow.name, if_neg (by decide)]
        refine bind_eq_ok.mpr ⟨condition', hdecode, ?_⟩
        rw [if_pos rfl]
        change Except.ok (Operation.flow (.ifElse condition') (body :: rest.take 1)) = _
        rw [htake]
      · exact bind_eq_ok.mpr ⟨_, hencode', rfl⟩
  | whileLoop condition =>
      cases hpayload
      obtain ⟨⟨bits, value⟩, hencode, hattach⟩ := bind_eq_ok.mp hattach
      cases hattach
      obtain ⟨condition', hdecode, hencode'⟩ :=
        decodeCondition_encode takes.1 wellFormed hclbits hcregs hencode
      obtain ⟨body, rfl⟩ := List.length_eq_one_iff.mp (hlength.trans takes.2)
      refine ⟨none, some (bits, value), .whileLoop condition', rfl, ?_, rfl, rfl, ?_⟩
      · rw [controlFlow, Flow.name, if_neg (by decide)]
        refine bind_eq_ok.mpr ⟨condition', hdecode, ?_⟩
        rw [if_neg (by decide), if_pos rfl]
        rfl
      · exact bind_eq_ok.mpr ⟨_, hencode', rfl⟩
  | forLoop indices parameter =>
      cases parameter with
      | some parameter => cases hpayload
      | none =>
          cases hpayload
          cases hattach
          obtain ⟨body, rfl⟩ := List.length_eq_one_iff.mp (hlength.trans takes)
          refine ⟨some indices, none, .forLoop indices none, rfl, ?_, rfl, rfl, rfl⟩
          rw [controlFlow, Flow.name, if_pos rfl]

end Flows

end TranspileBench.Worker
