import TranspileBench.Lib.Assoc
import TranspileBench.Worker.Renaming
import Mathlib

/-!
The levels of a circuit. A circuit uses parameters of its own, and its blocks use theirs;
an import gives every circuit new objects, so what the circuit and the blocks of one level
share by name is two objects there, which no circuit takes.
-/
namespace TranspileBench.Worker
open Fallible

variable {F E S : Type}

/-! ## Names -/

/-- A name is that of one object. -/
def Consistent (parameters : List Param) : Prop :=
  ∀ p ∈ parameters, ∀ p' ∈ parameters, p.name = p'.name → p = p'

def NamesDisjoint (P P' : List Param) : Prop :=
  ∀ p ∈ P, ∀ p' ∈ P', p.name ≠ p'.name

def SameNames (P P' : List Param) : Prop :=
  ∀ name, name ∈ P.map (·.name) ↔ name ∈ P'.map (·.name)

/-- What a level uses itself and what its blocks use have no name in common. -/
def Separated (own : List Param) (parts : List (List Param)) : Prop :=
  (own :: parts).Pairwise NamesDisjoint

section Names
variable {P P' Q Q' : List Param} {groups groups' : List (List Param)}

theorem Consistent.congr (h : Consistent P) (hmem : ∀ p, p ∈ Q → p ∈ P) : Consistent Q :=
  fun p hp p' hp' => h p (hmem p hp) p' (hmem p' hp')

/-- A circuit has no two parameters of a name when its objects have different names. -/
theorem consistent_iff_nodup : Consistent P ↔ (P.dedup.map (·.name)).Nodup := by
  constructor
  · intro h
    exact (List.nodup_dedup P).map_on fun p hp p' hp' =>
      h p (List.mem_dedup.mp hp) p' (List.mem_dedup.mp hp')
  · intro h p hp p' hp'
    exact List.inj_on_of_nodup_map h (List.mem_dedup.mpr hp) (List.mem_dedup.mpr hp')

theorem SameNames.append (h : SameNames P P') (h' : SameNames Q Q') :
    SameNames (P ++ Q) (P' ++ Q') := by
  intro name
  simp only [List.map_append, List.mem_append, h name, h' name]

theorem SameNames.congr (h : SameNames P Q) (hP : ∀ p, p ∈ P ↔ p ∈ P')
    (hQ : ∀ p, p ∈ Q ↔ p ∈ Q') : SameNames P' Q' := by
  intro name
  simp only [List.mem_map, ← hP, ← hQ]
  simpa only [List.mem_map] using h name

theorem SameNames.flatten (h : List.Forall₂ SameNames groups groups') :
    SameNames groups.flatten groups'.flatten := by
  induction h with
  | nil => exact fun name => Iff.rfl
  | cons hP _ ih => exact hP.append ih

theorem SameNames.disjoint_iff (h : SameNames P P') (h' : SameNames Q Q') :
    NamesDisjoint P Q ↔ NamesDisjoint P' Q' := by
  have names : ∀ P Q : List Param, NamesDisjoint P Q ↔
      ∀ name ∈ P.map (·.name), name ∉ Q.map (·.name) := by
    intro P Q
    simp only [NamesDisjoint, List.mem_map, not_exists, not_and, forall_exists_index, and_imp,
      forall_apply_eq_imp_iff₂]
    exact ⟨fun h p hp p' hp' heq => h p hp p' hp' heq.symm,
      fun h p hp p' hp' heq => h p hp p' hp' heq.symm⟩
  rw [names, names]
  exact forall_congr' fun name => by rw [h name, h' name]

theorem pairwise_disjoint_iff (h : List.Forall₂ SameNames groups groups') :
    groups.Pairwise NamesDisjoint ↔ groups'.Pairwise NamesDisjoint := by
  induction h with
  | nil => simp
  | @cons P P' groups groups' hP hgroups ih =>
      rw [List.pairwise_cons, List.pairwise_cons, ih]
      refine and_congr ?_ Iff.rfl
      clear ih
      induction hgroups with
      | nil => simp
      | cons hQ _ ih => rw [List.forall_mem_cons, List.forall_mem_cons, hP.disjoint_iff hQ, ih]

/-- Groups of different objects make one consistent list when they share no name. -/
theorem consistent_flatten (consistent : ∀ P ∈ groups, Consistent P)
    (disjoint : groups.Pairwise List.Disjoint) :
    Consistent groups.flatten ↔ groups.Pairwise NamesDisjoint := by
  induction groups with
  | nil => simp [Consistent]
  | cons P groups ih =>
      obtain ⟨hP, hgroups⟩ := List.forall_mem_cons.mp consistent
      obtain ⟨hfirst, hrest⟩ := List.pairwise_cons.mp disjoint
      have ih := ih hgroups hrest
      rw [List.flatten_cons, List.pairwise_cons, ← ih]
      constructor
      · intro h
        refine ⟨fun Q hQ p hp p' hp' heq => ?_, h.congr fun p => List.mem_append_right _⟩
        have hflat := List.mem_flatten_of_mem hQ hp'
        have hsame := h p (List.mem_append_left _ hp) p' (List.mem_append_right _ hflat) heq
        exact hfirst Q hQ hp (hsame ▸ hp')
      · intro ⟨hnames, hflat⟩ p hp p' hp' heq
        cases List.mem_append.mp hp with
        | inl hp =>
            cases List.mem_append.mp hp' with
            | inl hp' => exact hP p hp p' hp' heq
            | inr hp' =>
                obtain ⟨Q, hQ, hp'⟩ := List.mem_flatten.mp hp'
                exact absurd heq (hnames Q hQ p hp p' hp')
        | inr hp =>
            cases List.mem_append.mp hp' with
            | inl hp' =>
                obtain ⟨Q, hQ, hp⟩ := List.mem_flatten.mp hp
                exact absurd heq.symm (hnames Q hQ p' hp' p hp)
            | inr hp' => exact hflat p hp p' hp' heq

theorem NamesDisjoint.mono {P Q P' Q' : List Param} (h : NamesDisjoint P' Q') (hP : P ⊆ P')
    (hQ : Q ⊆ Q') : NamesDisjoint P Q :=
  fun p hp p' hp' => h p (hP hp) p' (hQ hp')

theorem Separated.mono {own own' : List Param} {parts parts' : List (List Param)}
    (h : Separated own' parts') (hown : own ⊆ own') (hparts : parts.Sublist parts') :
    Separated own parts := by
  obtain ⟨hfirst, hrest⟩ := List.pairwise_cons.mp h
  refine List.pairwise_cons.mpr ⟨fun part hpart => ?_, hrest.sublist hparts⟩
  exact (hfirst part (hparts.subset hpart)).mono hown (List.Subset.refl _)

theorem Separated.alone (own : List Param) : Separated own [] := List.pairwise_singleton ..

end Names

/-! ## What Qiskit documents -/

/-- The gate of a standard class with these arguments. -/
def Template.gate (t : Template) (name : String) (params : List (Value F E)) : Gate F E where
  name
  base_class := t.base_class
  num_qubits := t.num_qubits
  num_clbits := t.num_clbits
  params
  control := t.num_ctrl_qubits.map fun n => (n, 2 ^ n - 1)

/-- Whether a circuit has the wires, no qubit is taken twice, and the operation takes as
many. -/
def accepts (frame : Frame F E) (operation : Operation F E S) (qubits clbits : List Nat) : Bool :=
  qubits.length == operation.num_qubits && clbits.length == operation.num_clbits
    && qubits.all (· < frame.num_qubits) && clbits.all (· < frame.num_clbits)
    && decide qubits.Nodup

/-- What the adapter relies on of circuits and of standard gates. -/
structure Library.Documented (q : Qiskit F E) (l : Library F E S) : Prop where
  /-- The parameters of the global phase and of the operations, those in blocks included. -/
  parameters : ∀ c p, p ∈ l.parameters c ↔ p ∈ c.parameters q
  /-- A gate keeps the arguments it is given; a controlled one is controlled by ones. -/
  construct : ∀ t name params, q.standard name = some t → params.length = l.num_params name →
    (∀ param ∈ params, param.fraction? = none) →
    l.construct t name params = .ok (t.gate name params)
  /-- A parameter expression is a global phase as it is. -/
  setPhase : ∀ e, q.parameters e ≠ [] → l.setPhase (.expr e) = .ok (.expr e)
  /-- An operation on as many wires of the circuit as it takes comes last. -/
  appended : ∀ frame data operation qubits clbits, accepts frame operation qubits clbits = true →
    Consistent (frame.global_phase.parameters q ++ dataParameters q data
      ++ operation.parameters q) →
    l.append frame data operation qubits clbits = .ok (data ++ [.mk operation qubits clbits])
  /-- No circuit takes two parameters of one name. -/
  refused : ∀ frame data operation qubits clbits,
    ¬ Consistent (frame.global_phase.parameters q ++ dataParameters q data
      ++ operation.parameters q) →
    ∃ e, l.append frame data operation qubits clbits = .error e

/-! ## New objects -/

/-- Parameters of blocks: of one object a name in each block, numbered from `lo` below `hi`,
and no object in two blocks. -/
structure Numbered (lo hi : Nat) (parts : List (List Param)) : Prop where
  consistent : ∀ part ∈ parts, Consistent part
  bounds : ∀ part ∈ parts, ∀ p ∈ part, lo ≤ p.uuid ∧ p.uuid < hi
  disjoint : parts.Pairwise List.Disjoint

section Numbered
variable {lo mid hi : Nat} {parts parts' : List (List Param)}

theorem Numbered.nil : Numbered lo hi [] := ⟨by simp, by simp, .nil⟩

theorem Numbered.single {part : List Param} (consistent : Consistent part)
    (bounds : ∀ p ∈ part, lo ≤ p.uuid ∧ p.uuid < hi) : Numbered lo hi [part] :=
  ⟨by simpa using consistent, by simpa using bounds, List.pairwise_singleton ..⟩

theorem Numbered.append (h : Numbered lo mid parts) (h' : Numbered mid hi parts')
    (hlo : lo ≤ mid) (hhi : mid ≤ hi) : Numbered lo hi (parts ++ parts') where
  consistent part hpart := (List.mem_append.mp hpart).elim (h.consistent part) (h'.consistent part)
  bounds part hpart p hp := by
    cases List.mem_append.mp hpart with
    | inl hpart =>
        have := h.bounds part hpart p hp
        omega
    | inr hpart =>
        have := h'.bounds part hpart p hp
        omega
  disjoint := by
    refine List.pairwise_append.mpr ⟨h.disjoint, h'.disjoint, fun part hpart part' hpart' => ?_⟩
    intro p hp hp'
    have := h.bounds part hpart p hp
    have := h'.bounds part' hpart' p hp'
    omega

end Numbered

/-! ## The parameters of a level -/

section Levels
variable (q : Qiskit F E)

/-- What an operation uses outside of its blocks. -/
def Operation.own : Operation F E S → List Param
  | .flow _ _ => []
  | operation => operation.parameters q

/-- What each of its blocks uses. -/
def Operation.parts : Operation F E S → List (List Param)
  | .flow _ blocks => blocks.map (·.parameters q)
  | _ => []

def Instruction.operation : Instruction F E S → Operation F E S
  | .mk operation _ _ => operation

def dataOwn (data : List (Instruction F E S)) : List Param :=
  data.flatMap (·.operation.own q)

def dataParts (data : List (Instruction F E S)) : List (List Param) :=
  data.flatMap (·.operation.parts q)

end Levels

section Levels
variable {q : Qiskit F E} {data data' : List (Instruction F E S)}

@[simp]
theorem dataOwn_append : dataOwn q (data ++ data') = dataOwn q data ++ dataOwn q data' :=
  List.flatMap_append

@[simp]
theorem dataParts_append : dataParts q (data ++ data') = dataParts q data ++ dataParts q data' :=
  List.flatMap_append

@[simp]
theorem dataOwn_single (operation : Operation F E S) (qubits clbits : List Nat) :
    dataOwn q [.mk operation qubits clbits] = operation.own q :=
  List.flatMap_singleton ..

@[simp]
theorem dataParts_single (operation : Operation F E S) (qubits clbits : List Nat) :
    dataParts q [.mk operation qubits clbits] = operation.parts q :=
  List.flatMap_singleton ..

theorem dataOwn_cons (operation : Operation F E S) (qubits clbits : List Nat) :
    dataOwn q (.mk operation qubits clbits :: data) = operation.own q ++ dataOwn q data :=
  List.flatMap_cons ..

theorem dataParts_cons (operation : Operation F E S) (qubits clbits : List Nat) :
    dataParts q (.mk operation qubits clbits :: data) = operation.parts q ++ dataParts q data :=
  List.flatMap_cons ..

theorem blocksParameters_eq (blocks : List (Circuit F E S)) :
    blocksParameters q blocks = (blocks.map (·.parameters q)).flatten := by
  induction blocks with
  | nil => rfl
  | cons block blocks ih => rw [blocksParameters, ih, List.map_cons, List.flatten_cons]

theorem Operation.mem_parameters {operation : Operation F E S} {p : Param} :
    p ∈ operation.parameters q ↔
      p ∈ operation.own q ∨ p ∈ (operation.parts q).flatten := by
  cases operation with
  | flow kind blocks =>
      simp [Operation.parameters, Operation.own, Operation.parts, blocksParameters_eq]
  | _ => simp [Operation.own, Operation.parts]

theorem mem_dataParameters {p : Param} :
    p ∈ dataParameters q data ↔ p ∈ dataOwn q data ∨ p ∈ (dataParts q data).flatten := by
  induction data with
  | nil => simp [dataParameters, dataOwn, dataParts]
  | cons instruction data ih =>
      cases instruction with
      | mk operation qubits clbits =>
          rw [dataParameters, List.mem_append, Operation.mem_parameters, ih, dataOwn_cons,
            dataParts_cons, List.flatten_append, List.mem_append, List.mem_append]
          exact or_or_or_comm

end Levels
end TranspileBench.Worker
