import TranspileBench.Verifier.Oracles
import TranspileBench.Verifier.Deferred
import Mathlib

/-!
Dropping idle wires: what a compacted circuit prepares is what the circuit prepares, with the
idle wires at zero.
-/
namespace TranspileBench.Verifier
open Amplitudes Fallible

variable {P K : Type} [CommRing K] [StarRing K] {n m k w : Nat}

/-! ## States -/

/-- The wires that are not kept are zero. -/
def Idle (emb : Fin w ↪ Fin n) (b : BitVec n) : Prop := ∀ i, (∀ j, emb j ≠ i) → b.getLsbD i = false

instance (emb : Fin w ↪ Fin n) (b : BitVec n) : Decidable (Idle emb b) :=
  inferInstanceAs (Decidable (∀ i, (∀ j, emb j ≠ i) → b.getLsbD i = false))

/-- The state with idle wires added. -/
def widen (emb : Fin w ↪ Fin n) (ψ : State w K) : State n K :=
  fun b => if Idle emb b then ψ (gather emb b) else 0

theorem gather_trans (qs : Fin k ↪ Fin w) (emb : Fin w ↪ Fin n) (b : BitVec n) :
    gather (qs.trans emb) b = gather qs (gather emb b) :=
  index_ext fun j => by rw [getLsbD_gather, getLsbD_gather, getLsbD_gather]; rfl

theorem wireOf_trans (qs : Fin k ↪ Fin w) (emb : Fin w ↪ Fin n) (i : Fin w) :
    wireOf (qs.trans emb) (emb i) = wireOf qs i := by
  refine Option.ext fun j => ?_
  rw [wireOf_eq_some, wireOf_eq_some]
  exact emb.injective.eq_iff

theorem gather_scatter (qs : Fin k ↪ Fin w) (emb : Fin w ↪ Fin n) (b : BitVec n) (c : BitVec k) :
    gather emb (scatter (qs.trans emb) b c) = scatter qs (gather emb b) c :=
  index_ext fun i => by rw [getLsbD_gather, getLsbD_scatter, getLsbD_scatter, wireOf_trans,
    getLsbD_gather]

theorem idle_scatter (qs : Fin k ↪ Fin w) (emb : Fin w ↪ Fin n) (b : BitVec n) (c : BitVec k) :
    Idle emb (scatter (qs.trans emb) b c) ↔ Idle emb b := by
  refine forall₂_congr fun i hi => ?_
  rw [scatter_other fun j => hi (qs j)]

theorem evolve_widen (U : Isometry (BitVec k) K) (qs : Fin k ↪ Fin w) (emb : Fin w ↪ Fin n)
    (ψ : State w K) :
    evolve U (qs.trans emb) (widen emb ψ) = widen emb (evolve U qs ψ) := by
  funext b
  change ∑ c, U.matrix (gather (qs.trans emb) b) c * widen emb ψ (scatter (qs.trans emb) b c) =
    if Idle emb b then ∑ c, U.matrix (gather qs (gather emb b)) c * ψ
      (scatter qs (gather emb b) c) else 0
  simp only [widen, idle_scatter, gather_scatter, gather_trans]
  split <;> simp

omit [StarRing K] in
theorem widen_zeroState (emb : Fin w ↪ Fin n) : widen emb (zeroState w K) = zeroState n K := by
  funext b
  have hzero : b = 0#n ↔ Idle emb b ∧ gather emb b = 0#w := by
    constructor
    · rintro rfl
      exact ⟨fun i _ => BitVec.getLsbD_zero, index_ext fun j => by
        rw [getLsbD_gather, BitVec.getLsbD_zero, BitVec.getLsbD_zero]⟩
    · rintro ⟨hidle, hkept⟩
      refine index_ext fun i => ?_
      by_cases hi : ∃ j, emb j = i
      · obtain ⟨j, rfl⟩ := hi
        rw [← getLsbD_gather, hkept]
        simp
      · rw [hidle i fun j hj => hi ⟨j, hj⟩]
        simp
  simp only [widen, zeroState, hzero]
  split_ifs <;> simp_all

/-! ## Scans -/

def Placed.widen (emb : Fin w ↪ Fin n) (gate : Placed w K) : Placed n K :=
  ⟨gate.width, gate.matrix, gate.qs.trans emb⟩

/-- What a gate does to a state, if it has a matrix. -/
def Placed.act (gate : Placed n K) (state : State n K) : Except Stop (State n K) :=
  match gate.matrix with
  | some U => .ok (evolve U gate.qs state)
  | none => .error .qiskit

theorem Placed.act_widen (emb : Fin w ↪ Fin n) (gate : Placed w K) (ψ : State w K) :
    (gate.widen emb).act (Verifier.widen emb ψ) = (gate.act ψ).map (Verifier.widen emb) := by
  obtain ⟨width, matrix, qs⟩ := gate
  cases matrix with
  | none => rfl
  | some U => exact congrArg Except.ok (evolve_widen U qs emb ψ)

theorem prepare_snoc (gates : List (Placed n K)) (gate : Placed n K) :
    prepare (gates ++ [gate]) = prepare gates >>= gate.act := by
  rw [prepare, List.foldlM_append]
  refine bind_congr fun ψ => ?_
  exact bind_pure _

theorem prepare_widen (emb : Fin w ↪ Fin n) (gates : List (Placed w K)) :
    prepare (gates.map (Placed.widen emb)) = (prepare gates).map (widen emb) := by
  induction gates using List.reverseRecOn with
  | nil => exact congrArg Except.ok (widen_zeroState emb).symm
  | append_singleton gates gate ih =>
      rw [List.map_append, List.map_singleton, prepare_snoc, prepare_snoc, ih]
      cases prepare gates with
      | error e => rfl
      | ok ψ => exact gate.act_widen emb ψ

def Scan.widen (emb : Fin w ↪ Fin n) (s : Scan w m K) : Scan n m K :=
  ⟨s.gates.map (Placed.widen emb), s.measured.map fun x => (emb x.1, x.2)⟩

theorem Scan.widen_wires (emb : Fin w ↪ Fin n) (s : Scan w m K) (wire : Fin w) :
    emb wire ∈ (s.widen emb).measured.map (·.1) ↔ wire ∈ s.measured.map (·.1) := by
  rw [Scan.widen, List.map_map]
  exact ⟨fun h => by
    obtain ⟨x, hx, heq⟩ := List.mem_map.mp h
    exact List.mem_map.mpr ⟨x, hx, emb.injective heq⟩, fun h => by
    obtain ⟨x, hx, heq⟩ := List.mem_map.mp h
    exact List.mem_map.mpr ⟨x, hx, congrArg emb heq⟩⟩

theorem Scan.widen_bits (emb : Fin w ↪ Fin n) (s : Scan w m K) :
    (s.widen emb).measured.map (·.2) = s.measured.map (·.2) := by
  rw [Scan.widen, List.map_map]
  rfl

/-! ## Circuits -/

section Circuits
variable {wires : List (Fin n)} {h : wires.Nodup}

def keptWires (wires : List (Fin n)) (h : wires.Nodup) : Fin wires.length ↪ Fin n :=
  ⟨wires.get, List.nodup_iff_injective_get.mp h⟩

theorem narrow_eq_some {qs : Fin k ↪ Fin n} {qs' : Fin k ↪ Fin wires.length}
    (hsome : narrow wires qs = some qs') : qs = qs'.trans (keptWires wires h) := by
  unfold narrow at hsome
  split at hsome
  case isTrue =>
    obtain rfl := Option.some.inj hsome
    refine Function.Embedding.ext fun j => ?_
    change qs j = wires.get ⟨wires.idxOf (qs j), _⟩
    simp
  case isFalse => cases hsome

theorem narrowWire_eq_some {q : Fin n} {q' : Fin wires.length}
    (hsome : narrowWire wires q = some q') :
    q = keptWires wires h q' := by
  unfold narrowWire at hsome
  split at hsome
  case isTrue =>
    obtain rfl := Option.some.inj hsome
    simp [keptWires]
  case isFalse => cases hsome

theorem compact_cons {op : Op P K n m} {rest : Circuit P K n m} {small : Circuit P K wires.length m}
    (hop : op ≠ .barrier) (hsmall : (Circuit.cons op rest).compact wires = some small) :
    ∃ op' rest', op.narrow wires = some op' ∧ rest.compact wires = some rest' ∧
      small = .cons op' rest' := by
  have hbind : (op.narrow wires >>= fun op => rest.compact wires >>= fun rest =>
      some (Circuit.cons op rest)) =
      some small := by
    cases op with
    | barrier => exact absurd rfl hop
    | _ => exact hsmall
  obtain ⟨op', hnarrow, hbind⟩ := Option.bind_eq_some_iff.mp hbind
  obtain ⟨rest', hrest, hbind⟩ := Option.bind_eq_some_iff.mp hbind
  exact ⟨op', rest', hnarrow, hrest, (Option.some.inj hbind).symm⟩

theorem scan_compact : ∀ (circuit : Circuit P K n m) {small : Circuit P K wires.length m},
    circuit.compact wires = some small → ∀ s : Scan wires.length m K,
      scan circuit (s.widen (keptWires wires h)) =
        (scan small s).map fun x => (x.1, x.2.widen (keptWires wires h))
  | .done phase, _, hsmall, s => by
      obtain rfl := Option.some.inj hsmall
      rfl
  | .cons .barrier rest, _, hsmall, s => scan_compact rest hsmall s
  | .cons (.measure wire bit) rest, _, hsmall, s => by
      obtain ⟨_, rest', hop, hrest, rfl⟩ := compact_cons (by simp) hsmall
      obtain ⟨wire', hwire, rfl⟩ := Option.map_eq_some_iff.mp hop
      obtain rfl := narrowWire_eq_some (h := h) hwire
      rw [scan, scan]
      simp only [Scan.widen_wires, Scan.widen_bits]
      split
      case isTrue => rfl
      case isFalse =>
        rw [← scan_compact rest hrest]
        simp [Scan.widen]
  | .cons (.gate name matrix qs cs) rest, _, hsmall, s => by
      obtain ⟨_, rest', hop, hrest, rfl⟩ := compact_cons (by simp) hsmall
      obtain ⟨qs', hqs, rfl⟩ := Option.map_eq_some_iff.mp hop
      obtain rfl := narrow_eq_some (h := h) hqs
      rw [scan, scan]
      have hwires : (∃ j, (qs'.trans (keptWires wires h)) j
          ∈ (s.widen (keptWires wires h)).measured.map (·.1)) ↔
          ∃ j, qs' j ∈ s.measured.map (·.1) := exists_congr fun j => Scan.widen_wires _ s (qs' j)
      simp only [hwires]
      split
      case isTrue => rfl
      case isFalse =>
        split
        case isTrue => rfl
        case isFalse =>
          rw [← scan_compact rest hrest]
          simp [Scan.widen, Placed.widen]
  -- the instrument refuses what is left
  | .cons (.reset _) _, _, hsmall, _ | .cons (.ifThen ..) _, _, hsmall, _
  | .cons (.ifElse ..) _, _, hsmall, _ | .cons (.whileLoop ..) _, _, hsmall, _
  | .cons (.forLoop ..) _, _, hsmall, _ => by
      obtain ⟨_, _, hop, _, rfl⟩ := compact_cons (by simp) hsmall
      obtain ⟨_, _, rfl⟩ := Option.map_eq_some_iff.mp hop
      rfl

theorem measurements_compact : ∀ (circuit : Circuit P K n m) {small : Circuit P K wires.length m},
    circuit.compact wires = some small →
      circuit.measurements = small.measurements.map fun x => (keptWires wires h x.1, x.2)
  | .done phase, _, hsmall => by
      obtain rfl := Option.some.inj hsmall
      rfl
  | .cons .barrier rest, _, hsmall => measurements_compact rest hsmall
  | .cons (.measure wire bit) rest, _, hsmall => by
      obtain ⟨_, rest', hop, hrest, rfl⟩ := compact_cons (by simp) hsmall
      obtain ⟨wire', hwire, rfl⟩ := Option.map_eq_some_iff.mp hop
      obtain rfl := narrowWire_eq_some (h := h) hwire
      exact congrArg _ (measurements_compact rest hrest)
  | .cons (.gate ..) rest, _, hsmall | .cons (.reset _) rest, _, hsmall
  | .cons (.ifThen ..) rest, _, hsmall | .cons (.ifElse ..) rest, _, hsmall
  | .cons (.whileLoop ..) rest, _, hsmall | .cons (.forLoop ..) rest, _, hsmall => by
      obtain ⟨_, _, hop, hrest, rfl⟩ := compact_cons (by simp) hsmall
      obtain ⟨_, _, rfl⟩ := Option.map_eq_some_iff.mp hop
      have ih := measurements_compact rest hrest
      exact ih

end Circuits

end TranspileBench.Verifier
