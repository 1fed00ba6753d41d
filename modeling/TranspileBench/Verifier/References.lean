import Mathlib
import TranspileBench.Lib.Fallible
import TranspileBench.Metrics.ReplayEffect

/-!
C1 and C2: the two reference circuits, and that they agree. `expected_circuit` runs the
logical circuit on its initial wires and then permutes the wires; `zero_reference` runs it on
its final wires. Moving every initial wire to its final one takes the one to the other.
-/
namespace TranspileBench.Verifier
open Equiv Metrics Fallible

/-- A circuit as the two references use it: its rows act on distinct wires of its own. -/
structure QuantumCircuit (Phase Value : Type) (num_qubits num_clbits : Nat) where
  global_phase : Phase
  data : List (Operation Value)
  qubits : ∀ op ∈ data, op.WellWired num_qubits
  clbits : ∀ op ∈ data, ∀ c ∈ op.clbits, 0 ≤ c ∧ c < num_clbits

inductive ReferenceError
  | value (errors : List String)
  | circuit
  deriving DecidableEq

variable {Phase Value : Type} {num_qubits num_clbits width : Nat}

namespace QuantumCircuit

@[ext] theorem ext {c d : QuantumCircuit Phase Value num_qubits num_clbits}
    (hphase : c.global_phase = d.global_phase) (hdata : c.data = d.data) : c = d := by
  cases c
  cases d
  cases hphase
  cases hdata
  rfl

/-- `QuantumCircuit(num_qubits, num_clbits)`. -/
def empty [Zero Phase] (num_qubits num_clbits : Nat) :
    QuantumCircuit Phase Value num_qubits num_clbits where
  global_phase := 0
  data := []
  qubits := by simp
  clbits := by simp

/-- What `compose` asks of the wires that a circuit is put on. -/
def Placeable (num_qubits num_clbits width bits : Nat) (qubits : List Int) : Prop :=
  num_qubits ≤ width ∧ num_clbits ≤ bits ∧ qubits.length = num_qubits ∧ qubits.Nodup ∧
    ∀ q ∈ qubits, 0 ≤ q ∧ q < width

instance (num_qubits num_clbits width bits : Nat) (qubits : List Int) :
    Decidable (Placeable num_qubits num_clbits width bits qubits) := by
  unfold Placeable
  infer_instance

theorem entry_mem {values : List Int} {q : Int} (h : 0 ≤ q ∧ q < values.length) :
    entry values q ∈ values := by
  have hq : q.toNat < values.length := by omega
  rw [entry, List.getD_eq_getElem _ _ hq]
  exact List.getElem_mem hq

theorem entry_injective {values : List Int} (hnodup : values.Nodup) {p q : Int}
    (hp : 0 ≤ p ∧ p < values.length) (hq : 0 ≤ q ∧ q < values.length)
    (h : entry values p = entry values q) : p = q := by
  have hp' : p.toNat < values.length := by omega
  have hq' : q.toNat < values.length := by omega
  rw [entry, entry, List.getD_eq_getElem _ _ hp', List.getD_eq_getElem _ _ hq'] at h
  have := hnodup.getElem_inj_iff.mp h
  omega

/-- A row stays well wired on the wires it is put on. -/
theorem wellWired_mapped {qubits : List Int} (hnodup : qubits.Nodup)
    (hbound : ∀ q ∈ qubits, 0 ≤ q ∧ q < width) {op : Operation Value}
    (hop : op.WellWired qubits.length) : (mapped qubits op).WellWired width := by
  constructor
  · intro q hq
    obtain ⟨p, hp, rfl⟩ := List.mem_map.mp hq
    exact hbound _ (entry_mem (hop.1 p hp))
  · exact hop.2.map_on fun p hp q hq heq => entry_injective hnodup (hop.1 p hp) (hop.1 q hq) heq

/-- `compose(other, qubits=qubits, inplace=True)`. -/
def compose [Add Phase] {bits : Nat} (dest : QuantumCircuit Phase Value width bits)
    (other : QuantumCircuit Phase Value num_qubits num_clbits) (qubits : List Int) :
    Except ReferenceError (QuantumCircuit Phase Value width bits) :=
  if h : Placeable num_qubits num_clbits width bits qubits then
    .ok {
      global_phase := dest.global_phase + other.global_phase
      data := dest.data ++ other.data.map (mapped qubits)
      qubits := by
        intro op hop
        rcases List.mem_append.mp hop with hop | hop
        · exact dest.qubits op hop
        · obtain ⟨op', hop', rfl⟩ := List.mem_map.mp hop
          exact wellWired_mapped h.2.2.2.1 h.2.2.2.2 (h.2.2.1 ▸ other.qubits op' hop')
      clbits := by
        intro op hop c hc
        rcases List.mem_append.mp hop with hop | hop
        · exact dest.clbits op hop c hc
        · obtain ⟨op', hop', rfl⟩ := List.mem_map.mp hop
          have hc := other.clbits op' hop' c hc
          exact ⟨hc.1, hc.2.trans_le (by exact_mod_cast h.2.1)⟩ }
  else .error .circuit

/-- `append(operation, range(num_qubits))`. -/
def append (c : QuantumCircuit Phase Value num_qubits num_clbits) (name : String)
    (params : List Value) : QuantumCircuit Phase Value num_qubits num_clbits where
  global_phase := c.global_phase
  data := c.data ++ [⟨name, range num_qubits, [], params, none⟩]
  qubits := by
    intro op hop
    rcases List.mem_append.mp hop with hop | hop
    · exact c.qubits op hop
    · obtain rfl := List.mem_singleton.mp hop
      exact ⟨fun q hq => mem_range.mp hq, range_nodup num_qubits⟩
  clbits := by
    intro op hop b hb
    rcases List.mem_append.mp hop with hop | hop
    · exact c.clbits op hop b hb
    · obtain rfl := List.mem_singleton.mp hop
      cases hb

/-- The same circuit on moved wires. -/
def relabel (σ : Perm (Fin num_qubits)) (c : QuantumCircuit Phase Value num_qubits num_clbits) :
    QuantumCircuit Phase Value num_qubits num_clbits where
  global_phase := c.global_phase
  data := c.data.map (·.relabel σ)
  qubits := by
    intro op hop
    obtain ⟨op', hop', rfl⟩ := List.mem_map.mp hop
    exact (c.qubits op' hop').relabel σ
  clbits := by
    intro op hop b hb
    obtain ⟨op', hop', rfl⟩ := List.mem_map.mp hop
    exact c.clbits op' hop' b hb

end QuantumCircuit

section References
variable [AddMonoid Phase] (asParam : List Int → Value)
  (logical : QuantumCircuit Phase Value num_qubits num_clbits) (width : Nat)
    (layout : Option Layout)

/-- `pattern[final[i]] = initial[i]`. -/
def permutationPattern (initial final : List Int) (width : Nat) : List Int :=
  (List.range width).foldl (fun pattern (i : Nat) =>
    pattern.set (entry final i).toNat (entry initial i)) (List.replicate width 0)

/-- `expected_circuit`; `asParam` is how a permutation gate carries its pattern. -/
def expectedCircuit : Except ReferenceError (QuantumCircuit Phase Value width num_clbits) :=
  let errors := layoutErrors layout num_qubits width none
  if errors ≠ [] then .error (.value errors)
  else do
    let initial := initialOf layout width
    let final := finalOf layout width
    let expected ← (QuantumCircuit.empty width num_clbits).compose logical
      (initial.take num_qubits)
    pure (expected.append "permutation" [asParam (permutationPattern initial final width)])

def zeroReference : Except ReferenceError (QuantumCircuit Phase Value width num_clbits) :=
  let errors := layoutErrors layout num_qubits width none
  if errors ≠ [] then .error (.value errors)
  else (QuantumCircuit.empty width num_clbits).compose logical
    ((finalOf layout width).take num_qubits)

end References

/-- What circuits on some wires mean, as far as the references rely on it: a circuit that is
put on moved wires does the same there, and a permutation gate moves the content of wire
`pattern[k]` to wire `k`. A result holds the state and the classical outcomes; `σ • r` has the
content of every wire `v` at wire `σ v`, and the same outcomes. -/
structure PlacementSemantics (width num_clbits : Nat) (Phase Value State Result : Type)
    [MulAction (Perm (Fin width)) State] [MulAction (Perm (Fin width)) Result]
    (asParam : List Int → Value) where
  run : QuantumCircuit Phase Value width num_clbits → State → Result
  zero : State
  relabel : ∀ (σ : Perm (Fin width)) c s, run (c.relabel σ) (σ • s) = σ • run c s
  permute : ∀ (ρ : Perm (Fin width)) (pattern : List Int), Tracks ρ pattern → ∀ c s,
    run (c.append "permutation" [asParam pattern]) s = ρ⁻¹ • run c s
  smul_zero : ∀ σ : Perm (Fin width), σ • zero = zero

theorem entry_set {values : List Int} (i : Nat) {j : Nat} (hj : j < values.length) (v : Int) :
    entry (values.set i v) j = if i = j then v else entry values j := by
  rw [entry, entry, Int.toNat_natCast, List.getD_eq_getElem _ _ (by rwa [List.length_set]),
    List.getD_eq_getElem _ _ hj, List.getElem_set]

/-- The pattern leads from the final wires back to the initial ones. -/
theorem permutationPattern_tracks {initial final : List Int} {σi σf : Perm (Fin width)}
    (hi : Tracks σi initial) (hf : Tracks σf final) :
    Tracks (σi * σf⁻¹) (permutationPattern initial final width) := by
  have hfill : ∀ k ≤ width,
      let pattern := (List.range k).foldl (fun pattern (i : Nat) =>
        pattern.set (entry final i).toNat (entry initial i)) (List.replicate width 0)
      pattern.length = width ∧
        ∀ i : Fin width, (i : Nat) < k → entry pattern (σf i : Nat) = (σi i : Nat) := by
    intro k
    induction k with
    | zero => simp
    | succ k ih =>
        intro hk
        obtain ⟨hlength, hentries⟩ := ih (by omega)
        have hstep := hf.entry ⟨k, hk⟩
        have hvalue := hi.entry ⟨k, hk⟩
        dsimp only at hstep hvalue
        simp only [List.range_succ, List.foldl_append, List.foldl_cons,
          List.foldl_nil, hstep, hvalue,
          Int.toNat_natCast]
        refine ⟨by rw [List.length_set, hlength], fun i hik => ?_⟩
        rw [entry_set _ (by rw [hlength]; exact (σf i).isLt)]
        by_cases hlast : i = ⟨k, hk⟩
        · rw [hlast, if_pos rfl]
        · have hne : ((σf ⟨k, hk⟩ : Fin width) : Nat) ≠ (σf i : Nat) := fun heq =>
            hlast (σf.injective (Fin.ext heq)).symm
          have hlt : (i : Nat) < k := by
            have hik' : (i : Nat) ≠ k := fun heq => hlast (Fin.ext heq)
            omega
          rw [if_neg hne, hentries i hlt]
  obtain ⟨hlength, hentries⟩ := hfill width le_rfl
  refine ⟨hlength, fun i => ?_⟩
  have hentry := hentries (σf⁻¹ i) (σf⁻¹ i).isLt
  simpa [permutationPattern] using hentry

/-- A row put on the final wires is the row put on the initial wires, moved. -/
theorem mapped_final {initial final : List Int} {σi σf : Perm (Fin width)}
    (hi : Tracks σi initial) (hf : Tracks σf final) (hle : num_qubits ≤ width)
    {op : Operation Value} (hop : op.WellWired num_qubits) :
    mapped (final.take num_qubits) op
      = (mapped (initial.take num_qubits) op).relabel (σf * σi⁻¹) := by
  simp only [mapped, Operation.relabel, Operation.mk.injEq, true_and, and_true, List.map_map]
  refine List.map_congr_left fun q hq => ?_
  have hbound := hop.1 q hq
  obtain ⟨i, rfl⟩ : ∃ i : Fin width, ((i : Nat) : Int) = q := exists_fin ⟨hbound.1, by omega⟩
  have htake : ∀ values : List Int, entry (values.take num_qubits) (i : Nat) = entry values
      (i : Nat) := by
    intro values
    have hi : (i : Nat) < num_qubits := by omega
    simp only [entry, Int.toNat_natCast, List.getD_eq_getElem?_getD, List.getElem?_take_of_lt hi]
  rw [Function.comp_apply, htake, htake, hi.entry, hf.entry, relabelWire_fin, Perm.mul_apply]
  simp

section Agreement
variable [AddMonoid Phase] {State Result : Type} [MulAction (Perm (Fin width)) State]
  [MulAction (Perm (Fin width)) Result] {asParam : List Int → Value}

/-- The two references agree: the first is the second after moving every initial wire to its
final one, which an all-zero state does not show. Where the circuit is wider than the output
there is neither. -/
theorem references_agree
    (sem : PlacementSemantics width num_clbits Phase Value State Result asParam)
    (logical : QuantumCircuit Phase Value num_qubits num_clbits) (layout : Option Layout)
    (accepted : layoutErrors layout num_qubits width none = []) :
    (num_qubits ≤ width → ∃ expected reference, ∃ σ : Perm (Fin width),
      expectedCircuit asParam logical width layout = .ok expected ∧
      zeroReference logical width layout = .ok reference ∧
      (∀ i : Fin width, ∃ j : Fin width, entry (initialOf layout width) (i : Nat) = (j : Nat) ∧
        entry (finalOf layout width) (i : Nat) = (σ j : Nat)) ∧
      (∀ s, sem.run expected s = sem.run reference (σ • s)) ∧
      sem.run expected sem.zero = sem.run reference sem.zero) ∧
    (width < num_qubits → expectedCircuit asParam logical width layout = .error .circuit ∧
      zeroReference logical width layout = .error .circuit) := by
  obtain ⟨hinitial, hfinal⟩ := layout_permutations accepted
  obtain ⟨σi, hi⟩ := exists_tracks hinitial
  obtain ⟨σf, hf⟩ := exists_tracks hfinal
  have hplaceable : ∀ {values : List Int}, values.Perm (range width) → num_qubits ≤ width →
      QuantumCircuit.Placeable num_qubits num_clbits width num_clbits (values.take num_qubits) := by
    intro values hvalues hle
    refine ⟨hle, le_rfl, ?_, ?_, fun q hq => ?_⟩
    · rw [List.length_take, length_of_perm_range hvalues, min_eq_left hle]
    · exact (hvalues.nodup_iff.mpr (range_nodup width)).sublist (List.take_sublist _ _)
    · exact mem_range.mp (hvalues.mem_iff.mp (List.mem_of_mem_take hq))
  rw [expectedCircuit, zeroReference]
  simp only [accepted, ne_eq, not_true_eq_false, if_false]
  constructor
  · intro hle
    obtain ⟨expected, hexpected⟩ : ∃ expected,
      (QuantumCircuit.empty width num_clbits).compose logical
        ((initialOf layout width).take num_qubits) = .ok expected :=
      ⟨_, dif_pos (hplaceable hinitial hle)⟩
    obtain ⟨reference, hreference⟩ : ∃ reference, (QuantumCircuit.empty width num_clbits).compose
        logical ((finalOf layout width).take num_qubits) = .ok reference :=
      ⟨_, dif_pos (hplaceable hfinal hle)⟩
    have hmoved : reference = expected.relabel (σf * σi⁻¹) := by
      rw [QuantumCircuit.compose, dif_pos (hplaceable hinitial hle)] at hexpected
      rw [QuantumCircuit.compose, dif_pos (hplaceable hfinal hle)] at hreference
      cases hexpected
      cases hreference
      refine QuantumCircuit.ext rfl ?_
      simp only [QuantumCircuit.relabel, QuantumCircuit.empty, List.nil_append, List.map_map]
      exact List.map_congr_left fun op hop => mapped_final hi hf hle (logical.qubits op hop)
    have hrun : ∀ s, sem.run (expected.append "permutation"
        [asParam (permutationPattern (initialOf layout width) (finalOf layout width) width)]) s
        = sem.run reference ((σf * σi⁻¹) • s) := by
      intro s
      rw [sem.permute _ _ (permutationPattern_tracks hi hf), hmoved, sem.relabel, mul_inv_rev,
        inv_inv]
    refine ⟨_, reference, σf * σi⁻¹, ?_, hreference, fun i => ⟨σi i, hi.entry i, ?_⟩, hrun, ?_⟩
    · rw [hexpected]
      rfl
    · rw [hf.entry]
      simp
    · rw [hrun, sem.smul_zero]
  · intro hlt
    have hnone : ∀ values, ¬ QuantumCircuit.Placeable num_qubits num_clbits width
        num_clbits values :=
      fun values h => absurd h.1 (by omega)
    constructor
    · rw [QuantumCircuit.compose, dif_neg (hnone _)]
      rfl
    · rw [QuantumCircuit.compose, dif_neg (hnone _)]

end Agreement

/-! ## Gates that count on the contents of their wires -/

def countingGate (params : List (List Int)) (name : String) (old : List Int) (k : Nat) : Int :=
  if name = "permutation" then entry old (entry (params.headD []) k)
  else if name = "cx" ∧ k = 1 then old.foldl (fun a b => a + b) 0
  else entry old k + 1

def countingStep (s : Contents width) (op : Operation (List Int)) : Contents width :=
  positionalApply (countingGate op.params) op s

theorem countingStep_relabel (σ : Perm (Fin width)) {ops : List (Operation (List Int))}
    (hops : ∀ op ∈ ops, op.WellWired width) (s : Contents width) :
    (ops.map (·.relabel σ)).foldl countingStep (σ • s) = σ • ops.foldl countingStep s := by
  induction ops generalizing s with
  | nil => rfl
  | cons op ops ih =>
      obtain ⟨hop, hops⟩ := List.forall_mem_cons.mp hops
      have hstep : countingStep (σ • s) (op.relabel σ) = σ • countingStep s op :=
        (positional width (countingGate op.params)).relabel σ op hop s
      rw [List.map_cons, List.foldl_cons, List.foldl_cons, hstep, ih hops]

theorem idxOf_range (i : Fin width) : (range width).idxOf ((i : Nat) : Int) = i := by
  have hlength : (i : Nat) < (range width).length := by simp [range]
  have hget : (range width)[(i : Nat)] = ((i : Nat) : Int) := by simp [range]
  conv_lhs => rw [← hget]
  exact (range_nodup width).idxOf_getElem _ hlength

theorem countingStep_permutation {ρ : Perm (Fin width)} {pattern : List Int} (h : Tracks ρ pattern)
    (s : Contents width) :
    countingStep s ⟨"permutation", range width, [], [pattern], none⟩ = ρ⁻¹ • s := by
  apply Contents.ext
  intro i
  have hmem : ((i : Nat) : Int) ∈ range width := mem_range.mpr ⟨by omega, by omega⟩
  have hread : entry ((range width).map s.read) (ρ i : Nat) = s.on (ρ i) := by
    simp [entry, range, Contents.read_fin]
  have hmoved : (ρ⁻¹ • s).on i = s.on (ρ i) := by
    have := Contents.smul_on ρ⁻¹ s (ρ i)
    simpa using this
  rw [hmoved, ← hread, ← h.entry]
  simp [countingStep, positionalApply, hmem, Operation.isRoutingSwap, countingGate, idxOf_range]

/-- Wires that count, as a meaning of circuits. -/
def counting (width num_clbits : Nat) :
    PlacementSemantics width num_clbits Int (List Int) (Contents width) (Contents width) id where
  run c s := c.data.foldl countingStep s
  zero := ⟨fun _ => 0⟩
  relabel σ c s := countingStep_relabel σ c.qubits s
  permute ρ pattern h c s := by
    rw [QuantumCircuit.append, List.foldl_append]
    exact countingStep_permutation h _
  smul_zero _ := rfl

/-- `cx` on two wires, placed by a layout whose permutations are not their own inverses. -/
theorem references_agree_rotated :
    let cx : QuantumCircuit Int (List Int) 2 0 :=
      { global_phase := 0, data := [⟨"cx", [0, 1], [], [], none⟩]
        qubits := by simp [Operation.WellWired]
        clbits := by simp }
    let layout : Option Layout := some ⟨2, 3, [2, 0, 1], [1, 2, 0], [2, 0, 1]⟩
    ∃ expected reference, ∃ σ : Perm (Fin 3),
      expectedCircuit id cx 3 layout = .ok expected ∧ zeroReference cx 3 layout = .ok reference ∧
      ∀ s, (counting 3 0).run expected s = (counting 3 0).run reference (σ • s) := by
  intro cx layout
  obtain ⟨expected, reference, σ, hexpected, hreference, -, hrun, -⟩ :=
    (references_agree (counting 3 0) cx layout (by decide)).1 (by decide)
  exact ⟨expected, reference, σ, hexpected, hreference, hrun⟩

end TranspileBench.Verifier
