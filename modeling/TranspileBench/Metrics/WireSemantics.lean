import Mathlib.GroupTheory.Perm.Basic
import Mathlib.Algebra.Group.Action.Basic
import TranspileBench.Lib.Reorder
import TranspileBench.Metrics.ReplayGreedy

/-!
What operations on wires mean, as far as routing may rely on it: a row acts on a
state through its wires only, so renaming the wires commutes with it; rows on
disjoint wires commute; a plain swap exchanges its two wires. `σ • s` is the state
`s` with the content of every wire `v` moved to wire `σ v`.
-/
namespace TranspileBench.Metrics
open Equiv

variable {Value : Type}

/-- Distinct qubits within the register, as C0 checks. -/
def Operation.WellWired (width : Nat) (op : Operation Value) : Prop :=
  (∀ q ∈ op.qubits, 0 ≤ q ∧ q < width) ∧ op.qubits.Nodup

def relabelWire {width : Nat} (σ : Perm (Fin width)) (q : Int) : Int :=
  if h : 0 ≤ q ∧ q < width then (σ ⟨q.toNat, by omega⟩ : Nat) else q

def Operation.relabel {width : Nat} (σ : Perm (Fin width)) (op : Operation Value) :
    Operation Value :=
  { op with qubits := op.qubits.map (relabelWire σ) }

structure WireSemantics (width : Nat) (Value : Type) [BEq Value] (State : Type)
    [MulAction (Perm (Fin width)) State] where
  apply : Operation Value → State → State
  congr : ∀ a b : Operation Value, (a == b) = true → apply a = apply b
  relabel : ∀ (σ : Perm (Fin width)) (op : Operation Value), op.WellWired width →
    ∀ s, apply (op.relabel σ) (σ • s) = σ • apply op s
  comm : ∀ a b : Operation Value, a.WellWired width → b.WellWired width → ¬ b.Shares a →
    ∀ s, apply a (apply b s) = apply b (apply a s)
  swap : ∀ a b : Fin width, a ≠ b →
    ∀ s, apply (swapOn (a : Nat) (b : Nat)) s = Equiv.swap a b • s

/-- The wire map of the code as a permutation of the register. -/
structure Tracks {width : Nat} (σ : Perm (Fin width)) (p2v : List Int) : Prop where
  length : p2v.length = width
  entry : ∀ i : Fin width, entry p2v (i : Nat) = (σ i : Nat)

theorem relabelWire_fin {width : Nat} (σ : Perm (Fin width)) (i : Fin width) :
    relabelWire σ (i : Nat) = (σ i : Nat) := by
  have h : (0 : Int) ≤ (i : Nat) ∧ ((i : Nat) : Int) < width := ⟨by omega, by omega⟩
  simp [relabelWire, h]

theorem exists_fin {width : Nat} {q : Int} (h : 0 ≤ q ∧ q < width) :
    ∃ i : Fin width, ((i : Nat) : Int) = q :=
  ⟨⟨q.toNat, by omega⟩, by simp [h.1]⟩

theorem Tracks.relabelWire_eq {width : Nat} {σ : Perm (Fin width)} {p2v : List Int}
    (h : Tracks σ p2v) {q : Int} (hq : 0 ≤ q ∧ q < width) :
    Metrics.entry p2v q = relabelWire σ q := by
  obtain ⟨i, rfl⟩ := exists_fin hq
  rw [h.entry, relabelWire_fin]

theorem Tracks.mapped_eq {width : Nat} {σ : Perm (Fin width)} {p2v : List Int}
    (h : Tracks σ p2v) {op : Operation Value} (hop : op.WellWired width) :
    mapped p2v op = op.relabel σ := by
  simp only [mapped, Operation.relabel, Operation.mk.injEq, true_and, and_true]
  exact List.map_congr_left fun q hq => h.relabelWire_eq (hop.1 q hq)

theorem relabelWire_bound {width : Nat} (σ : Perm (Fin width)) {q : Int}
    (hq : 0 ≤ q ∧ q < width) : 0 ≤ relabelWire σ q ∧ relabelWire σ q < width := by
  obtain ⟨i, rfl⟩ := exists_fin hq
  rw [relabelWire_fin]
  omega

theorem relabelWire_injective {width : Nat} (σ : Perm (Fin width)) {p q : Int}
    (hp : 0 ≤ p ∧ p < width) (hq : 0 ≤ q ∧ q < width)
    (h : relabelWire σ p = relabelWire σ q) : p = q := by
  obtain ⟨i, rfl⟩ := exists_fin hp
  obtain ⟨j, rfl⟩ := exists_fin hq
  rw [relabelWire_fin, relabelWire_fin] at h
  have hij : σ i = σ j := Fin.ext (by exact_mod_cast h)
  rw [σ.injective hij]

theorem Operation.WellWired.relabel {width : Nat} {op : Operation Value}
    (h : op.WellWired width) (σ : Perm (Fin width)) : (op.relabel σ).WellWired width := by
  refine ⟨?_, ?_⟩
  · intro q hq
    obtain ⟨p, hp, rfl⟩ := List.mem_map.mp hq
    exact relabelWire_bound σ (h.1 p hp)
  · exact h.2.map_on fun p hp q hq e => relabelWire_injective σ (h.1 p hp) (h.1 q hq) e

theorem Tracks.exchange {width : Nat} {σ : Perm (Fin width)} {p2v : List Int}
    (h : Tracks σ p2v) (a b : Fin width) :
    Tracks (σ * Equiv.swap a b) (Metrics.exchange p2v (a : Nat) (b : Nat)) := by
  refine ⟨by rw [length_exchange, h.length], ?_⟩
  intro i
  have ha : (a : Nat) < p2v.length := h.length ▸ a.isLt
  have hb : (b : Nat) < p2v.length := h.length ▸ b.isLt
  have hi : (i : Nat) < p2v.length := h.length ▸ i.isLt
  have hget : ∀ j : Fin width, ∀ hj : (j : Nat) < p2v.length,
      p2v[(j : Nat)] = ((σ j : Nat) : Int) := by
    intro j hj
    have := h.entry j
    simpa [Metrics.entry, hj] using this
  simp only [Metrics.entry, Metrics.exchange, Int.toNat_natCast, List.getD_eq_getElem?_getD,
    List.length_set, ha, hb, hi, List.getElem?_eq_getElem, Perm.mul_apply]
  by_cases hib : b = i
  · subst hib
    simp [hget a ha]
  · by_cases hia : a = i
    · subst hia
      have hne : (b : Nat) ≠ a := fun e => hib (Fin.ext e)
      simp [hget b hb, hne]
    · have hnb : (b : Nat) ≠ i := fun e => hib (Fin.ext e)
      have hna : (a : Nat) ≠ i := fun e => hia (Fin.ext e)
      rw [Equiv.swap_apply_of_ne_of_ne (fun e => hia e.symm) fun e => hib e.symm]
      simp [hnb, hna, hget i hi]

variable [BEq Value] {width : Nat} {State : Type} [MulAction (Perm (Fin width)) State]

/-- Running a stream of operations, barriers dropped, from the left. -/
def WireSemantics.run (sem : WireSemantics width Value State) (ops : List (Operation Value)) :
    State → State :=
  Reorder.run sem.apply (dropBarriers ops)

end TranspileBench.Metrics
