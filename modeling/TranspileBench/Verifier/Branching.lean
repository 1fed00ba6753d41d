import Mathlib
import TranspileBench.Lib.Fallible
import TranspileBench.Verifier.Paths

/-!
The simulator runs all paths. An operation turns a branch into the ends of the operation's
paths from it; a circuit's operations do so one after another, and its blocks by induction on
the steps that are left.
-/
namespace TranspileBench.Verifier
open Amplitudes Traces Fallible

section Bits
variable {c m : Nat}

theorem testBit_setBit (classical bit i : Nat) (value : Bool) :
    (setBit classical bit value).testBit i = if i = bit then value else classical.testBit i := by
  have hone : ∀ j, Nat.testBit 1 j = decide (j = 0) := fun j => by
    rw [← Nat.pow_zero 2, Nat.testBit_two_pow]
    exact decide_eq_decide.mpr eq_comm
  have hvalue : ∀ j, Nat.testBit value.toNat j = (decide (j = 0) && value) := fun j => by
    cases value <;> simp [hone]
  rw [setBit, Nat.testBit_or, Nat.testBit_and, Nat.testBit_xor, Nat.testBit_shiftLeft,
    Nat.testBit_shiftLeft, hone, hvalue]
  by_cases hi : i = bit
  · subst hi
    cases classical.testBit i <;> simp
  · have hne : ¬ (bit ≤ i ∧ i - bit = 0) := by omega
    have hshift : (decide (i ≥ bit) && decide (i - bit = 0)) = false := by
      rw [← Bool.decide_and]
      exact decide_eq_false hne
    rw [if_neg hi, hshift, ← Bool.and_assoc, hshift]
    cases classical.testBit i <;> rfl

theorem setBit_ofBits (store : Store m) (bit : Fin m) (value : Bool) :
    setBit (Nat.ofBits store) bit value = Nat.ofBits (Function.update store bit value) := by
  apply Nat.eq_of_testBit_eq
  intro i
  rw [testBit_setBit]
  by_cases hi : i < m
  · rw [Nat.testBit_ofBits_lt _ i hi, Nat.testBit_ofBits_lt _ i hi, Function.update_apply]
    simp only [Fin.ext_iff]
  · rw [if_neg (by omega), Nat.testBit_ofBits_ge _ i (by omega),
      Nat.testBit_ofBits_ge _ i (by omega)]

theorem bits_sum (cmap : Fin c → Fin m) (store : Store m) (bits : List (Fin c)) (k : Nat) :
    ((bits.zipIdx k).map fun (b, i) => ((Nat.ofBits store >>> (cmap b : Nat)) &&& 1) <<< i).sum
      = registerValue store (bits.map cmap) * 2 ^ k := by
  induction bits generalizing k with
  | nil => simp [registerValue]
  | cons b bits ih =>
      have hbit : (Nat.ofBits store >>> (cmap b : Nat)) &&& 1 = (store (cmap b)).toNat := by
        rw [Nat.and_one_is_mod, Nat.shiftRight_eq_div_pow, ← Nat.toNat_testBit,
          Nat.testBit_ofBits_lt _ _ (cmap b).isLt]
      rw [List.zipIdx_cons, List.map_cons, List.sum_cons, ih, List.map_cons, registerValue]
      simp only [hbit, Nat.shiftLeft_eq]
      ring

theorem Condition.test_iff (condition : Condition c) (cmap : Fin c → Fin m) (store : Store m) :
    condition.test cmap (Nat.ofBits store) = true ↔ condition.Holds cmap store := by
  rw [Condition.test, beq_iff_eq, bits_sum, Nat.pow_zero, Nat.mul_one]
  rfl

end Bits

variable {P K : Type} [CommRing K] [StarRing K] {n m : Nat}

section Branches
variable {branch : Branch n K} {a : Point n m K} {S T : Traced Bool (Point n m K)}
  {following : List (Branch n K)}

/-- What is linear keeps the phase. -/
theorem Represents.map (h : Represents branch a) {f : State n K → State n K}
    (linear : ∀ (u : K) ψ, f (u • ψ) = u • f ψ) :
    Represents (f branch.1, branch.2) (f a.1, a.2) := by
  obtain ⟨u, hu, hstate⟩ := h.state
  exact ⟨⟨u, hu, by rw [hstate, linear]⟩, h.classical⟩

theorem Represents.setBit (h : Represents branch a) (bit : Fin m) (value : Bool) :
    Represents (branch.1, setBit branch.2 bit value)
      (a.1, Function.update a.2 bit value) where
  state := h.state
  classical := by rw [h.classical, setBit_ofBits]

theorem Represents.phase (h : Represents branch a) (phase : unitary K) :
    Represents branch ((phase : K) • a.1, a.2) := by
  obtain ⟨u, hu, hstate⟩ := h.state
  refine ⟨⟨phase * u, ?_, by rw [hstate, smul_smul]⟩, h.classical⟩
  calc star ((phase : K) * u) * (phase * u) = (star (phase : K) * phase) * (star u * u) := by
        rw [star_mul]; ring
    _ = 1 := by rw [Unitary.coe_star_mul_self, hu, one_mul]

theorem Represents.zero_iff (h : Represents branch a) {f : State n K → State n K}
    (linear : ∀ (u : K) ψ, f (u • ψ) = u • f ψ) : f a.1 = 0 ↔ f branch.1 = 0 := by
  obtain ⟨u, hu, hstate⟩ := h.state
  rw [hstate, linear, smul_eq_zero_iff hu]

theorem Represents.test (h : Represents branch a) {c : Nat} (condition : Condition c)
    (cmap : Fin c → Fin m) :
    condition.test cmap branch.2 = true ↔ condition.Holds cmap a.2 := by
  rw [h.classical, Condition.test_iff]

theorem Follows.congr (h : Follows S branch following)
    (same : ∀ a, Represents branch a → ∀ t c, T a t c ↔ S a t c) : Follows T branch following where
  paths := h.paths.congr same
  norm := h.norm

/-- An operation without outcomes. -/
theorem Follows.silent {f : Point n m K → Point n m K} {next : Branch n K}
    (rep : ∀ a, Represents branch a → Represents next (f a))
    (norm : normSq next.1 = normSq branch.1)
    (same : ∀ a, Represents branch a → ∀ t c, S a t c ↔ t = [] ∧ c = f a) :
    Follows S branch [next] where
  paths := .silent f rep same
  norm := by rw [List.map_singleton, List.sum_singleton, norm]

variable [DecidableEq K]

omit [StarRing K] in
theorem outcomes_eq (wire : Fin n) (ψ : State n K) :
    outcomes wire ψ = ([false, true].filter fun value =>
      decide (projectWire wire value ψ ≠ 0)).map fun value =>
        (value, projectWire wire value ψ) := by
  simp only [outcomes, List.filterMap_cons, List.filterMap_nil, List.filter_cons, List.filter_nil,
    decide_not, Bool.not_eq_true', decide_eq_false_iff_not]
  split_ifs <;> simp_all

/-- An operation with the outcomes of a measurement. -/
theorem Follows.outcomes (wire : Fin n) {g : Bool → State n K → Branch n K}
    {f : Bool → Point n m K → Point n m K}
    (rep : ∀ value a, Represents branch a →
      Represents (g value (projectWire wire value branch.1)) (f value a))
    (norm : ∀ value ψ, normSq (g value ψ).1 = normSq ψ)
    (same : ∀ a, Represents branch a → ∀ t c, S a t c ↔
      ∃ value, projectWire wire value a.1 ≠ 0 ∧ t = [value] ∧ c = f value a) :
    Follows S branch ((outcomes wire branch.1).map fun (value, part) => g value part) := by
  have hzero : ∀ a : Point n m K, Represents branch a → ∀ value,
      projectWire wire value a.1 = 0 ↔ projectWire wire value branch.1 = 0 :=
    fun a ha value => ha.zero_iff fun u ψ => projectWire_smul u
  have hlist : (Verifier.outcomes wire branch.1).map (fun (value, part) => g value part)
      = ([false, true].filter fun value => decide (projectWire wire value branch.1 ≠ 0)).map
        fun value => g value (projectWire wire value branch.1) := by
    rw [outcomes_eq, List.map_map]
    rfl
  constructor
  · rw [hlist]
    refine .choice (by decide) _ _ (fun a value => f value a) (fun a ha value _ => rep value a ha)
      fun a ha t c => ?_
    rw [same a ha]
    refine exists_congr fun value => ?_
    rw [ne_eq, hzero a ha value]
    exact ⟨fun h => ⟨by cases value <;> decide, h⟩, fun h => h.2⟩
  · -- the outcomes that are left out have no norm
    have hpart : ∀ values : List Bool,
        (((values.filter fun value => decide (projectWire wire value branch.1 ≠ 0)).map
          fun value => g value (projectWire wire value branch.1)).map fun b => normSq b.1).sum
        = (values.map fun value => normSq (projectWire wire value branch.1)).sum := by
      intro values
      induction values with
      | nil => rfl
      | cons value values ih =>
          by_cases h : projectWire wire value branch.1 = 0
          · rw [List.filter_cons_of_neg (by simpa using h), ih, List.map_cons, List.sum_cons, h,
              normSq_zero, zero_add]
          · rw [List.filter_cons_of_pos (by simpa using h), List.map_cons, List.map_cons,
              List.sum_cons, ih, norm, List.map_cons, List.sum_cons]
    rw [hlist, hpart, ← normSq_projectWire wire branch.1]
    simp

end Branches

section Forms
variable {assign : Assign P K} {q c k l : Nat} {qmap : Fin q ↪ Fin n} {cmap : Fin c → Fin m}
  {a d : Point n m K} {t : List Bool}

theorem path_gate {name : String} {U : Isometry (BitVec k) K} {qs : Fin k ↪ Fin q}
    {cs : List (Fin c)} :
    OpPath assign (.gate name (some U) qs cs) qmap cmap a t d ↔
      t = [] ∧ d = (evolve U (qs.trans qmap) a.1, a.2) := by
  constructor
  · intro h
    cases h
    exact ⟨rfl, rfl⟩
  · rintro ⟨rfl, rfl⟩
    exact .gate name U qs cs a.1 a.2

theorem path_barrier : OpPath assign (.barrier : Op P K q c) qmap cmap a t d ↔ t = [] ∧ d = a := by
  constructor
  · intro h
    cases h
    exact ⟨rfl, rfl⟩
  · rintro ⟨rfl, rfl⟩
    exact .barrier d

theorem path_measure {wire : Fin q} {bit : Fin c} :
    OpPath assign (.measure wire bit) qmap cmap a t d ↔
      ∃ value, projectWire (qmap wire) value a.1 ≠ 0 ∧ t = [value] ∧
        d = (projectWire (qmap wire) value a.1, Function.update a.2 (cmap bit) value) := by
  constructor
  · intro h
    cases h with
    | measure _ _ ψ store outcome possible => exact ⟨outcome, possible, rfl, rfl⟩
  · rintro ⟨outcome, possible, rfl, rfl⟩
    exact .measure wire bit a.1 a.2 outcome possible

theorem path_reset {wire : Fin q} :
    OpPath assign (.reset wire : Op P K q c) qmap cmap a t d ↔
      ∃ value, projectWire (qmap wire) value a.1 ≠ 0 ∧ t = [value] ∧
        d = (if value then flipWire (qmap wire) (projectWire (qmap wire) value a.1)
          else projectWire (qmap wire) value a.1, a.2) := by
  constructor
  · intro h
    cases h with
    | reset _ ψ store outcome possible => exact ⟨outcome, possible, rfl, rfl⟩
  · rintro ⟨outcome, possible, rfl, rfl⟩
    exact .reset wire a.1 a.2 outcome possible

section Tests
variable {condition : Condition c} {body orelse : Circuit P K k l} {qs : Fin k ↪ Fin q}
  {cs : Fin l → Fin c}

theorem path_then (holds : condition.Holds cmap a.2) :
    OpPath assign (.ifThen condition body qs cs) qmap cmap a t d ↔
      Path assign body (qs.trans qmap) (cmap ∘ cs) a t d := by
  constructor
  · intro h
    cases h with
    | thenBlock _ path => exact path
    | noBlock fails => exact absurd holds fails
  · exact .thenBlock holds

theorem path_no_block (fails : ¬ condition.Holds cmap a.2) :
    OpPath assign (.ifThen condition body qs cs) qmap cmap a t d ↔ t = [] ∧ d = a := by
  constructor
  · intro h
    cases h with
    | thenBlock holds _ => exact absurd holds fails
    | noBlock _ => exact ⟨rfl, rfl⟩
  · rintro ⟨rfl, rfl⟩
    exact .noBlock fails

theorem path_if (holds : condition.Holds cmap a.2) :
    OpPath assign (.ifElse condition body orelse qs cs) qmap cmap a t d ↔
      Path assign body (qs.trans qmap) (cmap ∘ cs) a t d := by
  constructor
  · intro h
    cases h with
    | ifBlock _ path => exact path
    | elseBlock fails _ => exact absurd holds fails
  · exact .ifBlock holds

theorem path_else (fails : ¬ condition.Holds cmap a.2) :
    OpPath assign (.ifElse condition body orelse qs cs) qmap cmap a t d ↔
      Path assign orelse (qs.trans qmap) (cmap ∘ cs) a t d := by
  constructor
  · intro h
    cases h with
    | ifBlock holds _ => exact absurd holds fails
    | elseBlock _ path => exact path
  · exact .elseBlock fails

/-- A round of the loop, and the loop again. -/
theorem path_round (holds : condition.Holds cmap a.2) :
    OpPath assign (.whileLoop condition body qs cs) qmap cmap a t d ↔
      seq (Path assign body (qs.trans qmap) (cmap ∘ cs))
        (OpPath assign (.whileLoop condition body qs cs) qmap cmap) a t d := by
  constructor
  · intro h
    cases h with
    | whileStop fails => exact absurd holds fails
    | whileStep _ once again => exact ⟨_, _, _, once, again, rfl⟩
  · rintro ⟨s, b, u, once, again, rfl⟩
    exact .whileStep holds once again

theorem path_left (fails : ¬ condition.Holds cmap a.2) :
    OpPath assign (.whileLoop condition body qs cs) qmap cmap a t d ↔ t = [] ∧ d = a := by
  constructor
  · intro h
    cases h with
    | whileStop _ => exact ⟨rfl, rfl⟩
    | whileStep holds _ _ => exact absurd holds fails
  · rintro ⟨rfl, rfl⟩
    exact .whileStop fails

end Tests

end Forms

section Operations
variable [DecidableEq K] (assign : Assign P K) {q c : Nat} {qmap : Fin q ↪ Fin n}
  {cmap : Fin c → Fin m}

/-- A runner that turns branches into the ends of the circuit's paths. -/
def RunsPaths (runner : Runner P K n m) : Prop :=
  ∀ q c (circuit : Circuit P K q c) (steps : Nat) (branches : List (Branch n K))
    (qmap : Fin q ↪ Fin n) (cmap : Fin c → Fin m) (following : List (Branch n K)) (after : Nat),
    runner q c circuit steps branches qmap cmap = .ok (following, after) →
      Each (Follows (Path assign circuit qmap cmap)) branches following

omit [DecidableEq K] in
/-- A circuit of one operation alone. -/
theorem path_single {op : Op P K q c} {a d : Point n m K} {t : List Bool} :
    OpPath assign op qmap cmap a t d ↔ Path assign (.cons op (.done 1)) qmap cmap a t d := by
  constructor
  · intro h
    have hcons := Path.cons h (.done (1 : unitary K) d.1 d.2)
    rwa [List.append_nil, OneMemClass.coe_one, one_smul] at hcons
  · intro h
    cases h with
    | cons first later =>
        cases later
        rwa [List.append_nil, OneMemClass.coe_one, one_smul]

omit [DecidableEq K] in
theorem path_cons {op : Op P K q c} {rest : Circuit P K q c} {a d : Point n m K} {t : List Bool} :
    Path assign (.cons op rest) qmap cmap a t d ↔
      seq (OpPath assign op qmap cmap) (Path assign rest qmap cmap) a t d := by
  constructor
  · intro h
    cases h with
    | cons first later => exact ⟨_, _, _, first, later, rfl⟩
  · rintro ⟨s, b, u, first, later, rfl⟩
    exact .cons first later

variable {assign} {runner : Runner P K n m}

omit [DecidableEq K] in
theorem eachIndex_follows (hrunner : RunsPaths assign runner) {k l : Nat} (parameter : Option P)
    (body : Circuit P K k l) (qs : Fin k ↪ Fin q) (cs : Fin l → Fin c) (indices : List Int)
    {steps after : Nat} {parts following : List (Branch n K)}
    (h : eachIndex (fun index steps parts =>
      match blockAt assign parameter body index with
      | some block => runner _ _ block steps parts (qs.trans qmap) (cmap ∘ cs)
      | none => .error .qiskit) indices steps parts = .ok (following, after)) :
    Each (Follows (OpPath assign (.forLoop indices parameter body qs cs) qmap cmap)) parts
      following := by
  induction indices generalizing steps parts with
  | nil =>
      cases h
      refine .refl (fun branch => .silent (f := id) (fun a ha => ha) rfl fun a _ t d => ?_) _
      constructor
      · intro hpath
        cases hpath
        exact ⟨rfl, rfl⟩
      · rintro ⟨rfl, rfl⟩
        exact .forStop
  | cons index indices ih =>
      obtain ⟨⟨mid, between⟩, hfirst, hlater⟩ := bind_eq_ok.mp h
      cases hblock : blockAt assign parameter body index with
      | none => simp only [hblock, reduceCtorEq] at hfirst
      | some block =>
          simp only [hblock] at hfirst
          refine (hrunner _ _ block _ _ _ _ _ _ hfirst).trans (fun b mid rs hone hrest => ?_)
            (ih hlater)
          refine (hone.seq hrest).congr fun a _ t d => ?_
          constructor
          · intro hpath
            cases hpath with
            | forStep bound once later =>
                cases hblock.symm.trans bound
                exact ⟨_, _, _, once, later, rfl⟩
          · rintro ⟨s, b, u, once, later, rfl⟩
            exact .forStep hblock once later

/-- One operation turns a branch into the ends of its paths. -/
theorem exec_follows (hrunner : RunsPaths assign runner) (op : Op P K q c) (branch : Branch n K)
    {steps after : Nat} {following : List (Branch n K)}
    (h : exec assign runner qmap cmap op branch steps = .ok (following, after)) :
    Follows (OpPath assign op qmap cmap) branch following := by
  obtain ⟨ψ, classical⟩ := branch
  cases op with
  | gate name matrix qs cs =>
      cases matrix with
      | none => cases h
      | some U =>
          cases h
          exact .silent (f := fun a => (evolve U (qs.trans qmap) a.1, a.2))
            (fun a ha => ha.map fun u ψ => evolve_smul u) normSq_evolve fun a _ t d => path_gate
  | barrier =>
      cases h
      exact .silent (f := id) (fun a ha => ha) rfl fun a _ t d => path_barrier
  | measure wire bit =>
      cases h
      exact .outcomes (qmap wire)
        (g := fun value part => (part, setBit classical (cmap bit) value))
        (f := fun value a => (projectWire (qmap wire) value a.1,
          Function.update a.2 (cmap bit) value))
        (fun value a ha => (ha.map fun u ψ => projectWire_smul u).setBit (cmap bit) value)
        (fun _ _ => rfl) fun a _ t d => path_measure
  | reset wire =>
      cases h
      refine .outcomes (qmap wire)
        (g := fun value part => (if value then flipWire (qmap wire) part else part, classical))
        (f := fun value a => (if value then flipWire (qmap wire) (projectWire (qmap wire) value a.1)
          else projectWire (qmap wire) value a.1, a.2)) (fun value a ha => ?_)
            (fun value part => ?_)
        fun a _ t d => path_reset
      · cases value with
        | false => exact ha.map fun u ψ => projectWire_smul u
        | true => exact (ha.map fun u ψ => projectWire_smul u).map fun u ψ => flipWire_smul u
      · cases value with
        | false => rfl
        | true => exact normSq_flipWire
  | ifThen condition body qs cs =>
      simp only [exec] at h
      split at h
      case isTrue htest =>
        exact (hrunner _ _ body _ _ _ _ _ _ h).singleton.congr fun a ha t d =>
          path_then ((ha.test condition cmap).mp htest)
      case isFalse htest =>
        cases h
        exact .silent (f := id) (fun a ha => ha) rfl fun a ha t d =>
          path_no_block (mt (ha.test condition cmap).mpr htest)
  | ifElse condition body orelse qs cs =>
      simp only [exec] at h
      split at h
      case isTrue htest =>
        exact (hrunner _ _ body _ _ _ _ _ _ h).singleton.congr fun a ha t d =>
          path_if ((ha.test condition cmap).mp htest)
      case isFalse htest =>
        exact (hrunner _ _ orelse _ _ _ _ _ _ h).singleton.congr fun a ha t d =>
          path_else (mt (ha.test condition cmap).mpr htest)
  | whileLoop condition body qs cs =>
      simp only [exec] at h
      split at h
      case isTrue htest =>
        obtain ⟨⟨parts, between⟩, hbody, hloop⟩ := bind_eq_ok.mp h
        -- the loop alone, re-run on what the body leaves, has the paths of the operation
        have hagain := (hrunner _ _ _ _ _ _ _ _ _ hloop).mono fun b rs hb =>
          hb.congr (T := OpPath assign (.whileLoop condition body qs cs) qmap cmap)
            fun _ _ _ _ => path_single assign
        exact ((hrunner _ _ body _ _ _ _ _ _ hbody).singleton.seq hagain).congr fun a ha t d =>
          path_round ((ha.test condition cmap).mp htest)
      case isFalse htest =>
        cases h
        exact .silent (f := id) (fun a ha => ha) rfl fun a ha t d =>
          path_left (mt (ha.test condition cmap).mpr htest)
  | forLoop indices parameter body qs cs =>
      exact (eachIndex_follows hrunner parameter body qs cs indices h).singleton

omit [CommRing K] [StarRing K] [DecidableEq K] in
/-- Branches one after another, each turned by itself. -/
theorem eachBranch_each {f : Branch n K → Nat → Except Stop (List (Branch n K) × Nat)}
    {E : Branch n K → List (Branch n K) → Prop}
    (hf : ∀ branch steps following after, f branch steps = .ok (following, after) →
      E branch following) {branches following : List (Branch n K)} {steps after : Nat}
    (h : eachBranch f branches steps = .ok (following, after)) : Each E branches following := by
  induction branches generalizing steps following with
  | nil =>
      cases h
      exact .nil
  | cons branch branches ih =>
      obtain ⟨⟨parts, between⟩, hfirst, h⟩ := bind_eq_ok.mp h
      obtain ⟨⟨rest, last⟩, hrest, h⟩ := bind_eq_ok.mp h
      cases h
      exact .cons (hf _ _ _ _ hfirst) (ih hrest)

/-- A run turns every branch into the ends of the circuit's paths, by induction on the steps
that are left. -/
theorem run_follows (max_steps fuel : Nat) :
    RunsPaths assign (run assign max_steps fuel : Runner P K n m) := by
  have hdone : ∀ {q c : Nat} (phase : unitary K) (qmap : Fin q ↪ Fin n) (cmap : Fin c → Fin m)
      (branches : List (Branch n K)),
      Each (Follows (Path assign (.done phase) qmap cmap)) branches branches := by
    intro q c phase qmap cmap
    refine Each.refl fun branch => .silent (f := fun a => ((phase : K) • a.1, a.2))
      (fun a ha => ha.phase phase) rfl fun a _ t d => ?_
    constructor
    · intro hpath
      cases hpath
      exact ⟨rfl, rfl⟩
    · rintro ⟨rfl, rfl⟩
      exact .done phase a.1 a.2
  induction fuel with
  | zero =>
      intro q c circuit steps branches qmap cmap following after h
      cases circuit with
      | done phase =>
          rw [run] at h
          cases h
          exact hdone phase qmap cmap branches
      | cons op rest =>
          rw [run] at h
          cases h
  | succ fuel ih =>
      intro q c circuit steps branches qmap cmap following after h
      cases circuit with
      | done phase =>
          rw [run] at h
          cases h
          exact hdone phase qmap cmap branches
      | cons op rest =>
          rw [run] at h
          obtain ⟨counted, -, h⟩ := bind_eq_ok.mp h
          obtain ⟨⟨mid, between⟩, hop, hrest⟩ := bind_eq_ok.mp h
          refine (eachBranch_each (fun branch _ _ _ => exec_follows ih op branch) hop).trans
            (fun b mid rs hone hlater => ?_) (ih _ _ rest _ _ _ _ _ _ hrest)
          exact (hone.seq hlater).congr fun _ _ _ _ => path_cons assign

end Operations

end TranspileBench.Verifier
