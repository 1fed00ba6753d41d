import Mathlib
import TranspileBench.Lib.Assoc
import TranspileBench.Verifier.Simulation
import TranspileBench.Verifier.Terminal

/-!
The two measurement simulators agree. A gate commutes with the measurements of other wires,
so the branches of a circuit with terminal measurements are the projections of the state that
its gates prepare, one for each record of outcomes; the residual vectors are its slices.
-/
namespace TranspileBench.Verifier
open Amplitudes Fallible

variable {P K : Type} [CommRing K] [StarRing K] {n m : Nat}

/-- The wires that were measured, where to, and with which outcome. -/
abbrev Record (n m : Nat) := List (Fin n × Fin m × Bool)

namespace Record

def agrees (r : Record n m) (b : BitVec n) : Bool := r.all fun x => b.getLsbD x.1 == x.2.2

def part (r : Record n m) (ψ : State n K) : State n K := project r.agrees ψ

def key (r : Record n m) : Nat := r.foldl (fun classical x => setBit classical x.2.1 x.2.2) 0

/-- Where the outcomes are of and go to. -/
def measured (r : Record n m) : List (Fin n × Fin m) := r.map fun x => (x.1, x.2.1)

omit [StarRing K] in
theorem part_append (r : Record n m) (wire : Fin n) (bit : Fin m) (value : Bool) (ψ : State n K) :
    part (r ++ [(wire, bit, value)]) ψ = projectWire wire value (r.part ψ) := by
  rw [part, part, projectWire, project_project]
  congr 1
  funext b
  rw [agrees, List.all_append, List.all_cons, List.all_nil, Bool.and_true, Bool.and_comm, agrees]

theorem key_append (r : Record n m) (wire : Fin n) (bit : Fin m) (value : Bool) :
    key (r ++ [(wire, bit, value)]) = setBit r.key bit value := by
  rw [key, key, List.foldl_append]
  rfl

theorem part_evolve {r : Record n m} {k : Nat} {qs : Fin k ↪ Fin n}
    (h : ∀ j, qs j ∉ r.measured.map (·.1)) (U : Isometry (BitVec k) K) (ψ : State n K) :
    r.part (evolve U qs ψ) = evolve U qs (r.part ψ) := by
  refine project_onPart fun b c => ?_
  have hsame : ∀ x ∈ r, (scatter qs b c).getLsbD x.1 = b.getLsbD x.1 := fun x hx =>
    scatter_other (fun j hj => h j
      (List.mem_map.mpr ⟨(x.1, x.2.1), List.mem_map_of_mem hx, hj.symm⟩))
      b c
  rw [Bool.eq_iff_iff, agrees, agrees, List.all_eq_true, List.all_eq_true]
  refine forall₂_congr fun x hx => ?_
  rw [← hsame x hx]
  rfl

theorem testBit_key_other {r : Record n m} {i : Nat} (h : ∀ x ∈ r, (x.2.1 : Nat) ≠ i) :
    r.key.testBit i = false := by
  induction r using List.reverseRecOn with
  | nil => exact Nat.zero_testBit i
  | append_singleton r x ih =>
      rw [key_append, testBit_setBit, if_neg (Ne.symm (h x (by simp))),
        ih fun y hy => h y (List.mem_append_left _ hy)]

/-- The key holds every outcome at its bit. -/
theorem testBit_key {r : Record n m} (hbits : (r.map (·.2.1)).Nodup) {x : Fin n × Fin m × Bool}
    (hx : x ∈ r) : r.key.testBit x.2.1 = x.2.2 := by
  induction r using List.reverseRecOn with
  | nil => cases hx
  | append_singleton r y ih =>
      rw [List.map_append, List.nodup_append] at hbits
      obtain ⟨hr, -, hne⟩ := hbits
      rw [key_append, testBit_setBit]
      rcases List.mem_append.mp hx with hx | hx
      · have hother : (x.2.1 : Nat) ≠ y.2.1 := fun heq =>
          hne _ (List.mem_map_of_mem hx) _ (by simp) (Fin.ext heq)
        rw [if_neg hother, ih hr hx]
      · rw [List.mem_singleton.mp hx, if_pos rfl]

/-- A bit that is not set yet is added. -/
theorem setBit_fresh {classical bit : Nat} (h : classical.testBit bit = false) (value : Bool) :
    setBit classical bit value = classical + value.toNat <<< bit := by
  apply Nat.eq_of_testBit_eq
  intro i
  rw [testBit_setBit]
  cases value with
  | false =>
      rw [Bool.toNat_false, Nat.zero_shiftLeft, Nat.add_zero]
      by_cases hi : i = bit
      · rw [if_pos hi, hi, h]
      · rw [if_neg hi]
  | true =>
      rw [Bool.toNat_true, Nat.one_shiftLeft, Nat.add_comm]
      rcases lt_trichotomy i bit with hlt | rfl | hgt
      · rw [if_neg hlt.ne, Nat.testBit_two_pow_add_gt hlt]
      · rw [if_pos rfl, Nat.testBit_two_pow_add_eq, h]
        rfl
      · -- no carry leaves the bit
        have hzero : classical / 2 ^ bit % 2 = 0 := by
          rw [Nat.testBit_eq_decide_div_mod_eq, decide_eq_false_iff_not] at h
          omega
        have hdiv : (2 ^ bit + classical) / 2 ^ (bit + 1) = classical / 2 ^ (bit + 1) := by
          rw [Nat.pow_succ, ← Nat.div_div_eq_div_mul, ← Nat.div_div_eq_div_mul,
            Nat.add_div_left _ (Nat.two_pow_pos bit)]
          omega
        obtain ⟨k, rfl⟩ : ∃ k, i = k + (bit + 1) := ⟨i - (bit + 1), by omega⟩
        rw [if_neg (by omega), ← Nat.testBit_div_two_pow, ← Nat.testBit_div_two_pow, hdiv]

theorem key_eq_sum {r : Record n m} (hbits : (r.map (·.2.1)).Nodup) :
    r.key = (r.map fun x => x.2.2.toNat <<< (x.2.1 : Nat)).sum := by
  induction r using List.reverseRecOn with
  | nil => rfl
  | append_singleton r x ih =>
      rw [List.map_append, List.nodup_append] at hbits
      obtain ⟨hr, -, hne⟩ := hbits
      have hfresh : Nat.testBit (key r) x.2.1 = false := testBit_key_other fun y hy heq =>
        hne _ (List.mem_map_of_mem hy) _
          (List.mem_map_of_mem (List.mem_singleton_self x)) (Fin.ext heq)
      rw [key_append, setBit_fresh hfresh, ih hr, List.map_append, List.sum_append]
      rfl

/-- A record can be read off its key. -/
theorem eq_of_key {r : Record n m} (hbits : (r.map (·.2.1)).Nodup) :
    r.measured.map (fun x => (x.1, x.2, r.key.testBit x.2)) = r := by
  rw [measured, List.map_map]
  conv_rhs => rw [← List.map_id r]
  refine List.map_congr_left fun x hx => ?_
  change (x.1, x.2.1, r.key.testBit x.2.1) = x
  rw [testBit_key hbits hx]

end Record

/-- The records of all outcomes of some measurements, in the order of the branches. -/
def records (measured : List (Fin n × Fin m)) : List (Record n m) :=
  measured.foldl (fun rs x => rs.flatMap fun r =>
    [false, true].map fun value => r ++ [(x.1, x.2, value)]) [[]]

theorem records_append (measured : List (Fin n × Fin m)) (x : Fin n × Fin m) :
    records (measured ++ [x]) = (records measured).flatMap fun r =>
      [false, true].map fun value => r ++ [(x.1, x.2, value)] := by
  rw [records, List.foldl_append]
  rfl

theorem mem_records {measured : List (Fin n × Fin m)} {r : Record n m} :
    r ∈ records measured ↔ r.measured = measured := by
  induction measured using List.reverseRecOn generalizing r with
  | nil => simp [records, Record.measured]
  | append_singleton measured x ih =>
      rw [records_append, List.mem_flatMap]
      constructor
      · rintro ⟨r', hr', hr⟩
        obtain ⟨value, -, rfl⟩ := List.mem_map.mp hr
        rw [Record.measured, List.map_append, ← Record.measured, ih.mp hr']
        rfl
      · intro h
        obtain ⟨r', last, rfl, hr', hlast⟩ := List.map_eq_append_iff.mp h
        obtain ⟨y, rfl, rfl⟩ := List.map_eq_singleton_iff.mp hlast
        exact ⟨r', ih.mpr hr', List.mem_map.mpr ⟨y.2.2, by cases y.2.2 <;> decide, rfl⟩⟩

theorem nodup_records (measured : List (Fin n × Fin m)) : (records measured).Nodup := by
  induction measured using List.reverseRecOn with
  | nil => simp [records]
  | append_singleton measured x ih =>
      rw [records_append, List.nodup_flatMap]
      refine ⟨fun r _ => ?_, ?_⟩
      · refine List.Nodup.map (fun a b heq => ?_) (by decide)
        simpa using heq
      · refine ih.imp fun {r r'} hne y hy hy' => ?_
        obtain ⟨v, -, rfl⟩ := List.mem_map.mp hy
        obtain ⟨v', -, heq⟩ := List.mem_map.mp hy'
        exact hne (List.append_inj_left' heq rfl).symm

section Run
variable [DecidableEq K] (assign : Assign P K)

/-- The branch of a record, if it can occur. -/
def Record.branch (ψ : State n K) (r : Record n m) : Option (Branch n K) :=
  if r.part ψ = 0 then none else some (r.part ψ, r.key)

def branchesOf (measured : List (Fin n × Fin m)) (ψ : State n K) : List (Branch n K) :=
  (records measured).filterMap (Record.branch ψ)

theorem branchesOf_evolve {measured : List (Fin n × Fin m)} {k : Nat} {qs : Fin k ↪ Fin n}
    (h : ∀ j, qs j ∉ measured.map (·.1)) (U : Isometry (BitVec k) K) (ψ : State n K) :
    (branchesOf measured ψ).flatMap (fun b => [(evolve U qs b.1, b.2)])
      = branchesOf measured (evolve U qs ψ) := by
  rw [← List.map_eq_flatMap, branchesOf, branchesOf, List.map_filterMap]
  refine List.filterMap_congr fun r hr => ?_
  have hpart : r.part (evolve U qs ψ) = evolve U qs (r.part ψ) :=
    Record.part_evolve (by rwa [mem_records.mp hr]) U ψ
  rw [Record.branch, Record.branch, hpart]
  by_cases hzero : r.part ψ = 0
  · rw [if_pos hzero, if_pos (evolve_eq_zero.mpr hzero), Option.map_none]
  · rw [if_neg hzero, if_neg (mt evolve_eq_zero.mp hzero), Option.map_some]

omit [StarRing K] in
theorem branchesOf_append (measured : List (Fin n × Fin m)) (wire : Fin n) (bit : Fin m)
    (ψ : State n K) :
    (branchesOf measured ψ).flatMap (fun b => (outcomes wire b.1).map fun (value, part) =>
      (part, setBit b.2 bit value)) = branchesOf (measured ++ [(wire, bit)]) ψ := by
  rw [branchesOf, branchesOf, records_append, List.filterMap_flatMap]
  induction records measured with
  | nil => rfl
  | cons r rs ih =>
      have hhead : ([false, true].map fun value => r ++ [(wire, bit, value)]).filterMap
          (Record.branch ψ) = [false, true].filterMap fun value =>
            if projectWire wire value (r.part ψ) = 0 then none
            else some (projectWire wire value (r.part ψ), setBit r.key bit value) := by
        rw [List.filterMap_map]
        refine List.filterMap_congr fun value _ => ?_
        simp only [Function.comp_apply, Record.branch, Record.part_append, Record.key_append]
      rw [List.flatMap_cons, ← ih, hhead]
      by_cases hzero : r.part ψ = 0
      · have hnone : Record.branch ψ r = none := if_pos hzero
        rw [List.filterMap_cons_none hnone, hzero]
        simp [projectWire, project_zero]
      · have hsome : Record.branch ψ r = some (r.part ψ, r.key) := if_neg hzero
        rw [List.filterMap_cons_some hsome, List.flatMap_cons, outcomes,
          List.map_filterMap]
        congr 1
        refine List.filterMap_congr fun value _ => ?_
        dsimp only
        split
        · rfl
        · rfl

omit [CommRing K] [StarRing K] [DecidableEq K] in
theorem eachBranch_pure {f : Branch n K → Nat → Except Stop (List (Branch n K) × Nat)}
    {g : Branch n K → List (Branch n K)}
    (h : ∀ branch steps, f branch steps = .ok (g branch, steps))
    (branches : List (Branch n K)) (steps : Nat) :
    eachBranch f branches steps = .ok (branches.flatMap g, steps) := by
  induction branches with
  | nil => rfl
  | cons branch branches ih =>
      rw [eachBranch, h]
      simp only [bind, Except.bind, ih]
      rfl

def Circuit.length {q c : Nat} : Circuit P K q c → Nat
  | .done _ => 0
  | .cons _ rest => rest.length + 1

omit [DecidableEq K] in
theorem prepare_append {gates : List (Placed n K)} {k : Nat}
    {matrix : Option (Isometry (BitVec k) K)} {qs : Fin k ↪ Fin n} {ψ : State n K} :
    prepare (gates ++ [⟨k, matrix, qs⟩]) = .ok ψ ↔
      ∃ φ U, prepare gates = .ok φ ∧ matrix = some U ∧ evolve U qs φ = ψ := by
  rw [prepare, List.foldlM_append, bind_eq_ok]
  refine exists_congr fun φ => ?_
  cases matrix with
  | none => simp [bind, Except.bind, prepare]
  | some U => simp [bind, Except.bind, prepare, pure, Except.pure]

theorem run_scan (max_steps fuel : Nat) (circuit : Circuit P K n m) {s s' : Scan n m K}
    {phase : unitary K}
    {ψ : State n K} (hscan : scan circuit s = .ok (phase, s')) (hprepare : prepare s'.gates = .ok ψ)
    {steps : Nat} (hfuel : circuit.length ≤ fuel) (hsteps : steps + circuit.length ≤ max_steps) :
    ∃ φ, prepare s.gates = .ok φ ∧
      run assign max_steps fuel n m circuit steps (branchesOf s.measured φ) (.refl _) id
        = .ok (branchesOf s'.measured ψ, steps + circuit.length) := by
  induction fuel generalizing circuit s steps with
  | zero =>
      cases circuit with
      | done phase =>
          cases hscan
          exact ⟨ψ, hprepare, by rw [run]; rfl⟩
      | cons op rest => cases hfuel
  | succ fuel ih =>
      cases circuit with
      | done phase =>
          cases hscan
          exact ⟨ψ, hprepare, by rw [run]; rfl⟩
      | cons op rest =>
          rw [Circuit.length] at hfuel hsteps
          have hcount : countStep max_steps steps = .ok (steps + 1) := if_neg (by omega)
          -- one operation that turns the branches into others, and the rest
          have hone : ∀ {t : Scan n m K}, scan rest t = .ok (phase, s') →
              (∀ φ, prepare t.gates = .ok φ → ∃ χ g, prepare s.gates = .ok χ ∧
                (∀ branch steps, exec assign (run assign max_steps fuel)
                  (.refl _) id op branch steps
                  = .ok (g branch, steps)) ∧
                (branchesOf s.measured χ).flatMap g = branchesOf t.measured φ) →
              ∃ φ, prepare s.gates = .ok φ ∧
                run assign max_steps (fuel + 1) n m (.cons op rest) steps (branchesOf s.measured φ)
                  (.refl _) id = .ok (branchesOf s'.measured ψ, steps + (rest.length + 1)) := by
            intro t hrest hbranches
            have hmore : steps + 1 + rest.length ≤ max_steps := by omega
            obtain ⟨φ, hφ, hrun⟩ := ih rest hrest (by omega) hmore
            obtain ⟨χ, g, hχ, hexec, hsame⟩ := hbranches φ hφ
            refine ⟨χ, hχ, ?_⟩
            rw [run, hcount]
            simp only [bind, Except.bind, eachBranch_pure hexec, hsame, hrun]
            rw [Nat.add_assoc, Nat.add_comm 1]
          cases op with
          | gate name matrix qs cs =>
              rw [scan] at hscan
              split at hscan
              case isTrue => cases hscan
              case isFalse =>
                split at hscan
                case isTrue => cases hscan
                case isFalse hwires =>
                  refine hone hscan fun φ hφ => ?_
                  obtain ⟨χ, U, hχ, rfl, rfl⟩ := prepare_append.mp hφ
                  exact ⟨χ, _, hχ, fun _ _ => rfl,
                    branchesOf_evolve (fun j hj => hwires ⟨j, hj⟩) U χ⟩
          | barrier =>
              exact hone hscan fun φ hφ => ⟨φ, _, hφ, fun _ _ => rfl, List.flatMap_singleton' _⟩
          | measure wire bit =>
              rw [scan] at hscan
              split at hscan
              case isTrue => cases hscan
              case isFalse =>
                exact hone hscan fun φ hφ => ⟨φ, _, hφ, fun _ _ => rfl, branchesOf_append ..⟩
          | reset wire => cases hscan
          | ifThen condition body qs cs => cases hscan
          | ifElse condition body orelse qs cs => cases hscan
          | whileLoop condition body qs cs => cases hscan
          | forLoop indices parameter body qs cs => cases hscan

end Run

/-- The measurements of a circuit, in order. -/
def Circuit.measurements {q c : Nat} : Circuit P K q c → List (Fin q × Fin c)
  | .done _ => []
  | .cons (.measure wire bit) rest => (wire, bit) :: rest.measurements
  | .cons _ rest => rest.measurements

/-- No wire and no bit twice. -/
structure Distinct (measured : List (Fin n × Fin m)) : Prop where
  wires : (measured.map (·.1)).Nodup
  bits : (measured.map (·.2)).Nodup

theorem scan_measured : ∀ (circuit : Circuit P K n m) {s s' : Scan n m K} {phase : unitary K},
    scan circuit s = .ok (phase, s') → Distinct s.measured →
      Distinct s'.measured ∧ s'.measured = s.measured ++ circuit.measurements
  | .done phase, _, _, _, h, hs => by
      cases h
      exact ⟨hs, (List.append_nil _).symm⟩
  | .cons .barrier rest, _, _, _, h, hs => scan_measured rest h hs
  | .cons (.measure wire bit) rest, s, _, _, h, hs => by
      rw [scan] at h
      split at h
      case isTrue => cases h
      case isFalse hfresh =>
        rw [not_or] at hfresh
        have hmore : Distinct (s.measured ++ [(wire, bit)]) := by
          constructor
          · rw [List.map_append]
            exact hs.wires.append (List.nodup_singleton _) (by simpa using hfresh.1)
          · rw [List.map_append]
            exact hs.bits.append (List.nodup_singleton _) (by simpa using hfresh.2)
        obtain ⟨hs', heq⟩ := scan_measured rest h hmore
        exact ⟨hs', heq.trans (List.append_assoc ..)⟩
  | .cons (.gate name matrix qs cs) rest, s, _, _, h, hs => by
      rw [scan] at h
      split at h
      case isTrue => cases h
      case isFalse =>
        split at h
        case isTrue => cases h
        case isFalse =>
          exact scan_measured (s := ⟨s.gates ++ [⟨_, matrix, qs⟩], s.measured⟩) rest h hs
  | .cons (.reset _) _, _, _, _, h, _ => by cases h
  | .cons (.ifThen ..) _, _, _, _, h, _ => by cases h
  | .cons (.ifElse ..) _, _, _, _, h, _ => by cases h
  | .cons (.whileLoop ..) _, _, _, _, h, _ => by cases h
  | .cons (.forLoop ..) _, _, _, _, h, _ => by cases h

section Slices
variable {measured : List (Fin n × Fin m)}

theorem mem_measuredWires {wire : Fin n} :
    wire ∈ measuredWires measured ↔ wire ∈ measured.map (·.1) := List.mem_mergeSort

theorem Distinct.measuredWires_nodup (h : Distinct measured) : (measuredWires measured).Nodup :=
  (List.mergeSort_perm _ _).nodup_iff.mpr h.wires

theorem Distinct.destination_eq (h : Distinct measured) {x : Fin n × Fin m} (hx : x ∈ measured) :
    destination measured x.1 = x.2 := by
  rw [destination, Assoc.lookup_of_nodup h.wires hx]
  rfl

/-- The record of an outcome's bits. -/
def recordOf (measured : List (Fin n × Fin m)) (outcome : Nat) : Record n m :=
  measured.map fun x => (x.1, x.2, outcome.testBit ((measuredWires measured).idxOf x.1))

theorem recordOf_mem (outcome : Nat) : recordOf measured outcome ∈ records measured := by
  rw [mem_records, Record.measured, recordOf, List.map_map]
  exact List.map_id'' (fun _ => rfl) measured

theorem Distinct.recordOf_bits (h : Distinct measured) (outcome : Nat) :
    ((recordOf measured outcome).map (·.2.1)).Nodup := by
  rw [recordOf, List.map_map]
  exact h.bits

theorem Distinct.outcomeBits_eq (h : Distinct measured) (outcome : Nat) :
    outcomeBits measured outcome = (recordOf measured outcome).key := by
  let value : Fin n → Nat := fun wire =>
    (outcome.testBit ((measuredWires measured).idxOf wire)).toNat <<< destination measured wire
  have hvalues : ((measuredWires measured).zipIdx.map fun x =>
      ((outcome >>> x.2) &&& 1) <<< destination measured x.1)
      = (measuredWires measured).map value := by
    refine List.ext_getElem (by simp) fun i hi hi' => ?_
    have hbit : (outcome >>> i) &&& 1 = (outcome.testBit i).toNat := by
      rw [Nat.and_one_is_mod, Nat.shiftRight_eq_div_pow, Nat.toNat_testBit]
    rw [List.length_map] at hi'
    simp only [List.getElem_map, List.getElem_zipIdx, Nat.zero_add, hbit, value,
      h.measuredWires_nodup.idxOf_getElem i hi']
  rw [outcomeBits, hvalues, Record.key_eq_sum (h.recordOf_bits outcome),
    measuredWires, ((List.mergeSort_perm _ _).map value).sum_eq, recordOf,
      List.map_map, List.map_map]
  refine congrArg List.sum (List.map_congr_left fun x hx => ?_)
  simp only [Function.comp_apply, value, h.destination_eq hx]

/-- The wires that a slice takes all values of, in the order of their axes. -/
theorem free_eq (outcome : Nat) :
    ((List.finRange n).filter fun axis => (outcomeIndex measured outcome axis).isNone)
      = ((remaining measured).map Fin.rev).reverse := by
  rw [← List.map_reverse, remaining, ← List.filter_reverse, List.finRange_reverse, List.filter_map,
    List.map_map]
  have hid : (Fin.rev ∘ Fin.rev : Fin n → Fin n) = id := funext Fin.rev_rev
  rw [hid, List.map_id]
  refine List.filter_congr fun axis _ => ?_
  rw [outcomeIndex, Function.comp_apply]
  by_cases h : axis.rev ∈ measuredWires measured
  · simp [h, mem_measuredWires.mp h]
  · simp [h, mt mem_measuredWires.mpr h]

/-- The place of a remaining wire among the remaining wires. -/
theorem place_eq (outcome : Nat) {j : Nat} (hj : j < (remaining measured).length) :
    let free := (List.finRange n).filter fun axis => (outcomeIndex measured outcome axis).isNone
    free.length - 1 - free.idxOf (remaining measured)[j].rev = j := by
  intro free
  have hfree : free = ((remaining measured).map Fin.rev).reverse := free_eq outcome
  have hlength : free.length = (remaining measured).length := by simp [hfree]
  have hnodup : free.Nodup := (List.nodup_finRange n).filter _
  have hj' : free.length - 1 - j < free.length := by omega
  have hget : free[free.length - 1 - j] = (remaining measured)[j].rev := by
    simp only [hfree, List.getElem_reverse, List.getElem_map, List.length_reverse, List.length_map]
    congr 2
    omega
  rw [← hget, hnodup.idxOf_getElem _ hj']
  omega

/-- What an index has on the remaining wires. -/
def restrict (wires : List (Fin n)) (b : BitVec n) : BitVec wires.length :=
  BitVec.ofFnLE fun j => b.getLsbD (wires.get j)

theorem Distinct.exists_outcome (h : Distinct measured) {r : Record n m}
    (hr : r ∈ records measured) :
    ∃ outcome < 2 ^ (measuredWires measured).length, recordOf measured outcome = r := by
  let wires := measuredWires measured
  let values : Fin wires.length → Bool :=
    fun i => r.key.testBit (destination measured (wires.get i))
  refine ⟨Nat.ofBits values, Nat.ofBits_lt_two_pow values, ?_⟩
  have hmeasured : r.measured = measured := mem_records.mp hr
  have hbits : (r.map (·.2.1)).Nodup := by
    have := h.bits
    rwa [← hmeasured, Record.measured, List.map_map] at this
  rw [← Record.eq_of_key hbits, hmeasured, recordOf]
  refine List.map_congr_left fun x hx => ?_
  have hwire : wires.idxOf x.1 < wires.length :=
    List.idxOf_lt_length_iff.mpr (mem_measuredWires.mpr (List.mem_map_of_mem hx))
  rw [Nat.testBit_ofBits_lt values _ hwire]
  simp only [values, List.get_eq_getElem, List.getElem_idxOf, h.destination_eq hx]

/-- Different outcomes have different keys. -/
theorem Distinct.outcome_injective (h : Distinct measured) {outcome outcome' : Nat}
    (ho : outcome < 2 ^ (measuredWires measured).length)
    (ho' : outcome' < 2 ^ (measuredWires measured).length)
    (hkey : outcomeBits measured outcome = outcomeBits measured outcome') : outcome = outcome' := by
  rw [h.outcomeBits_eq, h.outcomeBits_eq] at hkey
  have hrecord : recordOf measured outcome = recordOf measured outcome' := by
    rw [← Record.eq_of_key (h.recordOf_bits outcome), ← Record.eq_of_key (h.recordOf_bits outcome'),
      hkey, mem_records.mp (recordOf_mem outcome), mem_records.mp (recordOf_mem outcome')]
  apply Nat.eq_of_testBit_eq
  intro i
  by_cases hi : i < (measuredWires measured).length
  · have hmem : (measuredWires measured)[i] ∈ measured.map (·.1) :=
      mem_measuredWires.mp (List.getElem_mem hi)
    obtain ⟨x, hx, hxi⟩ := List.mem_map.mp hmem
    have hbit := congrArg (·.2.2) (List.map_inj_left.mp hrecord x hx)
    dsimp only at hbit
    rwa [hxi, h.measuredWires_nodup.idxOf_getElem i hi] at hbit
  · have hle : 2 ^ (measuredWires measured).length ≤ 2 ^ i :=
      Nat.pow_le_pow_right (by decide) (Nat.le_of_not_lt hi)
    rw [Nat.testBit_lt_two_pow (ho.trans_le hle), Nat.testBit_lt_two_pow (ho'.trans_le hle)]

/-- The index of the state that an entry of a residual vector is. -/
def joined (measured : List (Fin n × Fin m)) (outcome : Nat)
    (w : BitVec (remaining measured).length) : BitVec n :=
  BitVec.ofFnLE fun wire => (outcomeIndex measured outcome wire.rev).getD
    (let free := (List.finRange n).filter fun axis => (outcomeIndex measured outcome axis).isNone
     w.getLsbD (free.length - 1 - free.idxOf wire.rev))

omit [CommRing K] [StarRing K] in
theorem residualVector_apply (state : State n K) (outcome : Nat)
    (w : BitVec (remaining measured).length) :
    residualVector measured state outcome w = state (joined measured outcome w) := rfl

theorem joined_measured {outcome : Nat} {x : Fin n × Fin m} (hx : x ∈ measured)
    (w : BitVec (remaining measured).length) :
    (joined measured outcome w).getLsbD x.1
      = outcome.testBit ((measuredWires measured).idxOf x.1) := by
  have hwire : x.1 ∈ measuredWires measured := mem_measuredWires.mpr (List.mem_map_of_mem hx)
  simp [joined, outcomeIndex, hwire]

theorem joined_remaining {outcome : Nat} (w : BitVec (remaining measured).length) {j : Nat}
    (hj : j < (remaining measured).length) :
    (joined measured outcome w).getLsbD (remaining measured)[j] = w.getLsbD j := by
  have hwire : (remaining measured)[j] ∉ measuredWires measured := by
    have hmem := (List.mem_filter.mp (List.getElem_mem hj)).2
    rw [mem_measuredWires]
    exact of_decide_eq_true hmem
  have hnone : outcomeIndex measured outcome (remaining measured)[j].rev = none := by
    rw [outcomeIndex, Fin.rev_rev, if_neg hwire]
  have hplace := place_eq outcome hj
  dsimp only at hplace
  rw [joined, BitVec.getLsbD_ofFnLE]
  simp only [hnone, Option.getD_none, hplace, Fin.is_lt, dif_pos]

theorem agrees_joined (outcome : Nat) (w : BitVec (remaining measured).length) :
    (recordOf measured outcome).agrees (joined measured outcome w) = true := by
  rw [Record.agrees, List.all_eq_true]
  intro y hy
  obtain ⟨x, hx, rfl⟩ := List.mem_map.mp hy
  exact beq_iff_eq.mpr (joined_measured hx w)

/-- An index that agrees with an outcome is read from its remaining wires. -/
theorem joined_restrict {outcome : Nat} {a : BitVec n}
    (ha : (recordOf measured outcome).agrees a = true) :
    joined measured outcome (restrict (remaining measured) a) = a := by
  refine index_ext fun wire => ?_
  by_cases hwire : wire ∈ measured.map (·.1)
  · obtain ⟨x, hx, rfl⟩ := List.mem_map.mp hwire
    rw [joined_measured hx]
    have hagree := List.all_eq_true.mp ha _ (List.mem_map_of_mem hx)
    exact (beq_iff_eq.mp hagree).symm
  · have hmem : wire ∈ remaining measured :=
      List.mem_filter.mpr ⟨List.mem_finRange wire, decide_eq_true hwire⟩
    obtain ⟨j, hj, rfl⟩ := List.getElem_of_mem hmem
    rw [joined_remaining _ hj, restrict, BitVec.getLsbD_ofFnLE]
    simp [hj]

omit [StarRing K] in
/-- A residual vector is zero where the outcome cannot occur. -/
theorem residualVector_eq_zero {state : State n K} {outcome : Nat} :
    residualVector measured state outcome = 0 ↔ (recordOf measured outcome).part state = 0 := by
  constructor
  · intro h
    funext a
    rw [Record.part, project]
    split
    case isTrue ha =>
      rw [← joined_restrict ha, ← residualVector_apply state, h]
      rfl
    case isFalse => rfl
  · intro h
    funext w
    have hpart := congrFun h (joined measured outcome w)
    rwa [Record.part, project, if_pos (agrees_joined outcome w)] at hpart

end Slices

section Agreement
variable {measured : List (Fin n × Fin m)}

/-- The wires have the values that the key holds for them. -/
def Spelled (measured : List (Fin n × Fin m)) (key : Nat) (a : BitVec n) : Prop :=
  ∀ x ∈ measured, a.getLsbD x.1 = key.testBit x.2

instance (measured : List (Fin n × Fin m)) (key : Nat) (a : BitVec n) :
    Decidable (Spelled measured key a) := List.decidableBAll ..

/-- The projector onto the measured values, and the outer product of a vector on the other
wires. -/
def blockDensity (measured : List (Fin n × Fin m)) (key : Nat) (wires : List (Fin n))
    (v : BitVec wires.length → K) : Density n K := fun a b =>
  if Spelled measured key a ∧ Spelled measured key b then outer v (restrict wires a)
    (restrict wires b)
  else 0

theorem Distinct.agrees_iff (h : Distinct measured) (outcome : Nat) (a : BitVec n) :
    (recordOf measured outcome).agrees a = true
      ↔ Spelled measured (outcomeBits measured outcome) a := by
  rw [h.outcomeBits_eq, Record.agrees, List.all_eq_true]
  refine List.forall_mem_map.trans (forall₂_congr fun x hx => ?_)
  have hbit := Record.testBit_key (h.recordOf_bits outcome) (List.mem_map_of_mem hx)
  rw [beq_iff_eq, hbit]

theorem Distinct.outer_part (h : Distinct measured) (ψ : State n K) (outcome : Nat) :
    outer ((recordOf measured outcome).part ψ)
      = blockDensity measured (outcomeBits measured outcome) (remaining measured)
        (residualVector measured ψ outcome) := by
  funext a b
  have hspelled := h.agrees_iff outcome
  rw [blockDensity, outer, Record.part, project, project]
  by_cases ha : (recordOf measured outcome).agrees a = true
  · by_cases hb : (recordOf measured outcome).agrees b = true
    · rw [if_pos ha, if_pos hb, if_pos ⟨(hspelled a).mp ha, (hspelled b).mp hb⟩, outer,
        residualVector_apply, residualVector_apply,
        joined_restrict ha, joined_restrict hb]
    · rw [if_neg hb, star_zero, mul_zero, if_neg fun hboth => hb ((hspelled b).mpr hboth.2)]
  · rw [if_neg ha, zero_mul, if_neg fun hboth => ha ((hspelled a).mpr hboth.1)]

theorem blockDensity_smul {u : K} (hu : star u * u = 1) (key : Nat) (wires : List (Fin n))
    (v : BitVec wires.length → K) :
    blockDensity measured key wires (u • v) = blockDensity measured key wires v := by
  funext a b
  rw [blockDensity, blockDensity, outer_smul hu]

variable [DecidableEq K]

omit [StarRing K] in
/-- The residual vectors that are kept. -/
theorem Distinct.lookup_residual (h : Distinct measured) (state : State n K) {key : Nat}
    {v : BitVec (remaining measured).length → K} :
    ((List.range (1 <<< (measuredWires measured).length)).foldl
      (fun (branches : AList fun _ : Nat => BitVec (remaining measured).length → K) outcome =>
        let vector := residualVector measured state outcome
        if vector = 0 then branches
        else branches.insert (outcomeBits measured outcome) vector) ∅).lookup key = some v ↔
      ∃ outcome < 2 ^ (measuredWires measured).length,
        residualVector measured state outcome ≠ 0 ∧ outcomeBits measured outcome = key ∧
        residualVector measured state outcome = v := by
  let kept : Nat → Option (Nat × (BitVec (remaining measured).length → K)) := fun outcome =>
    if residualVector measured state outcome = 0 then none
    else some (outcomeBits measured outcome, residualVector measured state outcome)
  have hmem : ∀ entry, entry ∈ (List.range (1 <<< (measuredWires measured).length)).filterMap kept ↔
      ∃ outcome < 2 ^ (measuredWires measured).length,
        residualVector measured state outcome ≠ 0 ∧
        (outcomeBits measured outcome, residualVector measured state outcome) = entry := by
    intro entry
    rw [List.mem_filterMap, Nat.one_shiftLeft]
    refine exists_congr fun outcome => ?_
    rw [List.mem_range]
    by_cases hzero : residualVector measured state outcome = 0
    · simp [kept, hzero]
    · simp [kept, hzero]
  have hkeys : (((List.range (1 <<< (measuredWires measured).length)).filterMap kept).map
      (·.1)).Nodup := by
    refine Tally.nodup_keys (outcomeBits measured) List.nodup_range
      (fun outcome _ entry hentry => ?_)
      fun outcome ho outcome' ho' => h.outcome_injective ?_ ?_
    · simp only [kept] at hentry
      split at hentry
      case isTrue => cases hentry
      case isFalse => rw [← Option.some.inj hentry]
    · rwa [List.mem_range, Nat.one_shiftLeft] at ho
    · rwa [List.mem_range, Nat.one_shiftLeft] at ho'
  have hfold : ((List.range (1 <<< (measuredWires measured).length)).filterMap kept).foldl
      (fun (sums : AList fun _ : Nat => BitVec (remaining measured).length → K) entry =>
        sums.insert entry.1 entry.2) ∅ = (List.range (1 <<< (measuredWires measured).length)).foldl
      (fun (branches : AList fun _ : Nat => BitVec (remaining measured).length → K) outcome =>
        let vector := residualVector measured state outcome
        if vector = 0 then branches
        else branches.insert (outcomeBits measured outcome) vector) ∅ := by
    rw [List.foldl_filterMap]
    refine List.foldl_ext _ _ _ fun branches outcome _ => ?_
    by_cases hzero : residualVector measured state outcome = 0
    · simp [kept, hzero]
    · simp [kept, hzero]
  rw [← hfold, Tally.lookup_insert_nodup hkeys, hmem]
  simp only [Prod.ext_iff]

theorem Distinct.lookup_branches (h : Distinct measured) (ψ : State n K) {key : Nat}
    {ρ : Density n K} :
    ((branchesOf measured ψ).foldl addDensity ∅).lookup key = some ρ ↔
      ∃ outcome < 2 ^ (measuredWires measured).length,
        residualVector measured ψ outcome ≠ 0 ∧ outcomeBits measured outcome = key ∧
        blockDensity measured key (remaining measured) (residualVector measured ψ outcome) = ρ := by
  have hmem : ∀ entry, entry ∈ (branchesOf measured ψ).map (fun b => (b.2, outer b.1)) ↔
      ∃ outcome < 2 ^ (measuredWires measured).length,
        residualVector measured ψ outcome ≠ 0 ∧
        (outcomeBits measured outcome, outer ((recordOf measured outcome).part ψ)) = entry := by
    intro entry
    rw [List.mem_map]
    constructor
    · rintro ⟨b, hb, rfl⟩
      obtain ⟨r, hr, hbranch⟩ := List.mem_filterMap.mp hb
      obtain ⟨outcome, ho, rfl⟩ := h.exists_outcome hr
      rw [Record.branch] at hbranch
      split at hbranch
      case isTrue => cases hbranch
      case isFalse hzero =>
        cases hbranch
        exact ⟨outcome, ho, mt residualVector_eq_zero.mp hzero, by rw [h.outcomeBits_eq]⟩
    · rintro ⟨outcome, ho, hzero, rfl⟩
      refine ⟨((recordOf measured outcome).part ψ, (recordOf measured outcome).key),
        List.mem_filterMap.mpr ⟨_, recordOf_mem outcome, ?_⟩, by rw [h.outcomeBits_eq]⟩
      exact if_neg (mt residualVector_eq_zero.mpr hzero)
  have hkeys : ((((branchesOf measured ψ).map fun b => (b.2, outer b.1))).map (·.1)).Nodup := by
    rw [branchesOf, List.map_filterMap]
    refine Tally.nodup_keys Record.key (nodup_records measured) (fun r _ entry hentry => ?_)
      fun r hr r' hr' hkey => ?_
    · obtain ⟨b, hb, rfl⟩ := Option.map_eq_some_iff.mp hentry
      rw [Record.branch] at hb
      split at hb
      case isTrue => cases hb
      case isFalse => rw [← Option.some.inj hb]
    · obtain ⟨outcome, ho, rfl⟩ := h.exists_outcome hr
      obtain ⟨outcome', ho', rfl⟩ := h.exists_outcome hr'
      rw [← h.outcomeBits_eq, ← h.outcomeBits_eq] at hkey
      rw [h.outcome_injective ho ho' hkey]
  rw [densities_eq, Tally.lookup_tally_nodup hkeys, hmem]
  refine exists_congr fun outcome => and_congr_right fun _ => and_congr_right fun _ => ?_
  rw [Prod.ext_iff, h.outer_part]
  refine and_congr_right fun hkey => ?_
  dsimp only at hkey ⊢
  rw [← hkey]

/-- The two simulators agree on circuits with terminal measurements. -/
theorem terminalBranches_agree [Nontrivial K] (assign : Assign P K) {circuit : Circuit P K n m}
    {result : Residual n K} {max_steps : Nat} (h : terminalBranches circuit = .ok result)
    (hwidth : n ≤ 8)
    (hsteps : circuit.length ≤ max_steps) :
    ∃ densities, simulate assign circuit max_steps = .ok densities ∧
      ∀ key, densities.lookup key = (result.branches.lookup key).map
        (blockDensity circuit.measurements key result.remaining) := by
  obtain ⟨⟨phase, scanned⟩, hscan, h⟩ := bind_eq_ok.mp h
  dsimp only at h
  split at h
  case isTrue => cases h
  case isFalse =>
    obtain ⟨ψ, hprepare, h⟩ := bind_eq_ok.mp h
    cases h
    obtain ⟨hdistinct, hmeasured⟩ := scan_measured circuit hscan ⟨.nil, .nil⟩
    rw [List.nil_append] at hmeasured
    have hstart : branchesOf ([] : List (Fin n × Fin m)) (zeroState n K)
        = [(zeroState n K, 0)] := by
      have hzero : zeroState n K ≠ 0 := fun hzero => by
        have hone : (1 : K) = 0 := by simpa [zeroState] using congrFun hzero 0#n
        exact one_ne_zero hone
      have hpart : Record.part ([] : Record n m) (zeroState n K) = zeroState n K := rfl
      exact List.filterMap_cons_some (by rw [Record.branch, hpart, if_neg hzero]; rfl)
    have hlength : 0 + circuit.length ≤ max_steps := by omega
    obtain ⟨φ, hφ, hrun⟩ := run_scan assign max_steps (max_steps + 1) circuit hscan hprepare
      (by omega) hlength
    cases hφ
    rw [hstart] at hrun
    refine ⟨(branchesOf scanned.measured ψ).foldl addDensity ∅, ?_, fun key => ?_⟩
    · rw [simulate, if_neg (by omega), hrun]
      rfl
    · have hphase : star (phase : K) * phase = 1 := Unitary.coe_star_mul_self phase
      rw [← hmeasured]
      refine Option.ext fun ρ => ?_
      rw [hdistinct.lookup_branches, Option.map_eq_some_iff]
      simp only [hdistinct.lookup_residual]
      have hresidual : ∀ outcome, residualVector scanned.measured ((phase : K) • ψ) outcome
          = (phase : K) • residualVector scanned.measured ψ outcome := fun _ => rfl
      constructor
      · rintro ⟨outcome, ho, hzero, hkey, rfl⟩
        refine ⟨_, ⟨outcome, ho, ?_, hkey, rfl⟩, ?_⟩
        · rw [hresidual, ne_eq, smul_eq_zero_iff hphase]
          exact hzero
        · rw [hresidual, blockDensity_smul hphase]
      · rintro ⟨v, ⟨outcome, ho, hzero, hkey, rfl⟩, rfl⟩
        rw [hresidual, ne_eq, smul_eq_zero_iff hphase] at hzero
        exact ⟨outcome, ho, hzero, hkey, by rw [hresidual, blockDensity_smul hphase]⟩

/-- A measurement between gates on different wires. -/
def tiltedTerminal : Circuit Unit ℚ 2 2 :=
  .cons (.gate "ry" (some tilt) ⟨fun _ => 0, fun _ _ _ => Subsingleton.elim ..⟩ []) <|
    .cons (.measure 0 1) <|
    .cons (.gate "ry" (some tilt) ⟨fun _ => 1, fun _ _ _ => Subsingleton.elim ..⟩ []) <| .done 1

theorem terminalBranches_agree_tilted : ∃ result densities,
    terminalBranches tiltedTerminal = .ok result ∧
    simulate (fun _ _ _ _ body => some body) tiltedTerminal 3 = .ok densities ∧
    ∀ key, densities.lookup key = (result.branches.lookup key).map
      (blockDensity tiltedTerminal.measurements key result.remaining) := by
  have hok : (terminalBranches tiltedTerminal).isOk = true := by decide +kernel
  cases h : terminalBranches tiltedTerminal with
  | error e =>
      rw [h] at hok
      cases hok
  | ok result =>
      obtain ⟨densities, hsimulate, hagree⟩ :=
        terminalBranches_agree (fun _ _ _ _ body => some body) h (by decide) (le_refl 3)
      exact ⟨result, densities, rfl, hsimulate, hagree⟩

example : ((terminalBranches tiltedTerminal).toOption.map fun result =>
    (result.remaining, [0, 1, 2].map fun key => (result.branches.lookup key).map fun v => v 0))
      = some ([1], [some (9 / 25), none, some (12 / 25)]) := by decide +kernel

end Agreement

end TranspileBench.Verifier
