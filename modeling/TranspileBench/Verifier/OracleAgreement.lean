import TranspileBench.Verifier.Compaction
import Mathlib

/-!
C2 and C3 agree on terminal measurements: what C2 reads off the compacted circuits, in closed
form, is what C3 computes from the eigenvalues of the densities of its simulation.
-/
namespace TranspileBench.Verifier
open Amplitudes Fallible Metrics

variable {P : Type} {n m m' w : Nat}

/-- A sum over what a map takes to where a condition holds. -/
theorem sum_ite_range {X W : Type} [Fintype X] [Fintype W] {p : X → Prop}
    [DecidablePred p] {F : W → X}
    (inj : F.Injective) (h : ∀ x, p x ↔ ∃ v, F v = x) (f : X → ℂ) :
    ∑ x, (if p x then f x else 0) = ∑ v, f (F v) := by
  have hfilter : Finset.univ.filter p = Finset.univ.map ⟨F, inj⟩ := by
    ext x
    simp [h]
  rw [← Finset.sum_filter, hfilter, Finset.sum_map]
  rfl

/-! ## Keys -/

/-- The value that an index gives to the measured bits. -/
def measuredKey (measured : List (Fin n × Fin m)) (a : BitVec n) : Nat :=
  (measured.map fun x => (a.getLsbD x.1).toNat <<< (x.2 : Nat)).sum

section Keys
variable {measured : List (Fin n × Fin m)} {measured' : List (Fin n × Fin m')}

/-- The record that an index agrees with. -/
def recordAt (measured : List (Fin n × Fin m)) (a : BitVec n) : Record n m :=
  measured.map fun x => (x.1, x.2, a.getLsbD x.1)

theorem recordAt_mem (a : BitVec n) : recordAt measured a ∈ records measured := by
  rw [mem_records, Record.measured, recordAt, List.map_map]
  exact List.map_id'' (fun _ => rfl) measured

theorem recordAt_bits (h : Distinct measured) (a : BitVec n) :
    ((recordAt measured a).map (·.2.1)).Nodup := by
  rw [recordAt, List.map_map]
  exact h.bits

theorem recordAt_key (h : Distinct measured) (a : BitVec n) :
    (recordAt measured a).key = measuredKey measured a := by
  rw [Record.key_eq_sum (recordAt_bits h a), recordAt, List.map_map]
  rfl

theorem agrees_recordAt (a : BitVec n) {r : Record n m} (hr : r ∈ records measured) :
    r.agrees a = true ↔ r = recordAt measured a := by
  rw [mem_records] at hr
  subst hr
  rw [Record.agrees, List.all_eq_true, recordAt, Record.measured, List.map_map]
  constructor
  · intro h
    conv_lhs => rw [← List.map_id r]
    refine List.map_congr_left fun x hx => ?_
    have hbit := beq_iff_eq.mp (h x hx)
    exact Prod.ext rfl (Prod.ext rfl hbit.symm)
  · intro h x hx
    rw [h] at hx
    obtain ⟨y, -, rfl⟩ := List.mem_map.mp hx
    exact beq_self_eq_true _

/-- The indices with the key of an outcome are those that agree with it. -/
theorem measuredKey_iff (h : Distinct measured) (outcome : Nat) (a : BitVec n) :
    measuredKey measured a = outcomeBits measured outcome ↔
      (recordOf measured outcome).agrees a = true := by
  rw [agrees_recordAt a (recordOf_mem outcome), h.outcomeBits_eq, ← recordAt_key h]
  constructor
  · intro hkey
    rw [← Record.eq_of_key (h.recordOf_bits outcome), ← Record.eq_of_key (recordAt_bits h a), hkey,
      mem_records.mp (recordOf_mem outcome), mem_records.mp (recordAt_mem a)]
  · intro heq
    rw [heq]

/-- Every index has the key of an outcome. -/
theorem exists_outcome_key (h : Distinct measured) (a : BitVec n) :
    ∃ outcome < 2 ^ (measuredWires measured).length, outcomeBits measured outcome
      = measuredKey measured a := by
  have hmem : recordAt measured a ∈ records measured := recordAt_mem a
  obtain ⟨outcome, ho, hrecord⟩ := h.exists_outcome hmem
  exact ⟨outcome, ho, by rw [h.outcomeBits_eq, hrecord, recordAt_key h]⟩

/-- Two indices that give the bits the value `key`, each by its own measurements, and are the
same on the wires that are not measured. -/
def Facing (measured : List (Fin n × Fin m)) (measured' : List (Fin n × Fin m')) (key : Nat)
    (x : BitVec n × BitVec n) : Prop :=
  measuredKey measured x.1 = key ∧ measuredKey measured' x.2 = key ∧
    ∀ wire : Fin n, wire ∉ measured.map (·.1) → x.1.getLsbD wire = x.2.getLsbD wire

open Classical in
/-- The inner product of what two states leave on the wires that are not measured. -/
noncomputable def overlap (measured : List (Fin n × Fin m))
    (measured' : List (Fin n × Fin m')) (key : Nat)
    (ψ φ : State n ℂ) : ℂ :=
  ∑ x : BitVec n × BitVec n, if Facing measured measured' key x then star (ψ x.1) * φ x.2 else 0

theorem overlap_smul (key : Nat) (u v : ℂ) (ψ φ : State n ℂ) :
    overlap measured measured' key (u • ψ) (v • φ)
      = star u * v * overlap measured measured' key ψ φ := by
  rw [overlap, overlap, Finset.mul_sum]
  refine Finset.sum_congr rfl fun x _ => ?_
  split
  case isTrue =>
    simp only [Pi.smul_apply, smul_eq_mul, star_mul']
    ring
  case isFalse => rw [mul_zero]

/-- A key that no index has. -/
theorem overlap_eq_zero {key : Nat} {ψ φ : State n ℂ}
    (h : (∀ a, measuredKey measured a ≠ key) ∨ ∀ a, measuredKey measured' a ≠ key) :
    overlap measured measured' key ψ φ = 0 := by
  refine Finset.sum_eq_zero fun x _ => if_neg fun hx => ?_
  rcases h with h | h
  · exact h _ hx.1
  · exact h _ hx.2.1

end Keys

/-! ## Residual vectors -/

section Residuals
variable {measured : List (Fin n × Fin m)} {measured' : List (Fin n × Fin m')}

theorem mem_remaining {wire : Fin n} : wire ∈ remaining measured ↔ wire ∉ measured.map (·.1) := by
  simp [remaining]

theorem getLsbD_restrict {wires : List (Fin n)} (a : BitVec n) {j : Nat} (hj : j < wires.length) :
    (restrict wires a).getLsbD j = a.getLsbD wires[j] := by
  rw [restrict, BitVec.getLsbD_ofFnLE]
  simp [hj]

theorem restrict_joined {outcome : Nat} (v : BitVec (remaining measured).length) :
    restrict (remaining measured) (joined measured outcome v) = v :=
  BitVec.eq_of_getLsbD_eq fun j hj => by rw [getLsbD_restrict _ hj, joined_remaining v hj]

/-- The entries of two residual vectors are at the indices that face each other. -/
theorem facing_iff (h : Distinct measured) (h' : Distinct measured')
    (hsame : remaining measured = remaining measured')
    {key outcome outcome' : Nat} (ho : outcomeBits measured outcome = key)
    (ho' : outcomeBits measured' outcome' = key) (x : BitVec n × BitVec n) :
    Facing measured measured' key x ↔ ∃ v : BitVec (remaining measured).length,
      (joined measured outcome v, joined measured' outcome' (v.cast (congrArg List.length hsame)))
        = x := by
  have hlength := congrArg List.length hsame
  constructor
  · rintro ⟨hkey, hkey', hrest⟩
    have hagree := (measuredKey_iff h outcome x.1).mp (hkey.trans ho.symm)
    have hagree' := (measuredKey_iff h' outcome' x.2).mp (hkey'.trans ho'.symm)
    have hcast : (restrict (remaining measured) x.1).cast hlength = restrict
        (remaining measured') x.2 := by
      refine BitVec.eq_of_getLsbD_eq fun j hj => ?_
      have hj' : j < (remaining measured).length := hlength ▸ hj
      rw [BitVec.getLsbD_cast, getLsbD_restrict _ hj', getLsbD_restrict _ hj,
        hrest _ (mem_remaining.mp (List.getElem_mem hj')), List.getElem_of_eq hsame hj']
    exact ⟨restrict (remaining measured) x.1,
      Prod.ext (joined_restrict hagree) (by rw [hcast]; exact joined_restrict hagree')⟩
  · rintro ⟨v, rfl⟩
    refine ⟨((measuredKey_iff h outcome _).mpr (agrees_joined outcome v)).trans ho,
      ((measuredKey_iff h' outcome' _).mpr (agrees_joined outcome' _)).trans ho',
        fun wire hwire => ?_⟩
    obtain ⟨j, hj, rfl⟩ := List.getElem_of_mem (mem_remaining.mpr hwire)
    have hj' : j < (remaining measured').length := hlength ▸ hj
    rw [joined_remaining v hj]
    simp only [List.getElem_of_eq hsame hj]
    rw [joined_remaining _ hj', BitVec.getLsbD_cast]

theorem innerProduct_residual (h : Distinct measured) (h' : Distinct measured')
    (hsame : remaining measured = remaining measured') {key outcome outcome' : Nat}
    (ho : outcomeBits measured outcome = key) (ho' : outcomeBits measured' outcome' = key)
    (ψ φ : State n ℂ) :
    innerProduct (residualVector measured ψ outcome)
      (recast hsame (residualVector measured' φ outcome')) =
      overlap measured measured' key ψ φ := by
  classical
  have hinjective : Function.Injective fun v : BitVec (remaining measured).length =>
      (joined measured outcome v, joined measured' outcome'
        (v.cast (congrArg List.length hsame))) := by
    intro v v' heq
    have hfirst := congrArg (restrict (remaining measured)) (Prod.ext_iff.mp heq).1
    rwa [restrict_joined, restrict_joined] at hfirst
  rw [overlap, sum_ite_range hinjective (facing_iff h h' hsame ho ho') fun x =>
    star (ψ x.1) * φ x.2]
  rfl

end Residuals

/-! ## Tables by key -/

section Tables
variable {K : Type} [CommRing K] {measured : List (Fin n × Fin m)}

def keyPart (measured : List (Fin n × Fin m)) (key : Nat) (state : State n K) : State n K :=
  project (fun a => measuredKey measured a == key) state

theorem part_recordOf (h : Distinct measured) (state : State n K) (outcome : Nat) :
    (recordOf measured outcome).part state = keyPart measured
      (outcomeBits measured outcome) state := by
  funext a
  have hiff := measuredKey_iff h outcome a
  simp only [Record.part, keyPart, project, beq_iff_eq, hiff]

theorem keyPart_ne_zero {key : Nat} {state : State n K} (h : keyPart measured key state ≠ 0) :
    ∃ a, measuredKey measured a = key := by
  obtain ⟨a, ha⟩ := Function.ne_iff.mp h
  by_contra hnone
  exact ha (if_neg (by simpa using fun heq => hnone ⟨a, heq⟩))

variable [DecidableEq K]

/-- The residual vectors that `terminal_branches` keeps. -/
def residuals (measured : List (Fin n × Fin m)) (state : State n K) :
    AList fun _ : Nat => BitVec (remaining measured).length → K :=
  (List.range (1 <<< (measuredWires measured).length)).foldl
    (fun branches outcome =>
      let vector := residualVector measured state outcome
      if vector = 0 then branches else branches.insert (outcomeBits measured outcome) vector) ∅

theorem lookup_residuals (h : Distinct measured) (state : State n K) {key : Nat}
    {v : BitVec (remaining measured).length → K} :
    (residuals measured state).lookup key = some v ↔
      ∃ outcome < 2 ^ (measuredWires measured).length, residualVector measured state outcome ≠ 0 ∧
        outcomeBits measured outcome = key ∧ residualVector measured state outcome = v :=
  h.lookup_residual state

theorem getD_residuals (h : Distinct measured) (state : State n K) {key outcome : Nat}
    (ho : outcome < 2 ^ (measuredWires measured).length)
    (hkey : outcomeBits measured outcome = key) :
    ((residuals measured state).lookup key).getD 0 = residualVector measured state outcome := by
  by_cases hzero : residualVector measured state outcome = 0
  · cases hlookup : (residuals measured state).lookup key with
    | none => exact hzero.symm
    | some v =>
        obtain ⟨outcome', ho', hne, hkey', -⟩ := (lookup_residuals h state).mp hlookup
        obtain rfl := h.outcome_injective ho ho' (hkey.trans hkey'.symm)
        exact absurd hzero hne
  · rw [(lookup_residuals h state).mpr ⟨outcome, ho, hzero, hkey, rfl⟩]
    rfl

theorem lookup_residuals_none (h : Distinct measured) (state : State n K) {key : Nat}
    (hkey : ∀ a, measuredKey measured a ≠ key) : (residuals measured state).lookup key = none := by
  cases hlookup : (residuals measured state).lookup key with
  | none => rfl
  | some v =>
      obtain ⟨outcome, -, -, hbits, -⟩ := (lookup_residuals h state).mp hlookup
      exact absurd ((measuredKey_iff h outcome (joined measured outcome 0#_)).mpr
        (agrees_joined _ _))
        (hbits ▸ hkey _)

theorem mem_residuals (h : Distinct measured) (state : State n K) {key : Nat} :
    key ∈ (residuals measured state).keys ↔ keyPart measured key state ≠ 0 := by
  rw [← AList.mem_keys, ← AList.lookup_isSome, Option.isSome_iff_exists]
  simp only [lookup_residuals h state]
  constructor
  · rintro ⟨v, outcome, -, hne, rfl, -⟩
    rwa [Ne, residualVector_eq_zero, part_recordOf h] at hne
  · intro hne
    obtain ⟨a, ha⟩ := keyPart_ne_zero hne
    obtain ⟨outcome, ho, hbits⟩ := exists_outcome_key h a
    have hkey := hbits.trans ha
    refine ⟨_, outcome, ho, ?_, hkey, rfl⟩
    rwa [Ne, residualVector_eq_zero, part_recordOf h, hkey]

variable [StarRing K]

/-- The densities that `simulate` returns. -/
def densities (measured : List (Fin n × Fin m)) (state : State n K) : AList fun _ :
    Nat => Density n K :=
  (branchesOf measured state).foldl addDensity ∅

theorem lookup_densities (h : Distinct measured) (state : State n K) {key : Nat} {ρ : Density n K} :
    (densities measured state).lookup key = some ρ ↔
      keyPart measured key state ≠ 0 ∧ outer (keyPart measured key state) = ρ := by
  rw [densities, h.lookup_branches]
  constructor
  · rintro ⟨outcome, -, hne, rfl, rfl⟩
    rw [← h.outer_part, part_recordOf h]
    rw [Ne, residualVector_eq_zero, part_recordOf h] at hne
    exact ⟨hne, rfl⟩
  · rintro ⟨hne, rfl⟩
    obtain ⟨a, ha⟩ := keyPart_ne_zero hne
    obtain ⟨outcome, ho, hbits⟩ := exists_outcome_key h a
    have hkey := hbits.trans ha
    refine ⟨outcome, ho, ?_, hkey, ?_⟩
    · rwa [Ne, residualVector_eq_zero, part_recordOf h, hkey]
    · rw [← hkey, ← h.outer_part, part_recordOf h]

theorem getD_densities (h : Distinct measured) (state : State n K) (key : Nat) :
    ((densities measured state).lookup key).getD 0 = outer (keyPart measured key state) := by
  cases hlookup : (densities measured state).lookup key with
  | some ρ => exact ((lookup_densities h state).mp hlookup).2.symm
  | none =>
      have hzero : keyPart measured key state = 0 := by
        by_contra hne
        cases hlookup.symm.trans ((lookup_densities h state).mpr ⟨hne, rfl⟩)
      rw [hzero]
      funext a b
      simp [outer]

theorem mem_densities (h : Distinct measured) (state : State n K) {key : Nat} :
    key ∈ (densities measured state).keys ↔ keyPart measured key state ≠ 0 := by
  rw [← AList.mem_keys, ← AList.lookup_isSome, Option.isSome_iff_exists]
  simp only [lookup_densities h state]
  exact ⟨fun ⟨_, hne, _⟩ => hne, fun hne => ⟨_, hne, rfl⟩⟩

end Tables

/-! ## Distances -/

/-- How far two rank-one blocks are apart, by their weights and their squared overlap. -/
noncomputable def apart (p q c : ℝ) : ℝ := √((p + q) ^ 2 - (4 : ℕ) * c) / (2 : ℕ)

section Distances
variable {B : Type} [Fintype B]

theorem blockDistance_eq (x y : B → ℂ) :
    blockDistance x y = apart (weight x) (weight y) (‖innerProduct x y‖ ^ 2) := by
  have hle := overlap_le x y
  have hnonneg := sq_nonneg ‖innerProduct x y‖
  rw [blockDistance, apart]
  congr 2
  by_cases hp : weight x = 0
  · rw [hp, zero_mul] at hle
    rw [if_neg fun h => h.1 hp, le_antisymm hle hnonneg, hp]
    ring
  · by_cases hq : weight y = 0
    · rw [hq, mul_zero] at hle
      rw [if_neg fun h => h.2 hq, le_antisymm hle hnonneg, hq]
      ring
    · rw [if_pos ⟨hp, hq⟩, weight_residual hp]
      field_simp
      ring

theorem eigenvalueSum_outer (x y : B → ℂ) :
    eigenvalueSum (outer x - outer y : B → B → ℂ) / (2 : ℕ) = apart (weight x) (weight y)
      (‖innerProduct x y‖ ^ 2) := by
  classical
  have hsum : eigenvalueSum (outer x - outer y : B → B → ℂ) = traceNorm
      (outerSub_isHermitian x y) :=
    dif_pos (outerSub_isHermitian x y)
  have hnonneg : 0 ≤ traceNorm (outerSub_isHermitian x y) :=
    Finset.sum_nonneg fun i _ => abs_nonneg _
  rw [hsum, apart, Nat.cast_ofNat (n := 4), ← traceNorm_outerSub, Real.sqrt_sq hnonneg]

/-- The total variation is at most the trace distance. -/
theorem variation_le_apart {p q c : ℝ} (h : c ≤ p * q) : |p - q| / (2 : ℕ) ≤ apart p q c := by
  refine div_le_div_of_nonneg_right (Real.abs_le_sqrt ?_) (Nat.cast_nonneg 2)
  rw [Nat.cast_ofNat]
  nlinarith only [h]

end Distances

section Keyed
variable {measured : List (Fin n × Fin m)} {measured' : List (Fin n × Fin m')}

theorem weight_recast {l l' : List (Fin n)} (h : l = l') (v : BitVec l'.length → ℂ) :
    weight (recast h v) = weight v := by
  subst h
  rfl

variable [DecidableEq ℂ]

/-- The residual vectors of a key, where none is kept as well. -/
theorem innerProduct_residuals (h : Distinct measured) (h' : Distinct measured')
    (hsame : remaining measured = remaining measured') (key : Nat) (ψ φ : State n ℂ) :
    innerProduct (((residuals measured ψ).lookup key).getD 0)
        (recast hsame (((residuals measured' φ).lookup key).getD 0))
          = overlap measured measured' key ψ φ := by
  by_cases hkey : ∃ a, measuredKey measured a = key
  · obtain ⟨a, rfl⟩ := hkey
    obtain ⟨outcome, ho, hbits⟩ := exists_outcome_key h a
    by_cases hkey' : ∃ b, measuredKey measured' b = measuredKey measured a
    · obtain ⟨b, hb⟩ := hkey'
      obtain ⟨outcome', ho', hbits'⟩ := exists_outcome_key h' b
      rw [getD_residuals h ψ ho hbits, getD_residuals h' φ ho' (hbits'.trans hb)]
      exact innerProduct_residual h h' hsame hbits (hbits'.trans hb) ψ φ
    · have hnone : ∀ b, measuredKey measured' b ≠ measuredKey measured a :=
        fun b hb => hkey' ⟨b, hb⟩
      rw [overlap_eq_zero (.inr hnone), lookup_residuals_none h' φ hnone]
      simp [innerProduct, recast]
  · have hnone : ∀ a, measuredKey measured a ≠ key := fun a ha => hkey ⟨a, ha⟩
    rw [overlap_eq_zero (.inl hnone), lookup_residuals_none h ψ hnone]
    simp [innerProduct]

/-- How far apart two states are at a key. -/
noncomputable def keyDistance (measured : List (Fin n × Fin m))
    (measured' : List (Fin n × Fin m')) (key : Nat)
    (ψ φ : State n ℂ) : ℝ :=
  apart (overlap measured measured key ψ ψ).re (overlap measured' measured' key φ φ).re
    (‖overlap measured measured' key ψ φ‖ ^ 2)

theorem weight_residuals (h : Distinct measured) (key : Nat) (ψ : State n ℂ) :
    weight (((residuals measured ψ).lookup key).getD 0) = (overlap measured measured key ψ ψ).re :=
  congrArg Complex.re (innerProduct_residuals h h rfl key ψ ψ)

theorem blockDistance_residuals (h : Distinct measured) (h' : Distinct measured')
    (hsame : remaining measured = remaining measured') (key : Nat) (ψ φ : State n ℂ) :
    blockDistance (((residuals measured ψ).lookup key).getD 0)
        (recast hsame (((residuals measured' φ).lookup key).getD 0))
          = keyDistance measured measured' key ψ φ := by
  rw [blockDistance_eq, innerProduct_residuals h h' hsame, weight_recast, weight_residuals h,
    weight_residuals h', keyDistance]

end Keyed

/-! ## The simulation -/

section Simulation
variable {measured measured' : List (Fin n × Fin m)}

theorem measuredKey_congr (h : Distinct measured) (h' : Distinct measured')
    (hset : ∀ x, x ∈ measured ↔ x ∈ measured') : measuredKey measured = measuredKey measured' := by
  have hperm : measured.Perm measured' :=
    (List.perm_ext_iff_of_nodup (List.Nodup.of_map _ h.wires) (List.Nodup.of_map _ h'.wires)).mpr
      hset
  funext a
  exact (hperm.map _).sum_eq

/-- Indices with one key that are the same on the other wires are the same. -/
theorem facing_diagonal (h : Distinct measured)
    (hkeys : measuredKey measured = measuredKey measured')
    {key : Nat} (x : BitVec n × BitVec n) :
    Facing measured measured' key x ↔ ∃ a : {a // measuredKey measured a = key},
      (a.val, a.val) = x := by
  constructor
  · rintro ⟨hkey, hkey', hrest⟩
    rw [← hkeys] at hkey'
    have hrecord : recordAt measured x.1 = recordAt measured x.2 := by
      rw [← Record.eq_of_key (recordAt_bits h x.1), ← Record.eq_of_key (recordAt_bits h x.2),
        recordAt_key h, recordAt_key h, hkey, hkey', mem_records.mp (recordAt_mem _),
        mem_records.mp (recordAt_mem _)]
    have heq : x.1 = x.2 := by
      refine index_ext fun wire => ?_
      by_cases hwire : wire ∈ measured.map (·.1)
      · obtain ⟨y, hy, rfl⟩ := List.mem_map.mp hwire
        exact congrArg (·.2.2) (List.map_inj_left.mp hrecord y hy)
      · exact hrest wire hwire
    exact ⟨⟨x.1, hkey⟩, Prod.ext rfl heq⟩
  · rintro ⟨⟨a, ha⟩, rfl⟩
    exact ⟨ha, (congrFun hkeys a).symm.trans ha, fun _ _ => rfl⟩

theorem innerProduct_keyPart (h : Distinct measured)
    (hkeys : measuredKey measured = measuredKey measured')
    (key : Nat) (ψ φ : State n ℂ) :
    innerProduct (keyPart measured key ψ) (keyPart measured' key φ)
      = overlap measured measured' key ψ φ := by
  classical
  have hinjective : Function.Injective fun a :
      {a // measuredKey measured a = key} => (a.val, a.val) :=
    fun a a' heq => Subtype.ext (Prod.ext_iff.mp heq).1
  rw [overlap, sum_ite_range hinjective (facing_diagonal h hkeys) fun x => star (ψ x.1) * φ x.2,
    ← sum_ite_range Subtype.val_injective
      (fun a => ⟨fun ha => ⟨⟨a, ha⟩, rfl⟩, fun ha => ha.choose_spec ▸ ha.choose.2⟩)
      fun a => star (ψ a) * φ a]
  refine Finset.sum_congr rfl fun a _ => ?_
  simp only [keyPart, project, ← hkeys, beq_iff_eq]
  split <;> simp

theorem eigenvalueSum_densities [DecidableEq ℂ] (h : Distinct measured) (h' : Distinct measured')
    (hset : ∀ x, x ∈ measured ↔ x ∈ measured') (key : Nat) (ψ φ : State n ℂ) :
    eigenvalueSum (((densities measured ψ).lookup key).getD 0
      - ((densities measured' φ).lookup key).getD 0 :
      Density n ℂ) / (2 : ℕ) = keyDistance measured measured' key ψ φ := by
  have hkeys := measuredKey_congr h h' hset
  have hweight : ∀ {M : List (Fin n × Fin m)} (_ : Distinct M) (χ : State n ℂ),
      weight (keyPart M key χ) = (overlap M M key χ χ).re := fun hM χ =>
    congrArg Complex.re (innerProduct_keyPart hM rfl key χ χ)
  rw [getD_densities h, getD_densities h']
  refine (eigenvalueSum_outer _ _).trans ?_
  rw [innerProduct_keyPart h hkeys, hweight h, hweight h', keyDistance]

end Simulation

/-! ## Idle wires and phases -/

section Widening
variable {emb : Fin w ↪ Fin n} {measured : List (Fin w × Fin m)} {measured' : List (Fin w × Fin m')}

/-- Measurements of the kept wires, where those are. -/
def widenMeasured (emb : Fin w ↪ Fin n) (measured : List (Fin w × Fin m)) : List (Fin n × Fin m) :=
  measured.map fun x => (emb x.1, x.2)

theorem measuredKey_widen (a : BitVec n) :
    measuredKey (widenMeasured emb measured) a = measuredKey measured (gather emb a) := by
  rw [measuredKey, measuredKey, widenMeasured, List.map_map]
  refine congrArg List.sum (List.map_congr_left fun x _ => ?_)
  rw [getLsbD_gather]
  rfl

theorem mem_widenMeasured {j : Fin w} :
    emb j ∈ (widenMeasured emb measured).map (·.1) ↔ j ∈ measured.map (·.1) := by
  rw [widenMeasured, List.map_map]
  constructor
  · intro h
    obtain ⟨x, hx, heq⟩ := List.mem_map.mp h
    exact List.mem_map.mpr ⟨x, hx, emb.injective heq⟩
  · intro h
    obtain ⟨x, hx, rfl⟩ := List.mem_map.mp h
    exact List.mem_map.mpr ⟨x, hx, rfl⟩

theorem facing_widen {key : Nat} {x : BitVec n × BitVec n} (h : Idle emb x.1) (h' : Idle emb x.2) :
    Facing (widenMeasured emb measured) (widenMeasured emb measured') key x ↔
      Facing measured measured' key (gather emb x.1, gather emb x.2) := by
  rw [Facing, Facing, measuredKey_widen, measuredKey_widen]
  refine and_congr_right fun _ => and_congr_right fun _ => ?_
  constructor
  · intro hrest j hj
    rw [getLsbD_gather, getLsbD_gather]
    exact hrest (emb j) (mt mem_widenMeasured.mp hj)
  · intro hrest wire hwire
    by_cases hkept : ∃ j, emb j = wire
    · obtain ⟨j, rfl⟩ := hkept
      have hj := hrest j (mt mem_widenMeasured.mpr hwire)
      rwa [getLsbD_gather, getLsbD_gather] at hj
    · have hidle : ∀ j, emb j ≠ wire := fun j hj => hkept ⟨j, hj⟩
      rw [h wire hidle, h' wire hidle]

theorem gather_scatter_zero (emb : Fin w ↪ Fin n) (c : BitVec w) :
    gather emb (scatter emb 0#n c) = c :=
  (wires emb).get_set 0#n c

theorem idle_scatter_zero (emb : Fin w ↪ Fin n) (c : BitVec w) : Idle emb (scatter emb 0#n c) := by
  intro i hi
  rw [scatter_other hi, BitVec.getLsbD_zero]

theorem scatter_gather_idle {b : BitVec n} (h : Idle emb b) :
    scatter emb 0#n (gather emb b) = b := by
  refine index_ext fun i => ?_
  by_cases hkept : ∃ j, emb j = i
  · obtain ⟨j, rfl⟩ := hkept
    rw [← getLsbD_gather, gather_scatter_zero, getLsbD_gather]
  · have hidle : ∀ j, emb j ≠ i := fun j hj => hkept ⟨j, hj⟩
    rw [scatter_other hidle, h i hidle, BitVec.getLsbD_zero]

theorem overlap_widen (key : Nat) (ψ φ : State w ℂ) :
    overlap (widenMeasured emb measured) (widenMeasured emb measured') key (widen emb ψ)
      (widen emb φ) =
      overlap measured measured' key ψ φ := by
  classical
  let F : {y // Facing measured measured' key y} → BitVec n × BitVec n :=
    fun y => (scatter emb 0#n y.1.1, scatter emb 0#n y.1.2)
  have hinjective : F.Injective := by
    intro y y' heq
    have hfst : scatter emb 0#n y.1.1 = scatter emb 0#n y'.1.1 := congrArg Prod.fst heq
    have hsnd : scatter emb 0#n y.1.2 = scatter emb 0#n y'.1.2 := congrArg Prod.snd heq
    refine Subtype.ext (Prod.ext ?_ ?_)
    · rw [← gather_scatter_zero emb y.1.1, hfst, gather_scatter_zero]
    · rw [← gather_scatter_zero emb y.1.2, hsnd, gather_scatter_zero]
  have hrange : ∀ x : BitVec n × BitVec n, Idle emb x.1 ∧ Idle emb x.2 ∧
      Facing measured measured' key (gather emb x.1, gather emb x.2) ↔ ∃ y, F y = x := by
    intro x
    constructor
    · rintro ⟨h, h', hfacing⟩
      exact ⟨⟨_, hfacing⟩, Prod.ext (scatter_gather_idle h) (scatter_gather_idle h')⟩
    · rintro ⟨⟨y, hy⟩, rfl⟩
      refine ⟨idle_scatter_zero emb _, idle_scatter_zero emb _, ?_⟩
      rwa [gather_scatter_zero, gather_scatter_zero]
  have hnarrow : overlap (widenMeasured emb measured) (widenMeasured emb measured') key
      (widen emb ψ) (widen emb φ) =
      ∑ x : BitVec n × BitVec n, if Idle emb x.1 ∧ Idle emb x.2 ∧
        Facing measured measured' key (gather emb x.1, gather emb x.2) then
          star (ψ (gather emb x.1)) * φ (gather emb x.2) else 0 := by
    refine Finset.sum_congr rfl fun x _ => ?_
    by_cases h : Idle emb x.1
    · by_cases h' : Idle emb x.2
      · simp only [widen, facing_widen h h', h, h', if_true, true_and]
      · simp [widen, h']
    · simp [widen, h]
  have hsmall : overlap measured measured' key ψ φ =
      ∑ y : {y // Facing measured measured' key y}, star (ψ y.1.1) * φ y.1.2 :=
    sum_ite_range Subtype.val_injective
      (fun y => ⟨fun hy => ⟨⟨y, hy⟩, rfl⟩, fun hy => hy.choose_spec ▸ hy.choose.2⟩)
      fun y : BitVec w × BitVec w => star (ψ y.1) * φ y.2
  rw [hnarrow, sum_ite_range hinjective hrange fun x => star (ψ (gather emb x.1)) * φ
    (gather emb x.2), hsmall]
  refine Finset.sum_congr rfl fun y _ => ?_
  simp only [F, gather_scatter_zero]

theorem keyDistance_widen (key : Nat) (ψ φ : State w ℂ) :
    keyDistance (widenMeasured emb measured) (widenMeasured emb measured') key (widen emb ψ)
      (widen emb φ) =
      keyDistance measured measured' key ψ φ := by
  rw [keyDistance, overlap_widen, overlap_widen, overlap_widen, keyDistance]

theorem keyDistance_phase (u v : unitary ℂ) (key : Nat) (ψ φ : State w ℂ) :
    keyDistance measured measured' key ((u : ℂ) • ψ) ((v : ℂ) • φ)
      = keyDistance measured measured' key ψ φ := by
  have hnorm : ‖star (u : ℂ) * (v : ℂ)‖ = 1 := by
    rw [norm_mul, norm_star, CStarRing.norm_coe_unitary, CStarRing.norm_coe_unitary, one_mul]
  rw [keyDistance, overlap_smul, overlap_smul, overlap_smul, norm_mul, hnorm, one_mul,
    Unitary.coe_star_mul_self, Unitary.coe_star_mul_self, one_mul, one_mul, keyDistance]

theorem keyPart_widen (key : Nat) (ψ : State w ℂ) :
    keyPart (widenMeasured emb measured) key (widen emb ψ) = widen emb
      (keyPart measured key ψ) := by
  funext b
  simp only [keyPart, project, widen, measuredKey_widen]
  split_ifs <;> rfl

theorem widen_ne_zero {ψ : State w ℂ} : widen emb ψ ≠ 0 ↔ ψ ≠ 0 := by
  constructor
  · rintro h rfl
    refine h (funext fun b => ?_)
    simp [widen]
  · intro h hzero
    refine h (funext fun c => ?_)
    have hat := congrFun hzero (scatter emb 0#n c)
    rwa [widen, if_pos (idle_scatter_zero emb c), gather_scatter_zero] at hat

theorem keyPart_phase (u : unitary ℂ) (key : Nat) (ψ : State w ℂ) :
    keyPart measured key ((u : ℂ) • ψ) ≠ 0 ↔ keyPart measured key ψ ≠ 0 := by
  rw [keyPart, project_smul, Ne, smul_eq_zero_iff (Unitary.coe_star_mul_self u), keyPart]

end Widening

/-! ## Prepared states -/

section Prepared
variable {K : Type} [CommRing K] [StarRing K] {circuit : Circuit P K n m} {phase : unitary K}
  {ψ : State n K}

/-- The circuit is one of terminal measurements, whose gates prepare a state. -/
structure Prepares (circuit : Circuit P K n m) (phase : unitary K) (ψ : State n K) : Prop where
  distinct : Distinct circuit.measurements
  scanned : ∃ gates, scan circuit ⟨[], []⟩ = .ok (phase, ⟨gates, circuit.measurements⟩) ∧
    prepare gates = .ok ψ

theorem prepares_of_scan {scanned : Scan n m K}
    (hscan : scan circuit ⟨[], []⟩ = .ok (phase, scanned))
    (hprepare : prepare scanned.gates = .ok ψ) :
    Prepares circuit phase ψ ∧ scanned.measured = circuit.measurements := by
  obtain ⟨hdistinct, hmeasured⟩ := scan_measured circuit hscan ⟨.nil, .nil⟩
  rw [List.nil_append] at hmeasured
  obtain ⟨gates, measured⟩ := scanned
  dsimp only at hmeasured
  subst hmeasured
  exact ⟨⟨hdistinct, gates, hscan, hprepare⟩, rfl⟩

/-- A circuit prepares what its compacted one does, with the idle wires at zero. -/
theorem Prepares.widen {wires : List (Fin n)} (hwires : wires.Nodup)
    {small : Circuit P K wires.length m}
    {χ : State wires.length K} (h : Prepares small phase χ)
    (hsmall : circuit.compact wires = some small) :
    Prepares circuit phase (Verifier.widen (keptWires wires hwires) χ) := by
  obtain ⟨gates, hscan, hprepare⟩ := h.scanned
  have hwide := scan_compact (h := hwires) circuit hsmall ⟨[], []⟩
  rw [hscan] at hwide
  refine (prepares_of_scan hwide ?_).1
  change prepare (gates.map (Placed.widen (keptWires wires hwires))) = _
  rw [prepare_widen, hprepare]
  rfl

variable [DecidableEq K]

theorem terminalBranches_eq {result : Residual n K} (h : terminalBranches circuit = .ok result) :
    ∃ phase ψ, Prepares circuit phase ψ ∧
      result = ⟨remaining circuit.measurements, residuals circuit.measurements
        ((phase : K) • ψ)⟩ := by
  obtain ⟨⟨phase, scanned⟩, hscan, h⟩ := bind_eq_ok.mp h
  dsimp only at h
  split at h
  case isTrue => cases h
  case isFalse =>
    obtain ⟨ψ, hprepare, h⟩ := bind_eq_ok.mp h
    obtain ⟨hprepares, hmeasured⟩ := prepares_of_scan hscan hprepare
    cases h
    exact ⟨phase, ψ, hprepares, hmeasured ▸ rfl⟩

theorem Prepares.simulate [Nontrivial K] (h : Prepares circuit phase ψ) (assign : Assign P K)
    {max_steps : Nat}
    (hwidth : n ≤ 8) (hsteps : circuit.length ≤ max_steps) :
    Verifier.simulate assign circuit max_steps = .ok (densities circuit.measurements ψ) := by
  obtain ⟨gates, hscan, hprepare⟩ := h.scanned
  have hzero : zeroState n K ≠ 0 := fun hzero => by
    have hone : (1 : K) = 0 := by simpa [zeroState] using congrFun hzero 0#n
    exact one_ne_zero hone
  have hpart : Record.part ([] : Record n m) (zeroState n K) = zeroState n K := rfl
  have hstart : branchesOf ([] : List (Fin n × Fin m)) (zeroState n K) = [(zeroState n K, 0)] :=
    List.filterMap_cons_some (by rw [Record.branch, hpart, if_neg hzero]; rfl)
  have hlength : 0 + circuit.length ≤ max_steps := by omega
  obtain ⟨φ, hφ, hrun⟩ := run_scan assign max_steps (max_steps + 1) circuit hscan hprepare
    (by omega) hlength
  cases hφ
  rw [hstart] at hrun
  rw [Verifier.simulate, if_neg (by omega), hrun]
  rfl

end Prepared

/-! ## Agreement -/

theorem mapError_eq_ok {ε ε' α : Type} {x : Except ε α} {f : ε → ε'} {v : α} :
    x.mapError f = .ok v ↔ x = .ok v := by
  cases x with
  | error e => exact ⟨fun h => (nomatch h), fun h => (nomatch h)⟩
  | ok u => exact ⟨fun h => by cases h; rfl, fun h => by cases h; rfl⟩

theorem measurementDistance_eq {a : Circuit P ℂ w m} {b : Circuit P ℂ w m'} {tvd distance : ℝ}
    (h : measurementDistance a b = .ok (tvd, distance)) :
    ∃ phase ψ phase' φ, Prepares a phase ψ ∧ Prepares b phase' φ ∧ tvd ≤ distance ∧
      ∃ keys : List Nat, keys.Nodup ∧
        (∀ key, key ∈ keys ↔ keyPart a.measurements key ψ ≠ 0 ∨ keyPart b.measurements key φ ≠ 0) ∧
        distance = (keys.map fun key => keyDistance a.measurements b.measurements key ψ φ).sum := by
  obtain ⟨left, hleft, h⟩ := bind_eq_ok.mp h
  obtain ⟨right, hright, h⟩ := bind_eq_ok.mp h
  obtain ⟨phase, ψ, ha, rfl⟩ := terminalBranches_eq (mapError_eq_ok.mp hleft)
  obtain ⟨phase', φ, hb, rfl⟩ := terminalBranches_eq (mapError_eq_ok.mp hright)
  split at h
  case isFalse => cases h
  case isTrue hsame =>
    cases h
    refine ⟨phase, ψ, phase', φ, ha, hb, ?_, _,
      List.Nodup.union _ (AList.keys_nodup _), fun key => ?_,
      congrArg List.sum (List.map_congr_left fun key _ => ?_)⟩
    · refine List.sum_le_sum fun key _ => ?_
      rw [blockDistance_eq]
      exact variation_le_apart (overlap_le _ _)
    · rw [List.mem_union_iff, mem_residuals ha.distinct, mem_residuals hb.distinct,
        keyPart_phase, keyPart_phase]
    · rw [← keyDistance_phase phase phase', ← blockDistance_residuals ha.distinct hb.distinct hsame]

theorem verifyDynamic_eq (assign : Assign P ℂ) {max_steps : Nat} {a b : Circuit P ℂ n m}
    {phase phase' : unitary ℂ}
    {ψ φ : State n ℂ} (ha : Prepares a phase ψ) (hb : Prepares b phase' φ)
    (hset : ∀ x, x ∈ a.measurements ↔ x ∈ b.measurements) (hwidth : n ≤ 8)
    (hsteps : a.length ≤ max_steps)
    (hsteps' : b.length ≤ max_steps) {keys : List Nat} (hnodup : keys.Nodup)
    (hkeys : ∀ key, key ∈ keys ↔ keyPart a.measurements key ψ ≠ 0 ∨
      keyPart b.measurements key φ ≠ 0)
    {distance : ℝ}
    (hdistance : distance = (keys.map fun key =>
      keyDistance a.measurements b.measurements key ψ φ).sum) :
    verifyDynamic assign max_steps a b = .ok
      { status := if distance < 1e-8 then .verified else .mismatch
        joint_trace_distance := some distance } := by
  classical
  have hperm : ((densities a.measurements ψ).keys ∪ (densities b.measurements φ).keys).Perm keys :=
    (List.perm_ext_iff_of_nodup (List.Nodup.union _ (AList.keys_nodup _)) hnodup).mpr fun key => by
      rw [List.mem_union_iff, mem_densities ha.distinct, mem_densities hb.distinct, hkeys]
  have hsum : (((densities a.measurements ψ).keys ∪ (densities b.measurements φ).keys).map
      fun key =>
      eigenvalueSum (((densities a.measurements ψ).lookup key).getD 0 -
        ((densities b.measurements φ).lookup key).getD 0 : Density n ℂ) / (2 : ℕ)).sum
          = distance := by
    rw [hdistance, (hperm.map _).sum_eq]
    exact congrArg List.sum (List.map_congr_left fun key _ =>
      eigenvalueSum_densities ha.distinct hb.distinct hset key ψ φ)
  rw [verifyDynamic, dif_pos ⟨rfl, rfl⟩, ha.simulate assign hwidth hsteps]
  dsimp only
  rw [hb.simulate assign hwidth hsteps']
  rw [← hsum]
  rfl

theorem compareZero_distance {statevector : StatevectorOf P} {a : Circuit P ℂ w m}
    {b : Circuit P ℂ w m'}
    {report : OracleReport} {distance : ℝ} (h : compareZero statevector a b = .ok report)
    (hdistance : report.joint_trace_distance = some distance) :
    ∃ tvd, measurementDistance a b = .ok (tvd, distance) ∧ report.TVD = some tvd ∧
      report.status = if tvd < 1e-8 ∧ distance < 1e-8 then .verified else .mismatch := by
  rw [compareZero] at h
  split at h
  case isTrue =>
    obtain ⟨⟨tvd, distance'⟩, hmeasured, h⟩ := bind_eq_ok.mp h
    cases h
    obtain rfl := Option.some.inj hdistance
    exact ⟨tvd, hmeasured, rfl, rfl⟩
  case isFalse =>
    obtain ⟨x, -, h⟩ := bind_eq_ok.mp h
    obtain ⟨y, -, h⟩ := bind_eq_ok.mp h
    cases h
    cases hdistance

/-- A distance that `verify_zero` reports is that of the two circuits on the wires it keeps. -/
theorem verifyZero_distance {statevector : StatevectorOf P} {k max_qubits : Nat}
    {registers registers' : List (String × Nat)} {logical : Circuit P ℂ k m}
    {output : Circuit P ℂ n m'}
    {expected : Circuit P ℂ n m} {layout : Option Layout} {report : OracleReport} {distance : ℝ}
    (hexpected : zeroCircuit logical n layout = .ok expected)
    (h : verifyZero statevector registers registers' logical output layout max_qubits = .ok report)
    (hdistance : report.joint_trace_distance = some distance) :
    ∃ wires a b tvd, wires.Nodup ∧ expected.compact wires = some a ∧ output.compact wires = some b ∧
      measurementDistance a b = .ok (tvd, distance) ∧ report.TVD = some tvd ∧
      report.status = if tvd < 1e-8 ∧ distance < 1e-8 then .verified else .mismatch := by
  rw [verifyZero] at h
  split at h
  case isTrue =>
    cases h
    cases hdistance
  case isFalse =>
    obtain ⟨expected', hexpected', h⟩ := bind_eq_ok.mp h
    obtain rfl := Except.ok.inj (hexpected.symm.trans (mapError_eq_ok.mp hexpected'))
    dsimp only at h
    generalize hwires : unionWires expected output _ = wires at h
    have hnodup : wires.Nodup := by
      rw [← hwires]
      exact (List.nodup_finRange n).filter _
    split at h
    case h_2 => cases h
    case h_1 a b ha hb =>
      refine ⟨wires, a, b, ?_⟩
      split at h
      case isTrue =>
        cases h
        cases hdistance
      case isFalse =>
        split at h
        case isTrue =>
          cases h
          cases hdistance
        case isFalse =>
          -- a mismatch and an unsupported instrument report no distance
          split at h
          case h_1 =>
            cases h
            cases hdistance
          case h_2 =>
            cases h
            cases hdistance
          case h_3 =>
            obtain ⟨tvd, hmeasured⟩ := compareZero_distance h hdistance
            exact ⟨tvd, hnodup, ha, hb, hmeasured⟩

/-- Where C2 reports a distance for two circuits that measure the same wires into the same bits,
C3 reports the same one and gives the same verdict. -/
theorem oracles_agree (statevector : StatevectorOf P) (assign : Assign P ℂ)
    {k max_qubits max_steps : Nat}
    {registers registers' : List (String × Nat)} {logical : Circuit P ℂ k m}
    {expected output : Circuit P ℂ n m}
    {layout : Option Layout} {report : OracleReport} {distance : ℝ} (hwidth : n ≤ 8)
    (hexpected : zeroCircuit logical n layout = .ok expected)
    (hset : ∀ x, x ∈ expected.measurements ↔ x ∈ output.measurements)
    (hsteps : expected.length ≤ max_steps) (hsteps' : output.length ≤ max_steps)
    (h : verifyZero statevector registers registers' logical output layout max_qubits = .ok report)
    (hdistance : report.joint_trace_distance = some distance) :
    verifyDynamic assign max_steps expected output =
        .ok { status := report.status, joint_trace_distance := some distance } ∧
      ∃ tvd ≤ distance, report.TVD = some tvd := by
  obtain ⟨wires, a, b, tvd, hnodup, ha, hb, hmeasured, htvd, hstatus⟩ :=
    verifyZero_distance hexpected h hdistance
  obtain ⟨phase, ψ, phase', φ, hψ, hφ, hle, keys, hkeys, hmem, hsum⟩ :=
    measurementDistance_eq hmeasured
  have hexpectedMeasured : expected.measurements = widenMeasured
      (keptWires wires hnodup) a.measurements :=
    measurements_compact expected ha
  have houtputMeasured : output.measurements = widenMeasured
      (keptWires wires hnodup) b.measurements :=
    measurements_compact output hb
  have hverdict : report.status = if distance < 1e-8 then .verified else .mismatch := by
    rw [hstatus]
    congr 1
    exact propext ⟨fun hsmall => hsmall.2, fun hsmall => ⟨hle.trans_lt hsmall, hsmall⟩⟩
  refine ⟨?_, tvd, hle, htvd⟩
  rw [hverdict]
  refine verifyDynamic_eq assign (hψ.widen hnodup ha)
    (hφ.widen hnodup hb) hset hwidth hsteps hsteps' hkeys ?_ ?_
  · intro key
    rw [hexpectedMeasured, houtputMeasured, keyPart_widen, keyPart_widen, widen_ne_zero,
      widen_ne_zero, hmem]
  · rw [hsum, hexpectedMeasured, houtputMeasured]
    exact congrArg List.sum (List.map_congr_left fun key _ => (keyDistance_widen key ψ φ).symm)

/-! ## A widened circuit -/

def notGate : Isometry (BitVec 1) ℂ where
  matrix a b := if a = ~~~b then 1 else 0
  isometric a b := by
    by_cases h : a = b
    · simp [h]
    · simp [h, Ne.symm h]

def lone (wire : Fin n) : Fin 1 ↪ Fin n := ⟨fun _ => wire, fun _ _ _ => Subsingleton.elim ..⟩

def flipped : Circuit Unit ℂ 1 1 :=
  .cons (.gate "x" (some notGate) (.refl _) []) <| .cons (.measure (.last 0) (.last 0)) <| .done 1

/-- The circuit on wire 1 of three, with gates on wire 0 that cancel. -/
def flippedOutput : Circuit Unit ℂ 3 1 :=
  let cancelled : Op Unit ℂ 3 1 := .gate "x" (some notGate) (lone (Fin.last 0).castSucc.castSucc) []
  .cons cancelled <| .cons (.gate "x" (some notGate) (lone (Fin.last 1).castSucc) []) <|
    .cons cancelled <|
    .cons (.measure (Fin.last 1).castSucc (.last 0)) <| .done 1

def flippedLayout : Layout := ⟨1, 3, [1, 0, 2], [1, 0, 2], [0, 1, 2]⟩

theorem oracles_agree_flipped : ∃ expected report distance,
    zeroCircuit flipped 3 (some flippedLayout) = .ok expected ∧
    verifyZero (fun _ _ _ => .error .qiskit) [("c", 1)] [("c", 1)] flipped flippedOutput
      (some flippedLayout) 25 =
      .ok report ∧
    verifyDynamic (fun _ _ _ _ body => some body) 1000 expected flippedOutput =
      .ok { status := report.status, joint_trace_distance := some distance } := by
  have hreference : (zeroCircuit flipped 3 (some flippedLayout)).toOption.map
      (fun expected => (expected.measurements, expected.length)) = some ([(1, 0)], 2) := by rfl
  have hverdict : ((verifyZero (fun _ _ _ => .error .qiskit) [("c", 1)]
      [("c", 1)] flipped flippedOutput
      (some flippedLayout) 25).toOption.bind (·.joint_trace_distance)).isSome = true := by rfl
  cases hexpected : zeroCircuit flipped 3 (some flippedLayout) with
  | error e =>
      rw [hexpected] at hreference
      cases hreference
  | ok expected =>
      rw [hexpected] at hreference
      obtain ⟨hmeasured, hlength⟩ := Prod.ext_iff.mp (Option.some.inj hreference)
      cases hreport : verifyZero (fun _ _ _ => .error .qiskit) [("c", 1)]
        [("c", 1)] flipped flippedOutput
          (some flippedLayout) 25 with
      | error e =>
          rw [hreport] at hverdict
          cases hverdict
      | ok report =>
          rw [hreport] at hverdict
          obtain ⟨distance, hdistance⟩ := Option.isSome_iff_exists.mp hverdict
          have hset : ∀ x, x ∈ expected.measurements ↔ x ∈ flippedOutput.measurements := fun x => by
            rw [show expected.measurements = [(1, 0)] from hmeasured]
            rfl
          have hshort : expected.length ≤ 1000 := by
            rw [show expected.length = 2 from hlength]
            decide
          exact ⟨expected, report, distance, rfl, rfl,
            (oracles_agree _ (fun _ _ _ _ body => some body) (by decide) hexpected hset hshort
              (by decide) hreport
              hdistance).1⟩

end TranspileBench.Verifier
