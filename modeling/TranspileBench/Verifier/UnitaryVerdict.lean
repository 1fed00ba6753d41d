import TranspileBench.Verifier.Unitary
import TranspileBench.Verifier.OracleAgreement
import Mathlib

/-!
What C1's verdict says: an output that is verified does to every input what the reference does,
up to a phase and the tolerance of the comparison; one that does exactly that is verified.
-/
namespace TranspileBench.Verifier
open Amplitudes Metrics Fallible

variable {P : Type} {n m m' k w : Nat}

/-! ## Circuits of gates -/

section Gates
variable {K : Type} [CommRing K] [StarRing K]

theorem normSq_smul (u : unitary K) (ψ : State n K) : normSq ((u : K) • ψ) = normSq ψ := by
  simp only [normSq, innerProduct, Pi.smul_apply, smul_eq_mul, star_mul']
  refine Finset.sum_congr rfl fun b _ => ?_
  calc star (u : K) * star (ψ b) * ((u : K) * ψ b)
      = star (u : K) * u * (star (ψ b) * ψ b) := by ring
    _ = star (ψ b) * ψ b := by rw [Unitary.coe_star_mul_self, one_mul]

/-- A circuit of gates keeps the norm. -/
theorem act_normSq : ∀ (circuit : Circuit P K n m) {f : State n K →ₗ[K] State n K},
    circuit.act = some f →
    ∀ ψ, normSq (f ψ) = normSq ψ
  | .done phase, _, h, ψ => by
      obtain rfl := Option.some.inj h
      exact normSq_smul phase ψ
  | .cons .barrier rest, _, h, ψ => act_normSq rest h ψ
  | .cons (.gate _ (some U) qs []) rest, _, h, ψ => by
      obtain ⟨f, hf, rfl⟩ := Option.map_eq_some_iff.mp h
      exact (act_normSq rest hf _).trans normSq_evolve
  | .cons (.gate _ none _ _) _, _, h, _ | .cons (.gate _ (some _) _ (_ :: _)) _, _, h, _
  | .cons (.measure ..) _, _, h, _ | .cons (.reset _) _, _, h, _ | .cons (.ifThen ..) _, _, h, _
  | .cons (.ifElse ..) _, _, h, _ | .cons (.whileLoop ..) _, _, h, _ | .cons (.forLoop ..) _, _,
      h, _ => nomatch h

/-- A gate at the end acts last; the global phase commutes with it. -/
theorem act_snoc (name : String) (U : Isometry (BitVec k) K) (qs : Fin k ↪ Fin n) :
    ∀ (circuit : Circuit P K n m) {f : State n K →ₗ[K] State n K},
      (circuit.snoc (.gate name (some U) qs [])).act = some f →
        ∃ g, circuit.act = some g ∧ ∀ ψ, f ψ = evolve U qs (g ψ)
  | .done phase, _, h => by
      obtain rfl := Option.some.inj h
      exact ⟨_, rfl, fun ψ => (evolve_smul (phase : K)).symm⟩
  | .cons .barrier rest, _, h => act_snoc name U qs rest h
  | .cons (.gate _ (some V) qs' []) rest, _, h => by
      obtain ⟨f, hf, rfl⟩ := Option.map_eq_some_iff.mp h
      obtain ⟨g, hg, hact⟩ := act_snoc name U qs rest hf
      exact ⟨_, congrArg (Option.map (· ∘ₗ evolveMap V qs')) hg, fun ψ => hact _⟩
  | .cons (.gate _ none _ _) _, _, h | .cons (.gate _ (some _) _ (_ :: _)) _, _, h
  | .cons (.measure ..) _, _, h | .cons (.reset _) _, _, h | .cons (.ifThen ..) _, _, h
  | .cons (.ifElse ..) _, _, h | .cons (.whileLoop ..) _, _, h | .cons (.forLoop ..) _,
      _, h => nomatch h

/-- A circuit on wires of a wider one leaves the idle wires as they are. -/
theorem act_place (emb : Fin w ↪ Fin n) :
    ∀ (circuit : Circuit P K w m) {f : State w K →ₗ[K] State w K}
    {g : State n K →ₗ[K] State n K}, circuit.act = some f → (circuit.place emb).act = some g →
      ∀ ψ, g (widen emb ψ) = widen emb (f ψ)
  | .done phase, _, _, hf, hg, ψ => by
      obtain rfl := Option.some.inj hf
      obtain rfl := Option.some.inj hg
      funext b
      simp only [LinearMap.smul_apply, LinearMap.id_apply, widen, Pi.smul_apply]
      split <;> simp
  | .cons .barrier rest, _, _, hf, hg, ψ => act_place emb rest hf hg ψ
  | .cons (.gate _ (some U) qs []) rest, _, _, hf, hg, ψ => by
      obtain ⟨f', hf', rfl⟩ := Option.map_eq_some_iff.mp hf
      obtain ⟨g', hg', rfl⟩ := Option.map_eq_some_iff.mp hg
      exact (congrArg g' (evolve_widen U qs emb ψ)).trans (act_place emb rest hf' hg' _)
  | .cons (.gate _ none _ _) _, _, _, hf, _,
      _ | .cons (.gate _ (some _) _ (_ :: _)) _, _, _, hf, _, _
  | .cons (.measure ..) _, _, _, hf, _, _ | .cons (.reset _) _, _, _, hf, _, _
  | .cons (.ifThen ..) _, _, _, hf, _, _ | .cons (.ifElse ..) _, _, _, hf, _, _
  | .cons (.whileLoop ..) _, _, _, hf, _, _ | .cons (.forLoop ..) _, _, _, hf, _, _ => nomatch hf

theorem place_place (a : Fin k ↪ Fin w) (b : Fin w ↪ Fin n) : ∀ circuit : Circuit P K k m,
    (circuit.place a).place b = circuit.place (a.trans b)
  | .done _ => rfl
  | .cons op rest => by
      have ih := place_place a b rest
      cases op <;> exact congrArg (Circuit.cons _) ih

omit [StarRing K] in
theorem matrixOf_apply (f : State n K →ₗ[K] State n K) (ψ : State n K) :
    f ψ = fun b => ∑ c, matrixOf f b c * ψ c := by
  funext b
  rw [LinearMap.pi_apply_eq_sum_univ f ψ, Finset.sum_apply]
  refine Finset.sum_congr rfl fun c _ => ?_
  have hbasis : (fun j => if c = j then (1 : K) else 0) = Pi.single c 1 := by
    funext j
    simp [Pi.single_apply, eq_comm]
  rw [Pi.smul_apply, smul_eq_mul, mul_comm, hbasis, matrixOf]

end Gates

/-! ## Comparing -/

section Compare
variable {B : Type} [Fintype B] {a b : B → ℂ} {rtol atol : ℝ}

theorem phaseEqual_iff : PhaseEqual a b rtol atol ↔
    ∀ i, ‖phaseOf (innerProduct a b) * a i - b i‖ ≤ atol + rtol * ‖b i‖ := by
  unfold PhaseEqual phaseOf
  dsimp only
  split
  case isTrue => simp only [one_mul]
  case isFalse => simp only [mul_div_assoc, mul_comm]

/-- Vectors that are equal up to a phase are found equal. -/
theorem phaseEqual_smul {u : ℂ} (hu : ‖u‖ = 1) (hb : b = u • a) (hrtol : 0 ≤ rtol)
    (hatol : 0 ≤ atol) :
    PhaseEqual a b rtol atol := by
  have hphase : ∀ i, phaseOf (innerProduct a b) * a i = b i := by
    have hoverlap : innerProduct a b = u * (weight a : ℂ) := by
      rw [hb, innerProduct_smul_right]
      exact congrArg (u * ·) (normSq_eq_weight a)
    intro i
    rcases (weight_nonneg a).eq_or_lt with hzero | hpos
    · have ha : a i = 0 := by
        have hsum : ∑ j, ‖a j‖ ^ 2 = 0 := (weight_eq_sum a).symm.trans hzero.symm
        have hterm := (Finset.sum_eq_zero_iff_of_nonneg fun j _ => sq_nonneg ‖a j‖).mp hsum i
            (Finset.mem_univ i)
        exact norm_eq_zero.mp (pow_eq_zero_iff two_ne_zero |>.mp hterm)
      rw [hb, Pi.smul_apply, ha, mul_zero, smul_zero]
    · rw [hoverlap, phaseOf_mul hu hpos, hb]
      rfl
  rw [phaseEqual_iff]
  intro i
  rw [hphase, sub_self, norm_zero]
  positivity

end Compare

section Dense
variable {B : Type} [Fintype B] {a b : B → B → ℂ}

theorem compareOperators_smul {u : ℂ} (hu : ‖u‖ = 1) (hb : b = u • a) (hcard : 0 < Fintype.card B)
    (hweight : weight (flat a) = Fintype.card B) :
    (compareOperators a b).status = .verified ∧
      (compareOperators a b).process_infidelity = some 0 := by
  have hflat : flat b = u • flat a := by
    rw [hb]
    rfl
  constructor
  · exact if_pos (phaseEqual_smul hu hflat (by norm_num) (by norm_num))
  · have hpos : (0 : ℝ) < Fintype.card B := by exact_mod_cast hcard
    have hoverlap : ‖innerProduct (flat a) (flat b)‖ = Fintype.card B := by
      have hself : innerProduct (flat a) (flat a) = (weight (flat a) : ℂ) := normSq_eq_weight _
      rw [hflat, innerProduct_smul_right, hself, hweight, norm_mul, hu, one_mul, Complex.norm_real,
        Real.norm_of_nonneg hpos.le]
    refine congrArg some ?_
    rw [hoverlap, div_self (pow_ne_zero 2 hpos.ne'), sub_self, max_self]

/-- Operators that are found equal are close in every entry, up to one phase. -/
theorem compareOperators_entries (h : (compareOperators a b).status = .verified) (x y : B) :
    ‖phaseOf (innerProduct (flat a) (flat b)) * a x y - b x y‖ ≤ 1e-8 + 1e-7 * ‖b x y‖ := by
  by_cases hequal : PhaseEqual (flat a) (flat b) 1e-7 1e-8
  · exact phaseEqual_iff.mp hequal (x, y)
  · cases (if_neg hequal).symm.trans h

theorem compareOperators_infidelity (h : (compareOperators a b).status = .verified)
    (hcard : 0 < Fintype.card B)
    (ha : weight (flat a) = Fintype.card B) (hb : weight (flat b) = Fintype.card B) :
    ∃ infidelity ≤ (1e-8 * √(Fintype.card B) + 1e-7) ^ 2,
      (compareOperators a b).process_infidelity = some infidelity := by
  refine ⟨_, max_le (sq_nonneg _) ?_, rfl⟩
  have hpos : (0 : ℝ) < Fintype.card B := by exact_mod_cast hcard
  have hclose : size (phaseOf (innerProduct (flat a) (flat b)) • flat a - flat b) ≤
      1e-8 * √(Fintype.card (B × B)) + 1e-7 * size (flat b) :=
    size_le_of_entries (by norm_num) (by norm_num) fun x => compareOperators_entries h x.1 x.2
  have hroot : √(Fintype.card (B × B) : ℝ) = Fintype.card B := by
    rw [Fintype.card_prod, Nat.cast_mul, Real.sqrt_mul_self hpos.le]
  have hsize : size (flat b) = √(Fintype.card B) := congrArg Real.sqrt hb
  rw [hroot, hsize] at hclose
  refine (overlap_defect (norm_phaseOf (innerProduct (flat a) (flat b))) hpos ha hb).trans ?_
  rw [div_le_iff₀ hpos]
  have hsquare : √(Fintype.card B : ℝ) ^ 2 = Fintype.card B := Real.sq_sqrt hpos.le
  calc size _ ^ 2 ≤ (1e-8 * Fintype.card B + 1e-7 * √(Fintype.card B)) ^ 2 := by
        gcongr
        exact size_nonneg _
    _ = (1e-8 * √(Fintype.card B) + 1e-7) ^ 2 * Fintype.card B := by
        linear_combination ((1e-7 : ℝ) ^ 2 - 1e-8 ^ 2 * Fintype.card B) * hsquare

end Dense

/-! ## Dense operators of circuits -/

section Circuits
variable {f g : State n ℂ →ₗ[ℂ] State n ℂ}

theorem act_weight {circuit : Circuit P ℂ n m} (hf : circuit.act = some f) (ψ : State n ℂ) :
    weight (f ψ) = weight ψ :=
  congrArg Complex.re (act_normSq circuit hf ψ)

theorem weight_single (c : BitVec n) : weight (Pi.single c 1 : State n ℂ) = 1 := by
  rw [weight_eq_sum, Finset.sum_eq_single c]
  · simp
  · intro b _ hb
    simp [hb]
  · intro hc
    exact absurd (Finset.mem_univ c) hc

/-- The operator of a circuit has unit columns. -/
theorem weight_column {circuit : Circuit P ℂ n m} (hf : circuit.act = some f) (c : BitVec n) :
    (weight fun b => matrixOf f b c) = 1 :=
  (act_weight hf _).trans (weight_single c)

theorem card_index (n : Nat) : Fintype.card (BitVec n) = 2 ^ n := by
  rw [Fintype.card_congr (Equiv.ofBijective BitVec.toFin
    ⟨fun _ _ => BitVec.toFin_inj.mp, fun i => ⟨⟨i⟩, rfl⟩⟩),
    Fintype.card_fin]

theorem weight_operator {circuit : Circuit P ℂ n m} (hf : circuit.act = some f) :
    weight (flat (matrixOf f)) = Fintype.card (BitVec n) := by
  rw [weight_flat]
  simp [weight_column hf]

/-- The columns without the control are those of the identity. -/
theorem weight_controlled {circuit : Circuit P ℂ n m} (hf : circuit.act = some f) :
    weight (flat (controlledOf (matrixOf f))) = Fintype.card (BitVec n × Bool) := by
  have hcolumn : ∀ y : BitVec n × Bool, (weight fun x => controlledOf (matrixOf f) x y) = 1 := by
    rintro ⟨c, control⟩
    cases control with
    | false =>
        have hsingle : (fun x => controlledOf (matrixOf f) x (c, false)) = fun x =>
            if x = (c, false) then 1 else 0 := by
          funext x
          simp [controlledOf]
        rw [hsingle, weight_eq_sum, Finset.sum_eq_single (c, false)]
        · simp
        · intro x _ hx
          simp [hx]
        · intro hx
          exact absurd (Finset.mem_univ _) hx
    | true =>
        rw [← weight_column hf c, weight_eq_sum, weight_eq_sum, Fintype.sum_prod_type]
        refine Finset.sum_congr rfl fun b _ => ?_
        simp [controlledOf]
  rw [weight_flat]
  simp [hcolumn]

/-- Close entries make close states, for every input. -/
theorem size_entries {output : Circuit P ℂ n m} {u : ℂ} (hg : output.act = some g)
    (h : ∀ b c, ‖u * matrixOf f b c - matrixOf g b c‖ ≤ 1e-8 + 1e-7 * ‖matrixOf g b c‖)
    (ψ : State n ℂ) :
    size (u • f ψ - g ψ) ≤ (1e-8 * 2 ^ n + 1e-7 * √(2 ^ n)) * size ψ := by
  have hdifference : u • f ψ - g ψ = fun b => ∑ c, (u • matrixOf f - matrixOf g) b c * ψ c := by
    rw [matrixOf_apply f ψ, matrixOf_apply g ψ]
    funext b
    simp only [Pi.sub_apply, Pi.smul_apply, smul_eq_mul, Finset.mul_sum, ← Finset.sum_sub_distrib]
    exact Finset.sum_congr rfl fun c _ => by ring
  have hcard : (Fintype.card (BitVec n) : ℝ)
      = 2 ^ n := by rw [card_index, Nat.cast_pow, Nat.cast_ofNat]
  have hclose : size (flat (u • matrixOf f - matrixOf g)) ≤
      1e-8 * √(Fintype.card (BitVec n × BitVec n)) + 1e-7 * size (flat (matrixOf g)) :=
    size_le_of_entries (by norm_num) (by norm_num) fun x => h x.1 x.2
  have hroot : √(Fintype.card (BitVec n × BitVec n) : ℝ) = 2 ^ n := by
    rw [Fintype.card_prod, Nat.cast_mul, hcard, Real.sqrt_mul_self (by positivity)]
  have hsize : size (flat (matrixOf g)) = √(2 ^ n) := by
    rw [size, weight_operator hg, hcard]
  rw [hroot, hsize] at hclose
  rw [hdifference]
  exact (size_apply_le _ ψ).trans (mul_le_mul_of_nonneg_right hclose (size_nonneg ψ))

end Circuits

/-! ## The reference -/

theorem wireList_entry {qubits : List Int} {emb : Fin k ↪ Fin n}
    (h : wireList n k qubits = some emb) (j : Fin k) :
    entry qubits (j : Nat) = (emb j : Nat) := by
  unfold wireList at h
  split at h
  case isFalse => cases h
  case isTrue hplace =>
    obtain rfl := Option.some.inj h
    have hj : (j : Nat) < qubits.length := hplace.1 ▸ j.isLt
    have hentry : entry qubits (j : Nat) = qubits.get (j.cast hplace.1.symm) := by
      rw [entry, Int.toNat_natCast, List.getD_eq_getElem _ _ hj]
      rfl
    rw [hentry]
    exact (Int.toNat_of_nonneg (hplace.2.2 _ (List.get_mem _ _)).1).symm

theorem wireList_take {values : List Int} {emb : Fin k ↪ Fin n} {σ : Equiv.Perm (Fin n)}
    (h : wireList n k (values.take k) = some emb) (hσ : Tracks σ values) (j : Fin k) (hk : k ≤ n) :
    emb j = σ (j.castLE hk) := by
  have hentry := wireList_entry h j
  have htake : entry (values.take k) (j : Nat) = entry values ((j.castLE hk : Fin n) : Nat) := by
    simp only [entry, Int.toNat_natCast, List.getD_eq_getElem?_getD,
      List.getElem?_take_of_lt j.isLt, Fin.val_castLE]
  rw [htake, hσ.entry] at hentry
  exact Fin.ext (by exact_mod_cast hentry.symm)

theorem wireList_length {qubits : List Int} {emb : Fin k ↪ Fin n}
    (h : wireList n k qubits = some emb) :
    qubits.length = k := by
  unfold wireList at h
  split at h
  case isFalse => cases h
  case isTrue hplace => exact hplace.1

/-- A permutation gate takes the content of every wire to where the inverse of its pattern says. -/
theorem evolve_permutation {gate : Isometry (BitVec n) ℂ} {pattern : Fin n ↪ Fin n}
    {σ : Equiv.Perm (Fin n)}
    (permutes : ∀ b c, gate.matrix b c = if b = gather pattern c then 1 else 0)
    (h : ∀ i, σ (pattern i) = i) (ψ : State n ℂ) :
    evolve gate (.refl _) ψ = widen σ.toEmbedding ψ := by
  have hrefl : ∀ b : BitVec n, gather (.refl _) b = b :=
    fun b => index_ext fun i => getLsbD_gather _ b i
  have hgather : ∀ b c : BitVec n, b = gather pattern c ↔ gather σ.toEmbedding b = c := by
    intro b c
    have hinverse : ∀ d, gather pattern (gather σ.toEmbedding d) = d :=
      fun d => index_ext fun i => by
      rw [getLsbD_gather, getLsbD_gather]
      exact congrArg (fun j : Fin n => d.getLsbD j) (h i)
    constructor
    · intro hb
      exact gather_injective ((hinverse b).trans hb)
    · rintro rfl
      exact (hinverse b).symm
  have hscatter : ∀ b c : BitVec n, scatter (.refl _) b c = c := fun b c =>
    (hrefl _).symm.trans ((wires (.refl _)).get_set b c)
  have hbusy : ∀ b : BitVec n, Idle σ.toEmbedding b :=
    fun b i hi => absurd (σ.apply_symm_apply i) (hi _)
  funext b
  change ∑ c, gate.matrix (gather (.refl _) b) c * ψ (scatter (.refl _) b c) = _
  simp only [permutes, hrefl, hscatter, hgather, ite_mul, one_mul, zero_mul, Finset.sum_ite_eq,
    Finset.mem_univ, if_true]
  exact (if_pos (hbusy b)).symm

/-- On the all-zero state C1's reference does what C2's does. -/
theorem reference_zero {q : Dense P ℂ} (documented : q.Documented) {logical : Circuit P ℂ k m}
    {layout : Option Layout} {reference zero : Circuit P ℂ n m}
    {f z : State n ℂ →ₗ[ℂ] State n ℂ}
    (hreference : unitaryCircuit q logical n layout = .ok reference)
    (hzero : zeroCircuit logical n layout = .ok zero) (hf : reference.act = some f)
    (hz : zero.act = some z) :
    f (zeroState n ℂ) = z (zeroState n ℂ) := by
  rw [unitaryCircuit] at hreference
  rw [zeroCircuit] at hzero
  split at hreference
  case isTrue => cases hreference
  case isFalse haccepted =>
    have haccepted := not_not.mp haccepted
    rw [if_neg (not_not.mpr haccepted)] at hzero
    obtain ⟨hinitial, hfinal⟩ := layout_permutations haccepted
    obtain ⟨σi, hi⟩ := exists_tracks hinitial
    obtain ⟨σf, hfinalTracks⟩ := exists_tracks hfinal
    dsimp only at hreference hzero
    split at hreference
    case h_2 => cases hreference
    case h_1 initialWires pattern hinitialWires hpattern =>
      split at hzero
      case h_2 => cases hzero
      case h_1 finalWires hfinalWires =>
        cases hreference
        cases hzero
        have hk : k ≤ n := by
          have hlength := wireList_length hinitialWires
          rw [List.length_take, hi.length] at hlength
          omega
        -- the permutation takes the initial wires to the final ones
        have hmoved : finalWires = initialWires.trans (σf * σi⁻¹).toEmbedding := by
          refine Function.Embedding.ext fun j => ?_
          rw [wireList_take hfinalWires hfinalTracks j hk]
          change _ = (σf * σi⁻¹) (initialWires j)
          rw [wireList_take hinitialWires hi j hk]
          simp
        have hinverse : ∀ i, (σf * σi⁻¹) (pattern i) = i := by
          intro i
          have hentry := wireList_entry hpattern i
          rw [(permutationPattern_tracks hi hfinalTracks).entry] at hentry
          have hval : pattern i = (σi * σf⁻¹) i := Fin.ext (by exact_mod_cast hentry.symm)
          rw [hval]
          simp
        obtain ⟨g, hg, hact⟩ := act_snoc "permutation" (q.permutation n pattern) (.refl _) _ hf
        rw [hmoved, ← place_place] at hz
        rw [hact, evolve_permutation (documented.permutation n pattern) hinverse, ← act_place _ _ hg
          hz, widen_zeroState]

/-! ## The verdict -/

/-- C1's verdict on an output of gates. An output that does what the reference does, up to a
phase, or exactly where there is a control, is verified; one that is verified does to every input
what the reference does, up to the phase and the tolerance; and on the all-zero state the
reference is that of C2. -/
theorem unitary_verdict {q : Dense P ℂ} (documented : q.Documented) {logical : Circuit P ℂ k m}
    {output : Circuit P ℂ n m'} {layout : Option Layout}
    {max_qubits : Nat} (controlled : Bool) {reference : Circuit P ℂ n m}
    {f g : State n ℂ →ₗ[ℂ] State n ℂ}
    (hreference : unitaryCircuit q logical n layout = .ok reference) (hf : reference.act = some f)
    (hg : output.act = some g) (hwidth : n ≤ max_qubits) :
    ∃ report, verifyUnitary q logical output layout "all_inputs" max_qubits
      controlled = .ok report ∧
      (∀ u : ℂ, ‖u‖ = 1 → (controlled = true → u = 1) → (∀ ψ, g ψ = u • f ψ) →
        report.status = .verified ∧ report.process_infidelity = some 0) ∧
      (report.status = .verified →
        (∃ u : ℂ, ‖u‖ = 1 ∧ (controlled = true → ‖u - 1‖ ≤ 1.1e-7) ∧
          ∀ ψ, size (u • f ψ - g ψ) ≤ (1e-8 * 2 ^ n + 1e-7 * √(2 ^ n)) * size ψ) ∧
        ∃ infidelity ≤ (1e-8 * √(2 ^ (n + controlled.toNat)) + 1e-7) ^ 2,
          report.process_infidelity = some infidelity) ∧
      ∀ zero z, zeroCircuit logical n layout = .ok zero → zero.act = some z →
        f (zeroState n ℂ) = z (zeroState n ℂ) := by
  have hinfidelity : (2 : ℝ) ^ (n + controlled.toNat) =
      if controlled then (Fintype.card (BitVec n × Bool) : ℝ) else (Fintype.card
        (BitVec n) : ℝ) := by
    rw [Fintype.card_prod, card_index, Fintype.card_bool]
    cases controlled
    · simp
    · simp [pow_succ]
  have hpositive : 0 < Fintype.card (BitVec n) := by
    rw [card_index]
    positivity
  refine ⟨if controlled then compareOperators (controlledOf (matrixOf f))
    (controlledOf (matrixOf g))
    else compareOperators (matrixOf f) (matrixOf g), ?_, ?_, ?_,
    fun zero z hzero hz => reference_zero documented hreference hzero hf hz⟩
  · rw [verifyUnitary, if_neg (by simp), if_neg (by omega), hreference]
    change ((q.operator n m reference).mapError Failure.stopped >>= fun a =>
      (q.operator n m' output).mapError Failure.stopped >>= fun b => _) = _
    rw [documented.operator _ _ _ _ hf, documented.operator _ _ _ _ hg]
    rfl
  · intro u hu hexact hsame
    have hmatrix : matrixOf g = u • matrixOf f := by
      funext b c
      exact congrFun (hsame _) b
    cases controlled with
    | false => exact compareOperators_smul hu hmatrix hpositive (weight_operator hf)
    | true =>
        obtain rfl := hexact rfl
        rw [one_smul] at hmatrix
        rw [hmatrix]
        exact compareOperators_smul norm_one (one_smul ℂ _).symm (by simp [hpositive])
          (weight_controlled hf)
  · intro hverified
    rw [hinfidelity]
    cases controlled with
    | false =>
        exact ⟨⟨_, norm_phaseOf _, nofun, size_entries hg (compareOperators_entries hverified)⟩,
          compareOperators_infidelity hverified hpositive (weight_operator hf) (weight_operator hg)⟩
    | true =>
        have hentries := compareOperators_entries hverified
        refine ⟨⟨phaseOf (innerProduct (flat (controlledOf (matrixOf f)))
          (flat (controlledOf (matrixOf g)))),
          norm_phaseOf _, fun _ => ?_, size_entries hg fun b c => hentries (b, true) (c, true)⟩,
          compareOperators_infidelity hverified (by simp [hpositive]) (weight_controlled hf)
            (weight_controlled hg)⟩
        -- the entries of the idle control fix the phase
        have hcorner := hentries (0#n, false) (0#n, false)
        simp only [controlledOf, Bool.and_self, Bool.false_eq_true, if_false, if_true, mul_one,
          norm_one] at hcorner
        exact hcorner.trans (by norm_num)

/-! ## A sample -/

/-- `PermutationGate(pattern)`. -/
def permutationGate (pattern : Fin n ↪ Fin n) : Isometry (BitVec n) ℂ where
  matrix b c := if b = gather pattern c then 1 else 0
  isometric a b := by
    simp [apply_ite star, gather_injective.eq_iff, eq_comm]

/-- The operators of circuits of gates. -/
noncomputable def gateOperators : Dense Unit ℂ where
  operator _ _ circuit := circuit.act.elim (.error .qiskit) fun f => .ok (matrixOf f)
  permutation _ := permutationGate

theorem gateOperators_documented : gateOperators.Documented where
  operator _ _ _ _ hf := by simp [gateOperators, hf]
  permutation _ _ _ _ := rfl

/-- The two wires of a swap. -/
def crossed : Fin 2 ↪ Fin 2 := ⟨Fin.rev, Fin.rev_injective⟩

def flippedWire : Circuit Unit ℂ 1 0 := .cons (.gate "x" (some notGate) (.refl _) []) (.done 1)

/-- The flip on the other wire, and a swap that the layout accounts for. -/
def swappedOutput : Circuit Unit ℂ 2 0 :=
  .cons (.gate "x" (some notGate) (lone (.last 1)) []) <|
    .cons (.gate "swap" (some (permutationGate crossed)) (.refl _) []) <| .done 1

def swappedLayout : Layout := ⟨1, 2, [1, 0], [0, 1], [1, 0]⟩

theorem swapped_reference : unitaryCircuit gateOperators flippedWire 2 (some swappedLayout) = .ok
    (.cons (.gate "x" (some notGate) (lone (.last 1)) []) <|
      .cons (.gate "permutation" (some (permutationGate crossed)) (.refl _) []) <| .done 1) := by
  have wires : wireList 2 1 ((initialOf (some swappedLayout) 2).take 1) =
      some (lone (.last 1)) := by
    rw [wireList, dif_pos (by decide)]
    exact congrArg some (Function.Embedding.ext (by decide))
  have pattern : wireList 2 2 (permutationPattern (initialOf (some swappedLayout) 2)
      (finalOf (some swappedLayout) 2) 2) = some crossed := by
    rw [wireList, dif_pos (by decide)]
    exact congrArg some (Function.Embedding.ext (by decide))
  have accepted : ¬ layoutErrors (some swappedLayout) 1 2 none ≠ [] := by decide
  rw [unitaryCircuit, if_neg accepted]
  dsimp only
  rw [wires, pattern]
  rfl

theorem unitary_verdict_swapped : ∃ report,
    verifyUnitary gateOperators flippedWire swappedOutput (some swappedLayout) "all_inputs" 10 true
      = .ok report ∧
    report.status = .verified ∧ report.process_infidelity = some 0 := by
  have houtput : swappedOutput.act = some _ := rfl
  obtain ⟨report, hreport, hverified, -⟩ := unitary_verdict gateOperators_documented true
    swapped_reference rfl houtput (show 2 ≤ 10 by decide)
  obtain ⟨status, infidelity⟩ := hverified 1 norm_one (fun _ => rfl) fun ψ => (one_smul ℂ _).symm
  exact ⟨report, hreport, status, infidelity⟩

end TranspileBench.Verifier
