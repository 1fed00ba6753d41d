import TranspileBench.Evaluator.Cost
import TranspileBench.Evaluator.Exact
import TranspileBench.Lib.Assoc
import TranspileBench.Lib.Fallible

/-!
The cost guard in exact arithmetic. A slower or larger candidate, or a faster or smaller
baseline, is breached whenever the original was; and none of the divisions and logarithms
of a judgement is undefined, so the guard agrees with a version of it that raises where
they would.
-/
namespace TranspileBench.Evaluator
open Arith Fallible Assoc

section Raising
variable {N : Type} [Arith N] [DecidableEq N]

/-- `a / b`, with the exception of a zero divisor. -/
def divide (a b : N) : Except Exn N :=
  if eq b (ofInt 0) then .error (.other "ZeroDivisionError") else .ok (div a b)

/-- `math.log`, with the exception of an argument that is not positive. -/
def logarithm (a : N) : Except Exn N :=
  if le a (ofInt 0) then .error (.other "ValueError: math domain error") else .ok (log a)

/-- `xs[c]`. -/
def entry (xs : List (String × N)) (c : String) : Except Exn N :=
  match xs.lookup c with
  | some x => .ok x
  | none => .error (.lookup c)

/-- `thresholds`, with the exceptions of its logarithm. -/
def thresholdsRaising (policy : Policy N) (estimator : Estimator) (regime : Regime) :
    Except Exn (Threshold N) := do
  let fixed ← thresholdsId policy
  let counts ← regimeCounts estimator policy.measurement_protocol
  match counts.get regime with
  | none => throw (.incomplete ("Cost regime " ++ regime.name ++ " is not part of the protocol"))
  | some count =>
      let panel ← logarithm fixed.panel_ratio
      pure {
        count := count.toNat
        noise_panel := if regime = .screen then mul panel fixed.screen_fraction else panel
        case_ratio := fixed.case_ratio
        floor := if estimator = .memory then fixed.case_floor_bytes else fixed.case_floor_ns }

def ratioRaising (estimate baseline : List (String × N)) (case : String × N) :
    Except Exn (String × N) := do
  let candidate ← entry estimate case.1
  let reference ← entry baseline case.1
  let ratio ← divide candidate reference
  pure (case.1, ratio)

/-- The sum so far and the weighted logarithm of one more case. -/
def panelRaising (ratios : List (String × N)) (sum : N) (case : String × N) : Except Exn N := do
  let ratio ← entry ratios case.1
  let ln ← logarithm ratio
  pure (add sum (mul case.2 ln))

/-- The case itself when it breaches the cap. -/
def capRaising (estimate baseline : List (String × N)) (threshold : Threshold N)
    (case : String × N) : Except Exn (List String) :=
  if lt threshold.case_ratio case.2 then do
    let candidate ← entry estimate case.1
    let reference ← entry baseline case.1
    pure (if lt threshold.floor (sub candidate reference) then [case.1] else [])
  else .ok []

/-- `_breached`, with the exceptions of its lookups, divisions and logarithms. -/
def breachedRaising (estimate baseline : List (String × N)) (weights : List (String × N))
    (threshold : Threshold N) : Except Exn (Candidate N) := do
  let ratios ← weights.mapM (ratioRaising estimate baseline)
  let ln_panel ← weights.foldlM (panelRaising ratios) (ofInt 0)
  let caps ← ratios.flatMapM (capRaising estimate baseline threshold)
  pure { ln_panel, ratios, cap_breaches := caps,
         breached := !caps.isEmpty || lt threshold.noise_panel ln_panel }

/-- The estimates of one arm, case by case. -/
def armEstimates (estimator : Estimator) (arm : String × Arm N) :
    Except Exn (String × List (String × N)) := do
  let values ← arm.2.samples.mapM fun entry => do
    let value ← costEstimate entry.2 estimator
    pure (entry.1, value)
  pure (arm.1, values)

/-- The judgement of a regime, given the panel's breach. -/
def judge (regime : Regime) (threshold : Threshold N) (candidate : Candidate N) : CostResult N :=
  let result : Result :=
    match regime, candidate.breached with
    | .rerun, true => .failed
    | .rerun, false => .passed_on_rerun
    | _, true => .unresolved
    | _, false => .passed
  { result
    regime
    count := threshold.count
    threshold
    candidate
    needs_full := regime == .screen && result != .passed
    needs_rerun := candidate.breached && regime == .normal }

/-- The estimates of the arm of a name. -/
def estimatesOf (estimates : List (String × List (String × N))) (name : String) :
    List (String × N) :=
  (estimates.lookup name).getD []

/-- `cost_guard`, with the exceptions of its arithmetic. The admission takes the logarithm
of `thresholds` first; it is raised here when the thresholds are read again. -/
def costGuardRaising (extension : Extension N) (bundle : Bundle N) (policy : Policy N)
    (estimator : Estimator) (weights : List (String × N)) (run_id : String)
    (requirement : Option Requirement) : Except Exn (CostResult N) := do
  validateBundle extension bundle policy estimator weights run_id requirement
  let threshold ← thresholdsRaising policy estimator bundle.regime
  let estimates ← bundle.arms.mapM (armEstimates estimator)
  let candidate ← breachedRaising (estimatesOf estimates "evolved")
    (estimatesOf estimates "baseline") weights threshold
  pure (judge bundle.regime threshold candidate)

variable {extension : Extension N} {bundle : Bundle N} {policy : Policy N}
  {estimator : Estimator} {weights : List (String × N)} {run_id : String}
  {requirement : Option Requirement}

/-- The guard in the same steps. -/
theorem costGuard_steps :
    costGuard extension bundle policy estimator weights run_id requirement = (do
      validateBundle extension bundle policy estimator weights run_id requirement
      let threshold ← thresholds policy estimator bundle.regime
      let estimates ← bundle.arms.mapM (armEstimates estimator)
      pure (judge bundle.regime threshold (breached (estimatesOf estimates "evolved")
        (estimatesOf estimates "baseline") weights threshold))) := rfl

/-- An admitted bundle has the two measured arms, each over the weighted cases, and the
thresholds of its regime. -/
theorem validateBundle_admits
    (h : validateBundle extension bundle policy estimator weights run_id requirement = .ok ()) :
    (bundle.arms.map (·.1)).Perm MEASURED_ARMS ∧
      (∀ arm ∈ bundle.arms, (arm.2.samples.map (·.1)).Perm (weights.map (·.1))) ∧
      ∃ threshold, thresholds policy estimator bundle.regime = .ok threshold := by
  unfold validateBundle at h
  obtain ⟨hnames, h⟩ := check_eq_ok.mp h
  obtain ⟨-, h⟩ := check_eq_ok.mp h
  obtain ⟨-, h⟩ := check_eq_ok.mp h
  obtain ⟨-, h⟩ := check_eq_ok.mp h
  obtain ⟨fixed, -, h⟩ := bind_eq_ok.mp h
  obtain ⟨-, h⟩ := check_eq_ok.mp h
  obtain ⟨-, h⟩ := check_eq_ok.mp h
  obtain ⟨threshold, hthreshold, h⟩ := bind_eq_ok.mp h
  obtain ⟨u, hsamples, -⟩ := bind_eq_ok.mp h
  refine ⟨not_not.mp fun hperm => hnames (.inr hperm), fun arm harm => ?_, threshold, hthreshold⟩
  have hchecked := forM_eq_ok.mp hsamples arm harm
  unfold checkSamples at hchecked
  split at hchecked
  · cases hchecked
  · rename_i hperm
    exact not_not.mp hperm

end Raising

/-! ## Samples and their estimates -/

section Samples
variable {N : Type} [LE N]

/-- Every sample is at most the one in its place. -/
def Samples.Below : Samples N → Samples N → Prop
  | .timing rounds, .timing rounds' => List.Forall₂ (List.Forall₂ (· ≤ ·)) rounds rounds'
  | .memory values, .memory values' => List.Forall₂ (· ≤ ·) values values'
  | .companion seeds, .companion seeds' =>
      List.Forall₂ (fun s t => s.1 = t.1 ∧ List.Forall₂ (List.Forall₂ (· ≤ ·)) s.2 t.2) seeds seeds'
  | _, _ => False

end Samples

section Field
variable {K : Type} [Field K] [LinearOrder K]

def Samples.Positive : Samples K → Prop
  | .timing rounds => ∀ round ∈ rounds, ∀ x ∈ round, 0 < x
  | .memory values => ∀ x ∈ values, 0 < x
  | .companion seeds => ∀ entry ∈ seeds, ∀ round ∈ entry.2, ∀ x ∈ round, 0 < x

variable [Arith K] [Exact K] {estimator : Estimator}

theorem medianOf_eq_ok {values : List K} {v : K} :
    medianOf values = .ok v ↔ (∀ x ∈ values, 0 < x) ∧ v = Statistics.median values := by
  have hbad : (values.any fun x => !isFinite x || le x (ofInt 0)) = true ↔
      ¬ ∀ x ∈ values, 0 < x := by simp
  unfold medianOf
  split
  · rename_i h
    exact ⟨fun heq => (nomatch heq), fun heq => absurd heq.1 (hbad.mp h)⟩
  · rename_i h
    rw [hbad, not_not] at h
    rw [Exact.median, Except.ok.injEq, eq_comm]
    exact ⟨fun heq => ⟨h, heq⟩, fun heq => heq.2⟩

theorem roundsEstimate_eq_ok {rounds : List (List K)} {v : K} :
    roundsEstimate rounds = .ok v ↔ rounds ≠ [] ∧ (∀ round ∈ rounds, round ≠ []) ∧
      (∀ round ∈ rounds, 0 < Statistics.median round) ∧
      v = Statistics.median (rounds.map Statistics.median) := by
  have hmedian : (median : List K → K) = Statistics.median := funext Exact.median
  unfold roundsEstimate
  split
  · rename_i h
    exact ⟨fun heq => (nomatch heq), fun heq => absurd h heq.1⟩
  split
  · rename_i h
    obtain ⟨round, hround, hempty⟩ := List.any_eq_true.mp h
    exact ⟨fun heq => (nomatch heq),
      fun heq => absurd (List.isEmpty_iff.mp hempty) (heq.2.1 round hround)⟩
  · rename_i hne hany
    have hfull : ∀ round ∈ rounds, round ≠ [] := fun round hround hempty =>
      hany (List.any_eq_true.mpr ⟨round, hround, List.isEmpty_iff.mpr hempty⟩)
    rw [hmedian, medianOf_eq_ok, List.forall_mem_map]
    exact ⟨fun h => ⟨hne, hfull, h⟩, fun h => h.2.2⟩

variable [IsStrictOrderedRing K]

theorem roundsEstimate_pos {rounds : List (List K)} {v : K}
    (h : roundsEstimate rounds = .ok v) : 0 < v := by
  obtain ⟨hne, -, hpos, rfl⟩ := roundsEstimate_eq_ok.mp h
  exact Statistics.median_pos (by simpa using hne) (List.forall_mem_map.mpr hpos)

/-- An estimate is positive when there is one. -/
theorem costEstimate_pos {samples : Samples K} {v : K}
    (h : costEstimate samples estimator = .ok v) : 0 < v := by
  unfold costEstimate at h
  split at h
  · exact roundsEstimate_pos h
  · split at h
    · cases h
    · rename_i hne
      obtain ⟨hpos, rfl⟩ := medianOf_eq_ok.mp h
      exact Statistics.median_pos hne hpos
  · split at h
    · cases h
    split at h
    · rename_i seeds hne hseeds
      obtain ⟨values, hvalues, h⟩ := bind_eq_ok.mp h
      cases h
      rw [Exact.fmean]
      refine Statistics.mean_pos ?_ (mapM_all (fun entry v => roundsEstimate_pos) hvalues)
      intro hnil
      have hlen := mapM_length hvalues
      rw [hnil] at hlen
      exact hne (List.length_eq_zero_iff.mp hlen.symm)
    · cases h
  · cases h

omit [Field K] [LinearOrder K] [Arith K] [Exact K] [IsStrictOrderedRing K] in
theorem any_isEmpty_eq {rounds rounds' : List (List K)}
    (h : List.Forall₂ (fun r r' => r.length = r'.length) rounds rounds') :
    rounds.any (·.isEmpty) = rounds'.any (·.isEmpty) := by
  induction h with
  | nil => rfl
  | @cons r r' _ _ hlen _ ih =>
      have hr : r.isEmpty = r'.isEmpty := by
        rw [Bool.eq_iff_iff, List.isEmpty_iff_length_eq_zero, List.isEmpty_iff_length_eq_zero, hlen]
      rw [List.any_cons, List.any_cons, hr, ih]

/-- Rounds of positive samples fail together, and the longer ones have the larger estimate. -/
theorem roundsEstimate_related {rounds rounds' : List (List K)}
    (h : List.Forall₂ (List.Forall₂ (· ≤ ·)) rounds rounds')
    (hpos : ∀ round ∈ rounds, ∀ x ∈ round, 0 < x)
    (hpos' : ∀ round ∈ rounds', ∀ x ∈ round, 0 < x) :
    Related (· ≤ ·) (roundsEstimate rounds) (roundsEstimate rounds') := by
  have hnil : rounds = [] ↔ rounds' = [] := by
    rw [← List.length_eq_zero_iff, ← List.length_eq_zero_iff, h.length_eq]
  have hempty : rounds.any (·.isEmpty) = rounds'.any (·.isEmpty) :=
    any_isEmpty_eq (h.imp fun _ _ hround => hround.length_eq)
  by_cases hr : rounds = []
  · rw [roundsEstimate, roundsEstimate, if_pos hr, if_pos (hnil.mp hr)]
    exact .error _
  · by_cases he : rounds.any (·.isEmpty) = true
    · rw [roundsEstimate, roundsEstimate, if_neg hr, if_neg (fun h => hr (hnil.mpr h)), if_pos he,
        if_pos (hempty ▸ he)]
      exact .error _
    · have value : ∀ {rs : List (List K)}, rs ≠ [] → ¬ rs.any (·.isEmpty) = true →
          (∀ round ∈ rs, ∀ x ∈ round, 0 < x) →
          roundsEstimate rs = .ok (Statistics.median (rs.map Statistics.median)) := by
        intro rs hne hany hpos
        have hfull : ∀ round ∈ rs, round ≠ [] := fun round hround hempty =>
          hany (List.any_eq_true.mpr ⟨round, hround, List.isEmpty_iff.mpr hempty⟩)
        exact roundsEstimate_eq_ok.mpr ⟨hne, hfull,
          fun round hround => Statistics.median_pos (hfull round hround) (hpos round hround), rfl⟩
      rw [value hr he hpos, value (fun h => hr (hnil.mpr h)) (hempty ▸ he) hpos']
      exact .ok (Statistics.median_mono (Statistics.forall₂_median h))

/-- Larger samples have the larger estimate, and are refused when the smaller ones are. -/
theorem costEstimate_related {samples samples' : Samples K} (h : samples.Below samples')
    (hpos : samples.Positive) (hpos' : samples'.Positive) :
    Related (· ≤ ·) (costEstimate samples estimator) (costEstimate samples' estimator) := by
  cases samples <;> cases samples' <;> first | exact h.elim | skip
  case timing.timing rounds rounds' =>
    cases estimator with
    | timing => exact roundsEstimate_related h hpos hpos'
    | companion | memory => exact .error _
  case memory.memory values values' =>
    cases estimator with
    | timing | companion => exact .error _
    | memory =>
        have hnil : values = [] ↔ values' = [] := by
          rw [← List.length_eq_zero_iff, ← List.length_eq_zero_iff, List.Forall₂.length_eq h]
        by_cases hv : values = []
        · simp only [costEstimate, if_pos hv, if_pos (hnil.mp hv)]
          exact .error _
        · simp only [costEstimate, if_neg hv, if_neg (fun h => hv (hnil.mpr h))]
          rw [medianOf_eq_ok.mpr ⟨hpos, rfl⟩, medianOf_eq_ok.mpr ⟨hpos', rfl⟩]
          exact .ok (Statistics.median_mono h)
  case companion.companion seeds seeds' =>
    cases estimator with
    | timing | memory => exact .error _
    | companion =>
        have hnames : seeds.map (·.1) = seeds'.map (·.1) := by
          rw [← List.forall₂_eq_eq_eq, List.forall₂_map_left_iff, List.forall₂_map_right_iff]
          exact List.Forall₂.imp (fun _ _ h => h.1) h
        have hnil : seeds = [] ↔ seeds' = [] := by
          rw [← List.map_eq_nil_iff, hnames, List.map_eq_nil_iff]
        by_cases hs : seeds = []
        · simp only [costEstimate, if_pos hs, if_pos (hnil.mp hs)]
          exact .error _
        · simp only [costEstimate, if_neg hs, if_neg (fun h => hs (hnil.mpr h)), hnames]
          split
          · refine Related.map (R := List.Forall₂ (· ≤ ·)) (Related.mapM ?_) fun us vs huv => ?_
            · refine List.forall₂_iff_zip.mpr ⟨List.Forall₂.length_eq h, fun {s t} hst => ?_⟩
              exact roundsEstimate_related (List.forall₂_zip h hst).2
                (hpos s (List.of_mem_zip hst).1) (hpos' t (List.of_mem_zip hst).2)
            · rw [Exact.fmean, Exact.fmean]
              exact Statistics.mean_mono huv
          · exact .error _

end Field

/-! ## The panel -/

section Panel
variable {K : Type} [Field K] [LinearOrder K] [Arith K] [Exact K]
  {estimate baseline estimate' baseline' weights : List (String × K)} {threshold : Threshold K}

/-- The estimate of a case, zero where there is none. -/
def valueOf (xs : List (String × K)) (c : String) : K := (xs.lookup c).getD 0

/-- Every weighted case has a positive estimate. -/
def Measured (weights xs : List (String × K)) : Prop :=
  ∀ c ∈ weights.map (·.1), ∃ v, xs.lookup c = some v ∧ 0 < v

omit [Arith K] [Exact K] in
theorem Measured.pos (h : Measured weights estimate) {c : String} (hc : c ∈ weights.map (·.1)) :
    0 < valueOf estimate c := by
  obtain ⟨v, hv, hpos⟩ := h c hc
  rw [valueOf, hv]
  exact hpos

theorem map_filter {α β : Type} (p : α → Bool) (f : α → β) (xs : List α) :
    (xs.filter p).map f = xs.flatMap fun x => if p x then [f x] else [] := by
  induction xs with
  | nil => rfl
  | cons x xs ih =>
      rw [List.flatMap_cons, ← ih, List.filter_cons]
      split <;> rfl

/-- The ratios, the logarithm of the panel and the capped cases. -/
def ratioOf (estimate baseline : List (String × K)) (c : String) : K :=
  valueOf estimate c / valueOf baseline c

def lnPanel (estimate baseline weights : List (String × K)) : K :=
  (weights.map fun cw => cw.2 * log (ratioOf estimate baseline cw.1)).sum

theorem getD_ofInt (xs : List (String × K)) (c : String) :
    (xs.lookup c).getD (ofInt 0) = valueOf xs c := by
  rw [Exact.ofInt, Int.cast_zero, valueOf]

/-- The panel of `_breached`, in the field's own terms. -/
theorem breached_eq :
    (breached estimate baseline weights threshold).ratios =
        (weights.map fun cw => (cw.1, ratioOf estimate baseline cw.1)) ∧
      (breached estimate baseline weights threshold).ln_panel =
        lnPanel estimate baseline weights ∧
      (breached estimate baseline weights threshold).cap_breaches =
        ((weights.map fun cw => (cw.1, ratioOf estimate baseline cw.1)).filter fun x =>
          decide (threshold.case_ratio < x.2) &&
            decide (threshold.floor < valueOf estimate x.1 - valueOf baseline x.1)).map (·.1) := by
  have hratios : (breached estimate baseline weights threshold).ratios =
      weights.map fun cw => (cw.1, ratioOf estimate baseline cw.1) := by
    simp only [breached, getD_ofInt, Exact.div, ratioOf]
  refine ⟨hratios, ?_, ?_⟩
  · have hterm : ∀ cw ∈ weights, cw.2 * log (valueOf
        (breached estimate baseline weights threshold).ratios cw.1) =
        cw.2 * log (ratioOf estimate baseline cw.1) := by
      intro cw hcw
      rw [hratios, valueOf, lookup_map_key _ (List.mem_map_of_mem hcw), Option.getD_some]
    rw [lnPanel, ← List.map_congr_left hterm, ← zero_add (List.sum _), ← foldl_add, hratios]
    simp only [breached, Exact.ofInt, Int.cast_zero, Exact.mul, Exact.div, ratioOf]
    rfl
  · simp only [breached, getD_ofInt, Exact.lt, Exact.sub, Exact.div, ratioOf]

theorem breached_iff :
    (breached estimate baseline weights threshold).breached = true ↔
      (∃ c ∈ weights.map (·.1), threshold.case_ratio < ratioOf estimate baseline c ∧
        threshold.floor < valueOf estimate c - valueOf baseline c) ∨
      threshold.noise_panel < lnPanel estimate baseline weights := by
  obtain ⟨-, hln, hcaps⟩ := @breached_eq K _ _ _ _ estimate baseline weights threshold
  have hshape : (breached estimate baseline weights threshold).breached =
      (!(breached estimate baseline weights threshold).cap_breaches.isEmpty ||
        lt threshold.noise_panel (breached estimate baseline weights threshold).ln_panel) := rfl
  rw [hshape, hln, hcaps, Bool.or_eq_true, Exact.lt, decide_eq_true_iff]
  refine or_congr_left ?_
  rw [Bool.not_eq_true', List.isEmpty_eq_false_iff_exists_mem]
  simp only [List.mem_map, List.mem_filter, Bool.and_eq_true, decide_eq_true_iff]
  constructor
  · intro ⟨c, x, ⟨⟨cw, hcw, heq⟩, hratio, hfloor⟩, _⟩
    cases heq
    exact ⟨cw.1, ⟨cw, hcw, rfl⟩, hratio, hfloor⟩
  · intro ⟨c, ⟨cw, hcw, heq⟩, hratio, hfloor⟩
    cases heq
    exact ⟨cw.1, _, ⟨⟨cw, hcw, rfl⟩, hratio, hfloor⟩, rfl⟩

variable [IsStrictOrderedRing K]

/-- Larger estimates against a smaller baseline breach whatever the smaller ones did. -/
theorem breached_mono (hweights : ∀ cw ∈ weights, 0 < cw.2)
    (hestimate : Measured weights estimate) (hestimate' : Measured weights estimate')
    (hbaseline : Measured weights baseline) (hbaseline' : Measured weights baseline')
    (larger : ∀ c ∈ weights.map (·.1), valueOf estimate c ≤ valueOf estimate' c)
    (smaller : ∀ c ∈ weights.map (·.1), valueOf baseline' c ≤ valueOf baseline c)
    (h : (breached estimate baseline weights threshold).breached = true) :
    (breached estimate' baseline' weights threshold).breached = true := by
  have hratio : ∀ c ∈ weights.map (·.1),
      ratioOf estimate baseline c ≤ ratioOf estimate' baseline' c := fun c hc =>
    div_le_div₀ (hestimate'.pos hc).le (larger c hc) (hbaseline'.pos hc) (smaller c hc)
  rw [breached_iff] at h ⊢
  cases h with
  | inl hcap =>
      obtain ⟨c, hc, hcase, hfloor⟩ := hcap
      exact .inl ⟨c, hc, hcase.trans_le (hratio c hc),
        hfloor.trans_le (sub_le_sub (larger c hc) (smaller c hc))⟩
  | inr hpanel =>
      refine .inr (hpanel.trans_le (List.sum_le_sum fun cw hcw => ?_))
      have hc := List.mem_map_of_mem (f := (·.1)) hcw
      exact mul_le_mul_of_nonneg_left
        (Exact.log_mono _ _ (div_pos (hestimate.pos hc) (hbaseline.pos hc)) (hratio _ hc))
        (hweights cw hcw).le

omit [IsStrictOrderedRing K] in
theorem divide_ok {a b : K} (h : 0 < b) : divide a b = .ok (a / b) := by
  simp [divide, h.ne']

omit [IsStrictOrderedRing K] in
theorem logarithm_ok {a : K} (h : 0 < a) : logarithm a = .ok (log a) := by
  simp [logarithm, h]

omit [Arith K] [Exact K] [IsStrictOrderedRing K] in
theorem Measured.entry (h : Measured weights estimate) {c : String}
    (hc : c ∈ weights.map (·.1)) : entry estimate c = .ok (valueOf estimate c) := by
  obtain ⟨v, hv, -⟩ := h c hc
  rw [Evaluator.entry, valueOf, hv]
  rfl

/-- Nothing in `_breached` is undefined when every weighted case has its two estimates. -/
theorem breachedRaising_eq (hestimate : Measured weights estimate)
    (hbaseline : Measured weights baseline) :
    breachedRaising estimate baseline weights threshold =
      .ok (breached estimate baseline weights threshold) := by
  obtain ⟨hratios, hln, hcaps⟩ := @breached_eq K _ _ _ _ estimate baseline weights threshold
  have hmap : weights.mapM (ratioRaising estimate baseline) =
      .ok (weights.map fun cw => (cw.1, ratioOf estimate baseline cw.1)) := by
    refine mapM_total fun cw hcw => ?_
    have hc := List.mem_map_of_mem (f := (·.1)) hcw
    exact bind_eq_ok.mpr ⟨_, hestimate.entry hc, bind_eq_ok.mpr ⟨_, hbaseline.entry hc,
      bind_eq_ok.mpr ⟨_, divide_ok (hbaseline.pos hc), rfl⟩⟩⟩
  have hfold : weights.foldlM
      (panelRaising (weights.map fun cw => (cw.1, ratioOf estimate baseline cw.1))) (ofInt 0) =
      .ok (lnPanel estimate baseline weights) := by
    rw [foldlM_total (g := fun sum cw => add sum (cw.2 * log (ratioOf estimate baseline cw.1))),
      foldl_add (fun cw : String × K => cw.2 * log (ratioOf estimate baseline cw.1)), Exact.ofInt,
      Int.cast_zero, zero_add, lnPanel]
    intro sum cw hcw
    have hc := List.mem_map_of_mem (f := (·.1)) hcw
    have hpos : 0 < ratioOf estimate baseline cw.1 := div_pos (hestimate.pos hc) (hbaseline.pos hc)
    have hentry : entry (weights.map fun cw => (cw.1, ratioOf estimate baseline cw.1)) cw.1 =
        .ok (ratioOf estimate baseline cw.1) := by rw [entry, lookup_map_key _ hc]
    rw [← Exact.mul]
    exact bind_eq_ok.mpr ⟨_, hentry, bind_eq_ok.mpr ⟨_, logarithm_ok hpos, rfl⟩⟩
  have hcap : (weights.map fun cw => (cw.1, ratioOf estimate baseline cw.1)).flatMapM
      (capRaising estimate baseline threshold) =
      .ok (breached estimate baseline weights threshold).cap_breaches := by
    rw [hcaps, map_filter]
    refine flatMapM_total ?_
    · intro x hx
      obtain ⟨cw, hcw, rfl⟩ := List.mem_map.mp hx
      have hc := List.mem_map_of_mem (f := (·.1)) hcw
      unfold capRaising
      rw [Exact.lt]
      by_cases hratio : threshold.case_ratio < ratioOf estimate baseline cw.1
      · rw [if_pos (decide_eq_true hratio)]
        refine bind_eq_ok.mpr ⟨_, hestimate.entry hc, bind_eq_ok.mpr ⟨_, hbaseline.entry hc, ?_⟩⟩
        simp [hratio, pure, Except.pure]
      · simp [hratio]
  refine bind_eq_ok.mpr ⟨_, hmap, bind_eq_ok.mpr ⟨_, hfold, bind_eq_ok.mpr ⟨_, hcap, ?_⟩⟩⟩
  rw [← hln, ← hratios]
  rfl

end Panel

/-! ## The guard -/

section Guard
variable {K : Type} [Field K] [LinearOrder K] [Arith K] [Exact K]
  {extension : Extension K} {bundle first second : Bundle K} {policy : Policy K}
  {estimator : Estimator} {weights : List (String × K)} {run_id : String}
  {requirement : Option Requirement}

/-- Arms of one name that differ in their samples alone: those of the evolved arm are at
least the ones in their place, those of the baseline at most. -/
structure Arm.Slower (a b : String × Arm K) : Prop where
  name : a.1 = b.1
  rest : b.2 = { a.2 with samples := b.2.samples }
  samples : List.Forall₂ (fun s t => s.1 = t.1 ∧
    if a.1 = "evolved" then s.2.Below t.2 else t.2.Below s.2) a.2.samples b.2.samples

/-- Bundles that differ in their samples alone, the second with the slower or larger candidate
or the faster or smaller baseline. -/
structure Bundle.Slower (first second : Bundle K) : Prop where
  rest : second = { first with arms := second.arms }
  arms : List.Forall₂ Arm.Slower first.arms second.arms

def Bundle.Positive (bundle : Bundle K) : Prop :=
  ∀ arm ∈ bundle.arms, ∀ entry ∈ arm.2.samples, entry.2.Positive

/-- Every case of every arm has an estimate. -/
def Bundle.Estimated (bundle : Bundle K) (estimator : Estimator) : Prop :=
  ∀ arm ∈ bundle.arms, ∀ entry ∈ arm.2.samples, ∃ v, costEstimate entry.2 estimator = .ok v

def Policy.PositiveRatios (policy : Policy K) : Prop :=
  ∀ fixed, policy.cost_thresholds = some fixed →
    0 < fixed.panel_ratio ∧ 0 < fixed.screen_fraction ∧ 0 < fixed.case_ratio

omit [Field K] [LinearOrder K] [Exact K] in
theorem armEstimates_eq_ok {arm : String × Arm K} {out : String × List (String × K)} :
    armEstimates estimator arm = .ok out ↔ arm.1 = out.1 ∧
      List.Forall₂ (fun s v => s.1 = v.1 ∧ costEstimate s.2 estimator = .ok v.2)
        arm.2.samples out.2 := by
  have hcase : ∀ (s : String × Samples K) (v : String × K),
      (do let value ← costEstimate s.2 estimator; pure (s.1, value)) = .ok v ↔
        s.1 = v.1 ∧ costEstimate s.2 estimator = .ok v.2 := by
    intro s v
    rw [bind_eq_ok]
    constructor
    · intro ⟨value, hvalue, h⟩
      cases h
      exact ⟨rfl, hvalue⟩
    · intro ⟨hname, hvalue⟩
      exact ⟨v.2, hvalue, by rw [hname]; rfl⟩
  unfold armEstimates
  rw [bind_eq_ok]
  constructor
  · intro ⟨values, hvalues, h⟩
    cases h
    exact ⟨rfl, (mapM_eq_ok.mp hvalues).imp fun s v => (hcase s v).mp⟩
  · intro ⟨hname, hvalues⟩
    refine ⟨out.2, mapM_eq_ok.mpr (hvalues.imp fun s v => (hcase s v).mpr), ?_⟩
    rw [hname]
    rfl

variable [IsStrictOrderedRing K]

/-- The estimates of an admitted bundle cover the weighted cases in both arms. -/
theorem measured_estimatesOf {estimates : List (String × List (String × K))}
    (h : validateBundle extension bundle policy estimator weights run_id requirement = .ok ())
    (hestimates : bundle.arms.mapM (armEstimates estimator) = .ok estimates) {name : String}
    (hname : name ∈ MEASURED_ARMS) : Measured weights (estimatesOf estimates name) := by
  obtain ⟨hnames, hcases, -⟩ := validateBundle_admits h
  obtain ⟨arm, harm⟩ := exists_lookup_of_key (hnames.mem_iff.mpr hname)
  have hall := (mapM_eq_ok.mp hestimates).imp fun _ _ => armEstimates_eq_ok.mp
  obtain ⟨values, hvalues, hsamples⟩ := lookup_related_some
    (R := fun _ (arm : Arm K) (values : List (String × K)) => List.Forall₂ (fun s v =>
      s.1 = v.1 ∧ costEstimate s.2 estimator = .ok v.2) arm.samples values) hall harm
  intro c hc
  have hkey : c ∈ arm.samples.map (·.1) :=
    (hcases _ (mem_of_lookup harm)).mem_iff.mpr hc
  obtain ⟨s, hs⟩ := exists_lookup_of_key hkey
  obtain ⟨v, hv, hestimate⟩ := lookup_related_some
    (R := fun _ s v => costEstimate s estimator = .ok v) hsamples hs
  exact ⟨v, by rw [estimatesOf, hvalues]; exact hv, costEstimate_pos hestimate⟩

omit [Field K] [Exact K] [IsStrictOrderedRing K] in
/-- The guard comes to a verdict exactly where it admits the bundle and has its thresholds
and its estimates. -/
theorem costGuard_eq_ok {r : CostResult K} :
    costGuard extension bundle policy estimator weights run_id requirement = .ok r ↔
      validateBundle extension bundle policy estimator weights run_id requirement = .ok () ∧
      ∃ threshold estimates, thresholds policy estimator bundle.regime = .ok threshold ∧
        bundle.arms.mapM (armEstimates estimator) = .ok estimates ∧
        r = judge bundle.regime threshold (breached (estimatesOf estimates "evolved")
          (estimatesOf estimates "baseline") weights threshold) := by
  rw [costGuard_steps, bind_eq_ok]
  constructor
  · intro ⟨u, hvalid, h⟩
    obtain ⟨threshold, hthreshold, h⟩ := bind_eq_ok.mp h
    obtain ⟨estimates, hestimates, h⟩ := bind_eq_ok.mp h
    cases h
    exact ⟨hvalid, threshold, estimates, hthreshold, hestimates, rfl⟩
  · intro ⟨hvalid, threshold, estimates, hthreshold, hestimates, h⟩
    exact ⟨(), hvalid, bind_eq_ok.mpr ⟨threshold, hthreshold, bind_eq_ok.mpr
      ⟨estimates, hestimates, by rw [h]; rfl⟩⟩⟩

omit [IsStrictOrderedRing K] in
theorem thresholdsRaising_eq (hratios : policy.PositiveRatios) (regime : Regime) :
    thresholdsRaising policy estimator regime = thresholds policy estimator regime := by
  unfold thresholdsRaising thresholds thresholdsId
  cases hfixed : policy.cost_thresholds with
  | none => rfl
  | some fixed =>
      have hlog := logarithm_ok (hratios fixed hfixed).1
      cases regimeCounts estimator policy.measurement_protocol with
      | error e => rfl
      | ok counts =>
          simp only [bind, Except.bind]
          cases counts.get regime with
          | none => rfl
          | some count =>
              simp only [hlog]

/-- No bundle makes the judgement divide by zero or take a logarithm that is undefined. -/
theorem costGuardRaising_eq (hratios : policy.PositiveRatios) :
    costGuardRaising extension bundle policy estimator weights run_id requirement =
      costGuard extension bundle policy estimator weights run_id requirement := by
  rw [costGuard_steps, costGuardRaising, thresholdsRaising_eq hratios]
  cases hvalid : validateBundle extension bundle policy estimator weights run_id requirement with
  | error e => rfl
  | ok u =>
      cases thresholds policy estimator bundle.regime with
      | error e => rfl
      | ok threshold =>
          cases hestimates : bundle.arms.mapM (armEstimates estimator) with
          | error e => rfl
          | ok estimates =>
              simp only [bind, Except.bind]
              rw [breachedRaising_eq
                (measured_estimatesOf hvalid hestimates (by decide))
                (measured_estimatesOf hvalid hestimates (by decide))]

omit [Field K] [Exact K] [IsStrictOrderedRing K] in
theorem costGuard_total
    (hvalid : validateBundle extension bundle policy estimator weights run_id requirement = .ok ())
    (hestimated : bundle.Estimated estimator) :
    ∃ r, costGuard extension bundle policy estimator weights run_id requirement = .ok r := by
  obtain ⟨-, -, threshold, hthreshold⟩ := validateBundle_admits hvalid
  obtain ⟨estimates, hestimates⟩ : ∃ estimates,
      bundle.arms.mapM (armEstimates estimator) = .ok estimates := by
    refine (mapM_ok_iff _ _).mpr fun arm harm => ?_
    refine bind_pure_ok_iff.mpr ((mapM_ok_iff _ _).mpr fun entry hentry => ?_)
    exact bind_pure_ok_iff.mpr (hestimated arm harm entry hentry)
  exact ⟨_, costGuard_eq_ok.mpr ⟨hvalid, threshold, estimates, hthreshold, hestimates, rfl⟩⟩

theorem armEstimates_related {a b : String × Arm K} (h : Arm.Slower a b)
    (hpos : ∀ entry ∈ a.2.samples, entry.2.Positive)
    (hpos' : ∀ entry ∈ b.2.samples, entry.2.Positive) :
    Related (fun x y => x.1 = y.1 ∧ List.Forall₂ (fun u v => u.1 = v.1 ∧
        if x.1 = "evolved" then u.2 ≤ v.2 else v.2 ≤ u.2) x.2 y.2)
      (armEstimates estimator a) (armEstimates estimator b) := by
  refine Related.map (Related.mapM (S := fun u v => u.1 = v.1 ∧
    if a.1 = "evolved" then u.2 ≤ v.2 else v.2 ≤ u.2) ?_) fun us vs huv => ⟨h.name, huv⟩
  refine List.forall₂_iff_zip.mpr ⟨h.samples.length_eq, fun {s t} hst => ?_⟩
  obtain ⟨hname, hbelow⟩ := List.forall₂_zip h.samples hst
  have hs := hpos s (List.of_mem_zip hst).1
  have ht := hpos' t (List.of_mem_zip hst).2
  by_cases hevolved : a.1 = "evolved"
  · rw [if_pos hevolved] at hbelow
    simp only [if_pos hevolved]
    exact (costEstimate_related hbelow hs ht).map fun u v huv => ⟨hname, huv⟩
  · rw [if_neg hevolved] at hbelow
    simp only [if_neg hevolved]
    exact (costEstimate_related hbelow ht hs).swap.map fun u v huv => ⟨hname, huv⟩

theorem armsEstimates_related (h : first.Slower second) (hpos : first.Positive)
    (hpos' : second.Positive) :
    Related (List.Forall₂ fun x y => x.1 = y.1 ∧ List.Forall₂ (fun u v => u.1 = v.1 ∧
        if x.1 = "evolved" then u.2 ≤ v.2 else v.2 ≤ u.2) x.2 y.2)
      (first.arms.mapM (armEstimates estimator)) (second.arms.mapM (armEstimates estimator)) := by
  refine Related.mapM (List.forall₂_iff_zip.mpr ⟨h.arms.length_eq, fun {a b} hab => ?_⟩)
  exact armEstimates_related (List.forall₂_zip h.arms hab)
    (hpos a (List.of_mem_zip hab).1) (hpos' b (List.of_mem_zip hab).2)

omit [LinearOrder K] [Arith K] [Exact K] [IsStrictOrderedRing K] in
/-- Related estimates of an arm, seen through its lookups. -/
theorem valueOf_related {R : String → K → K → Prop} (hrefl : ∀ name, R name 0 0)
    {estimates estimates' : List (String × List (String × K))}
    (h : List.Forall₂ (fun x y => x.1 = y.1 ∧
      List.Forall₂ (fun u v => u.1 = v.1 ∧ R x.1 u.2 v.2) x.2 y.2) estimates estimates')
    (name c : String) :
    R name (valueOf (estimatesOf estimates name) c) (valueOf (estimatesOf estimates' name) c) := by
  have harm := lookup_related (R := fun (name : String) (us vs : List (String × K)) =>
    List.Forall₂ (fun u v => u.1 = v.1 ∧ R name u.2 v.2) us vs) h name
  unfold estimatesOf
  generalize estimates.lookup name = us at harm
  generalize estimates'.lookup name = vs at harm
  cases harm with
  | none => exact hrefl name
  | @some us vs huv =>
      have hcase := lookup_related (R := fun (_ : String) (u v : K) => R name u v) huv c
      simp only [Option.getD_some, valueOf]
      generalize us.lookup c = u at hcase
      generalize vs.lookup c = v at hcase
      cases hcase with
      | none => exact hrefl name
      | some hle => exact hle

/-- A bundle that is slower or larger, or has the faster or smaller baseline, is breached
whenever the first was, and graded the same. -/
theorem costGuard_breached (hweights : ∀ cw ∈ weights, 0 < cw.2) (h : first.Slower second)
    (hpos : first.Positive) (hpos' : second.Positive)
    (hvalid' : validateBundle extension second policy estimator weights run_id requirement =
      .ok ()) {r : CostResult K}
    (hr : costGuard extension first policy estimator weights run_id requirement = .ok r)
    (hbreached : r.candidate.breached = true) :
    ∃ r', costGuard extension second policy estimator weights run_id requirement = .ok r' ∧
      r'.candidate.breached = true ∧ r'.result = r.result := by
  obtain ⟨hvalid, threshold, estimates, hthreshold, hestimates, rfl⟩ := costGuard_eq_ok.mp hr
  obtain ⟨estimates', hestimates', hrelated⟩ :=
    (armsEstimates_related h hpos hpos').exists_ok hestimates
  have hregime : second.regime = first.regime := by rw [h.rest]
  have hmono := fun name c => valueOf_related (R := fun name u v =>
    if name = "evolved" then u ≤ v else v ≤ u) (fun name => by split <;> exact le_refl _)
    hrelated name c
  have hsecond : (breached (estimatesOf estimates' "evolved") (estimatesOf estimates' "baseline")
      weights threshold).breached = true := by
    refine breached_mono hweights (measured_estimatesOf hvalid hestimates (by decide))
      (measured_estimatesOf hvalid' hestimates' (by decide))
      (measured_estimatesOf hvalid hestimates (by decide))
      (measured_estimatesOf hvalid' hestimates' (by decide))
      (fun c _ => ?_) (fun c _ => ?_) hbreached
    · simpa using hmono "evolved" c
    · simpa using hmono "baseline" c
  refine ⟨_, costGuard_eq_ok.mpr ⟨hvalid', threshold, estimates', hregime ▸ hthreshold,
    hestimates', rfl⟩, hsecond, ?_⟩
  change (breached _ _ _ _).breached = true at hbreached
  simp only [judge, hregime, hsecond, hbreached]

variable (extension estimator run_id requirement) in
/-- The guard is monotone and total: a breach stays a breach, with the same grade, when evolved
samples grow or baseline samples shrink; and no bundle reaches a division by zero or the
logarithm of a number that is not positive, so an admitted one with its estimates is judged. -/
theorem costGuard_monotone_total (hratios : policy.PositiveRatios)
    (hweights : ∀ cw ∈ weights, 0 < cw.2) :
    (∀ (first second : Bundle K) (r : CostResult K), first.Slower second →
      first.Positive → second.Positive →
      validateBundle extension second policy estimator weights run_id requirement = .ok () →
      costGuard extension first policy estimator weights run_id requirement = .ok r →
      r.candidate.breached = true →
      ∃ r', costGuard extension second policy estimator weights run_id requirement = .ok r' ∧
        r'.candidate.breached = true ∧ r'.result = r.result) ∧
    ∀ bundle : Bundle K,
      costGuardRaising extension bundle policy estimator weights run_id requirement =
        costGuard extension bundle policy estimator weights run_id requirement ∧
      (validateBundle extension bundle policy estimator weights run_id requirement = .ok () →
        bundle.Estimated estimator →
        ∃ r, costGuard extension bundle policy estimator weights run_id requirement = .ok r) :=
  ⟨fun _ _ _ h hpos hpos' hvalid' hr hbreached =>
      costGuard_breached hweights h hpos hpos' hvalid' hr hbreached,
    fun _ => ⟨costGuardRaising_eq hratios, costGuard_total⟩⟩

end Guard

section Sample
attribute [local instance] realArith realArith_exact

/-- One process a regime, and nothing allowed. -/
noncomputable def guardPolicy : Policy ℝ where
  required_ids := []
  quality_prerequisites := []
  practical_ratio := 1
  improvement_multiplier := 1
  guard_multiplier := 1
  quality_cap := 1
  iterations_groups := []
  bootstrap_replicates := 1
  rng_seed := 20260924
  measurement_protocol := ⟨25, none, none, none, some 1, none⟩
  cost_thresholds := some ⟨1, 1, 1, 0, 0⟩

/-- One case, measured at one byte in the baseline and at some bytes in the evolved arm. -/
noncomputable def guardBundle (evolved : ℝ) : Bundle ℝ where
  session_id := "session"
  complete := true
  arms := [("baseline", ⟨"arm-a", "session", "build-a", [("qft", .memory [1])]⟩),
    ("evolved", ⟨"arm-b", "session", "build-b", [("qft", .memory [evolved])]⟩)]
  run_id := "run"
  estimator := some .memory
  regime := .normal
  case_hashes := []
  thresholds_id := guardPolicy.cost_thresholds
  measurement_mode := none

theorem guardPolicy_thresholds :
    thresholds guardPolicy .memory .normal = .ok ⟨1, Real.log 1, 1, 0⟩ := rfl

theorem guardBundle_valid (evolved : ℝ) :
    validateBundle (fun _ _ _ _ _ => .ok ()) (guardBundle evolved) guardPolicy .memory
      [("qft", 1)] "run" none = .ok () := by
  have hid : (guardBundle evolved).thresholds_id = guardPolicy.cost_thresholds := rfl
  unfold validateBundle
  refine check_eq_ok.mpr ⟨by simp [guardBundle, MEASURED_ARMS], ?_⟩
  refine check_eq_ok.mpr ⟨by simp [guardBundle], ?_⟩
  refine check_eq_ok.mpr ⟨by simp [guardBundle], ?_⟩
  refine check_eq_ok.mpr ⟨by simp [guardBundle], ?_⟩
  refine bind_eq_ok.mpr ⟨_, rfl, ?_⟩
  refine check_eq_ok.mpr ⟨not_not.mpr hid, ?_⟩
  refine check_eq_ok.mpr ⟨by simp [guardBundle], ?_⟩
  refine bind_eq_ok.mpr ⟨_, guardPolicy_thresholds, ?_⟩
  refine bind_eq_ok.mpr ⟨(), forM_eq_ok.mpr ?_, rfl⟩
  simp [guardBundle, checkSamples, Samples.counts]

theorem guardBundle_estimates {evolved : ℝ} (h : 0 < evolved) :
    (guardBundle evolved).arms.mapM (armEstimates .memory) =
      .ok [("baseline", [("qft", 1)]), ("evolved", [("qft", evolved)])] := by
  have single : ∀ x : ℝ, 0 < x → medianOf [x] = .ok x := fun x hx =>
    medianOf_eq_ok.mpr ⟨by simpa using hx, by simp [Statistics.median]⟩
  refine mapM_eq_ok.mpr (.cons (armEstimates_eq_ok.mpr ⟨rfl, .cons ⟨rfl, ?_⟩ .nil⟩)
    (.cons (armEstimates_eq_ok.mpr ⟨rfl, .cons ⟨rfl, ?_⟩ .nil⟩) .nil))
  · simpa [costEstimate] using single 1 one_pos
  · simpa [costEstimate] using single evolved h

/-- Twice the memory is a breach, and so is three times. -/
theorem costGuard_monotone_total_twice : ∃ r r' : CostResult ℝ,
    costGuard (fun _ _ _ _ _ => .ok ()) (guardBundle 2) guardPolicy .memory [("qft", 1)] "run"
      none = .ok r ∧ r.candidate.breached = true ∧
    costGuard (fun _ _ _ _ _ => .ok ()) (guardBundle 3) guardPolicy .memory [("qft", 1)] "run"
      none = .ok r' ∧ r'.candidate.breached = true ∧
    costGuardRaising (fun _ _ _ _ _ => .ok ()) (guardBundle 3) guardPolicy .memory [("qft", 1)]
      "run" none = .ok r' := by
  have hratios : guardPolicy.PositiveRatios := by
    intro fixed hfixed
    cases hfixed
    norm_num
  have hweights : ∀ cw ∈ [("qft", (1 : ℝ))], 0 < cw.2 := by simp
  obtain ⟨hmono, htotal⟩ := costGuard_monotone_total (fun _ _ _ _ _ => .ok ()) .memory "run" none
    hratios hweights
  have hguard := costGuard_eq_ok.mpr ⟨guardBundle_valid 2, _, _, guardPolicy_thresholds,
    guardBundle_estimates two_pos, rfl⟩
  have hbreached : (breached [("qft", (2 : ℝ))] [("qft", 1)] [("qft", 1)]
      ⟨1, Real.log 1, 1, 0⟩).breached = true := by
    rw [breached_iff]
    exact .inl ⟨"qft", by simp, by norm_num [ratioOf, valueOf], by norm_num [valueOf]⟩
  have slower : (guardBundle 2).Slower (guardBundle 3) :=
    ⟨rfl, .cons ⟨rfl, rfl, .cons ⟨rfl, .cons le_rfl .nil⟩ .nil⟩
      (.cons ⟨rfl, rfl, .cons ⟨rfl, .cons (by norm_num) .nil⟩ .nil⟩ .nil)⟩
  have positive : ∀ x : ℝ, 0 < x → (guardBundle x).Positive := by
    intro x hx
    simp [Bundle.Positive, guardBundle, Samples.Positive, hx]
  obtain ⟨r', hr', hbreached', -⟩ := hmono _ _ _ slower (positive 2 two_pos)
    (positive 3 three_pos) (guardBundle_valid 3) hguard hbreached
  exact ⟨_, r', hguard, hbreached, hr', hbreached', (htotal (guardBundle 3)).1.trans hr'⟩

end Sample
end TranspileBench.Evaluator
