import TranspileBench.Evaluator.Quality

/-!
Two-arm cost guards: the counts and thresholds a policy fixes for each regime, the
admission of a saved bundle, and its judgement. The evidence extension a session
may require is a parameter.
-/
namespace TranspileBench.Evaluator

inductive Estimator
  | timing | companion | memory
  deriving DecidableEq

def Estimator.name : Estimator → String
  | .timing => "timing"
  | .companion => "companion"
  | .memory => "memory"

/-- Per-regime sample counts; a screen of zero is no screen. -/
structure Counts where
  screen : Int
  normal : Int
  rerun : Int
  deriving DecidableEq

def Counts.get (c : Counts) : Regime → Option Int
  | .screen => if c.screen = 0 then none else some c.screen
  | .normal => some c.normal
  | .rerun => some c.rerun

/-- Fallback counts when a policy names none. -/
def COUNTS : Estimator → Counts
  | .timing => ⟨0, 10, 20⟩
  | .companion => ⟨0, 3, 6⟩
  | .memory => ⟨0, 5, 10⟩

def regimeCounts (estimator : Estimator) (protocol : Protocol) : Except Exn Counts :=
  let fallback := COUNTS estimator
  let multiplier := protocol.rerun_multiplier.getD 2
  let (screen, normal) :=
    match estimator with
    | .timing =>
        (protocol.screen_rounds.getD fallback.screen, protocol.timing_rounds.getD fallback.normal)
    | .companion => (fallback.screen, protocol.companion_rounds.getD fallback.normal)
    | .memory => (fallback.screen, protocol.memory_processes.getD fallback.normal)
  let rerun := normal * multiplier
  if 0 ≤ screen ∧ screen < normal ∧ normal < rerun then .ok ⟨screen, normal, rerun⟩
  else .error (.harness ("Invalid " ++ estimator.name ++ " regime counts: (" ++ toString screen
    ++ ", " ++ toString normal ++ ", " ++ toString rerun ++ ")"))

/-- The samples of one case in one arm; the companion has one entry a seed. -/
inductive Samples (N : Type)
  | timing (rounds : List (List N))
  | memory (values : List N)
  | companion (seeds : List (String × List (List N)))

structure Arm (N : Type) where
  arm_id : String
  session_id : String
  build_id : String
  samples : List (String × Samples N)

/-- A saved regime bundle, without the fields only reports read. -/
structure Bundle (N : Type) where
  session_id : String
  complete : Bool
  arms : List (String × Arm N)
  run_id : String
  estimator : Option Estimator
  regime : Regime
  case_hashes : List (String × String)
  thresholds_id : Option (CostThresholds N)
  measurement_mode : Option String

/-- A session's `cost_evidence`: the contract every bundle must satisfy. -/
structure Requirement where
  contract : String
  validator : String
  deriving DecidableEq

def MEASURED_ARMS : List String := ["baseline", "evolved"]

structure CostResult (N : Type) extends CostDetails N where
  result : Result

variable {N : Type}

def thresholdsId (policy : Policy N) : Except Exn (CostThresholds N) :=
  match policy.cost_thresholds with
  | some fixed => .ok fixed
  | none => .error (.lookup "cost_thresholds")

section Guard
variable [Arith N] [DecidableEq N]
open Arith

def thresholds (policy : Policy N) (estimator : Estimator) (regime : Regime) :
    Except Exn (Threshold N) := do
  let fixed ← thresholdsId policy
  let counts ← regimeCounts estimator policy.measurement_protocol
  match counts.get regime with
  | none => throw (.incomplete ("Cost regime " ++ regime.name ++ " is not part of the protocol"))
  | some count =>
      let panel := log fixed.panel_ratio
      pure {
        count := count.toNat
        noise_panel := if regime = .screen then mul panel fixed.screen_fraction else panel
        case_ratio := fixed.case_ratio
        floor := if estimator = .memory then fixed.case_floor_bytes else fixed.case_floor_ns }

def medianOf (values : List N) : Except Exn N :=
  if values.any fun x => !isFinite x || le x (ofInt 0) then
    .error (.incomplete "Non-positive or non-finite cost sample")
  else .ok (median values)

def roundsEstimate (rounds : List (List N)) : Except Exn N :=
  if rounds = [] then .error (.incomplete "Missing cost samples")
  else if rounds.any (·.isEmpty) then .error (.incomplete "Empty timing round")
  else medianOf (rounds.map median)

def costEstimate : Samples N → Estimator → Except Exn N
  | .timing rounds, .timing => roundsEstimate rounds
  | .memory values, .memory =>
      if values = [] then .error (.incomplete "Missing cost samples") else medianOf values
  | .companion seeds, .companion =>
      if seeds = [] then .error (.incomplete "Missing cost samples")
      else if (seeds.map (·.1)).Perm ((List.range 20).map toString) then do
        let values ← seeds.mapM fun entry => roundsEstimate entry.2
        pure (fmean values)
      else .error (.incomplete "Companion requires every seed 0–19")
  | _, _ => .error (.other "samples of another estimator")

/-- `_breached`: the weighted panel ratio and the capped cases against a threshold. -/
def breached (estimate baseline : List (String × N)) (weights : List (String × N))
    (threshold : Threshold N) : Candidate N :=
  let value := fun (xs : List (String × N)) c => (xs.lookup c).getD (ofInt 0)
  let ratios := weights.map fun (c, _) => (c, div (value estimate c) (value baseline c))
  let ln_panel := weights.foldl
    (fun sum (c, w) => add sum (mul w (log (value ratios c)))) (ofInt 0)
  let caps := (ratios.filter fun (c, ratio) =>
    lt threshold.case_ratio ratio
      && lt threshold.floor (sub (value estimate c) (value baseline c))).map (·.1)
  { ln_panel, ratios, cap_breaches := caps,
    breached := !caps.isEmpty || lt threshold.noise_panel ln_panel }

/-- The lengths of the arrays that hold the samples of one case. -/
def Samples.counts : Samples N → List Nat
  | .timing rounds => [rounds.length]
  | .memory values => [values.length]
  | .companion seeds => seeds.map fun entry => entry.2.length

/-- The evidence check of the required extension: a bundle, the requirement, and the
estimator, count and cases it is judged for. -/
abbrev Extension (N : Type) :=
  Bundle N → Requirement → Estimator → Nat → List String → Except Exn Unit

/-- `check_cost_evidence`: nothing to check without a requirement. -/
def checkCostEvidence (extension : Extension N) (requirement : Option Requirement)
    (bundle : Bundle N) (estimator : Estimator) (count : Nat) (cases : List String) :
    Except Exn Unit :=
  match requirement with
  | none => .ok ()
  | some r => extension bundle r estimator count cases

/-- The checks on the samples of one arm. -/
def checkSamples (count : Nat) (weights : List (String × N)) (arm : Arm N) : Except Exn Unit :=
  if ¬ (arm.samples.map (·.1)).Perm (weights.map (·.1)) then
    .error (.incomplete "Incomplete cost arm")
  else if arm.samples.any fun entry => entry.2.counts.any (· != count) then
    .error (.incomplete "Wrong cost sample count")
  else .ok ()

/-- Check one regime bundle before it is reused or judged. -/
def validateBundle (extension : Extension N) (bundle : Bundle N) (policy : Policy N)
    (estimator : Estimator) (weights : List (String × N)) (run_id : String)
    (requirement : Option Requirement) : Except Exn Unit := do
  if !bundle.complete ∨ ¬ (bundle.arms.map (·.1)).Perm MEASURED_ARMS then
    throw (.incomplete "Cost panel must contain baseline and evolved arms")
  if bundle.run_id ≠ run_id then
    throw (.incomplete "Cost observations cannot cross comparisons")
  if ¬ (bundle.arms.map (·.2.arm_id)).Nodup then
    throw (.harness "Distinct cost arm IDs required, even for identical builds")
  if bundle.arms.any fun arm => arm.2.session_id != bundle.session_id then
    throw (.harness "Mixed cost sessions")
  let fixed ← thresholdsId policy
  if bundle.thresholds_id ≠ some fixed then
    throw (.incomplete "Cost bundle was measured against different thresholds")
  if bundle.estimator ≠ some estimator then
    throw (.incomplete "Cost bundle estimator does not match the panel")
  let threshold ← thresholds policy estimator bundle.regime
  bundle.arms.forM fun arm => checkSamples threshold.count weights arm.2
  checkCostEvidence extension requirement bundle estimator threshold.count
    (sortedSet (weights.map (·.1)))

/-- Judge one bundle at its regime against the policy's fixed thresholds. -/
def costGuard (extension : Extension N) (bundle : Bundle N) (policy : Policy N)
    (estimator : Estimator) (weights : List (String × N)) (run_id : String)
    (requirement : Option Requirement) : Except Exn (CostResult N) := do
  validateBundle extension bundle policy estimator weights run_id requirement
  let threshold ← thresholds policy estimator bundle.regime
  let estimates ← bundle.arms.mapM fun (name, arm) => do
    let values ← arm.samples.mapM fun (case, samples) => do
      let value ← costEstimate samples estimator
      pure (case, value)
    pure (name, values)
  let arm := fun name => (estimates.lookup name).getD []
  let candidate := breached (arm "evolved") (arm "baseline") weights threshold
  let result : Result :=
    match bundle.regime, candidate.breached with
    | .rerun, true => .failed
    | .rerun, false => .passed_on_rerun
    | _, true => .unresolved
    | _, false => .passed
  pure {
    result
    regime := bundle.regime
    count := threshold.count
    threshold
    candidate
    needs_full := bundle.regime == .screen && result != .passed
    needs_rerun := candidate.breached && bundle.regime == .normal }

variable {extension : Extension N} {bundle : Bundle N} {policy : Policy N}
  {estimator : Estimator} {weights : List (String × N)} {run_id : String}
  {requirement : Option Requirement}

/-- Only an admitted bundle is judged. -/
theorem costGuard_validates {r : CostResult N}
    (h : costGuard extension bundle policy estimator weights run_id requirement = .ok r) :
    validateBundle extension bundle policy estimator weights run_id requirement = .ok () := by
  unfold costGuard at h
  cases hv : validateBundle extension bundle policy estimator weights run_id requirement with
  | error e => simp [hv, bind, Except.bind] at h
  | ok u => rfl

/-- The judgement names the bundle's regime, and asks for more only where there is more. -/
theorem costGuard_regime {r : CostResult N}
    (h : costGuard extension bundle policy estimator weights run_id requirement = .ok r) :
    r.regime = bundle.regime ∧ (r.needs_full = true → bundle.regime = .screen) ∧
      (r.needs_rerun = true → bundle.regime = .normal) := by
  unfold costGuard at h
  cases hv : validateBundle extension bundle policy estimator weights run_id requirement with
  | error e => simp [hv, bind, Except.bind] at h
  | ok u =>
      rw [hv] at h
      simp only [bind, Except.bind] at h
      split at h
      · cases h
      · split at h
        · cases h
        · cases h
          refine ⟨rfl, fun hfull => ?_, fun hrerun => ?_⟩
          · exact beq_iff_eq.mp (Bool.and_eq_true_iff.mp hfull).1
          · exact beq_iff_eq.mp (Bool.and_eq_true_iff.mp hrerun).2

end Guard

end TranspileBench.Evaluator
