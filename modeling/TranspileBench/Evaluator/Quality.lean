import TranspileBench.Evaluator.Verdict
import Mathlib.Data.List.Dedup
import Mathlib.Data.List.Sort

/-!
Grading a complete set of quality observations: paired panels, caps and exact
guards against the policy, under the evidence that validates the measurement.
Floating-point arithmetic is a parameter; nothing below depends on its laws.
-/
namespace TranspileBench.Evaluator

/-- The number operations of the evaluator, as Python's floats and `statistics`
compute them. -/
class Arith (N : Type) where
  ofInt : Int → N
  add : N → N → N
  sub : N → N → N
  mul : N → N → N
  div : N → N → N
  log : N → N
  exp : N → N
  sqrt : N → N
  fmean : List N → N
  stdev : List N → N
  median : List N → N
  isFinite : N → Bool
  lt : N → N → Bool
  le : N → N → Bool
  eq : N → N → Bool

/-- Integers with the logarithm exact at one: enough for two equal arms. -/
@[reducible] def integerArith : Arith Int where
  ofInt := id
  add := (· + ·)
  sub := (· - ·)
  mul := (· * ·)
  div := (· / ·)
  log := (· - 1)
  exp := (· + 1)
  sqrt := id
  fmean values := values.headD 0
  stdev _ := 0
  median values := values.headD 0
  isFinite _ := true
  lt a b := decide (a < b)
  le a b := decide (a ≤ b)
  eq a b := decide (a = b)

inductive Metric
  | D2 | N2
  deriving DecidableEq

def Metric.name : Metric → String
  | .D2 => "D2"
  | .N2 => "N2"

inductive Role
  | scored | guard | deterministic | zero_baseline | canary | timing | memory
  deriving DecidableEq

inductive Revision
  | baseline | evolved
  deriving DecidableEq

def Revision.name : Revision → String
  | .baseline => "baseline"
  | .evolved => "evolved"

/-- One manifest case, with the fields the modelled code reads. -/
structure Case (N : Type) where
  case_id : String
  role : Role
  panel : Option String
  seeds_per_block : Nat
  weight : N
  family : String
  optimization_level : Nat
  size_band : String
  topology : String
  native_basis : String
  input_group : String
  modes : List String
  /-- The frozen metric values of a canary. -/
  expected : Metric → Option N
  circuit_sha256 : String
  target_sha256 : String
  /-- The hash of a semantic reference other than the input itself. -/
  reference_sha256 : Option String
  clifford_sha256 : Option String
  input_domain : String
  logical_qubits : Nat

structure Manifest (N : Type) where
  /-- Whether the profile is `confirm-profile`. -/
  confirm : Bool
  cases : List (Case N)

def Manifest.prefix_ {N : Type} (m : Manifest N) : String := if m.confirm then "CA" else "IA"

/-- One check of an observation or of a Clifford run. -/
structure Check where
  oracle : String
  status : String
  reference_hash : String := ""
  input_domain : String := ""
  mode : String := ""
  covers : List String := []
  substituted : List String := []
  union_width : Option Nat := none

/-- A committed quality observation. -/
structure Observation (N : Type) where
  case_id : String
  case_hash : String
  revision : Revision
  build_id : String
  seed : Nat
  seed_block : String
  mode : String
  id : String
  /-- The worker's status and, when it is not `ok`, what it says about it. -/
  status : String
  not_attempted : Bool
  error : Option String
  metric : Metric → Option N
  output_hash : Option String
  checks : List Check
  cached_from : Option String

/-- The measurement protocol; an absent count falls back to the harness's own. -/
structure Protocol where
  quality_batch_size : Nat
  screen_rounds : Option Int
  timing_rounds : Option Int
  companion_rounds : Option Int
  memory_processes : Option Int
  rerun_multiplier : Option Int
  deriving DecidableEq

structure CostThresholds (N : Type) where
  panel_ratio : N
  screen_fraction : N
  case_ratio : N
  case_floor_ns : N
  case_floor_bytes : N
  deriving DecidableEq

structure Policy (N : Type) where
  required_ids : List String
  quality_prerequisites : List String
  practical_ratio : N
  improvement_multiplier : N
  guard_multiplier : N
  quality_cap : N
  iterations_groups : List String
  bootstrap_replicates : Int
  rng_seed : Int
  measurement_protocol : Protocol
  cost_thresholds : Option (CostThresholds N)

structure Estimate (N : Type) where
  ln_score : N
  score : N
  SE : N
  ln_score_plus_2SE : N
  deltas : List N

structure PanelResult (N : Type) extends Estimate N where
  metric : Metric
  cases : List (String × Estimate N)
  seeds : List Nat

inductive Summary (N : Type)
  | panel (result : PanelResult N)
  | unavailable (reason : String)
  /-- Some family has fewer than three groups. -/
  | unverified (group_counts : List (String × Nat))
  /-- The bootstrap of these cases and this panel; the bound it draws is a function of them,
  of the replicates and of the seed of its generator. -/
  | reported (cases : List (Case N)) (panel : PanelResult N) (replicates rng_seed : Int)
      (group_counts : List (String × Nat))

/-- What one grading step adds to the records, the required ids and the summaries. -/
structure Graded (N : Type) where
  records : List (Record N) := []
  required : List String := []
  summaries : List (String × Summary N) := []

variable {N : Type}

instance : Append (Graded N) where
  append a b := ⟨a.records ++ b.records, a.required ++ b.required, a.summaries ++ b.summaries⟩

def Graded.concat (parts : List (Graded N)) : Graded N := parts.foldl (· ++ ·) {}

/-- `sorted`, on strings. -/
def sorted (ids : List String) : List String := ids.insertionSort fun a b => a ≤ b

/-- `sorted(set(ids))`. -/
def sortedSet (ids : List String) : List String := sorted ids.dedup

section Panels
variable [Arith N]
open Arith

def estimate (deltas : List N) : Except Exn (Estimate N) :=
  if deltas.length < 2 ∨ deltas.any (fun x => !isFinite x) then
    .error (.incomplete "At least two finite paired observations are required")
  else
    let mean := fmean deltas
    let se := div (stdev deltas) (sqrt (ofInt deltas.length))
    .ok ⟨mean, exp mean, se, add mean (mul (ofInt 2) se), deltas⟩

/-- The observations of one block, by case, revision and seed. -/
abbrev Observations (N : Type) := List ((String × Revision × Nat) × Observation N)

/-- `observations[case_id, revision, seed][metric]`; `none` is a `KeyError`. -/
def lookupMetric (observations : Observations N) (case_id : String) (revision : Revision)
    (seed : Nat) (metric : Metric) : Option N :=
  (observations.lookup (case_id, revision, seed)).bind fun row => row.metric metric

/-- The log differences of one case over the seeds. -/
def differences (observations : Observations N) (metric : Metric) (case_id : String) :
    List Nat → Except Exn (List N)
  | [] => .ok []
  | seed :: rest =>
      match lookupMetric observations case_id .baseline seed metric,
          lookupMetric observations case_id .evolved seed metric with
      | some ref, some candidate =>
          if !isFinite ref || !isFinite candidate || le ref (ofInt 0) || le candidate (ofInt 0) then
            .error (.incomplete
              ("Non-positive or invalid " ++ metric.name ++ ": " ++ case_id ++ ", seed "
                ++ toString seed))
          else do
            let others ← differences observations metric case_id rest
            pure (sub (log candidate) (log ref) :: others)
      | _, _ => .error (.incomplete
          ("Missing " ++ metric.name ++ ": " ++ case_id ++ ", seed " ++ toString seed))

def weightOf (weights : List (String × N)) (case_id : String) : N :=
  (weights.lookup case_id).getD (ofInt 0)

def pairedPanel (cases : List (Case N)) (observations : Observations N) (metric : Metric)
    (seeds : List Nat) (weights : Option (List (String × N))) : Except Exn (PanelResult N) := do
  if cases = [] ∨ seeds.length < 2 ∨ ¬ seeds.Nodup then
    throw (.incomplete "Empty panel or invalid seed block")
  let weights := weights.getD (cases.map fun c => (c.case_id, c.weight))
  let total := cases.foldl (fun sum c => add sum (weightOf weights c.case_id)) (ofInt 0)
  if le total (ofInt 0) || cases.any (fun c => le (weightOf weights c.case_id) (ofInt 0)) then
    throw (.harness "Positive panel weights required")
  let perCase ← cases.mapM fun c => do
    let deltas ← differences observations metric c.case_id seeds
    let e ← estimate deltas
    pure (c.case_id, e)
  let deltas := perCase.foldl
    (fun sums (case_id, e) =>
      List.zipWith (fun sum difference =>
        add sum (mul (div (weightOf weights case_id) total) difference)) sums e.deltas)
    (seeds.map fun _ => ofInt 0)
  let e ← estimate deltas
  pure { toEstimate := e, metric, cases := perCase, seeds }

def invalidPanel : Exn := .incomplete "Round-trip or determinism audit evidence is missing"

/-- The panel of a record: refused unless the measurement is validated. -/
def panelResult (valid : Bool) (observations : Observations N) (subset : List (Case N))
    (metric : Metric) (weights : Option (List (String × N))) : Except Exn (PanelResult N) :=
  if !valid then .error invalidPanel
  else
    match subset with
    | [] => .error (.lookup "list index out of range")
    | first :: _ =>
        if subset.any fun c => c.seeds_per_block != first.seeds_per_block then
          .error (.incomplete "Mixed seed counts inside a panel")
        else pairedPanel subset observations metric (List.range first.seeds_per_block) weights

/-- `panel_record`: an improvement is judged against the practical ratio, a guard
against its standard error. -/
def panelRecord (policy : Policy N) (valid : Bool) (observations : Observations N) (id : String)
    (subset : List (Case N)) (metric : Metric) (improvement : Bool := false)
    (weights : Option (List (String × N)) := none) :
    Except Exn (Graded N × Option (PanelResult N)) :=
  let kind : Kind := if improvement then .improvement else .guard
  match panelResult valid observations subset metric weights with
  | .ok result =>
      let limit := if improvement then log policy.practical_ratio else ofInt 0
      let ok :=
        if improvement then
          lt (add result.ln_score (mul policy.improvement_multiplier result.SE)) limit
        else le result.ln_score (mul policy.guard_multiplier result.SE)
      .ok (⟨[{ id, kind, result := if ok then .passed else .failed,
               details := .graded result.ln_score result.SE (some limit) }],
            [id], [(id, .panel result)]⟩, some result)
  | .error (.incomplete text) | .error (.lookup text) =>
      .ok (⟨[{ id, kind, result := .unresolved, details := .detail text }], [id], []⟩, none)
  | .error e => .error e

/-- The cap of one case on one metric; a plain guard case is also held to its noise. -/
def capRecord (policy : Policy N) (valid : Bool) (observations : Observations N) (pre : String)
    (case : Case N) (metric : Metric) : Except Exn (Graded N) :=
  let id := pre ++ "4/cap/" ++ case.case_id ++ "/" ++ metric.name
  let computed :=
    if !valid then .error invalidPanel
    else pairedPanel [case] observations metric (List.range case.seeds_per_block)
      (some [(case.case_id, ofInt 1)])
  match computed with
  | .ok result =>
      let capped := le result.score policy.quality_cap
      let quiet := le result.ln_score (mul policy.guard_multiplier result.SE)
      let ok := if case.role = .guard ∧ case.panel = none then capped && quiet else capped
      .ok ⟨[{ id, kind := .guard, result := if ok then .passed else .failed,
              details := .graded result.score result.SE none }], [id], [(id, .panel result)]⟩
  | .error (.incomplete text) =>
      .ok ⟨[{ id, kind := .guard, result := .unresolved, details := .detail text }], [id], []⟩
  | .error e => .error e

/-- The exact comparison of one case, seed by seed and metric by metric: the guard's
status so far, the reference records, and whether a value was missing. -/
def exactChecks (observations : Observations N) (case : Case N) (id : String) :
    List (Nat × Metric) → Result → Result × List (Record N) × Bool
  | [], status => (status, [], false)
  | (seed, metric) :: rest, status =>
      match lookupMetric observations case.case_id .baseline seed metric,
          lookupMetric observations case.case_id .evolved seed metric,
          if case.role = .canary then (case.expected metric).map some else some none with
      | some a, some b, some expected =>
          let reference : Record N :=
            { id := id ++ "/reference/" ++ toString seed ++ "/" ++ metric.name,
              kind := .guard, result := .failed, subject := .reference, details := .value a }
          let drifted := expected.any fun value => !eq a value
          let status' :=
            match expected with
            | some value => if eq b value then status else .unresolved
            | none => if lt a b then .failed else status
          let zero := case.role = .zero_baseline ∧ eq a (ofInt 0) = false
          let found := (if drifted then [reference] else []) ++ (if zero then [reference] else [])
          let (final, records, missing) := exactChecks observations case id rest status'
          (final, found ++ records, missing)
      | _, _, _ => (if status = .failed then .failed else .unresolved, [], true)

def exactRecord (valid : Bool) (observations : Observations N) (pre : String) (case : Case N) :
    Graded N :=
  let id := pre ++ "4/exact/" ++ case.case_id
  if !valid then
    ⟨[{ id, kind := .guard, result := .unresolved,
        details := .detail "Round-trip or determinism audit evidence is missing" }], [id], []⟩
  else
    let checks := (List.range case.seeds_per_block).flatMap fun seed =>
      [(seed, Metric.D2), (seed, Metric.N2)]
    let (status, records, missing) := exactChecks observations case id checks .passed
    let text := if missing then "Missing exact-guard observation or frozen expected value" else ""
    ⟨records ++ [{ id, kind := .guard, result := status, details := .detail text }], [id], []⟩

/-- The breadth dimensions of the confirm profile, as the text of their values. -/
def dimensions : List (String × (Case N → String)) :=
  [("family", (·.family)), ("optimization_level", fun c => toString c.optimization_level),
    ("size_band", (·.size_band)), ("topology", (·.topology)), ("native_basis", (·.native_basis))]

/-- `report_summary`: a panel over a hundred seeds that only the report reads. -/
def reportSummary (observations : Observations N) (name : String) (subset : List (Case N))
    (metric : Metric) : Except Exn (Graded N × Option (PanelResult N)) :=
  match pairedPanel subset observations metric (List.range 100) none with
  | .ok result => .ok ({ summaries := [(name, .panel result)] }, some result)
  | .error (.incomplete text) | .error (.harness text) =>
      .ok ({ summaries := [(name, .unavailable text)] }, none)
  | .error e => .error e

/-- What one value of one dimension adds, its family score and its leave-one-out panel. -/
structure Slice (N : Type) where
  graded : Graded N
  family_score : List (Option (PanelResult N)) := []
  leave_out : List (Option (PanelResult N)) := []

def sliceRecords (policy : Policy N) (valid : Bool) (observations : Observations N)
    (scored : List (Case N)) (dimension : String) (field : Case N → String) (value : String) :
    Except Exn (Slice N) := do
  let subset := scored.filter fun c => field c == value
  let grade := fun (metric : Metric) =>
    let id := "CA4/" ++ dimension ++ "/" ++ value ++ "/" ++ metric.name
    if dimension = "family" ∨ dimension = "optimization_level" then
      panelRecord policy valid observations id subset metric
    else reportSummary observations id subset metric
  let d2 ← grade .D2
  let n2 ← grade .N2
  if dimension = "family" then
    let rest := scored.filter fun c => field c != value
    let out ← reportSummary observations ("leave_family_out/" ++ value) rest .D2
    pure ⟨d2.1 ++ n2.1 ++ out.1, [d2.2], [out.2]⟩
  else pure ⟨d2.1 ++ n2.1, [], []⟩

/-- How many input groups each family has. -/
def groupCounts (cases : List (Case N)) : List (String × Nat) :=
  (cases.map (·.family)).eraseDups.map fun family =>
    (family, ((cases.filter (·.family == family)).map (·.input_group)).eraseDups.length)

/-- The report-only bootstrap: without a replicate there is no sample to take a quantile of. -/
def clusterBootstrap (cases : List (Case N)) (panel : PanelResult N)
    (replicates rng_seed : Int) : Except Exn (Summary N) :=
  let counts := groupCounts cases
  if counts.any fun entry => decide (entry.2 < 3) then .ok (.unverified counts)
  else if replicates ≤ 0 then .error (.harness "Invalid quantile")
  else .ok (.reported cases panel replicates rng_seed counts)

/-- The confirm profile's breadth requirement, once the objective could be computed. -/
def breadthRecords (policy : Policy N) (valid : Bool) (observations : Observations N)
    (scored : List (Case N)) (objective : PanelResult N) : Except Exn (Graded N) := do
  let slices ← (dimensions (N := N)).flatMapM fun (dimension, field) =>
    (sortedSet (scored.map field)).mapM (sliceRecords policy valid observations scored
      dimension field)
  let family_scores := slices.flatMap (·.family_score)
  let leave_out := slices.flatMap (·.leave_out)
  let complete := family_scores.length == 8 && family_scores.all Option.isSome
    && leave_out.all Option.isSome
  let improving := family_scores.countP fun r =>
    r.any fun r => lt r.ln_score_plus_2SE (ofInt 0)
  let breadth := complete && decide (4 ≤ improving)
    && leave_out.all fun r => r.any fun r => lt r.score (ofInt 1)
  let text := if complete then "" else "Family or leave-one-family-out summary unavailable"
  let record : Record N :=
    { id := "CA3/breadth", kind := .improvement,
      result := if breadth then .passed else if complete then .failed else .unresolved,
      details := .detail text }
  let bootstrap ← clusterBootstrap scored objective policy.bootstrap_replicates policy.rng_seed
  let rest := scored.filter fun c => !policy.iterations_groups.contains c.input_group
  let out ← reportSummary observations "leave_iterations_out" rest .D2
  pure (Graded.concat (slices.map (·.graded)) ++
    ⟨[record], ["CA3/breadth"], [("instance_bootstrap", bootstrap)]⟩ ++ out.1)

def basisPanels (policy : Policy N) (valid : Bool) (observations : Observations N)
    (cases : List (Case N)) (pre basis : String) : Except Exn (List (Graded N)) :=
  let subset := cases.filter fun c => c.panel == some ("basis-" ++ basis)
  if subset = [] then .ok []
  else
    [Metric.D2, Metric.N2].mapM fun metric => do
      let weights := subset.map fun c => (c.case_id, div (ofInt 1) (ofInt subset.length))
      let graded ← panelRecord policy valid observations
        (pre ++ "3/" ++ basis ++ "/" ++ metric.name) subset metric false (some weights)
      pure graded.1

/-- The iterations profile also guards the depth of the primary panel. -/
def depthRecords (manifest : Manifest N) (policy : Policy N) (valid : Bool)
    (observations : Observations N) (scored : List (Case N)) : Except Exn (List (Graded N)) :=
  if manifest.confirm then .ok []
  else (panelRecord policy valid observations "IA3/primary/D2" scored .D2).map fun out => [out.1]

/-- Breadth is required of the confirm profile, whether or not it can be computed. -/
def breadthPart (manifest : Manifest N) (policy : Policy N) (valid : Bool)
    (observations : Observations N) (scored : List (Case N))
    (objective : Option (PanelResult N)) : Except Exn (Graded N) :=
  match manifest.confirm, objective with
  | true, some result => breadthRecords policy valid observations scored result
  | true, none => .ok { required := ["CA3/breadth"] }
  | false, _ => .ok {}

/-- Every record the evaluator adds, given whether the measurement is valid. -/
def gradePanels (manifest : Manifest N) (policy : Policy N) (valid : Bool)
    (observations : Observations N) : Except Exn (Graded N) := do
  let cases := manifest.cases
  let pre := manifest.prefix_
  let scored := cases.filter (·.role == .scored)
  let positive := cases.filter fun c => c.role == .scored || c.role == .guard
  let exact := cases.filter fun c =>
    c.role == .canary || c.role == .deterministic || c.role == .zero_baseline
  let objective ← panelRecord policy valid observations (pre ++ "2/improvement") scored .D2 true
  let gates ← panelRecord policy valid observations (pre ++ "3/primary/N2") scored .N2
  let depth ← depthRecords manifest policy valid observations scored
  let bases ← ["cx", "ecr"].flatMapM (basisPanels policy valid observations cases pre)
  let caps ← positive.flatMapM fun case =>
    [Metric.D2, Metric.N2].mapM (capRecord policy valid observations pre case)
  let exacts := exact.map (exactRecord valid observations pre)
  let breadth ← breadthPart manifest policy valid observations scored objective.2
  pure (Graded.concat ([objective.1, gates.1] ++ depth ++ bases ++ caps ++ exacts) ++ breadth)

end Panels

/-- The key of an observation among those of its block. -/
def Observation.key (row : Observation N) : String × Revision × Nat :=
  (row.case_id, row.revision, row.seed)

/-- Whether a row is one of the block's quality observations. -/
def Observation.inBlock (row : Observation N) : Bool :=
  row.mode == "quality" && row.seed_block == "B0"

/-- Index the block's quality observations; a repeated one is an error. -/
def indexObservations (seen : Observations N) : List (Observation N) →
    Except Exn (Observations N)
  | [] => .ok seen
  | row :: rest =>
      if !row.inBlock then indexObservations seen rest
      else if seen.any fun entry => entry.1 == row.key then
        .error (.harness ("Duplicate observation: ('" ++ row.case_id ++ "', '"
          ++ row.revision.name ++ "', " ++ toString row.seed ++ ")"))
      else indexObservations (seen ++ [(row.key, row)]) rest

/-- Whether every quality prerequisite passed in the evidence; a later row with the
same id replaces an earlier one. -/
def panelValid (policy : Policy N) (evidence : List (Record N)) : Bool :=
  policy.quality_prerequisites.all fun id =>
    (byId evidence.reverse id).any (·.result == .passed)

/-- The graded records together with the evidence, the required ids and the summaries. -/
def evaluateQuality [Arith N] (manifest : Manifest N) (policy : Policy N)
    (rows : List (Observation N)) (evidence : List (Record N)) :
    Except Exn (List (Record N) × List String × List (String × Summary N)) := do
  let observations ← indexObservations [] rows
  let graded ← gradePanels manifest policy (panelValid policy evidence) observations
  pure (evidence ++ graded.records, sortedSet (policy.required_ids ++ graded.required),
    graded.summaries)

end TranspileBench.Evaluator
