import TranspileBench.Evaluator.Grading
import TranspileBench.Evaluator.Cost

/-!
A session's `run.json` and what the coordinator concludes from graded records: the
quality gate, whether cost is due, and the coverage of the changed stages.
-/
namespace TranspileBench.Coordinator
open Evaluator Fallible

/-- The pipeline stages a change can reach. -/
def STAGES : List String :=
  ["init", "layout", "routing", "translation", "optimization", "scheduling"]

/-- The changed stages of one optimization level. -/
structure Scope where
  stages : List String
  components : List String
  unmapped_paths : List String
  deriving DecidableEq

structure Build where
  id : String
  store_key : Option String
  deriving DecidableEq

structure Builds where
  baseline : Option Build := none
  evolved : Option Build := none
  deriving DecidableEq

def Builds.get (builds : Builds) : Revision → Option Build
  | .baseline => builds.baseline
  | .evolved => builds.evolved

/-- The identity of a harness: its coordinator and its implementation. -/
structure Harness where
  coordinator : String
  implementation : String
  deriving DecidableEq

/-- One re-pinning of the cost stage: the harness it now requires, the wheel that
holds it, and the requirement it sets, if its execution context set one. -/
structure Amendment where
  hashes : Harness
  session : Option Requirement
  reason : String
  wheel : String
  deriving DecidableEq

/-- The archived profile: `manifest.json` and `policy.json`, as `load_profile` accepts
them. In `run.json` their content stands for their hashes. -/
structure Profile (N : Type) where
  manifest : Manifest N
  policy : Policy N
  distinct : (manifest.cases.map (·.case_id)).Nodup

structure Run (N : Type) where
  run_id : String
  profile : Profile N
  coordinator : String
  /-- Recorded by the build. -/
  implementation : Option String
  baseline_source : String
  evolved_source : String
  store : Option String
  builds : Builds
  changed_paths : List String
  /-- The change scope of every optimization level, recorded by the build. -/
  scope : Option (List Scope)
  cost_evidence : Option Requirement
  amendments : List Amendment

variable {N : Type}

/-- `profile_prefix`. -/
def Run.prefix_ (run : Run N) : String := run.profile.manifest.prefix_

/-- `effective(run)`: the requirements of the amendments replace the recorded ones. -/
def effective (run : Run N) : Run N :=
  { run with
    cost_evidence := run.amendments.foldl (fun found a => a.session.or found) run.cost_evidence }

def sameBuild (builds : Builds) : Bool :=
  match builds.baseline, builds.evolved with
  | some baseline, some evolved => baseline.id == evolved.id
  | _, _ => false

inductive CostDue
  | improved | aa
  deriving DecidableEq

/-- Whether to measure cost panels. -/
def costStageDue (builds : Builds) (records : List (Record N)) : Option CostDue :=
  let improved := records.any fun r => r.kind == .improvement && r.result == .passed
  let blocking := records.any fun r => r.result == .failed && r.kind != .improvement
  if improved && !records.any (·.result == .failed) then some .improved
  else if sameBuild builds && !blocking then some .aa
  else none

inductive GateState
  | improved | aa | closed
  deriving DecidableEq

/-- The ids that hold the gate closed, in the order the code lists them. -/
def blockingIds (records : List (Record N)) (required_quality required_improvements : List String) :
    List String :=
  let improvement_ids :=
    if required_improvements = [] then
      (records.filter (·.kind == .improvement)).map (·.id)
    else required_improvements
  let present := fun id => records.any (·.id == id)
  let failing := sorted ((records.filter fun r => r.kind != .improvement && r.result != .passed).map
    (·.id))
  let missing := sortedSet ((required_quality.filter fun id =>
    !improvement_ids.contains id && !present id).map (· ++ " (missing)"))
  let roundtrip :=
    if present "harness/roundtrip" || required_quality.contains "harness/roundtrip" then []
    else ["harness/roundtrip (missing)"]
  roundtrip ++ failing ++ missing

/-- `gate`: whether correctness, unit tests and cost run, and why. -/
def gate (builds : Builds) (records : List (Record N))
    (required_quality required_improvements : List String) : GateState × String :=
  let improvement_ids :=
    if required_improvements = [] then
      sortedSet ((records.filter (·.kind == .improvement)).map (·.id))
    else sortedSet required_improvements
  let blocking := blockingIds records required_quality required_improvements
  let passed := fun id => (byId records.reverse id).any (·.result == .passed)
  let unresolved := improvement_ids.filter fun id =>
    !(byId records.reverse id).any (·.result == .failed)
  if blocking ≠ [] then
    let more :=
      if 5 < blocking.length then " and " ++ toString (blocking.length - 5) ++ " more" else ""
    (.closed, "quality checks did not pass: " ++ ", ".intercalate (blocking.take 5) ++ more)
  else if sameBuild builds then
    (.aa, "identical builds (A/A): later stages run as a harness check")
  else if improvement_ids ≠ [] ∧ improvement_ids.all passed ∧
      records.all (fun r => r.kind != .improvement || r.result == .passed) then
    (.improved, "quality improved with every quality check passing")
  else if unresolved ≠ [] then
    (.closed, "improvement unresolved: " ++ ", ".intercalate unresolved)
  else (.closed, "no improvement")

/-- An open gate: every record that is no improvement passed. -/
theorem gate_open {builds : Builds} {records : List (Record N)}
    {required_quality required_improvements : List String}
    (h : (gate builds records required_quality required_improvements).1 ≠ .closed) :
    ∀ r ∈ records, r.kind ≠ .improvement → r.result = .passed := by
  intro r hr hkind
  by_contra hres
  have hmem : r.id ∈ blockingIds records required_quality required_improvements := by
    refine List.mem_append_left _ (List.mem_append_right _ ?_)
    rw [mem_sorted]
    exact List.mem_map_of_mem (List.mem_filter.mpr ⟨hr, by simp [hkind, hres]⟩)
  have hne : blockingIds records required_quality required_improvements ≠ [] :=
    List.ne_nil_of_mem hmem
  exact h (by simp [gate, hne])

/-- The checks of a Clifford run that coverage reads. -/
structure CliffordRow where
  case_id : String
  revision : Revision
  check : Check

/-- `covered`: some verified check of the case covers the scope. -/
def covered (case : Case N) (checks : List Check) (scope : Scope) : Bool :=
  let reference_hash := case.reference_sha256.getD case.circuit_sha256
  checks.any fun check =>
    let expected :=
      if check.oracle == "C7" then
        if check.mode == "full" || check.mode == "prefix" then case.clifford_sha256 else none
      else some reference_hash
    check.status == "verified" && expected == some check.reference_hash
      && (check.input_domain == case.input_domain || check.input_domain == "all_inputs")
      && scope.stages.all check.covers.contains
      && !scope.components.any check.substituted.contains

/-- `stage_coverage`: every scored case has verified coverage of the changed stages. -/
def stageCoverage (scope : List Scope) (cases : List (Case N)) (observations : List (Observation N))
    (clifford : List CliffordRow) (pre : String) : Except Exn (Record N) := do
  let missing ← (cases.filter (·.role == .scored)).filterMapM fun case => do
    let own := observations.filter fun r =>
      r.seed_block == "B0" && r.case_id == case.case_id && r.revision == .evolved
    let extra := clifford.filter fun c => c.case_id == case.case_id && c.revision == .evolved
    match scope[case.optimization_level]? with
    | none => throw (.lookup (toString case.optimization_level))
    | some level =>
        pure (if covered case (own.flatMap (·.checks) ++ extra.map (·.check)) level then none
          else some case.case_id)
  pure { id := pre ++ "1/stage-coverage", kind := .correctness,
         result := if missing = [] then .passed else .unresolved, details := .cases missing }

theorem stageCoverage_id {scope : List Scope} {cases : List (Case N)}
    {observations : List (Observation N)} {clifford : List CliffordRow} {pre : String}
    {r : Record N} (h : stageCoverage scope cases observations clifford pre = .ok r) :
    r.id = pre ++ "1/stage-coverage" ∧ r.kind = .correctness ∧ r.result ≠ .failed := by
  unfold stageCoverage at h
  obtain ⟨missing, _, h⟩ := bind_eq_ok.mp h
  cases h
  refine ⟨rfl, rfl, ?_⟩
  split <;> simp

end TranspileBench.Coordinator
