import TranspileBench.Coordinator.Quality

/-!
The bodies of the correctness and unit-test stages on their own files. Compiling,
verifying and running tests answer from outside; what is recorded of the answers is
the stages' own.
-/
namespace TranspileBench.Coordinator
open Evaluator

variable {N : Type}

/-- One check of the C1-C5 suite. -/
structure SuiteCheck where
  case_id : String
  seed : Nat
  status : String
  detail : String

def appendClifford (row : CliffordRow) : Prog (StageFiles N) Exn Unit :=
  Prog.fallible crash fun f _ f' => f' = { f with clifford := f.clifford ++ [row] }

/-- Record a failure, or nothing. -/
def putIf (c : Bool) (row : Record N) : Prog (StageFiles N) Exn Unit :=
  if c then putEvidence row else pure ()

def behaviorFailure (revision : Revision) (check : SuiteCheck) : Record N where
  id := "behavior/" ++ revision.name ++ "/" ++ check.case_id ++ "/" ++ toString check.seed
  kind := .correctness
  result := .failed
  subject := subjectOf revision
  details := .detail check.detail

def apiFailure (revision : Revision) (case_id : String) : Record N where
  id := "api/" ++ revision.name ++ "/" ++ case_id
  kind := .correctness
  result := .failed
  subject := subjectOf revision
  details := .detail "API contract changed"

/-- `behavior_checks` of one revision. -/
def behaviorChecks (pre : String) (revision : Revision) : Prog (StageFiles N) Exn Unit := do
  let checks ← Prog.request crash fun _ : List SuiteCheck => True
  let api ← Prog.request crash fun _ : List (String × Bool) => True
  Prog.each (fun check => putIf (check.status == "mismatch") (behaviorFailure revision check))
    checks
  Prog.each (fun (case_id, ok) => putIf (!ok) (apiFailure revision case_id)) api
  let statuses := checks.map (·.status) ++ api.map fun (_, ok) =>
      if ok then "verified" else "mismatch"
  putEvidence { id := pre ++ "1/C1-C5/" ++ revision.name, kind := .correctness,
                result := if statuses ≠ [] ∧ statuses.all (· == "verified") then .passed
                  else .unresolved,
                subject := subjectOf revision }
  let records ← Prog.read (·.evidence)
  let both := [Revision.baseline, .evolved].all fun r =>
    records.any fun row => row.id == pre ++ "1/C1-C5/" ++ r.name && row.result == .passed
  putEvidence { id := pre ++ "1/C1-C5", kind := .correctness,
                result := if both then .passed else .unresolved }

def cliffordFailure (row : CliffordRow) (seed : Nat) : Record N where
  id := "C7/" ++ row.revision.name ++ "/" ++ row.case_id ++ "/" ++ row.check.mode ++ "/"
    ++ toString seed
  kind := .correctness
  result := .failed
  subject := subjectOf row.revision

/-- `clifford_checks` of one revision. -/
def cliffordChecks (pre : String) (revision : Revision) : Prog (StageFiles N) Exn Unit := do
  let checks ← Prog.request crash fun checks : List (CliffordRow × Nat) =>
    ∀ c ∈ checks, c.1.revision = revision ∧ c.1.check.oracle = "C7"
  Prog.each (fun (row, seed) => do
    appendClifford row
    putIf (row.check.status == "mismatch") (cliffordFailure row seed)) checks
  let rows ← Prog.read fun f => f.clifford.filter (·.check.mode == "prefix")
  let both := [Revision.baseline, .evolved].all fun r => rows.any (·.revision == r)
  putEvidence { id := pre ++ "1/C7", kind := .correctness,
                result := if both && rows.all (·.check.status == "verified") then .passed
                  else .unresolved }

def isBaselineCorrectness (pre id : String) : Bool :=
  ["behavior/baseline/", "api/baseline/", "C7/baseline/"].any (startsWith id) ||
    id == pre ++ "1/C1-C5/baseline" || id == "baseline/preflight"

/-- What the store holds of a baseline's correctness half. -/
structure StoredCorrectness (N : Type) (pre : String) where
  clifford : List CliffordRow
  evidence : List (Record N)
  clifford_baseline : ∀ row ∈ clifford, row.revision = .baseline ∧ row.check.oracle = "C7"
  baseline : ∀ r ∈ evidence, isBaselineCorrectness pre r.id = true
  kind : ∀ r ∈ evidence, r.kind = .correctness

/-- The baseline half: the store's, or a fresh one with its preflight. -/
def baselineCorrectness (pre : String) :
    Option (StoredCorrectness N pre) → Prog (StageFiles N) Exn Unit
  | some stored => do
      Prog.each appendClifford stored.clifford
      Prog.each putEvidence stored.evidence
  | none => do
      behaviorChecks pre .baseline
      cliffordChecks pre .baseline
      let bad ← Prog.read fun f =>
        f.evidence.any fun r => r.subject == .reference && r.result == .failed
      putEvidence { id := "baseline/preflight", kind := .correctness,
                    result := if bad then .failed else .passed, subject := .reference }
      -- a decisive half is published in the store
      Prog.request crash fun _ : Unit => True

/-- The evolved half, unless the baseline failed its preflight. -/
def evolvedCorrectness (pre : String) : Option (Record N) → Prog (StageFiles N) Exn Unit
  | none => throw (.other "StopIteration")
  | some preflight =>
      if preflight.result = .failed then pure ()
      else do
        behaviorChecks pre .evolved
        cliffordChecks pre .evolved

/-- `correctness_body`: a retry restarts the suites. -/
def correctnessBody (pre : String) : Prog (StageFiles N) Exn Unit := do
  Prog.fallible crash fun f (_ : Unit) f' => f' = { f with clifford := [] }
  resetEvidence
  let stored ← Prog.request crash fun _ : Option (StoredCorrectness N pre) => True
  baselineCorrectness pre stored
  let preflight ← Prog.read fun f => byId f.evidence "baseline/preflight"
  evolvedCorrectness pre preflight

/-- The outcome of one test suite. -/
structure SuiteResult where
  completed : Bool
  failed : List String
  passed : List String

/-- `judge`: the baseline's failures are known-bad, never violations. -/
def judgeSuites (baseline evolved : SuiteResult) :
    (Result × String) × (Result × String) × List String :=
  let base : Result × String :=
    if !baseline.completed then (.unresolved, "Baseline suite did not complete")
    else if baseline.failed ≠ [] then
      (.unresolved, toString baseline.failed.length ++ " known-bad baseline failures")
    else (.passed, "")
  let regressions := sortedSet ((evolved.failed.filter fun t => !baseline.failed.contains t) ++
    baseline.passed.filter fun t => !evolved.passed.contains t)
  if !evolved.completed then (base, (.unresolved, "Evolved suite did not complete"), [])
  else if !baseline.completed then
    if evolved.failed ≠ [] then
      (base, (.unresolved, "No complete baseline to compare failures with"), [])
    else (base, (.passed, ""), [])
  else if regressions ≠ [] then
    (base, (.failed, toString regressions.length ++ " tests regressed against baseline"),
      regressions)
  else (base, (.passed, ""), [])

/-- The two records of one suite. -/
def suiteRecords (pre suite : String) (baseline evolved : SuiteResult) : List (Record N) :=
  let (base, judged, _) := judgeSuites baseline evolved
  [{ id := pre ++ "1/upstream/" ++ suite ++ "baseline", kind := .correctness, result := base.1,
     subject := .reference, details := .detail base.2 },
    { id := pre ++ "1/upstream/" ++ suite ++ "evolved", kind := .correctness, result := judged.1,
      details := .detail judged.2 }]

/-- `upstream_checks`: both suites of both revisions, and the upstream record over them. -/
def upstreamChecks (pre : String) : Prog (StageFiles N) Exn Unit := do
  let python ← Prog.request crash fun _ : SuiteResult × SuiteResult => True
  let rust ← Prog.request crash fun _ : SuiteResult × SuiteResult => True
  let records : List (Record N) :=
    suiteRecords pre "" python.1 python.2 ++ suiteRecords pre "rust/" rust.1 rust.2
  Prog.each putEvidence records
  -- the candidate's own suite is report-only
  Prog.request crash fun _ : Unit => True
  let evidence ← Prog.read (·.evidence)
  let passed := evidence.all fun r =>
    !(records.any (·.id == r.id) && r.subject == .evolved) || r.result == .passed
  putEvidence { id := pre ++ "1/upstream", kind := .correctness,
                result := if passed then .passed else .unresolved }

def unitTestsBody (pre : String) : Prog (StageFiles N) Exn Unit := do
  resetEvidence
  upstreamChecks pre

end TranspileBench.Coordinator
