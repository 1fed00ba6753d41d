import TranspileBench.Coordinator.RunWorker
import TranspileBench.Coordinator.Session
import Mathlib.Algebra.GroupWithZero.Nat

/-!
The quality stage on its own files: every seed is compiled once, or taken from the
baseline store, and committed to `observations.jsonl` after its failure record; then
the determinism audit and the aggregate checks.
-/
namespace TranspileBench.Coordinator
open Evaluator

variable {N H : Type}

/-- The exceptions of every stage but cost: only the cost monitor detects interference. -/
def crash (e : Exn) : Prop := ∀ text, e ≠ .contaminated text

/-- What writing a file raises. -/
def osError (e : Exn) : Prop := ∃ text, e = .other text

theorem osError.crash {e : Exn} (h : osError e) : crash e := by
  obtain ⟨text, rfl⟩ := h
  simp [Coordinator.crash]

/-- `Comparison.evidence`. -/
def putEvidence (row : Record N) : Prog (StageFiles N) Exn Unit := do
  Prog.fallible osError fun f (_ : Unit) f' =>
    f' = { f with evidence := putRecord f.evidence row }
  -- a record whose write failed is still in memory, and the crash record's write commits it
  Prog.fallible osError fun f (_ : Unit) f' => f' = f

def resetEvidence : Prog (StageFiles N) Exn Unit :=
  Prog.fallible crash fun f _ f' => f' = { f with evidence := [] }

def observationsLens : Lens (StageFiles N) (List UInt8) where
  get f := f.observations
  set f file := { f with observations := file }
  get_set _ _ := rfl
  set_get _ := rfl
  set_set _ _ _ := rfl

/-- C6 scope: scored and basis panels in full, static case guards on ten seeds. -/
def routingReplaySeeds (case : Case N) (seeds : List Nat) : List Nat :=
  if case.role = .scored ∨
      (case.role = .guard ∧ (case.panel = some "basis-cx" ∨ case.panel = some "basis-ecr")) then
    seeds
  else if case.role = .guard ∧ (case.panel = none ∨ case.panel = some "") then
    seeds.filter (· < 10)
  else []

/-- What a batch reports of one seed: the worker's row and the checks of its output. -/
structure WorkerRow (N : Type) where
  seed : Nat
  status : String
  not_attempted : Bool
  error : Option String
  metric : Metric → Option N
  output_hash : Option String
  checks : List Check

/-- Every seed of a batch is reported once. -/
abbrev Reported (batch : List Nat) (rows : List (WorkerRow N)) : Prop :=
  (rows.map (·.seed)).Perm batch

/-- The workers of the quality stage have no hooks, so each of their batches is reported,
whatever the checks of a row add to it. -/
theorem run_worker_reported {ρ : Type} {codec : RecordLog.LineCodec (Batch.Row ρ)}
    {workers : Batch.Workers} {a : Batch.Attempt} (check : Batch.Row ρ → WorkerRow N)
    (hcheck : ∀ row, (check row).seed = row.seed) (hseeds : a.job.seeds.Nodup)
    (behaves : ∀ b, a.Starts codec workers b → b.Behaves codec workers)
    (hmeasured : a.measured = false) :
    ∃ rows, (∃ fuel, ∀ fuel' ≥ fuel, Batch.run_worker codec workers fuel' a = some (.ok rows)) ∧
      Reported a.job.seeds (rows.map check) := by
  obtain ⟨rows, haccounts, hreturns⟩ := Batch.accounted_of_unmeasured hseeds behaves hmeasured
  refine ⟨rows, hreturns, ?_⟩
  rw [Reported, List.map_map, show (fun row => row.seed) ∘ check = (·.seed) from funext hcheck]
  exact haccounts.seeds

/-- A row of the store under a seed, as `store_quality_observation` publishes it. -/
structure StoredRow (N : Type) (seed : Nat) where
  row : Observation N
  seed_eq : row.seed = seed
  mode_eq : row.mode = "quality"
  block_eq : row.seed_block = "B0"
  status_eq : row.status = "ok"

/-- A batch of seeds to compile, and whether its rows are added to the store. -/
structure Task (N : Type) where
  revision : Revision
  case : Case N
  batch : List Nat
  cache : Bool

/-- Consecutive batches of `size` seeds. -/
def batches (size : Nat) : Nat → List Nat → List (List Nat)
  | 0, _ => []
  | fuel + 1, seeds =>
      if seeds = [] then [] else seeds.take size :: batches size fuel (seeds.drop size)

/-- Whom a revision's records are about. -/
def subjectOf : Revision → Evaluator.Subject
  | .baseline => .reference
  | .evolved => .evolved

/-- The record of a committed observation whose worker did not end `ok`. -/
def failureRecord (row : Observation N) : Record N where
  id := "failure/" ++ row.id
  kind := .completeness
  result := if row.not_attempted then .unresolved else .failed
  subject := subjectOf row.revision
  details := .detail (row.error.getD "Worker failed")

section Program
variable (platform : Platform N H)

def appendObservation (row : Observation N) : Prog (StageFiles N) Exn Unit :=
  (RecordLog.appendRecord platform.codec crash row).zoom observationsLens

def readObservations : Prog (StageFiles N) Exn (List (Observation N)) := do
  let file ← Prog.read (·.observations)
  Prog.ofExcept (readRows platform file)

/-- The observation a batch makes of a worker's row; only an `ok` one has an output. -/
def observe (build_id : String) (revision : Revision) (case : Case N) (row : WorkerRow N) :
    Observation N :=
  let ok := row.status == "ok"
  { case_id := case.case_id
    case_hash := platform.caseHash case
    revision := revision
    build_id := build_id
    seed := row.seed
    seed_block := "B0"
    mode := "quality"
    id := platform.observationId
      ⟨case.case_id, platform.caseHash case, build_id, revision, row.seed, "B0"⟩
    status := row.status
    not_attempted := row.not_attempted
    error := row.error
    metric := fun m => if ok then row.metric m else none
    output_hash := if ok then row.output_hash else none
    checks := if ok then row.checks else []
    cached_from := none }

/-- `quality_batch`, over what `run_worker_reported` says of the workers. -/
def qualityBatch (run : Run N) (task : Task N) :
    Prog (StageFiles N) Exn (List (Observation N)) :=
  match run.builds.get task.revision with
  | none => throw (.lookup task.revision.name)
  | some build => do
      let rows ← Prog.request crash fun rows : List (WorkerRow N) => Reported task.batch rows
      pure (rows.map (observe platform build.id task.revision task.case))

def recordFailure (row : Observation N) : Prog (StageFiles N) Exn Unit :=
  if row.status ≠ "ok" then putEvidence (failureRecord row) else pure ()

/-- Commit one observation: its failure record, if it failed, then the row itself; an
`ok` row may also enter the store. -/
def commitRow (cache : Bool) (row : Observation N) : Prog (StageFiles N) Exn Unit := do
  recordFailure row
  appendObservation platform row
  if row.status = "ok" ∧ cache then Prog.request crash fun _ => True else pure ()

def runTask (run : Run N) (task : Task N) : Prog (StageFiles N) Exn Unit := do
  let rows ← qualityBatch platform run task
  Prog.each (commitRow platform task.cache) rows

/-- A stored row under the session's case. -/
def replayStored (key : String) (case : Case N) (row : Observation N) : Observation N :=
  { row with
    revision := .baseline
    cached_from := some key
    case_id := case.case_id
    case_hash := platform.caseHash case
    id := platform.observationId
      ⟨case.case_id, platform.caseHash case, row.build_id, .baseline, row.seed, row.seed_block⟩ }

/-- One seed of a stored case: its row is appended at once, or it remains to be compiled. -/
def storeHit (key : String) (case : Case N) (remaining : List Nat) (seed : Nat) :
    Prog (StageFiles N) Exn (List Nat) := do
  let found ← Prog.request crash fun _ : Option (StoredRow N seed) => True
  match found with
  | none => pure (remaining ++ [seed])
  | some stored => do
      appendObservation platform (replayStored platform key case stored.row)
      pure remaining

def addTasks (size : Nat) (tasks : List (Task N)) (revision : Revision) (case : Case N)
    (cache : Bool) (seeds : List Nat) : Prog (StageFiles N) Exn (List (Task N)) :=
  if size = 0 then throw (.other "range() arg 3 must not be zero")
  else pure (tasks ++ (batches size seeds.length seeds).map fun batch =>
    ⟨revision, case, batch, cache⟩)

/-- Plan one case of one revision: the seeds that are neither saved nor in the store. -/
def planCase (run : Run N) (completed : List (String × Revision × Nat × String))
    (tasks : List (Task N)) : Revision × Case N → Prog (StageFiles N) Exn (List (Task N))
  | (revision, case) => do
      -- the target fixture
      Prog.request crash fun _ : Unit => True
      let size := run.profile.policy.measurement_protocol.quality_batch_size
      let seeds := (List.range case.seeds_per_block).filter fun seed =>
        !completed.contains (case.case_id, revision, seed, "B0")
      if revision = .baseline ∧ run.store.isSome ∧ sameBuild run.builds = false then do
        let key ← Prog.request crash fun _ : String => True
        let valid ← Prog.request crash fun _ : Bool => True
        if valid then do
          let remaining ← Prog.fold (storeHit platform key case) [] seeds
          addTasks size tasks revision case true remaining
        else addTasks size tasks revision case false seeds
      else addTasks size tasks revision case false seeds

def qualityCases (manifest : Manifest N) : List (Case N) :=
  manifest.cases.filter fun c => c.role != .timing && c.role != .memory

def quality (run : Run N) : Prog (StageFiles N) Exn (List (Observation N)) := do
  let saved ← readObservations platform
  let completed := saved.map fun r => (r.case_id, r.revision, r.seed, r.seed_block)
  let tasks ← Prog.fold (planCase platform run completed) []
    ([Revision.baseline, .evolved].flatMap fun revision =>
      (qualityCases run.profile.manifest).map fun case => (revision, case))
  Prog.each (runTask platform run) tasks
  readObservations platform

/-- `audit`: whether recompiled samples reproduce both revisions' outputs. -/
def audit (rows : List (Observation N)) : Prog (StageFiles N) Exn Unit := do
  let reproduced ← Prog.request crash fun _ : Bool => True
  let sampled := [Revision.baseline, .evolved].all fun revision =>
    rows.any fun r => r.revision == revision && r.output_hash.isSome && r.seed_block == "B0"
  putEvidence { id := "audit/determinism", kind := .completeness,
                result := if reproduced && sampled then .passed else .unresolved }

end Program

/-- The last C1-lite check of a case and seed, by revision. -/
def liteCheck (rows : List (Observation N)) (key : String × Nat) (revision : Revision) :
    Option Check :=
  ((rows.filter fun r => r.case_id == key.1 && r.seed == key.2 && r.revision == revision).flatMap
    fun r => r.checks.filter (·.oracle == "C1-lite")).getLast?

/-- The C1-lite records of the confirm profile. -/
def liteRecords (rows : List (Observation N)) : List (Record N) :=
  let checked := fun r : Observation N => r.checks.filter (·.oracle == "C1-lite")
  let mismatches := rows.flatMap fun r =>
    (checked r).filterMap fun check =>
      if check.status == "mismatch" then
        some { id := "C1-lite/" ++ r.id, kind := .correctness, result := .failed,
               subject := subjectOf r.revision }
      else none
  let keys := ((rows.filter fun r => checked r ≠ []).map fun r => (r.case_id, r.seed)).dedup
  let applicable := keys.filter fun key =>
    ((liteCheck rows key .baseline).bind (·.union_width)).getD 26 ≤ 25
  let okay := applicable ≠ [] ∧ ∀ key ∈ applicable, ∀ revision ∈ [Revision.baseline, .evolved],
    (liteCheck rows key revision).map (·.status) = some "verified"
  mismatches ++
    [{ id := "CA1/C1-lite", kind := .correctness,
       result := if okay then .passed else .unresolved,
       details := .eligible_observations applicable.length }]

/-- The failures and the status of one oracle over all rows. -/
def oracleRecords (pre oracle : String) (required : Nat) (rows : List (Observation N)) :
    List (Record N) :=
  let failures := fun revision => (rows.filter (·.revision == revision)).flatMap fun r =>
    (r.checks.filter fun c => c.oracle == oracle && c.status == "mismatch").map fun _ => r.id
  let failed := [Revision.baseline, .evolved].filterMap fun revision =>
    if failures revision = [] then none
    else some { id := pre ++ "1/" ++ oracle ++ "/" ++ revision.name, kind := .correctness,
                result := .failed, subject := subjectOf revision,
                details := .observations (failures revision) }
  let checks := rows.flatMap fun r => r.checks.filter (·.oracle == oracle)
  let status := if checks.length = required ∧ checks.all (·.status == "verified") then .passed
    else .unresolved
  failed ++ [{ id := pre ++ "1/" ++ oracle, kind := .correctness, result := status }]

/-- `aggregate_checks`: its records, in the order they are written. -/
def aggregateChecks (manifest : Manifest N) (observations : List (Observation N)) :
    List (Record N) :=
  let cases := qualityCases manifest
  let rows := observations.filter (·.seed_block == "B0")
  let pre := manifest.prefix_
  let expected := (cases.map (·.seeds_per_block)).sum * 2
  let routed := 2 * (cases.map fun c =>
    (routingReplaySeeds c (List.range c.seeds_per_block)).length).sum
  (if manifest.confirm then liteRecords rows else []) ++
    [{ id := pre ++ "6/completeness", kind := .completeness,
       result := if rows.length = expected then .passed else .unresolved }] ++
    oracleRecords pre "C0" expected rows ++ oracleRecords pre "C6" routed rows

/-- The part of `quality_body` that writes: the rows, the audit and the aggregates. -/
def measureQuality (platform : Platform N H) (run : Run N) :
    Prog (StageFiles N) Exn (List (Observation N)) := do
  let rows ← quality platform run
  audit rows
  Prog.each putEvidence (aggregateChecks run.profile.manifest rows)
  pure rows

/-- The required ids that the gate of the quality stage holds to. -/
def requiredQuality (pre : String) (required_ids : List String) : List String :=
  required_ids.filter fun id =>
    ["harness/roundtrip", "audit/determinism", pre ++ "1/C0", pre ++ "1/C6",
      pre ++ "1/C1-lite"].contains id ||
    [pre ++ "2/", pre ++ "3/", pre ++ "4/", pre ++ "6/"].any fun head => startsWith id head

/-- The improvement ids that open the gate. -/
def improvementIds (manifest : Manifest N) : List String :=
  (manifest.prefix_ ++ "2/improvement") :: if manifest.confirm then ["CA3/breadth"] else []

/-- The gate a quality stage records, over its rows and evidence. -/
def qualityGate [Arith N] (run : Run N) (rows : List (Observation N))
    (evidence : List (Record N)) : Except Exn (GateState × String) := do
  let (records, required, _) ←
    evaluateQuality run.profile.manifest run.profile.policy rows evidence
  pure (gate run.builds records (requiredQuality run.prefix_ required)
    (improvementIds run.profile.manifest))

end TranspileBench.Coordinator
