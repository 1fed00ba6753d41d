import TranspileBench.Coordinator.Stages
import TranspileBench.Lib.Routine

/-!
The stages of a session over a baseline store, with the store's entries: what of a
stage is answered from an entry, what is measured, and what is published. Both
revisions are as they behave; a stage that crashes keeps what it has written.
-/
namespace TranspileBench.Store
open Evaluator Coordinator Routine

variable {N H : Type}

/-! ## The store -/

abbrev QualityEntry (N : Type) := (seed : ℕ) → Option (StoredRow N seed)

/-- The baseline half of a correctness stage, as it is published. -/
structure CorrectnessHalf (N : Type) where
  suite : List SuiteCheck
  clifford : List CliffordRow
  evidence : List (Record N)

/-- The baseline's two test suites. -/
structure Suites where
  python : SuiteResult
  rust : SuiteResult

/-- What a store holds under its keys. A quality entry is there from its first row on. -/
structure Entries (N : Type) where
  builds : String → Option Build
  quality : String → Option (QualityEntry N)
  /-- The entries that hold `invalidated.json`. -/
  invalidated : String → Bool
  correctness : String → Option (CorrectnessHalf N)
  unit_tests : String → Option Suites

def Entries.empty : Entries N := ⟨fun _ => none, fun _ => none, fun _ => false, fun _ => none,
  fun _ => none⟩

/-! ## A revision -/

/-- What the C1-C5 suite and the API contracts answer, and whether every worker ended `ok`. -/
structure SuiteAnswers where
  workers_ok : Bool
  checks : List SuiteCheck
  api : List (String × Bool)

/-- A batch's workers report every seed of it once. -/
structure Report (N : Type) (batch : List ℕ) where
  rows : List (WorkerRow N)
  seeds : (rows.map (·.seed)).Perm batch

/-- How a revision behaves while one stage runs. An exception crashes the stage. -/
structure Behaviour (N : Type) where
  snapshot : Except Exn Unit
  build : Except Exn Build
  verify : Build → Except Exn Unit
  roundtrip : Except Exn Unit
  hosted : Except Exn Unit
  /-- A compiled batch with its checks. -/
  compile : Case N → (batch : List ℕ) → Except Exn (Report N batch)
  /-- Whether a recompile under a hash seed ends with the row's output and layout. -/
  reproduces : Observation N → (hash_seed : String) → Except Exn Bool
  suite : Except Exn SuiteAnswers
  /-- The C7 checks, by case and seed. -/
  clifford : Except Exn (List (String × ℕ × Check))
  python : Except Exn SuiteResult
  rust : Except Exn SuiteResult
  /-- The revision's own tests. -/
  own : Except Exn SuiteResult

/-- What sessions over one store have in common: the profile and harness, the host, the
keys of the baseline's entries and the baseline's behaviour. -/
structure Setup (N H : Type) where
  platform : Platform N H
  run : Run N
  buildKey : String
  qualityKey : Build → Case N → String
  correctnessKey : Build → String
  unitTestsKey : Build → String
  /-- The indices that `random.Random(rng_seed).sample` draws from a population, after the
  populations and counts it has drawn from. -/
  draw : List (ℕ × ℕ) → ℕ → ℕ → List ℕ
  verifier : Except Exn Unit
  baseline : Behaviour N

/-- A session directory and its store. `through`, `audited` and `agreed` are history: the
stages whose baseline half has got through, whether a determinism audit has ended, and
whether every one that did had evolved rows to sample and could reproduce them. -/
structure Site (N : Type) where
  run : Run N
  status : Stage → Option StageStatus
  gate : Option (GateState × String)
  observations : List (Observation N)
  /-- The evidence of the quality stage. -/
  evidence : List (Record N)
  store : Entries N
  through : Stage → Bool
  audited : Bool
  agreed : Bool

section Stages
variable (setup : Setup N H)

def Site.start (entries : Entries N) : Site N where
  run := { setup.run with builds := {} }
  status _ := none
  gate := none
  observations := []
  evidence := []
  store := entries
  through _ := false
  audited := false
  agreed := true

def pass (s : Stage) : Routine (Site N) Exn Unit :=
  change fun w => { w with through := Function.update w.through s true }

/-! ## Compile -/

/-- `baseline_build`: the ready build under the key, or a fresh one. -/
def baselineBuild : Routine (Site N) Exn Build := do
  let found ← read fun w => w.store.builds setup.buildKey
  let build ← match found with
    | some build => pure build
    | none => do
        let build ← ask setup.baseline.build
        change fun w => { w with store :=
          { w.store with builds := Function.update w.store.builds setup.buildKey (some build) } }
        pure build
  ask (setup.baseline.verify build)
  pure { build with store_key := some setup.buildKey }

/-- A saved evolved build is verified before it is reused. -/
def verifySaved (evolved : Behaviour N) : Option Build → Routine (Site N) Exn Unit
  | some build => ask (evolved.verify build)
  | none => pure ()

def raiseEvolved : Option (Except Exn Build) → Routine (Site N) Exn Unit
  | some (.error e) => throw e
  | _ => pure ()

/-- A finished build is recorded even if the other one fails. -/
def recordBuilds (outcome : BuildOutcome) : Routine (Site N) Exn Unit := do
  change fun w => { w with run := outcome.record w.run }
  let _ ← ask outcome.baseline
  pass .compile
  raiseEvolved outcome.evolved

/-- `build`. -/
def buildBoth (evolved : Behaviour N) : Routine (Site N) Exn Unit := do
  ask setup.baseline.snapshot
  ask evolved.snapshot
  let saved ← read (·.run.builds.evolved)
  verifySaved evolved saved
  let baseline ← (baselineBuild setup).attempt
  recordBuilds ⟨baseline, if saved.isSome then none else some evolved.build⟩
  ask setup.verifier

def compileBody (evolved : Behaviour N) : Routine (Site N) Exn Unit := do
  buildBoth setup evolved
  ask setup.baseline.roundtrip
  ask evolved.roundtrip

/-! ## Quality -/

def putEvidence (row : Record N) : Routine (Site N) Exn Unit :=
  change fun w => { w with evidence := putRecord w.evidence row }

def append (row : Observation N) : Routine (Site N) Exn Unit :=
  change fun w => { w with observations := w.observations ++ [row] }

/-- The entries a quality stage may use; an A/A session bypasses the stored rows. -/
def storeKeys (run : Run N) : Option (Case N → String) :=
  if run.store.isSome ∧ sameBuild run.builds = false then
    run.builds.baseline.map setup.qualityKey
  else none

/-- The seeds of a case that are not in `observations.jsonl`. -/
def owedSeeds (saved : List (Observation N)) (revision : Revision) (case : Case N) : List ℕ :=
  (List.range case.seeds_per_block).filter fun seed =>
    !(saved.map fun r => (r.case_id, r.revision, r.seed, r.seed_block)).contains
      (case.case_id, revision, seed, "B0")

/-- Seeds to compile, and the entry their rows are added to. -/
structure Batch (N : Type) where
  case : Case N
  seeds : List ℕ
  cache : Option String

def addBatches (batch_size : ℕ) (tasks : List (Batch N)) (case : Case N) (cache : Option String)
    (seeds : List ℕ) : Routine (Site N) Exn (List (Batch N)) :=
  if batch_size = 0 then throw (.other "range() arg 3 must not be zero")
  else pure (tasks ++ (batches batch_size seeds.length seeds).map fun batch => ⟨case, batch, cache⟩)

/-- A stored row is appended at once; any other seed remains. -/
def storeHit (key : String) (case : Case N) (remaining : List ℕ) (seed : ℕ) :
    Routine (Site N) Exn (List ℕ) := do
  let found ← read fun w => (w.store.quality key).bind fun entry => entry seed
  match found with
  | none => pure (remaining ++ [seed])
  | some stored => do
      append (replayStored setup.platform key case stored.row)
      pure remaining

/-- Plan a case of one revision under the entries it may use. -/
def planCase (keys : Option (Case N → String)) (owed : Case N → List ℕ) (tasks : List (Batch N))
    (case : Case N) : Routine (Site N) Exn (List (Batch N)) := do
  let batch_size := setup.run.profile.policy.measurement_protocol.quality_batch_size
  match keys.map (· case) with
  | none => addBatches batch_size tasks case none (owed case)
  | some key => do
      let invalidated ← read fun w => w.store.invalidated key
      if invalidated then addBatches batch_size tasks case none (owed case)
      else do
        let remaining ← fold (storeHit setup key case) [] (owed case)
        addBatches batch_size tasks case (some key) remaining

def plan (keys : Option (Case N → String)) (owed : Case N → List ℕ) :
    Routine (Site N) Exn (List (Batch N)) :=
  fold (planCase setup keys owed) [] (qualityCases setup.run.profile.manifest)

/-- `store_quality_observation`: a row enters a valid entry only. -/
def storeRow (key : String) {seed : ℕ} (stored : StoredRow N seed) : Routine (Site N) Exn Unit :=
  change fun w =>
    if w.store.invalidated key then w
    else
      let entry := Function.update ((w.store.quality key).getD fun _ => none) seed (some stored)
      { w with store :=
        { w.store with quality := Function.update w.store.quality key (some entry) } }

def commitRow (build_id : String) (revision : Revision) (task : Batch N) (row : WorkerRow N) :
    Routine (Site N) Exn Unit :=
  let observation := observe setup.platform build_id revision task.case row
  if ok : row.status = "ok" then do
    append observation
    match task.cache with
    | none => pure ()
    | some key => storeRow key ⟨observation, rfl, rfl, rfl, ok⟩
  else do
    putEvidence (failureRecord observation)
    append observation

/-- Compile a batch and commit its rows. -/
def runBatch (build : Option Build) (revision : Revision) (b : Behaviour N) (task : Batch N) :
    Routine (Site N) Exn Unit :=
  match build with
  | none => throw (.lookup revision.name)
  | some build => do
      let report ← ask (b.compile task.case task.seeds)
      each (commitRow setup build.id revision task) report.rows

/-- `quality`: both revisions are planned, then the batches committed in plan order. -/
def quality (run : Run N) (evolved : Behaviour N) : Routine (Site N) Exn Unit := do
  let mine ← read fun w => owedSeeds w.observations .baseline
  let theirs ← read fun w => owedSeeds w.observations .evolved
  let mine ← plan setup (storeKeys setup run) mine
  let theirs ← plan setup none theirs
  each (runBatch setup run.builds.baseline .baseline setup.baseline) mine
  pass .quality
  each (runBatch setup run.builds.evolved .evolved evolved) theirs

/-- The rows of a revision that the audit samples from. -/
def auditRows (rows : List (Observation N)) (revision : Revision) : List (Observation N) :=
  rows.filter fun r => r.revision == revision && r.output_hash.isSome && r.seed_block == "B0"

/-- A twentieth of the rows, but no fewer than ten. -/
def auditCount (rows : ℕ) : ℕ := min rows (max 10 ((50 * rows + 999) / 1000))

def sample (earlier : List (ℕ × ℕ)) (rows : List (Observation N)) : List (Observation N) :=
  (setup.draw earlier rows.length (auditCount rows.length)).filterMap (rows[·]?)

/-- Whether every sampled row is reproduced, and there is one to sample from. -/
def reproduced (b : Behaviour N) (earlier : List (ℕ × ℕ)) (rows : List (Observation N)) :
    Except Exn Bool := do
  let answers ← (sample setup earlier rows).zipIdx.mapM fun (row, i) =>
    b.reproduces row (if i % 2 = 1 then "1" else "0")
  pure (!rows.isEmpty && answers.all id)

/-- Mark the entries of the quality cases that are there. -/
def invalidate (key : Case N → String) (store : Entries N) : Entries N :=
  { store with invalidated := fun k => store.invalidated k ||
      ((store.quality k).isSome &&
        ((qualityCases setup.run.profile.manifest).map key).contains k) }

/-- After a failed audit the stored rows are not reusable. -/
def invalidateEntries (run : Run N) (ok : Bool) : Routine (Site N) Exn Unit :=
  if !ok && run.store.isSome then
    match run.builds.baseline with
    | none => throw (.lookup Revision.baseline.name)
    | some build =>
        change fun w => { w with store := invalidate setup (setup.qualityKey build) w.store }
  else pure ()

/-- `audit`: one verdict on both revisions' samples. -/
def audit (run : Run N) (evolved : Behaviour N) : Routine (Site N) Exn Unit := do
  let mine ← read fun w => auditRows w.observations .baseline
  let theirs ← read fun w => auditRows w.observations .evolved
  let baseline_ok ← ask (reproduced setup setup.baseline [] mine)
  let evolved_ok ← ask
    (reproduced setup evolved [(mine.length, auditCount mine.length)] theirs)
  putEvidence { id := "audit/determinism", kind := .completeness,
                result := if baseline_ok && evolved_ok then .passed else .unresolved }
  invalidateEntries setup run (baseline_ok && evolved_ok)
  change fun w => { w with audited := true, agreed := w.agreed && evolved_ok }

def compileEvidence : List (Record N) :=
  [{ id := "harness/roundtrip", kind := .harness, result := .passed }]

def qualityBody [Arith N] (run : Run N) (evolved : Behaviour N) :
    Routine (Site N) Exn (GateState × String) := do
  quality setup run evolved
  audit setup run evolved
  let rows ← read (·.observations)
  each putEvidence (aggregateChecks run.profile.manifest rows)
  let evidence ← read (·.evidence)
  ask (qualityGate run rows (compileEvidence ++ evidence))

/-! ## Correctness -/

def DECISIVE : List String := ["verified", "mismatch"]

def cliffordRow (revision : Revision) (check : String × ℕ × Check) : CliffordRow :=
  ⟨check.1, revision, check.2.2⟩

/-- The records of the baseline half, before its preflight. -/
def halfRecords (pre : String) (answers : SuiteAnswers) (clifford : List (String × ℕ × Check)) :
    List (Record N) :=
  let statuses := answers.checks.map (·.status) ++
    answers.api.map fun (_, ok) => if ok then "verified" else "mismatch"
  (answers.checks.filter (·.status == "mismatch")).map (behaviorFailure .baseline) ++
    (answers.api.filter fun (_, ok) => !ok).map (fun (case_id, _) => apiFailure .baseline case_id)
      ++
    [{ id := pre ++ "1/C1-C5/baseline", kind := .correctness,
       result := if statuses ≠ [] ∧ statuses.all (· == "verified") then .passed else .unresolved,
       subject := .reference }] ++
    (clifford.filter (·.2.2.status == "mismatch")).map fun check =>
      cliffordFailure (cliffordRow .baseline check) check.2.1

/-- The baseline half of the answers, and whether every check of it is decisive. -/
def baselineHalf (pre : String) (answers : SuiteAnswers)
    (clifford : List (String × ℕ × Check)) : CorrectnessHalf N × Bool :=
  let records := (halfRecords pre answers clifford).foldl putRecord []
  let bad := records.any fun r => r.subject == .reference && r.result == .failed
  let preflight : Record N :=
    { id := "baseline/preflight", kind := .correctness,
      result := if bad then .failed else .passed, subject := .reference }
  (⟨answers.checks, clifford.map (cliffordRow .baseline),
      (putRecord records preflight).filter fun r => isBaselineCorrectness pre r.id⟩,
    answers.workers_ok && answers.checks.all (fun c => DECISIVE.contains c.status) &&
      clifford.all fun c => DECISIVE.contains c.2.2.status)

/-- `publish_results`: an entry that is there is kept. -/
def publish {α : Type} (key : String) (entry : α) (entries : String → Option α) :
    String → Option α :=
  if (entries key).isSome then entries else Function.update entries key (some entry)

/-- The key of a baseline's results; an A/A session recomputes them. -/
def resultsKey (run : Run N) (key : Build → String) : Option String :=
  if run.store.isSome ∧ sameBuild run.builds = false then run.builds.baseline.map key else none

/-- The baseline half, from its entry or measured and, when it is decisive, published. -/
def baselineCorrectness (key : Option String) : Routine (Site N) Exn (CorrectnessHalf N) := do
  let found ← read fun w => key.bind w.store.correctness
  match found with
  | some half => pure half
  | none => do
      let answers ← ask setup.baseline.suite
      let clifford ← ask setup.baseline.clifford
      let (half, decisive) := baselineHalf setup.run.prefix_ answers clifford
      match if decisive then key else none with
      | none => pure half
      | some key => do
          change fun w => { w with store :=
            { w.store with correctness := publish key half w.store.correctness } }
          pure half

/-- `correctness_body`: after a failed preflight the evolved half is not checked. -/
def correctnessBody (run : Run N) (evolved : Behaviour N) : Routine (Site N) Exn Unit := do
  let half ← baselineCorrectness setup (resultsKey run setup.correctnessKey)
  pass .correctness
  match byId half.evidence "baseline/preflight" with
  | none => throw (.other "StopIteration")
  | some preflight =>
      if preflight.result = .failed then pure ()
      else do
        let _ ← ask evolved.suite
        let _ ← ask evolved.clifford

/-! ## Unit tests -/

/-- The baseline's suites, from their entry or run and, when both complete, published. -/
def baselineSuites (key : Option String) : Routine (Site N) Exn Suites := do
  let found ← read fun w => key.bind w.store.unit_tests
  match found with
  | some suites => pure suites
  | none => do
      let python ← ask setup.baseline.python
      let rust ← ask setup.baseline.rust
      match if python.completed && rust.completed then key else none with
      | none => pure ⟨python, rust⟩
      | some key => do
          change fun w => { w with store :=
            { w.store with unit_tests := publish key ⟨python, rust⟩ w.store.unit_tests } }
          pure ⟨python, rust⟩

def unitTestsBody (run : Run N) (evolved : Behaviour N) : Routine (Site N) Exn Unit := do
  let _ ← baselineSuites setup (resultsKey run setup.unitTestsKey)
  pass .unit_tests
  let _ ← ask evolved.python
  let _ ← ask evolved.rust
  let _ ← ask evolved.own

/-! ## Sessions -/

section Session
variable [Arith N]

/-- The bodies; cost measures in the session alone. -/
def stageBody (s : Stage) (run : Run N) (evolved : Behaviour N) :
    Routine (Site N) Exn (Option (GateState × String)) :=
  match s with
  | .compile => do compileBody setup evolved; pure none
  | .quality => do let gate ← qualityBody setup run evolved; pure (some gate)
  | .correctness => do correctnessBody setup run evolved; pure none
  | .unit_tests => do unitTestsBody setup run evolved; pure none
  | .cost => pure none

def Site.setStatus (w : Site N) (s : Stage) (status : StageStatus) : Site N :=
  { w with status := Function.update w.status s (some status) }

/-- Only quality leaves a gate and, here, its crash record. -/
def finish (s : Stage) : Except Exn (Option (GateState × String)) × Site N → Site N
  | (.ok gate, w) => { w.setStatus s .complete with gate := gate.or w.gate }
  | (.error e, w) =>
      { w.setStatus s .failed with
        evidence := if s = .quality then putRecord w.evidence (errorRecord s e) else w.evidence }

/-- A retry starts without the crash record of the attempt it resumes. -/
def Site.resumed (w : Site N) (s : Stage) : Site N :=
  if s = .quality then { w with evidence := w.evidence.filter (·.id != s.errorId) } else w

def Site.isFinal (w : Site N) (s : Stage) : Bool := (w.status s).any FINAL.contains

/-- Whether a stage after compile may start: its prerequisites are final, the store holds
the baseline build, and the host runs both builds. -/
def startable (w : Site N) (s : Stage) (evolved : Behaviour N) : Bool :=
  (PREREQUISITES s).all w.isFinal &&
    (s == .compile || (((w.run.builds.baseline.bind (·.store_key)).bind w.store.builds).isSome &&
      setup.baseline.hosted.toBool && evolved.hosted.toBool))

/-- `skip_reason`: quality closed the gate. -/
def Site.skipped (w : Site N) (s : Stage) : Bool :=
  GATED.contains s && w.status .quality == some .complete &&
    w.gate.any (·.1 == .closed)

/-- One invocation of a stage; a final stage never runs again. -/
def invoke (w : Site N) (s : Stage) (evolved : Behaviour N) : Site N :=
  if w.isFinal s then w
  else if !startable setup w s evolved then w
  else if w.skipped s then w.setStatus s .skipped
  else finish s ((stageBody setup s w.run evolved).exec (w.resumed s))

/-- A session: its invocations, each with what the evolved tree then does. -/
def session (entries : Entries N) (invocations : List (Stage × Behaviour N)) : Site N :=
  invocations.foldl (fun w i => invoke setup w i.1 i.2) (Site.start setup entries)

end Session
end Stages
end TranspileBench.Store
