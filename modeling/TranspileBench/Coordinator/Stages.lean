import TranspileBench.Coordinator.Suites

/-!
Running a stage: the session locks, the preconditions that refuse or skip it, and
an invocation from its `running` state over its body to its final or resumable one.
-/
namespace TranspileBench.Coordinator
open Evaluator

variable {N H α : Type}

def EXIT_OK : Nat := 0
def EXIT_ERROR : Nat := 40
def EXIT_NOISY : Nat := 42

/-- Read a file; reading may fail. -/
def readFile {β : Type} (f : World N H → β) : Prog (World N H) Exn β :=
  Prog.fallible crash fun w b w' => b = f w ∧ w' = w

def readState (s : Stage) : Prog (World N H) Exn (Option StageState) :=
  readFile fun w => (w.stages s).state

def writeState (s : Stage) (state : StageState) : Prog (World N H) Exn Unit :=
  Prog.fallible osError fun w _ w' =>
    w' = w.setStage s { w.stages s with state := some state }

/-- `Comparison.save`. -/
def saveRun (run : Run N) : Prog (World N H) Exn Unit :=
  Prog.fallible crash fun w _ w' => w' = { w with run := some run }

/-! ## Locks -/

/-- A lock that is held, or cannot be opened, raises. -/
def lockShared (p : Nat) : Prog (World N H) Exn Unit :=
  Prog.fallible (fun _ => True) fun w _ w' => w.exclusive = none ∧ w' = w.takeShared p

def lockStage (p : Nat) (s : Stage) : Prog (World N H) Exn Unit :=
  Prog.fallible (fun _ => True) fun w _ w' => w.stageLock s = none ∧ w' = w.takeStage p s

def unlockShared (p : Nat) : Prog (World N H) Exn Unit := Prog.modify (·.dropShared p)

section Stages
variable (platform : Platform N H)

def unlockStage (p : Nat) (s : Stage) : Prog (World N H) Exn Unit :=
  Prog.modify fun w => w.dropStage platform p s

/-- The stage lock around `body`; it is let go however `body` ends. -/
def withStage (p : Nat) (s : Stage) (body : Prog (World N H) Exn α) : Prog (World N H) Exn α := do
  lockStage p s
  let result ← body.attempt
  unlockStage platform p s
  Prog.ofExcept result

def sessionLocks (p : Nat) (s : Stage) (body : Prog (World N H) Exn α) :
    Prog (World N H) Exn α := do
  lockShared p
  let result ← (withStage platform p s body).attempt
  unlockShared p
  Prog.ofExcept result

def refuseCleaned : Prog (World N H) Exn Unit := do
  let status ← readFile (·.clean)
  match status with
  | none => pure ()
  | some .cleaning =>
      throw (.precondition "Session cleanup was interrupted; run clean again to finish it")
  | some .complete =>
      throw (.precondition "Session cleaned: start a new session to measure again")

/-! ## Preconditions -/

def isCommitted (state : Option StageState) : Bool :=
  state.any fun st => st.status == .complete || st.status == .failed

def committedEvidence (s : Stage) : Prog (World N H) Exn (List (Record N)) := do
  let state ← readState s
  if isCommitted state then do
    let rows ← readFile fun w => (w.stages s).evidence
    pure (committedRows s state rows)
  else pure []

def isComplete (state : Option StageState) : Bool := state.any (·.status == .complete)

def isFinal (state : Option StageState) : Bool := state.any fun st => FINAL.contains st.status

section Graded
variable [Arith N]

def costDue (run : Run N) : Prog (World N H) Exn (Option CostDue) := do
  let file ← readFile fun w => (w.stages .quality).observations
  let rows ← Prog.ofExcept (readRows platform file)
  let compile ← committedEvidence .compile
  let quality ← committedEvidence .quality
  let correctness ← committedEvidence .correctness
  Prog.ofExcept (gradeCostDue run rows (compile ++ quality ++ correctness))

def costSkipReason (view : Run N) : Prog (World N H) Exn (Option String) := do
  let correctness ← readState .correctness
  if isComplete correctness then do
    let due ← costDue platform view
    pure (if due.isNone then some "correctness found a failure" else none)
  else pure none

/-- `skip_reason`: why a gated stage records `skipped` instead of running. -/
def skipReason (s : Stage) (view : Run N) : Prog (World N H) Exn (Option String) := do
  let quality ← readState .quality
  if isComplete quality then
    match quality.bind (·.gate) with
    | some (.closed, reason) => pure (some ("gate closed: " ++ reason))
    | _ => if s = .cost then costSkipReason platform view else pure none
  else pure none

def requireFinal (s needed : Stage) : Prog (World N H) Exn Unit := do
  let state ← readState needed
  if isFinal state then pure ()
  else throw (.precondition (s.name ++ " needs " ++ needed.name ++ " to be complete (it is "
    ++ statusText state ++ ")"))

/-- The store is there and holds the baseline build. -/
def requireStore (s : Stage) (view : Run N) : Prog (World N H) Exn Unit :=
  if s = .compile then pure ()
  else if view.store = none then
    throw (.precondition "The session has no store; it was not created by compile")
  else
    match view.builds.baseline.bind (·.store_key) with
    | none => throw (.precondition "Baseline build None is missing from the store")
    | some _ => Prog.request crash fun _ => True

/-- `_skip`: the attempts stay as they were. -/
def skip (s : Stage) (previous : Option StageState) (reason : String) :
    Prog (World N H) Exn Unit := do
  writeState s { status := .skipped, attempts := (previous.map (·.attempts)).getD 0,
                 reason := some reason }
  -- the invocation log
  Prog.request osError fun _ : Unit => True

def gatedReason (s : Stage) (view : Run N) : Prog (World N H) Exn (Option String) :=
  if GATED.contains s then skipReason platform s view else pure none

/-- The host runs the builds, and the monitor is the one the session requires. -/
def checkHost (s : Stage) : Prog (World N H) Exn Unit :=
  if s = .compile then pure () else Prog.request crash fun _ => True

/-- `_preconditions`: whether the stage ended here, skipped. -/
def preconditions (s : Stage) (view : Run N) (previous : Option StageState) :
    Prog (World N H) Exn Bool := do
  Prog.each (requireFinal s) (PREREQUISITES s)
  requireStore s view
  let reason ← gatedReason platform s view
  match reason with
  | some reason => do
      skip s previous reason
      pure true
  | none => do
      checkHost s
      pure false

end Graded

/-! ## Bodies -/

/-- What the builds end with: the baseline from the store, and the evolved one unless a
saved build is reused. -/
structure BuildOutcome where
  baseline : Except Exn Build
  evolved : Option (Except Exn Build)

def BuildOutcome.Crashes (o : BuildOutcome) : Prop :=
  (∀ e, o.baseline = .error e → crash e) ∧ ∀ e, o.evolved = some (.error e) → crash e

/-- A finished build is recorded even if the other one fails. -/
def BuildOutcome.record (o : BuildOutcome) (run : Run N) : Run N :=
  { run with builds := ⟨o.baseline.toOption.or run.builds.baseline,
      (o.evolved.bind (·.toOption)).or run.builds.evolved⟩ }

def raiseEvolved : Option (Except Exn Build) → Prog (World N H) Exn Unit
  | some (.error e) => throw e
  | _ => pure ()

def raiseBaseline : Except Exn Build → Prog (World N H) Exn Unit
  | .error e => throw e
  | .ok _ => pure ()

/-- The saved evolved build is recorded at once. -/
def reuseEvolved (run : Run N) : Option Build → Prog (World N H) Exn (Run N)
  | none => pure run
  | some build => do
      let run := { run with builds := { run.builds with evolved := some build } }
      saveRun run
      pure run

def build (run : Run N) : Prog (World N H) Exn (Run N) := do
  -- the snapshots' difference and its scope, and the harness identity
  let found ← Prog.request crash fun _ : List String × List Scope × String => True
  let saved ← Prog.request crash fun _ : Option Build => True
  let run ← reuseEvolved { run with changed_paths := found.1, scope := some found.2.1,
                                    implementation := some found.2.2 } saved
  let outcome ← Prog.request crash fun o : BuildOutcome =>
    o.Crashes ∧ o.evolved.isSome = saved.isNone
  let run := outcome.record run
  saveRun run
  raiseBaseline outcome.baseline
  raiseEvolved outcome.evolved
  -- the verifier environment
  Prog.request crash fun _ : Unit => True
  saveRun run
  pure run

def compileBody (view : Run N) : Prog (World N H) Exn Unit := do
  let _ ← build view
  -- the input roundtrip
  Prog.request crash fun _ : Unit => True
  (putEvidence { id := "harness/roundtrip", kind := .harness, result := .passed }).zoom
    (stageLens .compile)

def costFilesLens : Lens (StageFiles N) (CostFiles N) where
  get f := ⟨f.bundles, f.evidence⟩
  set f c := { f with bundles := c.bundles, evidence := c.evidence }
  get_set _ _ := rfl
  set_get _ := rfl
  set_set _ _ _ := rfl

/-- An incomplete measurement is recorded; anything else ends the stage. -/
def incompleteCosts (view : Run N) : Except Exn Unit → Prog (World N H) Exn Unit
  | .ok () => pure ()
  | .error (.incomplete text) =>
      (putEvidence { id := view.prefix_ ++ "5/timing", kind := .cost, result := .unresolved,
                     details := .detail text }).zoom (stageLens .cost)
  | .error e => throw e

section Bodies
variable [Arith N] [DecidableEq N]

def costBody (view : Run N) : Prog (World N H) Exn Unit := do
  resetEvidence.zoom (stageLens .cost)
  let _ ← costDue platform view
  let measured ← ((measureCosts platform.toSetting view).zoom costFilesLens
    |>.zoom (stageLens .cost)).attempt
  incompleteCosts view measured

/-- `quality_body`: the gate is judged with the committed compile evidence. -/
def qualityBody (view : Run N) : Prog (World N H) Exn (GateState × String) := do
  let rows ← (measureQuality platform view).zoom (stageLens .quality)
  let compile ← committedEvidence .compile
  let own ← readFile fun w => (w.stages .quality).evidence
  Prog.ofExcept (qualityGate view rows (compile ++ own))

/-- `BODIES`; quality's final state also holds its gate. -/
def stageBody (s : Stage) (view : Run N) :
    Prog (World N H) Exn (Option (GateState × String)) :=
  match s with
  | .compile => do compileBody view; pure none
  | .quality => do let gate ← qualityBody platform view; pure (some gate)
  | .correctness => do
      (correctnessBody view.prefix_).zoom (stageLens .correctness)
      pure none
  | .unit_tests => do (unitTestsBody view.prefix_).zoom (stageLens .unit_tests); pure none
  | .cost => do costBody platform view; pure none

/-! ## An invocation -/

def Exn.text : Exn → String
  | .harness m | .incomplete m | .precondition m | .usage m | .contaminated m | .lookup m
  | .other m => m

def errorRecord (s : Stage) (e : Exn) : Record N where
  id := s.errorId
  kind := .harness
  result := .failed
  details := .detail (Exn.text e)

/-- The cost monitor checks the idle host; an exception other than a refusal ends the
invocation like one of its body. -/
def prepare (s : Stage) : Prog (World N H) Exn (Option Exn) :=
  if s = .cost then Prog.request (fun e => ∃ text, e = .precondition text) fun _ => True
  else pure none

def runBody (s : Stage) (view : Run N) : Option Exn →
    Prog (World N H) Exn (Option (GateState × String))
  | some e => throw e
  | none => stageBody platform s view

/-- The evidence without the crash record of the attempt this one resumes. -/
def StageFiles.resumed (s : Stage) (f : StageFiles N) : StageFiles N :=
  { f with evidence := f.evidence.filter (·.id != s.errorId) }

def commitRecords (s : Stage) : Prog (World N H) Exn Unit :=
  Prog.fallible osError fun w _ w' => w' = w.setStage s ((w.stages s).resumed s)

/-- The evidence as it is, the final state, and the invocation log. -/
def commitState (s : Stage) (state : StageState) (code : Nat) : Prog (World N H) Exn Nat := do
  Prog.request osError fun _ : Unit => True
  writeState s state
  Prog.request osError fun _ : Unit => True
  pure code

/-- How an invocation ends: interference is no crash, and nothing of it is committed. -/
def finish (s : Stage) (attempts : Nat) :
    Except Exn (Option (GateState × String)) → Prog (World N H) Exn Nat
  | .ok gate => commitState s { status := .complete, attempts, gate } EXIT_OK
  | .error (.contaminated text) =>
      commitState s { status := .noisy, attempts, reason := some text } EXIT_NOISY
  | .error e => do
      (putEvidence (errorRecord s e)).zoom (stageLens s)
      commitState s { status := .failed, attempts, reason := some (Exn.text e) } EXIT_ERROR

/-- The part of `_execute` behind the preconditions. -/
def runAttempt (p : Nat) (s : Stage) (view : Run N) (attempts : Nat) :
    Prog (World N H) Exn Nat := do
  let prepared ← prepare s
  writeState s { status := .running, attempts }
  commitRecords s
  Prog.modify (·.mark p (.body s view))
  let result ← (runBody platform s view prepared).attempt
  Prog.modify (·.mark p (.inside s))
  finish s attempts result

def execute (p : Nat) (s : Stage) (view : Run N) (previous : Option StageState) :
    Prog (World N H) Exn Nat := do
  let ended ← preconditions platform s view previous
  if ended then pure EXIT_OK
  else runAttempt platform p s view ((previous.map (·.attempts)).getD 0 + 1)

/-! ## Entry points -/

/-- `_check_harness`: a stage runs with the harness of its session. -/
def checkHarness (harness : Harness) (view : Run N) : Except Exn Unit :=
  if view.coordinator ≠ harness.coordinator then
    .error (.precondition "Harness code changed since compile")
  else if view.implementation.any (· != harness.implementation) then
    .error (.precondition "Worker or verifier code changed since compile")
  else .ok ()

/-- `Comparison.open`. -/
def openSession (s : Stage) (harness : Harness) : Prog (World N H) Exn (Run N) := do
  let run ← readFile (·.run)
  match run with
  | none => throw (.precondition "not a session; run compile first")
  | some run => do
      Prog.ofExcept (checkHarness harness (effectiveFor run s))
      -- the installed profile still has the archived content
      Prog.request crash fun _ : Unit => True
      pure (effectiveFor run s)

def runStage (p : Nat) (s : Stage) (harness : Harness) : Prog (World N H) Exn Nat :=
  if s = .compile then throw (.usage "Unknown stage compile")
  else do
    let created ← readFile (·.run.isSome)
    if created then
      sessionLocks platform p s do
        refuseCleaned
        let previous ← readState s
        if isFinal previous then pure EXIT_OK
        else do
          let view ← openSession s harness
          execute platform p s view previous
    else throw (.precondition "not a session; run compile first")

/-- What `compile` is asked for: the installed profile, a fresh run id and what the
execution context requires of a new session among them. -/
structure CompileInputs (N : Type) where
  baseline : String
  evolved : String
  profile : Profile N
  store : String
  session : Option Requirement
  harness : Harness
  run_id : String

/-- Whether a session is one for these inputs. -/
def CompileInputs.match_ (inputs : CompileInputs N) (run : Run N) : Bool :=
  run.baseline_source == inputs.baseline && run.evolved_source == inputs.evolved
    && run.store == some inputs.store
    && run.profile.manifest.confirm == inputs.profile.manifest.confirm
    && inputs.session.all fun r => run.cost_evidence == some r

def CompileInputs.newRun (inputs : CompileInputs N) : Run N where
  run_id := inputs.run_id
  profile := inputs.profile
  coordinator := inputs.harness.coordinator
  implementation := none
  baseline_source := inputs.baseline
  evolved_source := inputs.evolved
  store := some inputs.store
  builds := {}
  changed_paths := []
  scope := none
  cost_evidence := inputs.session
  amendments := []

/-- `Comparison.create`: create `run.json`, or resume an unfinished compile. -/
def createSession (inputs : CompileInputs N) : Prog (World N H) Exn (Run N) := do
  let found ← readFile (·.run)
  match found with
  | some run =>
      if inputs.match_ run then do
        Prog.ofExcept (checkHarness inputs.harness run)
        Prog.request crash fun _ : Unit => True
        pure run
      else throw (.usage "a session for other inputs")
  | none => do
      -- the archived manifest and policy
      Prog.request crash fun _ : Unit => True
      saveRun inputs.newRun
      pure inputs.newRun

/-- Other inputs are a usage error even when compile has finished. -/
def checkInputs (inputs : CompileInputs N) : Prog (World N H) Exn Unit := do
  let found ← readFile (·.run)
  if found.all fun run => inputs.match_ (effective run) then pure ()
  else throw (.usage "a session for other inputs")

def runCompile (p : Nat) (inputs : CompileInputs N) : Prog (World N H) Exn Nat :=
  sessionLocks platform p .compile do
    refuseCleaned
    let previous ← readState .compile
    checkInputs inputs
    if isFinal previous then pure EXIT_OK
    else do
      let view ← createSession inputs
      execute platform p .compile view previous

end Bodies
end Stages
end TranspileBench.Coordinator
