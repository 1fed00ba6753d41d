import TranspileBench.Coordinator.Maintenance

/-!
`decide`: a stable view of the stages, read file by file, and the verdict over it.
-/
namespace TranspileBench.Coordinator
open Evaluator

variable {N H : Type}

/-- What `_snapshot` returns of every stage: its state, its hash, its evidence. -/
structure Snapshot (N H : Type) where
  states : Stage → Option StageState
  hashes : Stage → Option H
  evidence : Stage → List (Record N)

/-- The committed evidence of a state that was read before. -/
def snapshotEvidence (states : Stage → Option StageState) (s : Stage) :
    Prog (World N H) Exn (List (Record N)) :=
  if isCommitted (states s) then
    committedRows s (states s) <$> readFile fun w => (w.stages s).evidence
  else pure []

section Snapshot
variable [DecidableEq H] (platform : Platform N H)

/-- One pass of `_snapshot`'s loop: no view if a state changed meanwhile. -/
def snapshotPass : Prog (World N H) Exn (Option (Snapshot N H)) := do
  let states ← eachStage none readState
  let hashes := fun s => (states s).map platform.sha256
  let evidence ← eachStage [] (snapshotEvidence states)
  let current ← eachStage none (stateHash platform)
  pure (if STAGE_ORDER.all fun s => hashes s == current s then some ⟨states, hashes, evidence⟩
    else none)

/-- `_snapshot`, stopped after so many passes. -/
def snapshot : Nat → Prog (World N H) Exn (Snapshot N H)
  | 0 => throw (.other "no stable view")
  | passes + 1 => do
      let found ← snapshotPass platform
      match found with
      | some view => pure view
      | none => snapshot passes

end Snapshot

/-- The view of one moment. -/
def World.snapshot (platform : Platform N H) (w : World N H) : Snapshot N H where
  states s := (w.stages s).state
  hashes s := (w.stages s).state.map platform.sha256
  evidence := w.committed

/-- The verdict, with what it rests on. -/
structure Decision (N H : Type) where
  status : Status
  constraints : List (Record N)
  required_ids : List String
  /-- `_evidence`: the merged evidence. -/
  evidence : List (Record N)
  required : List Stage
  pending : List Stage
  /-- The states of the stages it saw. -/
  states : Stage → Option StageState
  stage_state_hashes : Stage → Option H

/-- The baseline failed its preflight. -/
def isBroken (merged : List (Stage × Record N)) : Bool :=
  merged.any fun row => row.2.id == "baseline/preflight" && row.2.result == .failed

section Verdict
variable [Arith N] [DecidableEq N] (platform : Platform N H) (run : Run N)

def recordedGate (quality : Option StageState) : Option GateState :=
  if isComplete quality then (quality.bind (·.gate)).map (·.1) else none

/-- Cost is required once correctness is complete and found no failure. -/
def requiredCost (correctness : Option StageState) (w : World N H) : Except Exn (List Stage) :=
  if isComplete correctness then do
    let due ← w.costDue platform run
    pure (if due.isSome then [.cost] else [])
  else .ok []

def requiredGated (view : Snapshot N H) (w : World N H) : Except Exn (List Stage) :=
  if recordedGate (view.states .quality) = some .improved ∨
      recordedGate (view.states .quality) = some .aa then do
    let cost ← requiredCost platform run (view.states .correctness) w
    pure (.correctness :: cost)
  else .ok []

/-- Unit tests are required once they have started. -/
def requiredTests (tests : Option StageState) : List Stage :=
  if tests.any fun st => [StageStatus.running, .failed, .complete].contains st.status then
    [.unit_tests]
  else []

def requiredStages (view : Snapshot N H) (w : World N H) : Except Exn (List Stage) := do
  let gated ← requiredGated platform run view w
  pure ([.compile, .quality] ++ gated ++ requiredTests (view.states .unit_tests))

/-- A stage that keeps the verdict open: neither final nor failed. -/
def isPending (state : Option StageState) : Bool :=
  !(isFinal state || state.any (·.status == .failed))

/-- Merge rows with their stages; an id that is already there is an error. -/
def mergeRows (seen : List (Stage × Record N)) :
    List (Stage × Record N) → Except Exn (List (Stage × Record N))
  | [] => .ok seen
  | row :: rest =>
      match seen.find? (·.2.id == row.2.id) with
      | some earlier => .error (.harness ("Record " ++ row.2.id ++ " appears in both "
          ++ earlier.1.name ++ " and " ++ row.1.name))
      | none => mergeRows (seen ++ [row]) rest

/-- The evidence of all stages, in their order. -/
def mergeEvidence (view : Snapshot N H) : Except Exn (List (Stage × Record N)) :=
  mergeRows [] (STAGE_ORDER.flatMap fun s => (view.evidence s).map fun r => (s, r))

/-- With a broken baseline only the compile and correctness evidence and the harness
records count. -/
def keptEvidence (broken : Bool) (rows : List (Stage × Record N)) : List (Record N) :=
  if broken then
    (rows.filter fun row =>
      row.1 == .compile || row.1 == .correctness || row.2.kind == .harness).map (·.2)
  else rows.map (·.2)

/-- The observations, which a quality stage that is not complete still owns. -/
def decidedRows (broken : Bool) (view : Snapshot N H) (w : World N H) :
    Except Exn (List (Observation N)) :=
  if isComplete (view.states .quality) then do
    let rows ← readRows platform (w.stages .quality).observations
    pure (if broken then [] else rows)
  else .ok []

def replayedEvidence (view : Snapshot N H) (w : World N H) (evidence : List (Record N)) :
    Except Exn (List (Record N)) :=
  if isComplete (view.states .cost) then
    replayCosts platform.toSetting run (w.stages .cost).bundles evidence
  else .ok evidence

/-- Stage coverage is known once quality and correctness are both complete. -/
def coveredEvidence (broken : Bool) (view : Snapshot N H) (w : World N H)
    (rows : List (Observation N)) (evidence : List (Record N)) :
    Except Exn (List (Record N)) :=
  if broken = false ∧ isComplete (view.states .quality) ∧
      isComplete (view.states .correctness) then do
    let coverage ← stageCoverage (run.scope.getD []) run.profile.manifest.cases rows
      (w.stages .correctness).clifford run.prefix_
    pure (evidence ++ [coverage])
  else .ok evidence

/-- The guarded cost panels of the change scope. -/
def guardedPanels : Except Exn (List String) :=
  match run.scope with
  | none => .ok []
  | some scope =>
      requiredCostPanels run.profile.manifest.confirm scope run.changed_paths
        run.profile.manifest.cases

/-- The ids a `PASS` needs: those of the policy and the evaluator, the guarded cost
panels, and the upstream record of unit tests that have started. -/
def requiredIds (evaluated : List String) (panels : List String) (required : List Stage) :
    List String :=
  let ids := sortedSet (evaluated ++ panels.map fun name => run.prefix_ ++ "5/" ++ name)
  if required.contains .unit_tests then sortedSet (ids ++ [run.prefix_ ++ "1/upstream"]) else ids

/-- The verdict over the evidence, for the required stages. -/
def gradeDecision (view : Snapshot N H) (required : List Stage) (rows : List (Observation N))
    (evidence : List (Record N)) : Except Exn (Decision N H) := do
  let pending := required.filter fun s => isPending (view.states s)
  let (records, evaluated, _) ←
    evaluateQuality run.profile.manifest run.profile.policy rows evidence
  let panels ← guardedPanels run
  let required_ids := requiredIds run evaluated panels required
  let status ← verdict records required_ids
  pure { status := decisionStatus status (if pending = [] then none else some .INCONCLUSIVE)
         constraints := records, required_ids, evidence, required, pending
         states := view.states, stage_state_hashes := view.hashes }

/-- `_decide` over the files of one moment. -/
def decideOn (view : Snapshot N H) (w : World N H) : Except Exn (Decision N H) := do
  let required ← requiredStages platform run view w
  let merged ← mergeEvidence view
  let rows ← decidedRows platform (isBroken merged) view w
  let replayed ← replayedEvidence platform run view w (keptEvidence (isBroken merged) merged)
  let evidence ← coveredEvidence run (isBroken merged) view w rows replayed
  gradeDecision run view required rows evidence

def readCost (correctness : Option StageState) : Prog (World N H) Exn (List Stage) :=
  if isComplete correctness then do
    let due ← costDue platform run
    pure (if due.isSome then [.cost] else [])
  else pure []

def readGated (view : Snapshot N H) : Prog (World N H) Exn (List Stage) :=
  if recordedGate (view.states .quality) = some .improved ∨
      recordedGate (view.states .quality) = some .aa then do
    let cost ← readCost platform run (view.states .correctness)
    pure (.correctness :: cost)
  else pure []

/-- `_decide`, which reads each file where it needs it. -/
def decideView (view : Snapshot N H) : Prog (World N H) Exn (Decision N H) := do
  let gated ← readGated platform run view
  let merged ← Prog.ofExcept (mergeEvidence view)
  let found ← readFile fun w => decidedRows platform (isBroken merged) view w
  let rows ← Prog.ofExcept found
  let found ← readFile fun w =>
    replayedEvidence platform run view w (keptEvidence (isBroken merged) merged)
  let replayed ← Prog.ofExcept found
  let found ← readFile fun w => coveredEvidence run (isBroken merged) view w rows replayed
  let evidence ← Prog.ofExcept found
  Prog.ofExcept (gradeDecision run view
    ([.compile, .quality] ++ gated ++ requiredTests (view.states .unit_tests)) rows evidence)

/-- The part of `decide` under the lifecycle lock, as far as a session's files go. -/
def decideSession [DecidableEq H] (passes : Nat) : Prog (World N H) Exn (Decision N H) := do
  let found ← readFile (·.run)
  match found with
  | none => throw (.precondition "not a session; run compile first")
  | some run => do
      let view ← snapshot platform passes
      let decision ← decideView platform (effective run) view
      Prog.fallible crash fun w (_ : Unit) w' =>
        w' = { w with decision := some decision.stage_state_hashes }
      pure decision

/-- `decide`. -/
def runDecide [DecidableEq H] (p passes : Nat) : Prog (World N H) Exn (Decision N H) := do
  lockShared p
  let result ← (decideSession platform passes).attempt
  unlockShared p
  Prog.ofExcept result

end Verdict
end TranspileBench.Coordinator
