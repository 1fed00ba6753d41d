import TranspileBench.Coordinator.Stages

/-!
`clean` and `amend`, which hold the whole session: neither runs beside a stage or
`decide`, and neither writes a stage's state.
-/
namespace TranspileBench.Coordinator
open Evaluator

variable {N H α : Type}

def lockExclusive (p : Nat) : Prog (World N H) Exn Unit :=
  Prog.fallible (fun _ => True) fun w _ w' =>
    w.exclusive = none ∧ (∀ q, w.shared q = false) ∧ w' = w.takeExclusive p

def unlockExclusive : Prog (World N H) Exn Unit := Prog.modify (·.dropExclusive)

/-- The lifecycle lock around `body`, of a session that exists. -/
def holdingSession (p : Nat) (body : Prog (World N H) Exn α) : Prog (World N H) Exn α := do
  let created ← readFile (·.run.isSome)
  if created then do
    lockExclusive p
    let result ← body.attempt
    unlockExclusive
    Prog.ofExcept result
  else throw (.precondition "not a session")

/-- Collect a reading of every stage. -/
def eachStage {β : Type} (start : β) (read : Stage → Prog (World N H) Exn β) :
    Prog (World N H) Exn (Stage → β) :=
  Prog.fold (fun found s => (fun b => Function.update found s b) <$> read s) (fun _ => start)
    STAGE_ORDER

/-! ## Clean -/

def writeClean (status : CleanStatus) : Prog (World N H) Exn Unit :=
  Prog.fallible crash fun w _ w' => w' = { w with clean := some status }

/-- Delete what is planned, none of which any stage state, evidence or row is among. -/
def deletePlanned : Prog (World N H) Exn Nat := do
  Prog.request crash fun _ : Unit => True
  writeClean .complete
  pure EXIT_OK

def stateHash (platform : Platform N H) (s : Stage) : Prog (World N H) Exn (Option H) :=
  readFile fun w => (w.stages s).state.map platform.sha256

/-- Plan the deletions of a session whose stages are as they were decided. -/
def planClean [DecidableEq H] (platform : Platform N H) :
    Option (Stage → Option H) → Prog (World N H) Exn Nat
  | none => throw (.precondition "Run decide before clean")
  | some recorded => do
      let current ← eachStage none (stateHash platform)
      if STAGE_ORDER.all fun s => recorded s == current s then do
        Prog.request crash fun _ : Unit => True
        writeClean .cleaning
        deletePlanned
      else throw (.precondition ("Stages changed since the last decide ("
        ++ ", ".intercalate ((STAGE_ORDER.filter fun s => recorded s != current s).map (·.name))
        ++ "); run decide again"))

/-- `_clean`. -/
def cleanSession [DecidableEq H] (platform : Platform N H) :
    Option CleanStatus → Prog (World N H) Exn Nat
  | some .complete => pure EXIT_OK
  | some .cleaning => deletePlanned
  | none => do
      let states ← eachStage none readState
      let running := STAGE_ORDER.filter fun s =>
        (states s).any fun st => UNFINISHED.contains st.status
      if running = [] then do
        let decision ← readFile (·.decision)
        planClean platform decision
      else throw (.precondition (", ".intercalate (running.map (·.name))
        ++ " did not finish (a killed job leaves 'running', detected interference 'noisy'); "
        ++ "run it again to a final state, then decide, then clean"))

def clean [DecidableEq H] (platform : Platform N H) (p : Nat) : Prog (World N H) Exn Nat :=
  holdingSession p do
    let status ← readFile (·.clean)
    cleanSession platform status

/-! ## Amend -/

/-- What `amend_cost` is given: the running harness, what its execution context requires,
and a reason without blanks around it. Of the profile that `run.json` names, as it is
installed, it is whether the manifest and whether the policy have the recorded hash, or what
`load_profile` raises. -/
structure AmendInputs where
  harness : Harness
  session : Option Requirement
  reason : String
  installed : Except Exn (Bool × Bool)

def BEFORE_COST : List Stage := [.compile, .quality, .correctness]

def refuseUnless (c : Bool) (text : String) : Prog (World N H) Exn Unit :=
  if c then pure () else throw (.precondition text)

/-- Whether cost already runs under this harness. -/
def AmendInputs.inForce (inputs : AmendInputs) (run : Run N) : Bool :=
  let current := effectiveFor run .cost
  current.coordinator == inputs.harness.coordinator
    && current.implementation == some inputs.harness.implementation
    && inputs.session.all fun r => current.cost_evidence == some r

/-- The installed profile still has the archived content. -/
def checkInstalled (installed : Except Exn (Bool × Bool)) : Except Exn Unit := do
  let (manifest, policy) ← installed
  if !manifest then throw (.precondition "The profile's manifest changed since compile")
  if !policy then throw (.precondition "The profile's policy changed since compile")

/-- `_amend`: append an amendment to `run.json`, and change nothing else of it. -/
def amendSession (inputs : AmendInputs) : Prog (World N H) Exn Unit := do
  refuseCleaned
  let found ← readFile (·.run)
  Prog.each (fun s => do
    let state ← readState s
    refuseUnless (isFinal state) ("Only cost can be re-pinned: " ++ s.name ++ " is "
      ++ statusText state ++ ", not final")) BEFORE_COST
  let tests ← readState .unit_tests
  refuseUnless (tests.isNone || isFinal tests) ("Only cost can be re-pinned: unit-tests is "
    ++ statusText tests ++ ", not final")
  let cost ← readState .cost
  refuseUnless (!isFinal cost) ("cost is already " ++ statusText cost
    ++ ": a final measurement is never measured again, under any harness")
  match found with
  | none => throw (.other "FileNotFoundError")
  | some run => do
      Prog.ofExcept (checkInstalled inputs.installed)
      refuseUnless (!inputs.inForce run) "cost already runs under this harness; nothing to amend"
      let wheel ← Prog.request crash fun _ : String => True
      saveRun { run with amendments := run.amendments ++
        [⟨inputs.harness, inputs.session, inputs.reason, wheel⟩] }
      -- the stage's own copy of the amendment
      Prog.request osError fun _ : Unit => True

def amendCost (p : Nat) (inputs : AmendInputs) : Prog (World N H) Exn Unit :=
  if inputs.reason = "" then throw (.usage "An amendment needs a reason")
  else holdingSession p (amendSession inputs)

end TranspileBench.Coordinator
