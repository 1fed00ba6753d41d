import TranspileBench.Coordinator.Maintenance
import TranspileBench.Lib.Fallible

/-!
`amend_cost` with all it records: the entry of `run.json:amendments`, and the wheel it
archives before the entry that names it. A call may be killed between any two actions; the
build that it has started then runs on, in a session of its own.
-/
namespace TranspileBench.Coordinator

/-- A wheel in the archive, and the harness a whole one was built from. -/
structure Wheel where
  name : String
  built : Option Harness
  deriving DecidableEq

/-- What an amendment replaced. -/
structure Previous (J : Type) where
  coordinator : Option String
  implementation : Option String
  session : List (String × Option J)
  cost_status : Option StageStatus
  format : Option String
  deriving DecidableEq

/-- One entry of `run.json:amendments`; its stage is always cost. Its wheel is the file
`harness-wheel/amendments/<directory>/<name>`. -/
structure AmendmentEntry (J : Type) where
  index : Nat
  at_ : String
  reason : String
  hashes : Harness
  harness_wheel : String
  session : List (String × J)
  previous : Previous J
  wheel : Nat × String
  deriving DecidableEq

/-- `run.json`, as an amendment reads and writes it; `fields` is everything else at its top
level. -/
structure RunJson (J : Type) where
  format : Option String
  profile : String
  manifest : String
  policy : String
  coordinator : Option String
  implementation : Option String
  fields : String → Option J
  amendments : List (AmendmentEntry J)

/-- A session directory, as far as amendments go. -/
structure AmendedSession (J : Type) where
  cleaned : Option CleanStatus
  states : Stage → Option StageState
  run : Option (RunJson J)
  /-- The wheels in `harness-wheel/amendments/<n>/`. -/
  wheels : Nat → List Wheel
  /-- `stages/cost/amendment-<n>.json`. -/
  copies : Nat → Option (AmendmentEntry J)
  /-- The builds that run: the directory each fills, and its harness. -/
  builds : List (Nat × Harness)

/-- What `amend_cost` is called with: the running harness, its installed profiles by their
hashes, the requirements of its execution context, and a reason without blanks around it. -/
structure AmendCall (J : Type) where
  harness : Harness
  installed : String → Except Exn (String × String)
  session : List (String × J)
  reason : String

def AMEND_FORMAT : String := "qtb-run/4"

variable {J : Type} {α β : Type}

/-- `dict.update`. -/
def updateFields (fields : String → Option J) (entries : List (String × J)) : String → Option J :=
  entries.foldl (fun found entry => Function.update found entry.1 (some entry.2)) fields

/-- `effective(run, "cost")`. -/
def RunJson.effective (run : RunJson J) : RunJson J :=
  run.amendments.foldl (fun view a =>
    { view with
      fields := updateFields view.fields a.session
      coordinator := some a.hashes.coordinator
      implementation := some a.hashes.implementation }) run

/-- Read a file of the session; reading may fail. -/
def readSession (f : AmendedSession J → β) : Prog (AmendedSession J) Exn β :=
  Prog.fallible crash fun w b w' => b = f w ∧ w' = w

def refuseIf (c : Bool) (text : String) : Prog (AmendedSession J) Exn Unit :=
  if c then throw (.precondition text) else pure ()

def AmendedSession.archive (w : AmendedSession J) (n : Nat) (found : List Wheel) :
    AmendedSession J :=
  { w with wheels := Function.update w.wheels n found }

/-- A file of the archive, new or overwritten. -/
def AmendedSession.putWheel (w : AmendedSession J) (n : Nat) (wheel : Wheel) : AmendedSession J :=
  w.archive n ((w.wheels n).filter (·.name ≠ wheel.name) ++ [wheel])

def AmendedSession.endBuild (w : AmendedSession J) (build : Nat × Harness) : AmendedSession J :=
  { w with builds := w.builds.erase build }

/-- What a build does that runs: it writes its wheel, torn or whole, or ends. -/
inductive Building : AmendedSession J → AmendedSession J → Prop
  | write {w : AmendedSession J} (build : Nat × Harness) (wheel : Wheel)
      (running : build ∈ w.builds) (own : ∀ harness ∈ wheel.built, harness = build.2) :
      Building w (w.putWheel build.1 wheel)
  | ends {w : AmendedSession J} (build : Nat × Harness) : Building w (w.endBuild build)

/-- `run_logged` waits for the build: it leaves a whole wheel, or fails, or is killed. -/
def awaitBuild (harness : Harness) (n : Nat) :
    AmendedSession J → Except Exn Unit → AmendedSession J → Prop
  | w, .ok _, w' => (n, harness) ∈ w.builds ∧
      ∃ name, w' = (w.putWheel n ⟨name, some harness⟩).endBuild (n, harness)
  | w, .error e, w' => crash e ∧ w' = w.endBuild (n, harness)

/-- `uv build`, or the installed wheel repacked. -/
def buildWheel (harness : Harness) (n : Nat) : Prog (AmendedSession J) Exn Unit := do
  Prog.fallible crash fun w (_ : Unit) w' => w' = { w with builds := w.builds ++ [(n, harness)] }
  let ended ← Prog.perform (awaitBuild harness n)
  Prog.ofExcept ended

/-- The one wheel of a directory. -/
def oneWheel : List Wheel → Prog (AmendedSession J) Exn Wheel
  | [wheel] => pure wheel
  | _ => throw (.harness "Expected exactly one harness wheel")

/-- `build_harness_wheel`: a wheel that is there is taken as it is. -/
def buildHarnessWheel (harness : Harness) (n : Nat) : Prog (AmendedSession J) Exn Wheel := do
  let found ← readSession (·.wheels n)
  if found = [] then do
    buildWheel harness n
    let found ← readSession (·.wheels n)
    oneWheel found
  else oneWheel found

/-- The new entry, and `run.json` with it. -/
def AmendCall.entry [DecidableEq J] (call : AmendCall J) (run : RunJson J)
    (cost : Option StageState) (now wheel_hash : String) (wheel : Wheel) : AmendmentEntry J :=
  let current := run.effective
  let index := run.amendments.length + 1
  { index
    at_ := now
    reason := call.reason
    hashes := call.harness
    harness_wheel := wheel_hash
    session := call.session
    previous :=
      { coordinator := current.coordinator
        implementation := current.implementation
        session := call.session.map fun entry => (entry.1, current.fields entry.1)
        cost_status := cost.map (·.status)
        format := run.format }
    wheel := (index, wheel.name) }

def RunJson.amend (run : RunJson J) (entry : AmendmentEntry J) : RunJson J :=
  { run with amendments := run.amendments ++ [entry], format := some AMEND_FORMAT }

section Program
variable [DecidableEq J]

/-- Whether cost already runs under this harness. -/
def AmendCall.inForce (call : AmendCall J) (run : RunJson J) : Bool :=
  let current := run.effective
  current.coordinator = some call.harness.coordinator
    ∧ current.implementation = some call.harness.implementation
    ∧ ∀ entry ∈ call.session, current.fields entry.1 = some entry.2

def checkProfile (call : AmendCall J) (run : RunJson J) : Except Exn Unit := do
  let (manifest, policy) ← call.installed run.profile
  if manifest ≠ run.manifest then
    throw (.precondition "The profile's manifest changed since compile")
  if policy ≠ run.policy then throw (.precondition "The profile's policy changed since compile")

/-- What is written once every check has passed. -/
def archiveAmendment (call : AmendCall J) (run : RunJson J) (cost : Option StageState) :
    Prog (AmendedSession J) Exn (AmendmentEntry J) := do
  let wheel ← buildHarnessWheel call.harness (run.amendments.length + 1)
  let stamp ← Prog.request crash fun _ : String × String => True
  let entry := call.entry run cost stamp.1 stamp.2 wheel
  Prog.fallible osError fun w (_ : Unit) w' => w' = { w with run := some (run.amend entry) }
  Prog.fallible osError fun w (_ : Unit) w' =>
    w' = { w with copies := Function.update w.copies entry.index (some entry) }
  pure entry

/-- `_amend`. -/
def amendLocked (call : AmendCall J) : Prog (AmendedSession J) Exn (AmendmentEntry J) := do
  let cleaned ← readSession (·.cleaned)
  refuseIf (cleaned = some .cleaning)
    "Session cleanup was interrupted; run clean again to finish it"
  refuseIf cleaned.isSome "Session cleaned: start a new session to measure again"
  let found ← readSession (·.run)
  match found with
  | none => throw (.harness "Cannot read run.json")
  | some run => do
      Prog.each (fun s => do
        let state ← readSession (·.states s)
        refuseIf (!isFinal state) ("Only cost can be re-pinned: " ++ s.name ++ " is "
          ++ statusText state ++ ", not final")) BEFORE_COST
      let tests ← readSession (·.states .unit_tests)
      refuseIf (tests.isSome && !isFinal tests) ("Only cost can be re-pinned: unit-tests is "
        ++ statusText tests ++ ", not final")
      let cost ← readSession (·.states .cost)
      refuseIf (isFinal cost) ("cost is already " ++ statusText cost
        ++ ": a final measurement is never measured again, under any harness")
      Prog.ofExcept (checkProfile call run)
      refuseIf (call.inForce run) "cost already runs under this harness; nothing to amend"
      archiveAmendment call run cost

/-- `amend_cost`; the lifecycle lock may be held by a stage or by `decide`. -/
def amendCall (call : AmendCall J) : Prog (AmendedSession J) Exn (AmendmentEntry J) :=
  if call.reason = "" then throw (.usage "An amendment needs a reason")
  else do
    let created ← readSession (·.run.isSome)
    refuseIf (!created) "not a session"
    Prog.request (fun _ => True) fun _ : Unit => True
    amendLocked call

end Program
end TranspileBench.Coordinator
