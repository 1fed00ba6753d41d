import TranspileBench.Lsf.CostMonitor
import TranspileBench.Lsf.Ledger
import TranspileBench.Coordinator.Maintenance

/-!
Resuming a session whose manager ended: the checks that refuse it, the amendment that
may re-pin its cost stage, and the records written before a new manager is submitted.
-/
namespace TranspileBench.Lsf
open Coordinator Evaluator

def EXIT_ERROR : ℕ := 40
def EXIT_PRECONDITION : ℕ := 41
def EXIT_USAGE : ℕ := 64

/-- How the launcher stops: it refuses with a message and an exit code, or it crashes. -/
inductive Fault
  | refused (message : String) (code : ℕ)
  | other
  deriving DecidableEq

/-- `launch.json`, with the fields a resume reads or refreshes. -/
structure Launch where
  run_id : String
  session : String
  unit_tests : Bool
  tier : Tier
  python : String
  project : String
  measurement_identity : String
  log_level : String
  deriving DecidableEq

/-- What `bsub` answers. -/
inductive SubmitOutcome
  | accepted (job_id : String)
  | rejected
  | ambiguous
  deriving DecidableEq

def SubmitOutcome.name : SubmitOutcome → String
  | .accepted _ => "accepted"
  | .rejected => "rejected"
  | .ambiguous => "ambiguous"

/-- A session directory beside its orchestration records. `submitted` and `reports` are
history: the names given to `bsub` with its answers, and every status that `bjobs` or
`bhist` gave for a job id. -/
structure Site (N H : Type) where
  session : World N H
  launch : Launch
  ledger : Ledger
  submitted : List (String × SubmitOutcome)
  reports : List (String × JobStatus)

/-- The installation that resumes: its harness, its paths, its environment, what it requires
of new cost evidence, and what it has of the session's profile: whether the manifest and
whether the policy are those of the compile, or what loading it raises. -/
structure Launcher where
  harness : Harness
  python : String
  project : String
  measurement_identity : String
  /-- `LSF_LOG_LEVEL`; unset and empty are alike. -/
  log_level : String
  requirement : Tier → Requirement
  installed : Except Exn (Bool × Bool)

/-- The options of a resume; unset and empty texts are alike. -/
structure ResumeArgs where
  log_level : String
  upgrade_cost : Bool
  /-- Without blanks around it. -/
  reason : String

variable {N H β : Type}

/-- Read a file; reading may fail. -/
def look (f : Site N H → β) : Prog (Site N H) Fault β :=
  Prog.fallible (· = .other) fun w b w' => b = f w ∧ w' = w

/-- Write a file; writing may fail. -/
def put (f : Site N H → Site N H) : Prog (Site N H) Fault Unit :=
  Prog.fallible (· = .other) fun w _ w' => w' = f w

/-! ## The scheduler, whose answers are arbitrary; a failed query has only a text -/

def Site.report (w : Site N H) (id : String) (status : Option JobStatus) : Site N H :=
  { w with reports := w.reports ++ status.toList.map fun s => (id, s) }

/-- `bjobs` of a job id. -/
def query (id : String) : Prog (Site N H) Fault (Except String JobStatus) :=
  Prog.perform fun w answer w' => w' = w.report id answer.toOption

/-- `bhist` of a job id: a terminal status, or nothing. -/
def history (id : String) : Prog (Site N H) Fault (Option JobStatus) :=
  Prog.perform fun w answer w' => (∀ s ∈ answer, s.terminal = true) ∧ w' = w.report id answer

/-- `bjobs` of a job name. -/
def find : Prog (Site N H) Fault (Except String (List JobStatus)) := Prog.answer fun _ => True

/-- `bsub`: from here on the job may exist, whatever the answer. -/
def bsub (name : String) : Prog (Site N H) Fault SubmitOutcome :=
  Prog.perform fun w answer w' => w' = { w with submitted := w.submitted ++ [(name, answer)] }

def Site.updateJob (w : Site N H) (key : String) (f : Entry → Entry) : Site N H :=
  { w with ledger := w.ledger.update key f }

def sessionLens : Lens (Site N H) (World N H) where
  get w := w.session
  set w s := { w with session := s }
  get_set _ _ := rfl
  set_get _ := rfl
  set_set _ _ _ := rfl

def reapCommand (session : String) : String :=
  "python -m lsf.control reap --results-root " ++ session

/-! ## Checks -/

def Entry.unsettled (e : Entry) : Bool := ACTIVE.contains e.status || e.status == .unreconciled

/-- The status of a job, from its history when it is no longer listed. -/
def statusOf (id : String) : Prog (Site N H) Fault (Except String JobStatus) := do
  let answer ← query id
  match answer with
  | .error text => pure (.error text)
  | .ok status =>
      if status.state = .NOTFOUND then do
        let ended ← history id
        pure (.ok (ended.getD status))
      else pure (.ok status)

/-- What the scheduler still knows of a manager's entry. -/
def findManager (e : Entry) : Prog (Site N H) Fault (Except String (List JobStatus)) :=
  match e.job_id with
  | none => find
  | some id => do
      let status ← statusOf id
      pure (status.map fun s => [s])

/-- A manager that is gone is terminal in the ledger. -/
def settleManager (found : List JobStatus) (e : Entry) : Entry :=
  { e with
    status := .terminal
    scheduler := some ⟨some ((found.head?.map (·.state)).getD .NOTFOUND),
      found.head?.bind (·.exit_code), none⟩ }

def checkManagerEnded (session : String) (e : Entry) (found : List JobStatus) :
    Prog (Site N H) Fault Unit :=
  match found.find? fun s => s.state != .NOTFOUND && !s.terminal with
  | some live => throw (.refused ("the manager job " ++ live.job_id ++ " is still "
      ++ live.state.name ++ "; stop it first (python -m lsf.control stop --results-root "
      ++ session ++ ")") EXIT_PRECONDITION)
  | none => put (·.updateJob e.key (settleManager found))

def checkJobEnded (session : String) (e : Entry) : Prog (Site N H) Fault Unit :=
  if !e.unsettled then pure ()
  else if e.stage ≠ .manager then
    throw (.refused ("job " ++ e.key ++ " is " ++ e.status.name
      ++ " in the ledger; settle it first: " ++ reapCommand session) EXIT_PRECONDITION)
  else do
    let found ← findManager e
    match found with
    | .error text => throw (.refused ("cannot check the manager job " ++ e.job_id.getD e.name
        ++ ": " ++ text) EXIT_PRECONDITION)
    | .ok found => checkManagerEnded session e found

/-- `_check_jobs_ended`: no job of the session may still be in LSF. -/
def checkJobsEnded (session : String) : Prog (Site N H) Fault Unit := do
  let jobs ← look (·.ledger.jobs)
  Prog.each (checkJobEnded session) jobs

/-- The stage order a resume checks; unit-tests only when the launch runs it. -/
def launchStages (launch : Launch) : List Stage :=
  STAGE_ORDER.filter fun s => s != .unit_tests || launch.unit_tests

/-- `_unfinished`: the stages a new manager would run, in order. -/
def unfinished (launch : Launch) : Prog (Site N H) Fault (List Stage) := do
  let created ← look (·.session.run.isSome)
  if created then
    Prog.fold (fun pending s => do
      let state ← look fun w => (w.session.stages s).state
      pure (if isFinal state then pending else pending ++ [s])) [] (launchStages launch)
  else pure (launchStages launch)

/-- How a harness error of `amend_cost` reaches the launcher. -/
def amendFault : Exn → Fault
  | .harness text | .incomplete text | .precondition text | .usage text | .contaminated text =>
      .refused ("--upgrade-cost: " ++ text) EXIT_PRECONDITION
  | .lookup _ | .other _ => .other

def amendInputs (launcher : Launcher) (args : ResumeArgs) (launch : Launch) : AmendInputs :=
  ⟨launcher.harness, some (launcher.requirement launch.tier), args.reason, launcher.installed⟩

/-- `_upgrade_cost`: the number of the amendment. -/
def upgradeCost (p : ℕ) (inputs : AmendInputs) : Prog (Site N H) Fault ℕ := do
  let created ← look (·.session.run.isSome)
  if created then do
    ((amendCost p inputs).zoom sessionLens).mapError amendFault
    look fun w => (w.session.run.map (·.amendments.length)).getD 0
  else throw (.refused "--upgrade-cost needs a compiled session" EXIT_PRECONDITION)

/-- What differs between the harness a stage is pinned to and the running one. -/
def pinnedElsewhere (harness : Harness) (run : Run N) (s : Stage) : List String :=
  let pinned := effectiveFor run s
  (if pinned.coordinator = harness.coordinator then [] else ["coordinator"])
    ++ if pinned.implementation.all (· == harness.implementation) then [] else ["implementation"]

def refusePinned (session : String) (pending : List Stage) (s : Stage) (differ : List String) :
    Fault :=
  .refused (s.name ++ " is pinned to another harness (" ++ ", ".intercalate differ
    ++ " identity differs); resume with the harness wheel archived in " ++ session
    ++ "/harness-wheel"
    ++ if pending = [.cost] then
        "; or pass --upgrade-cost --reason TEXT to re-pin cost to this harness" else "")
    EXIT_PRECONDITION

/-- `_check_harness`: every unfinished stage must be pinned to this harness. -/
def checkHarness (launcher : Launcher) (session : String) (pending : List Stage) :
    Prog (Site N H) Fault Unit := do
  let found ← look (·.session.run)
  match found with
  | none => pure ()
  | some run =>
      match pending.find? fun s => pinnedElsewhere launcher.harness run s ≠ [] with
      | none => pure ()
      | some s => throw (refusePinned session pending s (pinnedElsewhere launcher.harness run s))

/-- `str.upper`, exact on every text whose result is the name of a level. -/
def upper (s : String) : String := s.map fun c => if c = 'ı' then 'I' else c.toUpper

def LEVELS : List String := ["DEBUG", "INFO", "WARNING", "ERROR", "CRITICAL"]

/-- `resolve_level`, when the option or the environment sets one. -/
def resolveLevel (launcher : Launcher) (args : ResumeArgs) (recorded : String) :
    Except Fault String :=
  let explicit := if args.log_level = "" then launcher.log_level else args.log_level
  if explicit = "" then .ok recorded
  else if LEVELS.contains (upper explicit) then .ok (upper explicit)
  else .error (.refused ("Unknown log level '" ++ upper explicit ++ "'; choose one of "
    ++ ", ".intercalate LEVELS) EXIT_USAGE)

/-! ## Submission -/

def SubmitOutcome.record (outcome : SubmitOutcome) (e : Entry) : Entry :=
  match outcome with
  | .accepted id => { e with status := .submitted, job_id := some id }
  | .rejected => { e with status := .rejected }
  | .ambiguous => { e with status := .ambiguous }

def jobName (run_id key : String) : String := "qtb-" ++ run_id ++ "-" ++ key

def managerEntry (run_id key : String) (reserved_at : ℕ) : Entry where
  key := key
  stage := .manager
  attempt := none
  name := jobName run_id key
  epoch := 0
  reserved_at := reserved_at

def submitManager (run_id key : String) : Prog (Site N H) Fault Unit := do
  let ledger ← look (·.ledger)
  let reserved_at : ℕ ← Prog.answer fun _ => True
  match ledger.reserve (managerEntry run_id key reserved_at) with
  | none => throw .other
  | some reserved => do
      put fun w => { w with ledger := reserved }
      let outcome ← bsub (jobName run_id key)
      put (·.updateJob key outcome.record)
      match outcome with
      | .accepted _ => pure ()
      | _ => throw (.refused ("LSF did not accept the manager (" ++ outcome.name ++ ")") EXIT_ERROR)

/-! ## Resume -/

def refuseCleanedSession (session : String) : Prog (Site N H) Fault Unit := do
  let status ← look (·.session.clean)
  if status.isSome then
    throw (.refused (session ++ " is cleaned (or cleaning); nothing can be measured again. "
      ++ "`qtb decide --results-root " ++ session ++ "` replays its verdict") EXIT_PRECONDITION)
  else pure ()

/-- The amendment of an upgrade, by its number. -/
def amendment (launcher : Launcher) (args : ResumeArgs) (p : ℕ) (launch : Launch) :
    Prog (Site N H) Fault (Option ℕ) :=
  if args.upgrade_cost then some <$> upgradeCost p (amendInputs launcher args launch)
  else pure none

/-- The launch record with what a resume takes from the running launcher. -/
def Launch.refresh (launch : Launch) (launcher : Launcher) (level : String) : Launch :=
  { launch with
    python := launcher.python
    project := launcher.project
    measurement_identity := launcher.measurement_identity
    log_level := level }

/-- The checks after the amendment. -/
def lateChecks (launcher : Launcher) (args : ResumeArgs) (launch : Launch) (pending : List Stage)
    (index : Option ℕ) : Prog (Site N H) Fault (List Stage × Option ℕ × String) := do
  checkHarness launcher launch.session pending
  let level ← Prog.ofExcept (resolveLevel launcher args launch.log_level)
  pure (pending, index, level)

/-- The checks of a resume, with the amendment among them: what a new manager would run,
the amendment's number and the log level. -/
def checkResume (launcher : Launcher) (args : ResumeArgs) (p : ℕ) (launch : Launch) :
    Prog (Site N H) Fault (List Stage × Option ℕ × String) := do
  refuseCleanedSession launch.session
  checkJobsEnded launch.session
  let pending ← unfinished launch
  let index ← amendment launcher args p launch
  lateChecks launcher args launch pending index

def resumeLocked (launcher : Launcher) (args : ResumeArgs) (p : ℕ) :
    Prog (Site N H) Fault Unit := do
  let launch ← look (·.launch)
  let (pending, index, level) ← checkResume launcher args p launch
  put fun w => { w with launch := launch.refresh launcher level }
  let ledger ← look (·.ledger)
  let key := "manager-r" ++ toString (ledger.epoch + 1)
  put fun w => { w with ledger := ledger.beginEpoch key (pending.map (·.name)) index }
  submitManager launch.run_id key

end TranspileBench.Lsf
