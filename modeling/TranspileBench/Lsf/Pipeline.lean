import TranspileBench.Lsf.Manager
import TranspileBench.Coordinator.Decide

/-!
The pipeline of a manager: which job it submits when, the verdict it takes and the cleanup
that follows, and an invocation from its lock to its exit status.
-/
namespace TranspileBench.Lsf
open Coordinator Evaluator

variable {N H Q : Type}

/-- What `launch.json` pins of the session. -/
structure Wanted where
  baseline : String
  evolved : String
  confirm : Bool
  store : String
  deriving DecidableEq

/-- The constants of a manager's invocation; `rounds` and `passes` bound its loops. -/
structure Watch where
  wanted : Wanted
  user : String
  rounds : ℕ
  passes : ℕ

/-- Where an attempt ran, as the scheduler or else its outcome says; an empty name is none. -/
def Entry.host (e : Entry) : Option String :=
  ((e.scheduler.bind (·.host)).filter (· ≠ "")).or ((e.outcome.bind (·.host)).filter (· ≠ ""))

/-- The hosts that were noisy before, counted from the first attempt on. -/
def noisyHosts (attempts : List Entry) : List (String × ℕ) × List String :=
  attempts.foldl (fun acc e =>
    match e.host with
    | none => acc
    | some host =>
        if e.outcome.map (·.kind) ≠ some .noisy then acc
        else
          let idle := (e.outcome.bind (·.phase)) == some "idle probe"
          let strikes := (acc.1.lookup host).getD 0 + if idle then HOST_NOISY_LIMIT else 1
          ((host, strikes) :: acc.1,
            if HOST_NOISY_LIMIT ≤ strikes then acc.2.filter (· != host) ++ [host] else acc.2))
    ([], [])

/-- `excluded_hosts`: the most recently noisy hosts, the last of them last. -/
def excludedHosts (l : Ledger) : List String :=
  let excluded := (noisyHosts l.costAttempts).2
  excluded.drop (excluded.length - MAX_EXCLUDED_HOSTS)

/-- `f"{n:02d}"`. -/
def twoDigits (n : ℕ) : String := if n < 10 then "0" ++ toString n else toString n

def jobKey (stage : Job) (attempt : Option ℕ) (nonce : String) : String :=
  match attempt with
  | some n => stage.name ++ "-a" ++ twoDigits n ++ "-" ++ nonce
  | none => stage.name ++ "-" ++ nonce

section Submit
variable (S : Scheduler Q)

/-- The submissions of a reserved job: each positive rejection is followed by another, up to
the limit. -/
def submitReserved (r : Request) : ℕ → Prog (Cluster N H Q) Halt (Except String String)
  | 0 => do
      save (·.update r.key fun e => { e with status := .rejected })
      pure (.error ("LSF rejected the " ++ r.stage.name ++ " job "
        ++ toString MAX_REJECTIONS ++ " times"))
  | left + 1 => do
      let outcome ← submitJob S r
      match outcome with
      | .accepted job_id => do
          save (·.update r.key fun e => { e with status := .submitted, job_id := some job_id })
          pure (.ok r.key)
      | .ambiguous => do
          save (·.update r.key fun e => { e with status := .ambiguous, name_lookups := 0 })
          pure (.ok r.key)
      | .rejected => do
          save id
          submitReserved r left

/-- `ledger.reserve`: record the intent to submit. -/
def reserve (r : Request) : Prog (Cluster N H Q) Halt Unit := do
  let reserved_at : ℕ ← Prog.answer fun _ => True
  let ledger ← consult id
  let entry : Entry := ⟨r.key, r.stage, r.attempt, r.name, ledger.epoch, reserved_at, .reserved,
    none, none, none, none, 0⟩
  match ledger.reserve entry with
  | none => throw (.failed ("Job " ++ r.key ++ " is already in the ledger"))
  | some reserved => save fun _ => reserved

/-- `submit`: reserve, then submit; the job's key, or why nothing was accepted. -/
def submit (stage : Job) (attempt : Option ℕ) :
    Prog (Cluster N H Q) Halt (Except String String) := do
  let nonce : String ← Prog.answer fun _ => True
  let exclude_hosts ← consult fun l => if stage = .cost then excludedHosts l else []
  let run_id ← Prog.read (·.site.launch.run_id)
  -- the resources the job asks for
  Prog.request broken fun _ : Unit => True
  let fits ← clock
  if fits then do
    let key := jobKey stage attempt nonce
    let request : Request := ⟨key, jobName run_id key, stage, attempt, exclude_hosts⟩
    reserve request
    submitReserved S request MAX_REJECTIONS
  else pure (.error (stage.name ++ " does not fit the time before the manager's deadline"))

end Submit

def finished (s : Stage) : Prog (Cluster N H Q) Halt Bool := do
  let (status, _) ← stageState s
  pure (status.any FINAL.contains)

section Pipeline
variable (S : Scheduler Q) (watch : Watch)

/-- The job to wait for, if there is one: adopted, or submitted when the stage never had one
in this epoch. -/
def stageJob (s : Stage) : Prog (Cluster N H Q) Halt (Option String) := do
  let latest ← consult (·.latest (Stage.toJob s))
  if latest.any fun e => ACTIVE.contains e.status then pure (latest.map (·.key))
  else do
    let final ← finished s
    if final ∨ latest.isSome then pure none
    else do
      let submitted ← submit S (Stage.toJob s) none
      pure submitted.toOption

def stageJobs (stages : List Stage) : Prog (Cluster N H Q) Halt Unit := do
  let keys ← Prog.fold (fun keys s => do
    let key ← stageJob S s
    pure (keys ++ key.toList)) [] stages
  wait S watch.user watch.rounds keys
  let lost ← consult fun l => (l.owned false).any (·.status == .unreconciled)
  if lost then throw (.failed "child termination is unconfirmed; run lsf.control reap")
  else pure ()

/-- One more cost job, unless the retry budget or the last outcome forbids it; whether one
was submitted. -/
def costJob : Prog (Cluster N H Q) Halt (Option String) := do
  let decision ← consult decision
  if decision.allowed then do
    let submitted ← submit S .cost (some decision.next_attempt)
    match submitted with
    | .ok key => pure (some key)
    | .error reason => do
        save (·.recordStop reason)
        pure none
  else if decision.exhausted then do
    save (·.recordExhaustion decision.reason)
    pure none
  else do
    save (·.recordStop decision.reason)
    pure none

/-- `cost_loop`, for at most so many rounds. -/
def costLoop : ℕ → Prog (Cluster N H Q) Halt Unit
  | 0 => Prog.never
  | rounds + 1 => do
      let latest ← consult (·.latest .cost)
      match latest.filter fun e => ACTIVE.contains e.status with
      | some e => do
          wait S watch.user watch.rounds [e.key]
          costLoop rounds
      | none => do
          let final ← finished .cost
          if final then pure ()
          else do
            let key ← costJob S
            match key with
            | none => pure ()
            | some key => do
                wait S watch.user watch.rounds [key]
                costLoop rounds

/-- Run what follows a stage when it is final. -/
def whenFinal (s : Stage) (next : Prog (Cluster N H Q) Halt Unit) :
    Prog (Cluster N H Q) Halt Unit := do
  let final ← finished s
  if final then next else pure ()

def sessionCreated : Prog (Cluster N H Q) Halt Bool := inspect (·.site.session.run.isSome)

/-- The stages of the pipeline; the exit status of a compile that created no session. -/
def runStages : Prog (Cluster N H Q) Halt (Option ℕ) := do
  stageJobs S watch [.compile]
  let created ← sessionCreated
  if created then do
    whenFinal .compile (stageJobs S watch [.quality])
    let unit_tests ← Prog.read (·.site.launch.unit_tests)
    whenFinal .quality
      (stageJobs S watch (if unit_tests then [.correctness, .unit_tests] else [.correctness]))
    whenFinal .correctness (costLoop S watch watch.rounds)
    pure none
  else pure (some EXIT_ERROR)

/-- At the deadline the manager cancels what it owns. -/
def atDeadline : Halt → Prog (Cluster N H Q) Halt (Option ℕ)
  | .deadline _ => do
      cancelOwned S watch.user watch.rounds false
      let created ← sessionCreated
      pure (if created then none else some EXIT_ERROR)
  | e => throw e

/-! ## The verdict and the cleanup -/

/-- `cleanup_blocker`: why the session must not be cleaned now. -/
def cleanupBlocker (w : World N H) (decision : Coordinator.Decision N H) : Option String :=
  if w.clean = some .complete then some "the session is already clean"
  else
    let unfinished := (STAGE_ORDER.filter fun s => (w.status s).any UNFINISHED.contains).map
      fun s => s.name ++ " (" ++ statusText (w.stages s).state ++ ")"
    let missing := (decision.required.filter fun s => (decision.states s).isNone).map
      fun s => s.name ++ " (" ++ statusText (decision.states s) ++ ")"
    if unfinished ++ missing = [] then none
    else some ("unfinished stages: " ++ ", ".intercalate (unfinished ++ missing))

/-- What the clean job came to. -/
def cleanupResult (key : String) : Prog (Cluster N H Q) Halt CleanupRecord := do
  let e ← entryOf key
  let clean ← inspect (·.site.session.clean)
  let kind := e.outcome.map (·.kind)
  let message := e.outcome.bind (·.message)
  pure (if kind = some .complete ∨ clean = some .complete then ⟨.complete, none, some key⟩
    else if kind = some .precondition then ⟨.skipped, message, some key⟩
    else ⟨.failed, some ("clean job ended " ++ (kind.map (·.name)).getD "None" ++ ": "
      ++ message.getD "None"), some key⟩)

/-- Wait for the clean job; why it was cancelled, if it was. -/
def waitClean (key : String) : Prog (Cluster N H Q) Halt (Option String) :=
  tryCatch (do
      wait S watch.user watch.rounds [key]
      pure none)
    fun e => match e with
      | .deadline reason => do
          cancelOwned S watch.user watch.rounds false
          pure (some reason)
      | e => throw e

def finishClean (key : String) : Prog (Cluster N H Q) Halt CleanupRecord := do
  let cut ← waitClean S watch key
  match cut with
  | some reason => pure ⟨.failed, some reason, some key⟩
  | none => cleanupResult key

/-- `cleanup_job`: `clean` as its own job, submitted once. -/
def cleanupJob : Prog (Cluster N H Q) Halt CleanupRecord := do
  let latest ← consult (·.latest .clean)
  match latest with
  | some e => if ACTIVE.contains e.status then finishClean S watch e.key else cleanupResult e.key
  | none => do
      Prog.modify fun w => { w with cleaned := w.cleaned ++ [w.ledger] }
      let submitted ← submit S .clean none
      match submitted with
      | .error reason => pure ⟨.skipped, some reason, none⟩
      | .ok key => finishClean S watch key

def Halt.text : Halt → String
  | .cancelled signum => toString signum
  | .deadline reason => reason
  | .failed text => text

/-- `after_decide`: a failure of the cleanup is only reported. -/
def afterDecide (decision : Coordinator.Decision N H) : Prog (Cluster N H Q) Halt CleanupRecord :=
  tryCatch (do
      let blocker ← inspect fun w => cleanupBlocker w.site.session decision
      match blocker with
      | some reason => pure ⟨.skipped, some reason, none⟩
      | none => cleanupJob S watch)
    fun e => match e with
      | .cancelled signum => throw (.cancelled signum)
      | e => pure ⟨.failed, some e.text, none⟩

/-- `EXIT_CODES`. -/
def exitCode : Status → ℕ
  | .PASS => 0
  | .NO_IMPROVEMENT => 10
  | .CONSTRAINT_VIOLATION => 20
  | .INCONCLUSIVE => 30
  | .ERROR => 40

def statusName : Status → String
  | .PASS => "PASS"
  | .NO_IMPROVEMENT => "NO_IMPROVEMENT"
  | .CONSTRAINT_VIOLATION => "CONSTRAINT_VIOLATION"
  | .INCONCLUSIVE => "INCONCLUSIVE"
  | .ERROR => "ERROR"

def Ledger.recordDecide (l : Ledger) (record : DecideRecord) : Ledger :=
  { l with current := { l.current with decide := some record } }

def Ledger.recordCleanup (l : Ledger) (record : CleanupRecord) : Ledger :=
  { l with current := { l.current with cleanup := some record } }

def Ledger.recordResult (l : Ledger) (code : ℕ) : Ledger :=
  { l with current := { l.current with result := some code } }

section Verdict
variable [Arith N] [DecidableEq N] [DecidableEq H] (platform : Platform N H) (p : ℕ)

/-- `decide` on the session; its exceptions are caught. -/
def sessionVerdict : Prog (Cluster N H Q) Halt (Except Exn (Coordinator.Decision N H)) :=
  ((runDecide platform p watch.passes).attempt.zoom (clusterLens.comp sessionLens)).mapError
    fun e => .failed (Exn.text e)

/-- `decide`, the ledger's record of it and the cleanup; the exit status. -/
def takeVerdict : Prog (Cluster N H Q) Halt ℕ := do
  Prog.modify fun w => { w with decided := w.decided ++ [w.ledger] }
  let verdict ← sessionVerdict watch platform p
  match verdict with
  | .error e => do
      save (·.recordDecide (.error (Exn.text e)))
      pure EXIT_ERROR
  | .ok decision => do
      save (·.recordDecide (.ok (statusName decision.status, exitCode decision.status)))
      let cleanup ← afterDecide S watch decision
      save (·.recordCleanup cleanup)
      pure (exitCode decision.status)

def pipeline : Prog (Cluster N H Q) Halt ℕ := do
  let early ← tryCatch (runStages S watch) (atDeadline S watch)
  match early with
  | some code => pure code
  | none => do
      let owned ← consult (·.owned false)
      if owned = [] then takeVerdict S watch platform p
      else pure EXIT_ERROR

/-! ## An invocation -/

def differing (wanted : Wanted) (run : Run N) : List String :=
  (if run.baseline_source = wanted.baseline ∧ run.evolved_source = wanted.evolved then []
    else ["sources"])
  ++ (if run.profile.manifest.confirm = wanted.confirm then [] else ["profile"])
  ++ if run.store = some wanted.store then [] else ["store"]

/-- `check_session`: the manager goes on only with the session of its launch. -/
def checkSession : Prog (Cluster N H Q) Halt Unit := do
  let found ← inspect (·.site.session.run)
  match found with
  | none => pure ()
  | some run =>
      if differing watch.wanted run = [] then pure ()
      else throw (.failed ("the session holds another comparison ("
        ++ ", ".intercalate (differing watch.wanted run) ++ " differ from launch.json); "
        ++ "the manager will not continue it"))

/-- The orchestration lock is free, or taking it is given up. -/
def takeLock : Prog (Cluster N H Q) Halt Unit :=
  Prog.fallible broken fun w _ w' => w.lock = none ∧ w' = { w with lock := some p }

/-- What the manager does until it ends or is signalled. -/
def work : Prog (Cluster N H Q) Halt ℕ := do
  reconcile S watch.user
  checkSession watch
  pipeline S watch platform p

/-- How a manager that was cut short ends: it cancels what it owns. -/
def cutShort : Except Halt ℕ → Prog (Cluster N H Q) Halt ℕ
  | .ok code => pure code
  | .error (.cancelled signum) => do
      cancelOwned S watch.user watch.rounds false
      pure (128 + signum)
  | .error _ => do
      cancelOwned S watch.user watch.rounds false
      pure EXIT_ERROR

/-- `_run`. -/
def runManager : Prog (Cluster N H Q) Halt Unit := do
  -- the manager's own record, with its logs and its deadline
  save id
  let ended ← ((work S watch platform p).interrupted fun e => ∃ signum,
      e = .cancelled signum).attempt
  let code ← (cutShort S watch ended).attempt
  save (·.recordResult (code.toOption.getD EXIT_ERROR))
  writeReport

/-- `run`, under the session's orchestration lock. -/
def manage : Prog (Cluster N H Q) Halt Unit := do
  takeLock p
  runManager S watch platform p

end Verdict

/-- `lsf.control reap`: cancel and settle what a dead manager left, its own job too. -/
def reap (p : ℕ) : Prog (Cluster N H Q) Halt Unit := do
  takeLock p
  reconcile S watch.user
  cancelOwned S watch.user watch.rounds true
  writeReport

/-- A launch submits the first manager, under the same lock. -/
def launch (p : ℕ) : Prog (Cluster N H Q) Halt Unit := do
  takeLock p
  let run_id ← Prog.read (·.site.launch.run_id)
  ((submitManager run_id "manager").zoom clusterLens).mapError fun _ => .failed "launch"

/-- `--resume`, under the same lock. -/
def resume (launcher : Launcher) (args : ResumeArgs) (p : ℕ) : Prog (Cluster N H Q) Halt Unit := do
  takeLock p
  ((resumeLocked launcher args p).zoom clusterLens).mapError fun _ => .failed "resume"

end Pipeline

/-! ## The orchestration of a session -/

/-- What a process of the orchestration may be started as. -/
inductive Command
  | launch
  | manage (watch : Watch)
  | reap (watch : Watch)
  | resume (launcher : Launcher) (args : ResumeArgs)

section System
variable [Arith N] [DecidableEq N] [DecidableEq H] (S : Scheduler Q) (platform : Platform N H)

def Command.program (p : ℕ) : Command → Prog (Cluster N H Q) Halt Unit
  | .launch => Lsf.launch p
  | .manage watch => Lsf.manage S watch platform p
  | .reap watch => Lsf.reap S watch p
  | .resume launcher args => Lsf.resume launcher args p

/-- What the jobs, the scheduler and everyone else may change: all but the orchestration
records. -/
def Cluster.Elsewhere (w w' : Cluster N H Q) : Prop :=
  ∃ session queue outcomes invoker, w' = { w with
    site := { w.site with session := session }
    queue := queue
    outcomes := outcomes
    invoker := invoker }

/-- The runs of the managers of one session and of the commands that control them, from an
empty ledger: each starts any number of times and is killed anywhere. -/
def orchestration : System (Cluster N H Q) Halt where
  init w := w.site.ledger = {} ∧ w.site.submitted = [] ∧ w.decided = [] ∧ w.cleaned = []
  entry p prog := ∃ command : Command, prog = command.program S platform p
  release p w := { w with
    lock := if w.lock = some p then none else w.lock
    site := { w.site with session := w.site.session.release platform p } }
  env := Cluster.Elsewhere

end System
end TranspileBench.Lsf
