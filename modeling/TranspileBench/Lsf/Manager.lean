import TranspileBench.Lsf.Resume

/-!
The manager job: it submits the stages of a session as jobs of a scheduler, keeps the ledger
of them, decides once nothing may still run, and lets a job of its own clean the session.
-/
namespace TranspileBench.Lsf
open Coordinator Evaluator

def MAX_REJECTIONS : ℕ := 3
def NAME_LOOKUPS : ℕ := 3
def HOST_NOISY_LIMIT : ℕ := 2
def MAX_EXCLUDED_HOSTS : ℕ := 8

/-- What cuts the manager's work short: a signal, its deadline, or an error. -/
inductive Halt
  | cancelled (signum : ℕ)
  | deadline (reason : String)
  | failed (text : String)
  deriving DecidableEq

/-- `outcome.json` of a job, with what the manager reads of it. -/
structure JobRecord where
  exit_code : ℕ
  message : Option String
  phase : Option String
  host : Option String
  deriving DecidableEq

/-- What `bsub` is given. -/
structure Request where
  key : String
  name : String
  stage : Job
  attempt : Option ℕ
  exclude_hosts : List String
  deriving DecidableEq

/-- A scheduler over its own states: what it may answer in each, and what submissions and
cancellations make of it. -/
structure Scheduler (Q : Type) where
  bsub : Q → Request → SubmitOutcome → Q → Prop
  bjobs : Q → String → Except String JobStatus → Prop
  named : Q → String → Except String (List JobStatus) → Prop
  bhist : Q → String → Option JobStatus → Prop
  bkill : Q → String → Q → Prop

/-- What the manager reads of an ended job: its outcome record, and the state of its stage
with the key of the job that wrote it. -/
inductive Sighting
  | record (key : String) (found : Option JobRecord)
  | state (stage : Stage) (status : Option StageStatus) (invoker : Option String)

/-- What the manager asked the scheduler about jobs, with the answer, and the jobs it had
killed. -/
inductive Exchange
  | queried (id : String) (answer : Except String JobStatus)
  | found (name : String) (answer : Except String (List JobStatus))
  | recalled (id : String) (answer : Option JobStatus)
  | killed (id : String)

/-- The site of a session with its scheduler and what the jobs write for the manager. The
last four fields are history: what the manager read of ended jobs, the ledger of every
moment at which it entered `decide` or submitted a clean job, and its exchanges with the
scheduler. -/
structure Cluster (N H Q : Type) where
  site : Site N H
  queue : Q
  outcomes : String → Option JobRecord
  /-- The job key of the invocation that a stage's state names. -/
  invoker : Stage → Option String
  /-- The holder of `orchestration.lock`. -/
  lock : Option ℕ
  seen : List Sighting
  decided : List Ledger
  cleaned : List Ledger
  exchanges : List Exchange

variable {N H Q β : Type}

namespace Cluster

def ledger (w : Cluster N H Q) : Ledger := w.site.ledger

def setLedger (w : Cluster N H Q) (l : Ledger) : Cluster N H Q :=
  { w with site := { w.site with ledger := l } }

def report (w : Cluster N H Q) (id : String) (status : Option JobStatus) : Cluster N H Q :=
  { w with site := w.site.report id status }

def sight (w : Cluster N H Q) (s : Sighting) : Cluster N H Q := { w with seen := w.seen ++ [s] }

def exchange (w : Cluster N H Q) (x : Exchange) : Cluster N H Q :=
  { w with exchanges := w.exchanges ++ [x] }

@[simp]
theorem setLedger_ledger (w : Cluster N H Q) (l : Ledger) : (w.setLedger l).ledger = l := rfl

@[simp]
theorem report_ledger (w : Cluster N H Q) (id : String) (status : Option JobStatus) :
    (w.report id status).ledger = w.ledger := rfl

@[simp]
theorem sight_ledger (w : Cluster N H Q) (s : Sighting) : (w.sight s).ledger = w.ledger := rfl

@[simp]
theorem exchange_ledger (w : Cluster N H Q) (x : Exchange) : (w.exchange x).ledger = w.ledger := rfl

end Cluster

def clusterLens : Lens (Cluster N H Q) (Site N H) where
  get w := w.site
  set w s := { w with site := s }
  get_set _ _ := rfl
  set_get _ := rfl
  set_set _ _ _ := rfl

/-- An operation on a file failed. -/
def broken (e : Halt) : Prop := ∃ text, e = .failed text

/-- Read a file; reading may fail. -/
def inspect (f : Cluster N H Q → β) : Prog (Cluster N H Q) Halt β :=
  Prog.fallible broken fun w b w' => b = f w ∧ w' = w

/-- The ledger is in memory. -/
def consult (f : Ledger → β) : Prog (Cluster N H Q) Halt β := Prog.read fun w => f w.ledger

/-- Change the ledger and save it; a save that fails may have changed it all the same. -/
def save (f : Ledger → Ledger) : Prog (Cluster N H Q) Halt Unit :=
  Prog.act (fun w (r : Except Halt Unit) w' =>
      (w' = w.setLedger (f w.ledger) ∨ r ≠ .ok () ∧ w' = w) ∧ ∀ e, r = .error e → broken e)
    fun r => match r with
      | .ok () => .ret ()
      | .error e => .raise e

/-- A question about the clock, whatever it shows. -/
def clock : Prog (Cluster N H Q) Halt Bool := Prog.answer fun _ => True

/-- The current entry of a job. -/
def entryOf (key : String) : Prog (Cluster N H Q) Halt Entry := do
  let found ← consult (·.job key)
  match found with
  | some e => pure e
  | none => throw (.failed key)

/-- `report.write`. -/
def writeReport : Prog (Cluster N H Q) Halt Unit := Prog.request broken fun _ => True

/-! ## The scheduler's commands -/

section Commands
variable (S : Scheduler Q)

def submitJob (r : Request) : Prog (Cluster N H Q) Halt SubmitOutcome :=
  Prog.perform fun w answer w' => ∃ q, S.bsub w.queue r answer q ∧
    w' = { w with
      queue := q
      site := { w.site with submitted := w.site.submitted ++ [(r.name, answer)] } }

/-- `bjobs` of a job id. -/
def queryJob (id : String) : Prog (Cluster N H Q) Halt (Except String JobStatus) :=
  Prog.perform fun w answer w' => S.bjobs w.queue id answer ∧
    w' = (w.report id answer.toOption).exchange (.queried id answer)

/-- `bjobs` of a job name, without the jobs it no longer knows. -/
def findJobs (name : String) : Prog (Cluster N H Q) Halt (Except String (List JobStatus)) :=
  Prog.perform fun w answer w' => w' = w.exchange (.found name answer) ∧
    ∃ listed, S.named w.queue name listed ∧
      answer = listed.map fun found => found.filter (·.state != .NOTFOUND)

/-- `bhist` of a job id: a terminal status, or nothing. -/
def jobHistory (id : String) : Prog (Cluster N H Q) Halt (Option JobStatus) :=
  Prog.perform fun w answer w' => S.bhist w.queue id answer ∧
    (∀ s ∈ answer, s.terminal = true) ∧
    w' = (w.report id answer).exchange (.recalled id answer)

def cancelJob (id : String) : Prog (Cluster N H Q) Halt Unit :=
  Prog.perform fun w _ w' => ∃ q, S.bkill w.queue id q ∧
    w' = { w.exchange (.killed id) with queue := q }

/-- The status of a job, from its history when `bjobs` no longer knows it. -/
def currentStatus (id : String) : Prog (Cluster N H Q) Halt (Except String JobStatus) := do
  let answer ← queryJob S id
  match answer with
  | .error text => pure (.error text)
  | .ok status =>
      if status.state = .NOTFOUND then do
        let ended ← jobHistory S id
        pure (.ok (ended.getD status))
      else pure (.ok status)

end Commands

/-! ## Outcomes -/

/-- The stage a job runs; the manager and `clean` run none. -/
def Job.toStage : Job → Option Stage
  | .manager | .clean => none
  | .compile => some .compile
  | .quality => some .quality
  | .correctness => some .correctness
  | .unit_tests => some .unit_tests
  | .cost => some .cost

def Stage.toJob : Stage → Job
  | .compile => .compile
  | .quality => .quality
  | .correctness => .correctness
  | .unit_tests => .unit_tests
  | .cost => .cost

/-- What the exit code of a stage job comes to, over the state it left. -/
def stageOutcome (code : ℕ) (status : Option StageStatus) (mine : Bool) : OutcomeKind :=
  if code = 0 then
    if status = some .complete then if mine then .complete else .already_final
    else if status = some .skipped then if mine then .skipped else .already_final
    else .inconsistent
  else if code = 42 then if status = some .noisy ∧ mine then .noisy else .inconsistent
  else if 128 ≤ code then .terminated
  else if code = 41 then .precondition
  else if code = 64 then .usage
  else .failed

/-- What the exit code of a job that runs no stage comes to. -/
def plainOutcome (stage : Job) (code : ℕ) : OutcomeKind :=
  if code = 0 then .complete
  else if stage = .clean ∧ code = 41 then .precondition
  else .failed

/-- The state of a stage, of a session that exists. -/
def stageState (s : Stage) : Prog (Cluster N H Q) Halt (Option StageStatus × Option String) :=
  Prog.fallible broken fun w b w' =>
    b = (if w.site.session.run.isSome then (w.site.session.status s,
      w.invoker s) else (none, none)) ∧
      w' = w.sight (.state s b.1 b.2)

def outcomeRecord (key : String) : Prog (Cluster N H Q) Halt (Option JobRecord) :=
  Prog.fallible broken fun w b w' => b = w.outcomes key ∧ w' = w.sight (.record key b)

/-- `classify`: only a verified contamination is `noisy`. -/
def classify (e : Entry) (status : Option JobStatus) (record : Option JobRecord) (lost : Bool) :
    Prog (Cluster N H Q) Halt OutcomeKind :=
  if lost ∨ e.status = .unreconciled then pure .lost
  else
    match record with
    | none => pure (if status.any (·.state == .EXIT) then .killed else .unknown)
    | some r =>
        match e.stage.toStage with
        | none => pure (plainOutcome e.stage r.exit_code)
        | some s => do
            let (state, invoker) ← stageState s
            pure (stageOutcome r.exit_code state (invoker == some e.key))

/-- A job that was cancelled and left no account of itself. -/
def cancelledKind (cancelled : Bool) (kind : OutcomeKind) : OutcomeKind :=
  if cancelled ∧ kind ∈ [.killed, .terminated, .lost, .unknown] then .cancelled else kind

/-- The entry of a settled job; one that is unreconciled stays so. -/
def Entry.settled (status : Option JobStatus) (record : Option JobRecord) (kind : OutcomeKind)
    (e : Entry) : Entry :=
  { e with
    status := if e.status = .unreconciled then .unreconciled else .terminal
    scheduler := some ⟨status.map (·.state), status.bind (·.exit_code), status.bind (·.host)⟩
    outcome := some ⟨kind, record.bind (·.message), record.bind (·.phase),
      (record.bind (·.host)).orElse fun _ => status.bind (·.host)⟩
    consumes_budget := some (kind ≠ .skipped ∧ kind ≠ .already_final) }

def settle (key : String) (status : Option JobStatus) (lost cancelled : Bool) :
    Prog (Cluster N H Q) Halt Unit := do
  let e ← entryOf key
  let record ← outcomeRecord key
  let kind ← classify e status record lost
  save (·.update key (Entry.settled status record (cancelledKind cancelled kind)))
  writeReport

section Manager
variable (S : Scheduler Q) (user : String)

/-- `reconcile_by_name`: a submission without an answer is looked up by its unique name. -/
def reconcileByName (e : Entry) : Prog (Cluster N H Q) Halt Unit := do
  let answer ← findJobs S e.name
  match answer with
  | .error _ => pure ()
  | .ok found =>
      match found.filter fun s => s.user == some user && s.name == some e.name with
      | first :: extra => do
          save (·.update e.key fun e =>
            { e with status := .submitted, job_id := some first.job_id })
          Prog.each (fun s => cancelJob S s.job_id) extra
      | [] => do
          let silent ← clock
          -- given up only after a long silence; it still counts and is still looked up
          let lookups := e.name_lookups + 1
          let given_up := (NAME_LOOKUPS ≤ lookups ∧ silent) ∨ e.status = .unreconciled
          save (·.update e.key fun e =>
            { e with
              name_lookups := lookups
              status := if given_up then .unreconciled else e.status })

/-- Poll a submitted job; whether it is settled. -/
def poll (e : Entry) : Prog (Cluster N H Q) Halt Bool := do
  let job_id := e.job_id.getD ""
  let answer ← queryJob S job_id
  match answer with
  | .error _ => do
      -- the failures are counted, and the job is not assumed gone
      save id
      pure false
  | .ok status =>
      if status.state = .NOTFOUND then do
        let ended ← jobHistory S job_id
        match ended with
        | some status => do
            settle e.key (some status) false false
            pure true
        | none => do
            let lost ← clock
            if lost then do
              save (·.update e.key fun e => { e with status := .unreconciled })
              settle e.key none true false
              pure true
            else pure false
      else if status.terminal then do
        settle e.key (some status) false false
        pure true
      else pure false

/-- `observe`: poll one job, which may first have to be found; whether it is settled. -/
def observe (key : String) : Prog (Cluster N H Q) Halt Bool := do
  let e ← entryOf key
  if e.status = .reserved ∨ e.status = .ambiguous then do
    reconcileByName S user e
    let e ← entryOf key
    if e.status = .unreconciled then do
      settle key none false false
      pure true
    else if e.status ≠ .submitted then pure false
    else poll S e
  else if !ACTIVE.contains e.status then pure true
  else poll S e

def observeAll (keys : List String) : Prog (Cluster N H Q) Halt (List String) :=
  Prog.fold (fun pending key => do
    let done ← observe S user key
    pure (if done then pending else pending ++ [key])) [] keys

/-- `wait`, for at most so many rounds: until the jobs are settled or the deadline passes. -/
def wait : ℕ → List String → Prog (Cluster N H Q) Halt Unit
  | _, [] => pure ()
  | 0, _ => Prog.never
  | rounds + 1, keys => do
      let pending ← observeAll S user keys
      if pending = [] then pure ()
      else do
        let late ← clock
        if late then throw (.deadline ("the manager's deadline passed while waiting for "
          ++ ", ".intercalate pending))
        else wait rounds pending

end Manager

/-- `owned`: the jobs this session may still have in the scheduler. -/
def Ledger.owned (l : Ledger) (manager : Bool) : List Entry :=
  l.jobs.filter fun e => e.unsettled && (manager || e.stage != .manager)

section Reconcile
variable (S : Scheduler Q) (user : String)

/-- Settle or adopt one job that an earlier manager left. -/
def reconcileJob (key : String) : Prog (Cluster N H Q) Halt Unit := do
  let e ← entryOf key
  if e.status ≠ .submitted then reconcileByName S user e
  else do
    let answer ← currentStatus S (e.job_id.getD "")
    match answer with
    | .error _ => pure ()
    | .ok status => if status.terminal then settle key (some status) false false else pure ()

def reconcile : Prog (Cluster N H Q) Halt Unit := do
  let owned ← consult fun l => (l.owned false).map (·.key)
  Prog.each (reconcileJob S user) owned

/-- Cancel one job after its identity is checked; whether its end is to be confirmed. -/
def cancelChecked (key : String) (e : Entry) : Prog (Cluster N H Q) Halt Bool := do
  let job_id := e.job_id.getD ""
  let answer ← currentStatus S job_id
  match answer with
  | .error _ => pure false
  | .ok status =>
      if status.terminal then do
        settle key (some status) false true
        pure false
      else if status.name ≠ some e.name ∨ status.user ≠ some user then pure false
      else do
        cancelJob S job_id
        -- the request is noted
        save id
        pure true

def cancelOne (key : String) : Prog (Cluster N H Q) Halt Bool := do
  let e ← entryOf key
  if e.status ≠ .submitted then do
    reconcileByName S user e
    let e ← entryOf key
    if e.status ≠ .submitted then pure false else cancelChecked S user key e
  else cancelChecked S user key e

/-- Whether a cancelled job has ended. -/
def confirmEnd (key : String) : Prog (Cluster N H Q) Halt Bool := do
  let e ← entryOf key
  let answer ← currentStatus S (e.job_id.getD "")
  match answer with
  | .error _ => pure false
  | .ok status =>
      if status.terminal then do
        settle key (some status) false true
        pure true
      else pure false

/-- The wait of `cancel_owned`, for at most so many rounds. -/
def confirmAll : ℕ → List String → Prog (Cluster N H Q) Halt Unit
  | _, [] => pure ()
  | 0, _ => Prog.never
  | rounds + 1, keys => do
      let late ← clock
      if late then pure ()
      else do
        let pending ← Prog.fold (fun pending key => do
          let done ← confirmEnd S key
          pure (if done then pending else pending ++ [key])) [] keys
        confirmAll rounds pending

def cancelOwned (rounds : ℕ) (manager : Bool) : Prog (Cluster N H Q) Halt Unit := do
  let owned ← consult fun l => (l.owned manager).map (·.key)
  let targets ← Prog.fold (fun targets key => do
    let asked ← cancelOne S user key
    pure (if asked then targets ++ [key] else targets)) [] owned
  confirmAll S rounds targets

end Reconcile
end TranspileBench.Lsf
