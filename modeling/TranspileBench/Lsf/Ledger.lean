import Mathlib.Data.List.Sort
import Mathlib.Data.List.Nodup
import Mathlib.Data.Nat.Notation

/-!
The orchestration ledger: one entry for every job the manager intends to submit, the
epochs that a resume starts, and the noise-retry budget of the cost jobs.
-/
namespace TranspileBench.Lsf

/-- What a job runs: the manager itself, a stage, or `clean`. -/
inductive Job
  | manager | compile | quality | correctness | unit_tests | cost | clean
  deriving DecidableEq

def Job.name : Job → String
  | .manager => "manager"
  | .compile => "compile"
  | .quality => "quality"
  | .correctness => "correctness"
  | .unit_tests => "unit-tests"
  | .cost => "cost"
  | .clean => "clean"

inductive EntryStatus
  | reserved | submitted | ambiguous | rejected | terminal | unreconciled
  deriving DecidableEq

def EntryStatus.name : EntryStatus → String
  | .reserved => "reserved"
  | .submitted => "submitted"
  | .ambiguous => "ambiguous"
  | .rejected => "rejected"
  | .terminal => "terminal"
  | .unreconciled => "unreconciled"

/-- Statuses of a job that may still run. -/
def ACTIVE : List EntryStatus := [.reserved, .submitted, .ambiguous]

def CONSUMING : List EntryStatus := [.reserved, .submitted, .ambiguous, .unreconciled, .terminal]

/-- What a settled job came to. -/
inductive OutcomeKind
  | complete | skipped | already_final | noisy | inconsistent | terminated | killed | unknown
  | lost | cancelled | failed | precondition | usage
  deriving DecidableEq

def OutcomeKind.name : OutcomeKind → String
  | .complete => "complete"
  | .skipped => "skipped"
  | .already_final => "already-final"
  | .noisy => "noisy"
  | .inconsistent => "inconsistent"
  | .terminated => "terminated"
  | .killed => "killed"
  | .unknown => "unknown"
  | .lost => "lost"
  | .cancelled => "cancelled"
  | .failed => "failed"
  | .precondition => "precondition"
  | .usage => "usage"

structure Outcome where
  kind : OutcomeKind
  message : Option String := none
  /-- The phase of the monitor that saw foreign activity. -/
  phase : Option String := none
  host : Option String := none
  deriving DecidableEq

/-- The scheduler's view of a job; a listed job is in none of the other states. -/
inductive JobState
  | DONE | EXIT | NOTFOUND
  | listed (state : String)
  deriving DecidableEq

def JobState.name : JobState → String
  | .DONE => "DONE"
  | .EXIT => "EXIT"
  | .NOTFOUND => "NOTFOUND"
  | .listed state => state

/-- One answer of the scheduler about one job. -/
structure JobStatus where
  job_id : String
  state : JobState
  exit_code : Option Int := none
  host : Option String := none
  name : Option String := none
  user : Option String := none
  deriving DecidableEq

def JobStatus.terminal (s : JobStatus) : Bool := s.state == .DONE || s.state == .EXIT

/-- The scheduler's last word on a settled job. -/
structure SchedulerRecord where
  state : Option JobState
  exit_code : Option Int
  host : Option String
  deriving DecidableEq

/-- One job of the ledger, reserved before it is submitted. -/
structure Entry where
  key : String
  stage : Job
  attempt : Option ℕ
  name : String
  epoch : ℕ
  reserved_at : ℕ
  status : EntryStatus := .reserved
  job_id : Option String := none
  outcome : Option Outcome := none
  scheduler : Option SchedulerRecord := none
  consumes_budget : Option Bool := none
  name_lookups : ℕ := 0
  deriving DecidableEq

/-- The noise-retry accounting of one epoch. -/
structure CostAccount where
  exhausted : Option String := none
  stopped : Option String := none
  deriving DecidableEq

/-- What the ledger keeps of a verdict: its exit code, or why there is none. -/
abbrev DecideRecord := Except String (String × ℕ)

inductive CleanupStatus
  | complete | skipped | failed
  deriving DecidableEq

structure CleanupRecord where
  status : CleanupStatus
  reason : Option String := none
  job_key : Option String := none
  deriving DecidableEq

/-- What one epoch owns; a resume archives it and starts over. -/
structure EpochRecord where
  cost : CostAccount := {}
  decide : Option DecideRecord := none
  cleanup : Option CleanupRecord := none
  result : Option ℕ := none

structure Resume where
  manager : String
  pending : List String
  amendment : Option ℕ
  previous : EpochRecord

structure Ledger where
  jobs : List Entry := []
  resumes : List Resume := []
  current : EpochRecord := {}

/-- The order of `latest`: by attempt, then by the time of the reservation. -/
def Entry.before (a b : Entry) : Bool :=
  a.attempt.getD 0 < b.attempt.getD 0 ||
    (a.attempt.getD 0 == b.attempt.getD 0 && a.reserved_at < b.reserved_at)

namespace Ledger

/-- The current epoch: 0 until the first resume. -/
def epoch (l : Ledger) : ℕ := l.resumes.length

def job (l : Ledger) (key : String) : Option Entry := l.jobs.find? (·.key == key)

/-- `ledger.update`: change the entry with this key. -/
def update (l : Ledger) (key : String) (f : Entry → Entry) : Ledger :=
  { l with jobs := l.jobs.map fun e => if e.key = key then f e else e }

/-- `ledger.reserve`: `none` when the key is already taken. -/
def reserve (l : Ledger) (entry : Entry) : Option Ledger :=
  if (l.job entry.key).isSome then none
  else some { l with jobs := l.jobs ++ [{ entry with epoch := l.epoch }] }

/-- The stage's entries of the current epoch. -/
def ofStage (l : Ledger) (stage : Job) : List Entry :=
  l.jobs.filter fun e => e.stage == stage && e.epoch == l.epoch

/-- `max(.., key=..)`: the first of the greatest. -/
def latestOf : List Entry → Option Entry
  | [] => none
  | e :: rest =>
      match latestOf rest with
      | none => some e
      | some best => if e.before best then some best else some e

/-- The stage's most recent entry of this epoch that was not positively rejected. -/
def latest (l : Ledger) (stage : Job) : Option Entry :=
  latestOf ((l.ofStage stage).filter (·.status != .rejected))

/-- `begin_epoch`: archive the current epoch's accounting and start the next. -/
def beginEpoch (l : Ledger) (manager : String) (pending : List String) (amendment : Option ℕ) :
    Ledger :=
  { l with resumes := l.resumes ++ [⟨manager, pending, amendment, l.current⟩], current := {} }

end Ledger

/-! ## Cost attempts -/

def MAX_COST_RETRIES : ℕ := 20
def MAX_COST_ATTEMPTS : ℕ := MAX_COST_RETRIES + 1

namespace Ledger

/-- This epoch's cost attempts, in the order of their numbers. -/
def costAttempts (l : Ledger) : List Entry :=
  ((l.ofStage .cost).filter (·.status != .rejected)).insertionSort
    fun a b => a.attempt.getD 0 ≤ b.attempt.getD 0

/-- Attempt numbers keep counting across epochs. -/
def nextAttempt (l : Ledger) : ℕ :=
  ((l.jobs.filter (·.stage == .cost)).map (·.attempt.getD 0)).foldl max 0 + 1

def budgetUsed (l : Ledger) : ℕ :=
  l.costAttempts.countP fun e => CONSUMING.contains e.status && e.consumes_budget != some false

end Ledger

/-- Whether another cost job may be submitted, and why. -/
structure Decision where
  used : ℕ
  remaining : ℕ
  limit : ℕ
  next_attempt : ℕ
  exhausted : Bool
  allowed : Bool
  reason : String

/-- The text of an attempt's number. -/
def attemptText (e : Entry) : String := "attempt " ++ toString (e.attempt.getD 0)

/-- `decision`: only a job that ended noisy lets another follow, within the budget. -/
def decision (l : Ledger) : Decision :=
  let used := l.budgetUsed
  let refused := fun (exhausted : Bool) (reason : String) =>
    (⟨used, MAX_COST_ATTEMPTS - used, MAX_COST_ATTEMPTS, l.nextAttempt, exhausted, false,
      reason⟩ : Decision)
  let allowed := fun (reason : String) =>
    if MAX_COST_ATTEMPTS ≤ used then
      refused true ("the retry budget is exhausted (" ++ toString used ++ " of "
        ++ toString MAX_COST_ATTEMPTS ++ " cost jobs)")
    else
      ⟨used, MAX_COST_ATTEMPTS - used, MAX_COST_ATTEMPTS, l.nextAttempt, false, true, reason⟩
  match l.costAttempts.getLast? with
  | none => allowed "initial cost job"
  | some last =>
      if ACTIVE.contains last.status then refused false (attemptText last ++ " is unsettled")
      else
        let ended := (last.outcome.map (·.kind.name)).getD last.status.name
        if last.outcome.map (·.kind) = some .noisy then allowed (attemptText last ++ " was noisy")
        else refused false (attemptText last ++ " ended " ++ ended
          ++ "; only positive contamination evidence allows a noise retry")

/-- `record_exhaustion`: the first reason stays. -/
def Ledger.recordExhaustion (l : Ledger) (reason : String) : Ledger :=
  if l.current.cost.exhausted.isSome then l
  else { l with current := { l.current with
    cost := { l.current.cost with exhausted := some reason } } }

def Ledger.recordStop (l : Ledger) (reason : String) : Ledger :=
  { l with current := { l.current with cost := { l.current.cost with stopped := some reason } } }

end TranspileBench.Lsf
