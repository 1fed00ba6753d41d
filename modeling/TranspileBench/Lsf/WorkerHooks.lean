import Mathlib.Data.List.Sort
import TranspileBench.Lsf.CostEvidence

/-!
The monitor while a cost bundle is measured: what it accepts before measuring, the hooks
that watch one worker process, and the evidence a finished bundle carries. What a probe
reads of the host and of the processes is an input.
-/
namespace TranspileBench.Lsf
open Evaluator (Estimator MEASURED_ARMS)

/-- How the monitor stops a measurement. -/
inductive Stop
  | precondition (problems : List String)
  | failure (message : String)
  | contaminated (reasons : List String)
  | other
  deriving DecidableEq

/-- The allocation this process runs in. -/
structure Context where
  scheduler : Option String
  /-- `socket.gethostname()`, which is also the host a bundle's machine names. -/
  host : String
  hosts : List String
  slots : Option ℕ
  resource_request : Option String
  exclusive_cores_requested : Bool
  single_host_requested : Bool
  selectors : Tier
  bind_cpus : Option (List ℕ)
  affinity_file_cpus : Option (List ℕ)

structure CostMonitor where
  context : Context
  tier : Tier
  /-- The job key of this attempt. -/
  attempt : String
  thresholds : Thresholds
  identity : String

/-- A thread and the CPUs it may run on. -/
structure Thread where
  who : String
  tid : ℕ
  mask : List ℕ

/-- What the probe reads of the host before measuring. -/
structure HostProbe where
  unavailable : Option String
  /-- The CPUs this process may run on, in order. -/
  affinity : List ℕ
  online : List ℕ
  siblings : ℕ → Option (List ℕ)
  /-- The coordinator's threads after they were pinned. -/
  coordinator : List Thread
  idle_seconds : ℚ
  idle_busy : ℚ

/-- `host.split(".")[0]`. -/
def shortName (host : String) : String := String.ofList (host.toList.takeWhile (· ≠ '.'))

/-- `allocation_problems(…, exclusive_cores=True)`. -/
def allocationProblems (c : Context) (slots : ℕ) (tier : Tier) : List String :=
  if c.scheduler ≠ some "lsf" then ["not running inside an LSF job (LSB_JOBID is not set)"]
  else
    flag (c.slots ≠ some slots)
        ("LSF granted " ++ shownNat c.slots ++ " slots, the job needs " ++ toString slots)
      ++ (match c.hosts with
        | [host] =>
          flag (shortName host ≠ shortName c.host)
            ("this process runs on " ++ c.host ++ ", not on " ++ host)
        | hosts => ["the allocation spans " ++ toString hosts.length ++ " hosts ("
            ++ shownList ((hosts.map fun h => quoted (some h)).mergeSort) ++ "), not one"])
      ++ (if (c.resource_request.getD "").isEmpty then
          ["the job's resource request is unavailable, so exclusivity is unproven"]
        else
          flag (!c.exclusive_cores_requested) ("the job did not request exclusive cores "
              ++ "(affinity[core(1,exclusive=(core,alljobs))])")
            ++ flag (!c.single_host_requested) "the job did not request span[hosts=1]")
      ++ flag (tier.model.isSome && decide (c.selectors.model ≠ tier.model))
        ("the request does not select the approved hardware tier model==" ++ tier.model.getD ""
          ++ " (it selects " ++ c.selectors.model.getD "None" ++ ")")
      ++ flag (tier.ncpus.isSome && decide (c.selectors.ncpus ≠ tier.ncpus))
        ("the request does not select the approved hardware tier ncpus==" ++ shownNat tier.ncpus
          ++ " (it selects " ++ shownNat c.selectors.ncpus ++ ")")

/-- `requirement_problems`: why this monitor cannot produce the required evidence. -/
def requirementProblems (required : EvidenceRequirement) (m : CostMonitor) : List String :=
  let differs := fun (name have_ want : String) =>
    name ++ " differs (" ++ have_ ++ ", the session requires " ++ want ++ ")"
  flag (required.contract ≠ CONTRACT)
      (differs "contract" (quoted (some CONTRACT)) (quoted (some required.contract)))
    ++ flag (required.identity ≠ m.identity)
      (differs "identity" (quoted (some m.identity)) (quoted (some required.identity)))
    ++ flag (required.thresholds ≠ m.thresholds)
      (differs "thresholds" (shownThresholds (some m.thresholds))
        (shownThresholds (some required.thresholds)))
    ++ flag (required.tier ≠ m.tier)
      (differs "tier" (shownTier (some m.tier)) (shownTier (some required.tier)))

def refuse {A : Type} (problem : String) : Except Stop A := .error (.precondition [problem])

/-- Refuses a host that has problems. -/
def refuseFor (problems : List String) : Except Stop Unit :=
  if problems = [] then .ok () else .error (.precondition problems)

theorem refuseFor_eq_ok {problems : List String} {u : Unit} :
    refuseFor problems = .ok u ↔ problems = [] := by
  unfold refuseFor
  split <;> simp [*]

/-- The SMT siblings of a CPU, which it must be one of. -/
def coreOf (p : HostProbe) (cpu : ℕ) : Except Stop (List ℕ) :=
  match p.siblings cpu with
  | some core =>
    if cpu ∈ core then .ok core
    else refuse ("the topology of CPU " ++ toString cpu ++ " is unreadable")
  | none => refuse ("the topology of CPU " ++ toString cpu ++ " is unreadable")

def shownCpus (cpus : List ℕ) : String := shownList (cpus.map toString)

/-- Refuses a list of CPUs that LSF granted and that is not the mask. -/
def checkGranted (mask : List ℕ) (name : String) (granted : Option (List ℕ)) :
    Except Stop Unit :=
  let cpus := granted.getD []
  refuseFor (flag (cpus ≠ [] ∧ cpus.toFinset ≠ mask.toFinset)
    ("the CPU mask " ++ shownCpus mask ++ " differs from LSF's " ++ name ++ " "
      ++ shownCpus cpus))

/-- `_layout`: the physical cores of the mask, by their lowest CPU: the first for the
monitor, the second for the worker. -/
def layoutOf (c : Context) (p : HostProbe) : Except Stop Layout := do
  let mask := p.affinity
  refuseFor (flag (p.online ≠ [] ∧ p.online.toFinset ⊆ mask.toFinset)
    ("not bound: the CPU mask is every CPU of the host (" ++ toString mask.length ++ ")"))
  let cores := (← mask.mapM (coreOf p)).eraseDups
  let split := cores.filter fun core => !core.all mask.contains
  refuseFor (flag (split ≠ []) ("the CPU mask holds only part of the physical cores "
    ++ shownList (split.map shownCpus) ++ ": their SMT siblings are free for other jobs"))
  refuseFor (flag (cores.length ≠ COST_SLOTS)
    ("the CPU mask covers " ++ toString cores.length ++ " physical cores, not the "
      ++ toString COST_SLOTS ++ " exclusive cores of the allocation"))
  checkGranted mask "bind_cpus" c.bind_cpus
  checkGranted mask "affinity_file_cpus" c.affinity_file_cpus
  match cores.insertionSort fun a b => a.min?.getD 0 ≤ b.min?.getD 0 with
  | monitor :: worker :: _ => .ok ⟨some LAYOUT, mask, monitor, worker⟩
  | _ => .error .other

/-- `_machine`: the physical cores of the host, which the tier may fix. -/
def physicalCores (tier : Tier) (p : HostProbe) : Except Stop ℕ :=
  let cores := ((p.online.filterMap p.siblings).filter (· ≠ [])).dedup.length
  if tier.ncpus.isSome ∧ tier.ncpus ≠ some cores then
    refuse ("the host has " ++ toString cores ++ " physical cores; the approved hardware tier has "
      ++ shownNat tier.ncpus)
  else .ok cores

/-- `_verify`: the first thread that is not on the given CPUs. -/
def misplaced (threads : List Thread) (cpus : List ℕ) : Option String :=
  (threads.find? fun t => t.mask.toFinset ≠ cpus.toFinset).map fun t =>
    t.who ++ " thread " ++ toString t.tid ++ " runs on CPUs " ++ shownCpus t.mask ++ ", not "
      ++ shownCpus cpus

structure Preflight where
  physical_cores : ℕ
  layout : Layout
  idle_probe : IdleProbe
  deriving DecidableEq

/-- `_idle_probe`: the worker core must be idle while nothing timed runs. -/
def idleProbe (t : Thresholds) (p : HostProbe) : Except Stop IdleProbe :=
  if p.idle_seconds ≤ 0 ∨ p.idle_busy < 0 then
    .error (.failure "the idle probe read invalid counters")
  else
    let (ok, limit) := checkA p.idle_busy p.idle_seconds t
    if ok then .ok ⟨some p.idle_seconds, some p.idle_busy⟩
    else .error (.contaminated ["idle probe: foreign CPU " ++ fixed 3 p.idle_busy
      ++ " s on the worker core in " ++ fixed 2 p.idle_seconds ++ " s (limit " ++ fixed 3 limit
      ++ " s)"])

/-- `CostMonitor.prepare`, for a session that requires monitored evidence. -/
def prepare (m : CostMonitor) (required : EvidenceRequirement) (p : HostProbe) :
    Except Stop Preflight := do
  refuseFor (requirementProblems required m)
  refuseFor (allocationProblems m.context COST_SLOTS m.tier ++ p.unavailable.toList)
  let layout ← layoutOf m.context p
  let physical_cores ← physicalCores m.tier p
  refuseFor (misplaced p.coordinator layout.monitor).toList
  let idle_probe ← idleProbe m.thresholds p
  pure { physical_cores, layout, idle_probe }

/-! ## The hooks of one worker process -/

/-- The boundaries a worker writes around a measured entry. -/
inductive Boundary
  | B
  | E
  | other
  deriving DecidableEq

/-- What a hook reads: the monitor's clock, the threads of the worker with its descendants
and those of the coordinator, and the busy and CPU times, when they are readable. -/
structure Reading where
  time : ℚ
  worker : List Thread
  coordinator : List Thread
  counters : Option (ℚ × List (ℕ × ℚ))

/-- A sample of the worker core's busy time and of each process's CPU time. -/
structure Sample where
  time : ℚ
  busy : ℚ
  cpu : List (ℕ × ℚ)

structure Hooks where
  label : String
  pid : ℕ
  layout : Layout
  thresholds : Thresholds
  record : WorkerRecord
  window : Sample
  measuring : Option ℕ

def sampleOf (label : String) (r : Reading) : Except Stop Sample :=
  match r.counters with
  | some (busy, cpu) => .ok ⟨r.time, busy, cpu⟩
  | none => .error (.failure ("missing monitor sample for " ++ label))

def verify (threads : List Thread) (cpus : List ℕ) : Except Stop Unit :=
  match misplaced threads cpus with
  | some problem => .error (.failure problem)
  | none => .ok ()

/-- The threads of the worker and of the coordinator are on their cores. -/
def Hooks.placed (h : Hooks) (r : Reading) : Except Stop Unit := do
  verify r.worker h.layout.worker
  verify r.coordinator h.layout.monitor

/-- The CPU time the worker and its descendants used between two samples. A descendant that
disappeared was reaped into its parent's child time, which includes what earlier windows
counted for it. -/
def cpuUsed (pid : ℕ) (before after : List (ℕ × ℚ)) : ℚ :=
  (after.map fun (p, value) => value - (before.lookup p).getD 0).sum
    - ((before.filter fun (p, _) => (after.lookup p).isNone && p != pid).map (·.2)).sum

/-- `_close`: the deltas of the window that ends with a sample. -/
def Hooks.close (h : Hooks) (end_ : Sample) : Except Stop Counters :=
  let start := h.window
  let seconds := end_.time - start.time
  let busy := end_.busy - start.busy
  if seconds ≤ 0 then .error (.failure ("invalid monitor window for " ++ h.label))
  else if busy < 0 ∨ (end_.cpu.lookup h.pid).getD 0 < (start.cpu.lookup h.pid).getD 0 then
    .error (.failure ("a monitor counter went backwards for " ++ h.label))
  else
    let cpu := max (cpuUsed h.pid start.cpu end_.cpu) 0
    .ok {
      start := start.time
      stop := end_.time
      seconds := seconds
      busy_s := busy
      worker_cpu_s := cpu
      foreign_s := busy - cpu }

def Counters.window (c : Counters) (index : ℕ) (final : Bool) (measuring : Option ℕ) :
    Window where
  index := some index
  start := some c.start
  stop := some c.stop
  seconds := some c.seconds
  busy_s := some c.busy_s
  worker_cpu_s := some c.worker_cpu_s
  foreign_s := some c.foreign_s
  final := final
  measurement := measuring.map fun i => .number i

/-- The hooks after a window: it is recorded, and the next starts where it ended. -/
def Hooks.recorded (h : Hooks) (c : Counters) (end_ : Sample) (final : Bool) : Hooks :=
  { h with
    window := end_
    record := { h.record with
      windows := h.record.windows
        ++ [c.window h.record.windows.length final h.measuring] } }

/-- `_close` and `_judge`: a decisive window that fails check A ends the measurement. -/
def Hooks.judged (h : Hooks) (r : Reading) (final : Bool) : Except Stop Hooks := do
  let end_ ← sampleOf h.label r
  let c ← h.close end_
  let reasons := judge c.foreign_s c.seconds h.thresholds
  if reasons = [] ∨ h.measuring = none then .ok (h.recorded c end_ final)
  else .error (.contaminated reasons)

/-- `progress`: a window ends once it is long enough. -/
def Hooks.progress (h : Hooks) (r : Reading) : Except Stop Hooks :=
  if r.time - h.window.time < h.thresholds.window_s then .ok h
  else do
    h.placed r
    h.judged r false

def Hooks.begin (h : Hooks) (now : ℚ) : Hooks :=
  { h with
    measuring := some h.record.measurements.length
    record := { h.record with
      measurements := h.record.measurements ++ [⟨some now, none⟩] } }

def Hooks.finish (h : Hooks) (index : ℕ) (now : ℚ) : Hooks :=
  { h with
    measuring := none
    record := { h.record with
      measurements := h.record.measurements.modify index fun i => { i with stop := some now } } }

/-- The window up to a boundary ends there. -/
def Hooks.split (h : Hooks) (r : Reading) : Except Stop Hooks := do
  h.placed r
  let _ ← sampleOf h.label r
  if h.window.time < r.time then h.judged r false else .ok h

/-- `measurement`: windows are split at the boundaries of measured entries. -/
def Hooks.measurement (h : Hooks) (event : Boundary) (r : Reading) : Except Stop Hooks :=
  match event, h.measuring with
  | .B, none => do
    let h ← h.split r
    pure (h.begin r.time)
  | .E, some index => do
    let h ← h.split r
    pure (h.finish index r.time)
  | _, _ => .error (.failure ("invalid measurement boundary for " ++ h.label))

inductive Call
  | progress (r : Reading)
  | measurement (event : Boundary) (r : Reading)

def Call.time : Call → ℚ
  | .progress r => r.time
  | .measurement _ r => r.time

def Hooks.step (h : Hooks) : Call → Except Stop Hooks
  | .progress r => h.progress r
  | .measurement event r => h.measurement event r

/-- `launched`: a record starts with the process. -/
def launched (m : CostMonitor) (layout : Layout) (label : String) (process pid : ℕ)
    (r : Reading) : Except Stop Hooks := do
  verify r.worker layout.worker
  let window ← sampleOf label r
  pure {
    label := label
    pid := pid
    layout := layout
    thresholds := m.thresholds
    record := {
      job := some label
      process := some process
      launched := some r.time
      exited := none
      returncode := none
      aborted := false
      cpus := layout.worker
      windows := []
      measurements := [] }
    window := window
    measuring := none }

/-- `exited` and `reaped`: the final window is taken before the process is reaped. -/
def Hooks.ended (h : Hooks) (r : Reading) (returncode : ℤ) : Except Stop WorkerRecord := do
  let h ← h.judged r true
  pure { h.record with exited := some r.time, returncode := some returncode }

/-- The boundaries of a worker that measures its entries one after the other. -/
def workerEvents (entries : ℕ) : List Boundary := (List.replicate entries [.B, .E]).flatten

/-- One turn of the loop of `run_worker`: a progress call, and a boundary that arrived. -/
structure Poll where
  progress : Reading
  boundary : Option (Boundary × Reading)

def Poll.calls (p : Poll) : List Call :=
  .progress p.progress :: (p.boundary.map fun (event, r) => .measurement event r).toList

/-- One worker process that measured every entry of its job. -/
structure JobRun (entries : ℕ) where
  pid : ℕ
  launch : Reading
  polls : List Poll
  exit : Reading
  returncode : ℤ
  complete : polls.filterMap (fun p => p.boundary.map (·.1)) = workerEvents entries

def JobRun.calls {entries : ℕ} (run : JobRun entries) : List Call := run.polls.flatMap Poll.calls

/-- Every reading of the clock, in order. -/
def JobRun.times {entries : ℕ} (run : JobRun entries) : List ℚ :=
  run.launch.time :: run.calls.map Call.time ++ [run.exit.time]

/-- `run_worker` with the monitor's hooks, for a job that completes. -/
def runWorker (m : CostMonitor) (layout : Layout) (label : String) (process : ℕ) {entries : ℕ}
    (run : JobRun entries) : Except Stop WorkerRecord := do
  let h ← launched m layout label process run.pid run.launch
  let h ← run.calls.foldlM Hooks.step h
  h.ended run.exit run.returncode

/-! ## A bundle -/

/-- The order `rng.shuffle` puts the arms in. -/
abbrev Order := { arms : List String // arms.Perm MEASURED_ARMS }

/-- The jobs of one round with their arms: a batch for each arm, or for each case a job for
each arm. -/
def roundJobs (digest : String → String) (estimator : Estimator) (cases : List String)
    (round : ℕ) (orders : ℕ → Order) : List (String × String) :=
  if estimator = .timing then
    (orders 0).1.map fun arm => (toString round ++ "-batch-" ++ arm, arm)
  else
    cases.zipIdx.flatMap fun (case, i) =>
      (orders i).1.map fun arm =>
        (toString round ++ "-" ++ String.ofList ((digest case).toList.take 12) ++ "-" ++ arm, arm)

/-- The jobs of `_measure_rounds`. -/
def plannedJobs (digest : String → String) (estimator : Estimator) (cases : List String)
    (count : ℕ) (orders : ℕ → ℕ → Order) : List (String × String) :=
  (List.range count).flatMap fun round => roundJobs digest estimator cases round (orders round)

/-- A bundle while it is measured. -/
structure Measuring where
  worker_jobs : List WorkerJob
  workers : List WorkerRecord

/-- The directory of a job must be new. -/
def newDirectory (s : Measuring) (label : String) : Except Stop Unit :=
  if some label ∈ s.worker_jobs.map (·.job) then .error .other else .ok ()

/-- `collect`: one job in a directory of its own, after `processes` of earlier bundles. -/
def collect (m : CostMonitor) (layout : Layout) (processes : ℕ) {entries : ℕ}
    (runs : ℕ → JobRun entries) (s : Measuring)
      (job : String × String) : Except Stop Measuring := do
  newDirectory s job.1
  let number := s.workers.length
  let record ← runWorker m layout job.1 (processes + number + 1) (runs number)
  pure ⟨s.worker_jobs ++ [⟨some job.1, some job.2⟩], s.workers ++ [record]⟩

/-- `end_bundle`: the monitoring evidence. -/
def endBundle (m : CostMonitor) (pre : Preflight) (workers : List WorkerRecord) : Evidence where
  format := some EVIDENCE_FORMAT
  contract := some CONTRACT
  identity := some m.identity
  thresholds := some m.thresholds
  tier := some m.tier
  host := some m.context.host
  attempt := some m.attempt
  physical_cores := some pre.physical_cores
  allocation := {
    slots := m.context.slots
    hosts := m.context.hosts
    exclusive_cores_requested := m.context.exclusive_cores_requested
    single_host_requested := m.context.single_host_requested
    selectors := m.context.selectors }
  layout := pre.layout
  idle_probe := pre.idle_probe
  workers := workers

/-- The batch of a timing round takes its timeout from its slowest case. -/
def batchCase (estimator : Estimator) (cases : List String) : Except Stop Unit :=
  if estimator = .timing ∧ cases = [] then .error .other else .ok ()

/-- `collect_panel` with a monitor: every job of the plan in turn, then its evidence. -/
def collectPanel (m : CostMonitor) (pre : Preflight) (processes : ℕ) (digest : String → String)
    (estimator : Estimator) (cases : List String) (count : ℕ) (orders : ℕ → ℕ → Order)
    (runs : ℕ → JobRun (entriesPerJob estimator cases.length)) :
    Except Stop MonitoredBundle := do
  batchCase estimator cases
  let s ← (plannedJobs digest estimator cases count orders).foldlM
    (collect m pre.layout processes runs) ⟨[], []⟩
  pure {
    measurement_mode := some "cores"
    host := some m.context.host
    worker_jobs := s.worker_jobs
    monitor := some (endBundle m pre s.workers) }

end TranspileBench.Lsf
