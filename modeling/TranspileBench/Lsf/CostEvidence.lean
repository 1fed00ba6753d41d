import Mathlib.Algebra.GroupWithZero.Nat
import Mathlib.Data.Finset.Basic
import TranspileBench.Evaluator.Cost
import TranspileBench.Lib.Tiling
import TranspileBench.Lsf.CostMonitor

/-!
Admission of monitored cost evidence. `problems` lists why a bundle's evidence is
inadmissible; each of its parts is read here as the rule it decides, and together they
say what evidence without problems proves about the measurement.
-/
namespace TranspileBench.Lsf
open Evaluator (Estimator)

/-- Windows are contiguous up to this tolerance. -/
def TOLERANCE_S : ℚ := 1 / 1000000

/-- `run.json:cost_evidence`, what a session requires of every bundle. -/
structure EvidenceRequirement where
  contract : String
  identity : String
  thresholds : Thresholds
  layout : String
  slots : ℕ
  tier : Tier
  deriving DecidableEq

/-- `requirement(tier)`, for the `measurement_identity()` of the installed harness. -/
def requirement (identity : String) (tier : Tier) : EvidenceRequirement where
  contract := CONTRACT
  identity := identity
  thresholds := THRESHOLDS
  layout := LAYOUT
  slots := COST_SLOTS
  tier := tier

structure WorkerJob where
  job : Option String
  arm : Option String
  deriving DecidableEq

/-- The fields of a cost bundle that its admission reads. -/
structure MonitoredBundle where
  measurement_mode : Option String
  /-- `machine.host`. -/
  host : Option String
  worker_jobs : List WorkerJob
  monitor : Option Evidence
  deriving DecidableEq

/-! ## How values are shown in a problem -/

def quoted : Option String → String
  | some text => "'" ++ text ++ "'"
  | none => "None"

def shownNat : Option ℕ → String
  | some n => toString n
  | none => "None"

/-- A number as Python shows a float: the fewest decimals that are exact, at least one. -/
def shownFloat (q : ℚ) : String :=
  fixed (((List.range 17).find? fun places => q.den ∣ 10 ^ places).getD 17 |> max 1) q

def shownThresholds : Option Thresholds → String
  | some t => "\x7b'window_s': " ++ shownFloat t.window_s ++ ", 'idle_probe_s': "
      ++ shownFloat t.idle_probe_s ++ ", 'foreign_cpu_fraction': "
      ++ shownFloat t.foreign_cpu_fraction ++ ", 'foreign_cpu_floor_s': "
      ++ shownFloat t.foreign_cpu_floor_s ++ "\x7d"
  | none => "None"

def shownTier : Option Tier → String
  | some t => "\x7b'model': " ++ quoted t.model ++ ", 'ncpus': " ++ shownNat t.ncpus ++ "\x7d"
  | none => "None"

def shownList (items : List String) : String := "[" ++ ", ".intercalate items ++ "]"

/-- A problem, when `condition` holds. -/
def flag (condition : Bool) (problem : String) : List String :=
  if condition then [problem] else []

@[simp] theorem flag_eq_nil {condition : Bool} {problem : String} :
    flag condition problem = [] ↔ condition = false := by
  cases condition <;> simp [flag]

/-- The counters of a window, all of them finite numbers. -/
structure Counters where
  start : ℚ
  stop : ℚ
  seconds : ℚ
  busy_s : ℚ
  worker_cpu_s : ℚ
  foreign_s : ℚ

def Window.counters (w : Window) : Option Counters := do
  let start ← w.start
  let stop ← w.stop
  let seconds ← w.seconds
  let busy_s ← w.busy_s
  let worker_cpu_s ← w.worker_cpu_s
  let foreign_s ← w.foreign_s
  some { start, stop, seconds, busy_s, worker_cpu_s, foreign_s }

/-- The reasons a window voids its measurement. -/
def judged (t : Thresholds) (w : Window) (c : Counters) : List String :=
  if w.decisive then judge c.foreign_s c.seconds t else []

theorem judged_eq_nil {t : Thresholds} {w : Window} {c : Counters} :
    judged t w c = [] ↔
      (w.decisive = true → (checkA c.foreign_s c.seconds t).1 = true) := by
  cases h : w.decisive <;> simp [judged, h, judge_eq_nil]

/-- Why one window is inadmissible, after the window before it. -/
def windowProblem (name : String) (t : Thresholds) (previous : Option Counters) (w : Window) :
    Option String :=
  let at_window := name ++ " window " ++ shownNat w.index ++ ": "
  match w.counters with
  | none => some (at_window ++ "invalid counters")
  | some c =>
    if c.seconds ≤ 0 then some (at_window ++ "invalid counters")
    else if c.busy_s < 0 ∨ c.worker_cpu_s < 0 then some (at_window ++ "invalid counters")
    else if previous.any fun p => TOLERANCE_S < |c.start - p.stop| then
      some (name ++ ": a gap before window " ++ shownNat w.index)
    else if TOLERANCE_S < |c.stop - c.start - c.seconds|
        ∨ TOLERANCE_S < |c.busy_s - c.worker_cpu_s - c.foreign_s| then
      some (at_window ++ "inconsistent counters")
    else if t.window_s * 2 + 1 < c.seconds then
      some (at_window ++ "longer than the bounded window")
    else if judged t w c = [] then none
    else some (at_window ++ "; ".intercalate (judged t w c))

/-- The windows of a record, up to the first inadmissible one. -/
def windowProblems (name : String) (t : Thresholds) :
    Option Counters → List Window → List String
  | _, [] => []
  | previous, w :: rest =>
    match windowProblem name t previous w with
    | some problem => [problem]
    | none => windowProblems name t w.counters rest

/-- The counters of an admissible window, after the window before it. -/
structure Counters.Admissible (t : Thresholds) (previous : Option Counters) (decisive : Bool)
    (c : Counters) : Prop where
  positive : 0 < c.seconds
  busy : 0 ≤ c.busy_s
  cpu : 0 ≤ c.worker_cpu_s
  meets : ∀ p ∈ previous, |c.start - p.stop| ≤ TOLERANCE_S
  length : |c.stop - c.start - c.seconds| ≤ TOLERANCE_S
  foreign : |c.busy_s - c.worker_cpu_s - c.foreign_s| ≤ TOLERANCE_S
  bounded : c.seconds ≤ t.window_s * 2 + 1
  clean : decisive = true → (checkA c.foreign_s c.seconds t).1 = true

theorem windowProblem_eq_none {name : String} {t : Thresholds} {previous : Option Counters}
    {w : Window} :
    windowProblem name t previous w = none ↔
      ∃ c, w.counters = some c ∧ c.Admissible t previous w.decisive := by
  unfold windowProblem
  cases hc : w.counters with
  | none => simp
  | some c =>
      constructor
      · intro h
        refine ⟨c, rfl, ?_⟩
        simp only at h
        split_ifs at h with hseconds hnegative hgap hlength hlong hclean
        constructor
        · exact not_le.mp hseconds
        · exact not_lt.mp fun hlt => hnegative (.inl hlt)
        · exact not_lt.mp fun hlt => hnegative (.inr hlt)
        · intro p hp
          cases hp
          simpa using hgap
        · exact not_lt.mp fun hlt => hlength (.inl hlt)
        · exact not_lt.mp fun hlt => hlength (.inr hlt)
        · exact not_lt.mp hlong
        · exact judged_eq_nil.mp hclean
      · rintro ⟨c, ⟨⟩, h⟩
        have hgap : (previous.any fun p => decide (TOLERANCE_S < |c.start - p.stop|)) = false := by
          cases previous with
          | none => rfl
          | some p => simpa using h.meets p rfl
        simp only [not_le.mpr h.positive, not_lt.mpr h.busy, not_lt.mpr h.cpu, hgap,
          not_lt.mpr h.length, not_lt.mpr h.foreign, not_lt.mpr h.bounded,
          judged_eq_nil.mpr h.clean, if_false, or_self, Bool.false_eq_true, if_true]

def WindowsAdmissible (t : Thresholds) : Option Counters → List Window → Prop
  | _, [] => True
  | previous, w :: rest =>
    ∃ c, w.counters = some c ∧ c.Admissible t previous w.decisive
      ∧ WindowsAdmissible t (some c) rest

theorem windowProblems_eq_nil {name : String} {t : Thresholds} {previous : Option Counters}
    {windows : List Window} :
    windowProblems name t previous windows = [] ↔ WindowsAdmissible t previous windows := by
  induction windows generalizing previous with
  | nil => simp [windowProblems, WindowsAdmissible]
  | cons w rest ih =>
      simp only [windowProblems, WindowsAdmissible]
      cases h : windowProblem name t previous w with
      | some problem =>
          refine iff_of_false (by simp) ?_
          rintro ⟨c, hc, hok, -⟩
          have hnone : windowProblem name t previous w = none :=
            windowProblem_eq_none.mpr ⟨c, hc, hok⟩
          rw [h] at hnone
          cases hnone
      | none =>
          obtain ⟨c, hc, hok⟩ := windowProblem_eq_none.mp h
          simp only [ih, hc, Option.some.injEq, exists_eq_left', hok, true_and]

/-- Whether a saved number is within the tolerance of another. -/
def near (value : Option ℚ) (target : ℚ) : Bool :=
  value.any fun v => |v - target| ≤ TOLERANCE_S

def Window.tagged (index : ℕ) (w : Window) : Bool := w.measurement.any (Tag.is index)

/-- Whether the windows tagged with a measured interval cover it. -/
def intervalCovered (windows : List Window) (index : ℕ) (interval : Interval) : Bool :=
  let covered := windows.filter (Window.tagged index)
  match interval.start, interval.stop with
  | some start, some stop =>
    decide (start < stop) && near (covered.head?.bind (·.start)) start
      && near (covered.getLast?.bind (·.stop)) stop
      && decide (covered.IsChain fun a b => a.stop = b.start)
  | _, _ => false

/-- An interval that the windows tagged with its index cover from its start to its end. -/
structure IntervalCovered (windows : List Window) (index : ℕ) (interval : Interval) : Prop where
  bounds : ∃ start stop, interval.start = some start ∧ interval.stop = some stop ∧ start < stop
  first : ∃ w v, (windows.filter (Window.tagged index)).head? = some w ∧ w.start = some v
    ∧ ∀ start ∈ interval.start, |v - start| ≤ TOLERANCE_S
  last : ∃ w v, (windows.filter (Window.tagged index)).getLast? = some w ∧ w.stop = some v
    ∧ ∀ stop ∈ interval.stop, |v - stop| ≤ TOLERANCE_S
  unbroken : (windows.filter (Window.tagged index)).IsChain fun a b => a.stop = b.start

theorem near_eq_true {value : Option ℚ} {target : ℚ} :
    near value target = true ↔ ∃ v, value = some v ∧ |v - target| ≤ TOLERANCE_S := by
  cases value <;> simp [near]

theorem intervalCovered_iff {windows : List Window} {index : ℕ} {interval : Interval} :
    intervalCovered windows index interval = true ↔ IntervalCovered windows index interval := by
  unfold intervalCovered
  cases hstart : interval.start with
  | none =>
      refine iff_of_false (by simp) fun h => ?_
      obtain ⟨_, _, hs, -⟩ := h.bounds
      simp [hstart] at hs
  | some start =>
      cases hstop : interval.stop with
      | none =>
          refine iff_of_false (by simp) fun h => ?_
          obtain ⟨_, _, -, hs, -⟩ := h.bounds
          simp [hstop] at hs
      | some stop =>
          simp only [Bool.and_eq_true, decide_eq_true_eq, near_eq_true, Option.bind_eq_some_iff]
          constructor
          · rintro ⟨⟨⟨hlt, v, ⟨w, hw, hv⟩, hnear⟩, v', ⟨w', hw', hv'⟩, hnear'⟩, hchain⟩
            refine ⟨⟨start, stop, hstart, hstop, hlt⟩, ⟨w, v, hw, hv, ?_⟩, ⟨w', v', hw', hv', ?_⟩,
              hchain⟩
            · simpa [hstart] using hnear
            · simpa [hstop] using hnear'
          · intro h
            obtain ⟨a, b, ha, hb, hlt⟩ := h.bounds
            obtain ⟨w, v, hw, hv, hnear⟩ := h.first
            obtain ⟨w', v', hw', hv', hnear'⟩ := h.last
            rw [hstart] at ha hnear
            rw [hstop] at hb hnear'
            cases ha
            cases hb
            exact ⟨⟨⟨hlt, v, ⟨w, hw, hv⟩, hnear _ rfl⟩, v', ⟨w', hw', hv'⟩, hnear' _ rfl⟩,
              h.unbroken⟩

def intervalProblems (name : String) (windows : List Window) (measurements : List Interval) :
    List String :=
  measurements.zipIdx.flatMap fun (interval, index) =>
    flag (!intervalCovered windows index interval)
      (name ++ ": incomplete measured interval " ++ toString index)

theorem intervalProblems_eq_nil {name : String} {windows : List Window}
    {measurements : List Interval} :
    intervalProblems name windows measurements = [] ↔
      ∀ interval index, (interval, index) ∈ measurements.zipIdx →
        IntervalCovered windows index interval := by
  simp [intervalProblems, List.flatMap_eq_nil_iff, intervalCovered_iff]

/-- `_record_problems`: why the record of one process is inadmissible. -/
def recordProblems (t : Thresholds) (worker_cpus : List ℕ) (r : WorkerRecord) : List String :=
  let name := r.job.getD "None" ++ " process " ++ shownNat r.process
  if r.aborted then [name ++ " was aborted"]
  else if r.cpus.toFinset ≠ worker_cpus.toFinset then [name ++ " ran outside the worker core"]
  else
    match r.launched, r.exited with
    | some launched, some exited =>
      if r.windows = [] then [name ++ " has no complete monitoring"]
      else if r.returncode.isNone then [name ++ " has no exit status"]
      else
        flag (!near (r.windows.head?.bind (·.start)) launched)
            (name ++ ": the first window does not start at launch")
          ++ flag (!near (r.windows.getLast?.bind (·.stop)) exited)
            (name ++ ": the last window does not end at exit")
          ++ flag (!(r.windows.getLast?.any (·.final) && r.windows.dropLast.all (!·.final)))
            (name ++ ": no single final window")
          ++ windowProblems name t none r.windows
          ++ intervalProblems name r.windows r.measurements
    | _, _ => [name ++ " has no complete monitoring"]

/-- The record of a process that ended, was watched from launch to exit and has no window
or interval out of order. -/
structure RecordAdmissible (t : Thresholds) (worker_cpus : List ℕ) (r : WorkerRecord) : Prop where
  completed : r.aborted = false
  cpus : r.cpus.toFinset = worker_cpus.toFinset
  returned : r.returncode.isSome = true
  launched : ∃ launched w v, r.launched = some launched ∧ r.windows.head? = some w
    ∧ w.start = some v ∧ |v - launched| ≤ TOLERANCE_S
  exited : ∃ exited w v, r.exited = some exited ∧ r.windows.getLast? = some w
    ∧ w.stop = some v ∧ |v - exited| ≤ TOLERANCE_S
  final : r.windows.getLast?.any (·.final) = true
  single : r.windows.dropLast.all (!·.final) = true
  windows : WindowsAdmissible t none r.windows
  intervals : ∀ interval index, (interval, index) ∈ r.measurements.zipIdx →
    IntervalCovered r.windows index interval

theorem recordProblems_eq_nil {t : Thresholds} {worker_cpus : List ℕ} {r : WorkerRecord} :
    recordProblems t worker_cpus r = [] ↔ RecordAdmissible t worker_cpus r := by
  unfold recordProblems
  constructor
  · intro h
    simp only at h
    split_ifs at h with haborted hcpus hempty hcode
    · cases hl : r.launched <;> cases he : r.exited <;> simp [hl, he] at h
    · cases hl : r.launched <;> cases he : r.exited <;> simp [hl, he] at h
    · cases hl : r.launched with
      | none => simp [hl] at h
      | some launched =>
          cases he : r.exited with
          | none => simp [hl, he] at h
          | some exited =>
              simp only [hl, he, List.append_eq_nil_iff, flag_eq_nil, Bool.not_eq_false',
                near_eq_true, Option.bind_eq_some_iff, Bool.and_eq_true, windowProblems_eq_nil,
                intervalProblems_eq_nil] at h
              obtain ⟨⟨⟨⟨⟨v, ⟨w, hw, hv⟩, hnear⟩, v', ⟨w', hw', hv'⟩, hnear'⟩, hfinal, hsingle⟩,
                hwindows⟩, hintervals⟩ := h
              exact {
                completed := by simpa using haborted
                cpus := by simpa using hcpus
                returned := by simpa [Option.isSome_iff_ne_none] using hcode
                launched := ⟨launched, w, v, hl, hw, hv, hnear⟩
                exited := ⟨exited, w', v', he, hw', hv', hnear'⟩
                final := hfinal
                single := hsingle
                windows := hwindows
                intervals := hintervals }
  · intro h
    obtain ⟨launched, w, v, hl, hw, hv, hnear⟩ := h.launched
    obtain ⟨exited, w', v', he, hw', hv', hnear'⟩ := h.exited
    have hnonempty : r.windows ≠ [] := by
      intro hnil
      simp [hnil] at hw
    have hcode : r.returncode.isNone = false := by
      simpa using h.returned
    simp only [h.completed, h.cpus, hl, he, hnonempty, hcode, ne_eq, not_true_eq_false,
      Bool.false_eq_true, if_false, List.append_eq_nil_iff, flag_eq_nil, Bool.not_eq_false',
      near_eq_true, Option.bind_eq_some_iff, Bool.and_eq_true, windowProblems_eq_nil,
      intervalProblems_eq_nil]
    exact ⟨⟨⟨⟨⟨v, ⟨w, hw, hv⟩, hnear⟩, v', ⟨w', hw', hv'⟩, hnear'⟩, h.final, h.single⟩,
      h.windows⟩, h.intervals⟩

/-- `_expected_jobs`: one job a round and arm, for every case unless they share a batch. -/
def expectedJobs (estimator : Estimator) (count cases : ℕ) : ℕ :=
  if estimator = .timing then count * 2 else count * cases * 2

/-- How many measured entries one job has. -/
def entriesPerJob (estimator : Estimator) (cases : ℕ) : ℕ :=
  match estimator with
  | .timing => cases
  | .companion => 20
  | .memory => 1

def ARMS : List (Option String) := [some "baseline", some "evolved"]

/-- Both arms and no other, the same number of times. -/
def balanced (arms : List (Option String)) : Bool :=
  arms.all ARMS.contains && ARMS.all arms.contains
    && arms.count (some "baseline") == arms.count (some "evolved")

def shownArms (arms : List (Option String)) : String :=
  "\x7b" ++ ", ".intercalate (arms.dedup.map fun arm =>
    quoted arm ++ ": " ++ toString (arms.count arm)) ++ "\x7d"

/-- The records in order, until more than twenty problems are known. -/
def recordsProblems (t : Thresholds) (worker_cpus : List ℕ) :
    List String → List WorkerRecord → List String
  | found, [] => found
  | found, r :: rest =>
    let found := found ++ recordProblems t worker_cpus r
    if 20 < found.length then found else recordsProblems t worker_cpus found rest

theorem recordsProblems_eq_nil {t : Thresholds} {worker_cpus : List ℕ} {found : List String}
    {records : List WorkerRecord} :
    recordsProblems t worker_cpus found records = [] ↔
      found = [] ∧ ∀ r ∈ records, RecordAdmissible t worker_cpus r := by
  induction records generalizing found with
  | nil => simp [recordsProblems]
  | cons r rest ih =>
      simp only [recordsProblems, List.forall_mem_cons]
      split_ifs with hmany
      · refine iff_of_false (by rintro h; simp [h] at hmany) ?_
        rintro ⟨rfl, hr, -⟩
        simp [recordProblems_eq_nil.mpr hr] at hmany
      · rw [ih, List.append_eq_nil_iff, recordProblems_eq_nil, and_assoc]

def measuredEntries (records : List WorkerRecord) (label : Option String) : ℕ :=
  ((records.filter (·.job == label)).map (·.measurements.length)).sum

/-- `_coverage_problems`: the worker jobs of a bundle against their records. -/
def coverageProblems (jobs : List WorkerJob) (records : List WorkerRecord) (t : Thresholds)
    (worker_cpus : List ℕ) (estimator : Estimator) (count cases : ℕ) : List String :=
  let labels := jobs.map (·.job)
  let arms := jobs.map (·.arm)
  let expected := expectedJobs estimator count cases
  let covered := records.map (·.job)
  let missing := labels.filter fun label => !covered.contains label
  let extra := (covered.filter fun job => !labels.contains job).dedup
  let found :=
    flag (labels.length ≠ expected)
        (toString labels.length ++ " worker jobs, not the " ++ toString expected ++ " measured")
      ++ flag (!labels.Nodup) "a worker job appears twice"
      ++ flag (!balanced arms) ("unbalanced arms " ++ shownArms arms)
      ++ flag (!missing.isEmpty) ("no monitoring of " ++ toString missing.length
        ++ " worker jobs (first " ++ (missing.head?.join.getD "None") ++ ")")
      ++ flag (!extra.isEmpty) ("monitoring of jobs outside the bundle: "
        ++ shownList ((((extra.map quoted).mergeSort).take 3)))
  recordsProblems t worker_cpus found records
    ++ labels.flatMap fun label =>
      flag (measuredEntries records label ≠ entriesPerJob estimator cases)
        (label.getD "None" ++ ": " ++ toString (measuredEntries records label)
          ++ " measured entries, expected " ++ toString (entriesPerJob estimator cases))

/-- Every worker job of a bundle has its records, and no other job has. -/
structure Coverage (jobs : List WorkerJob) (records : List WorkerRecord) (t : Thresholds)
    (worker_cpus : List ℕ) (estimator : Estimator) (count cases : ℕ) : Prop where
  count : jobs.length = expectedJobs estimator count cases
  distinct : (jobs.map (·.job)).Nodup
  arms : balanced (jobs.map (·.arm)) = true
  monitored : ∀ label ∈ jobs.map (·.job), label ∈ records.map (·.job)
  own : ∀ job ∈ records.map (·.job), job ∈ jobs.map (·.job)
  admissible : ∀ r ∈ records, RecordAdmissible t worker_cpus r
  measured : ∀ label ∈ jobs.map (·.job),
    measuredEntries records label = entriesPerJob estimator cases

theorem coverageProblems_eq_nil {jobs : List WorkerJob} {records : List WorkerRecord}
    {t : Thresholds} {worker_cpus : List ℕ} {estimator : Estimator} {count cases : ℕ} :
    coverageProblems jobs records t worker_cpus estimator count cases = [] ↔
      Coverage jobs records t worker_cpus estimator count cases := by
  have hextra : ∀ xs ys : List (Option String),
      (xs.filter fun x => !ys.contains x).dedup = [] ↔ ∀ x ∈ xs, x ∈ ys := by
    intro xs ys
    simp [List.dedup_eq_nil, List.filter_eq_nil_iff]
  simp only [coverageProblems, List.append_eq_nil_iff, recordsProblems_eq_nil, flag_eq_nil,
    List.flatMap_eq_nil_iff, decide_eq_false_iff_not, not_not, Bool.not_eq_false',
    List.isEmpty_iff, hextra, List.length_map]
  constructor
  · rintro ⟨⟨⟨⟨⟨⟨hcount, hdistinct⟩, harms⟩, hmissing⟩, hown⟩, hrecords⟩, hmeasured⟩
    exact {
      count := hcount
      distinct := by simpa using hdistinct
      arms := harms
      monitored := by simpa [List.filter_eq_nil_iff] using hmissing
      own := hown
      admissible := hrecords
      measured := by simpa using hmeasured }
  · intro h
    refine ⟨⟨⟨⟨⟨⟨h.count, by simpa using h.distinct⟩, h.arms⟩, ?_⟩, h.own⟩, h.admissible⟩,
      by simpa using h.measured⟩
    simpa [List.filter_eq_nil_iff] using h.monitored

/-- The fields that tie evidence to the session that required it. -/
def sessionProblems (m : Evidence) (required : EvidenceRequirement) : List String :=
  let differs := fun (name have_ want : String) =>
    name ++ " " ++ have_ ++ " is not the session's " ++ want
  flag (m.format ≠ some EVIDENCE_FORMAT)
      (differs "format" (quoted m.format) (quoted (some EVIDENCE_FORMAT)))
    ++ flag (m.contract ≠ some required.contract)
      (differs "contract" (quoted m.contract) (quoted (some required.contract)))
    ++ flag (m.identity ≠ some required.identity)
      (differs "identity" (quoted m.identity) (quoted (some required.identity)))
    ++ flag (m.thresholds ≠ some required.thresholds)
      (differs "thresholds" (shownThresholds m.thresholds)
        (shownThresholds (some required.thresholds)))
    ++ flag (m.tier ≠ some required.tier)
      (differs "tier" (shownTier m.tier) (shownTier (some required.tier)))

theorem sessionProblems_eq_nil {m : Evidence} {required : EvidenceRequirement} :
    sessionProblems m required = [] ↔
      m.format = some EVIDENCE_FORMAT ∧ m.contract = some required.contract
        ∧ m.identity = some required.identity ∧ m.thresholds = some required.thresholds
        ∧ m.tier = some required.tier := by
  simp [sessionProblems]

/-- Where the evidence says the bundle was measured. -/
def placementProblems (bundle : MonitoredBundle) (m : Evidence) (required : EvidenceRequirement) :
    List String :=
  let a := m.allocation
  let worker := m.layout.worker.toFinset
  let coordinator := m.layout.monitor.toFinset
  let selects := fun (name shown : String) =>
    "the allocation did not select " ++ name ++ "==" ++ shown
  flag (m.host.getD "" = "" ∨ m.host ≠ bundle.host)
      ("monitored host " ++ m.host.getD "None" ++ " did not measure the samples")
    ++ flag m.attempt.isNone "no attempt identity"
    ++ flag (a.slots ≠ some required.slots) ("allocation of " ++ shownNat a.slots ++ " slots")
    ++ flag (!a.exclusive_cores_requested || !a.single_host_requested)
      "the allocation did not request exclusive cores on one host"
    ++ flag (a.hosts.length ≠ 1) "the allocation did not span exactly one host"
    ++ flag (required.tier.ncpus.isSome && decide (m.physical_cores ≠ required.tier.ncpus))
      (shownNat m.physical_cores ++ " physical cores, not the tier's")
    ++ flag (required.tier.model.isSome && decide (a.selectors.model ≠ required.tier.model))
      (selects "model" (required.tier.model.getD ""))
    ++ flag (required.tier.ncpus.isSome && decide (a.selectors.ncpus ≠ required.tier.ncpus))
      (selects "ncpus" (shownNat required.tier.ncpus))
    ++ (if m.layout.name ≠ some required.layout ∨ worker = ∅ ∨ coordinator = ∅ then
        ["unknown CPU layout"]
      else
        flag (¬ (Disjoint worker coordinator ∧ worker ∪ coordinator ⊆ m.layout.mask.toFinset))
          "the worker and monitor cores are not disjoint cores of the mask")
    ++ match m.idle_probe.seconds, m.idle_probe.foreign_s with
      | some seconds, some foreign_s =>
        if seconds ≤ 0 then ["no valid idle probe"]
        else
          flag (foreign_s < 0 || !(checkA foreign_s seconds required.thresholds).1)
            "the idle probe saw foreign activity"
      | _, _ => ["no valid idle probe"]

/-- `problems`: every reason the bundle's evidence is inadmissible. -/
def problems (bundle : MonitoredBundle) (required : EvidenceRequirement) (estimator : Estimator)
    (count cases : ℕ) : List String :=
  if bundle.measurement_mode ≠ some "cores" then
    ["measured in " ++ bundle.measurement_mode.getD "an unlabelled" ++ " mode, not cores"]
  else
    match bundle.monitor with
    | none => ["no monitoring evidence"]
    | some m =>
      let found := sessionProblems m required
      if found ≠ [] then found
      else
        placementProblems bundle m required
          ++ coverageProblems bundle.worker_jobs m.workers required.thresholds m.layout.worker
            estimator count cases

theorem problems_eq_nil {bundle : MonitoredBundle} {required : EvidenceRequirement}
    {estimator : Estimator} {count cases : ℕ} :
    problems bundle required estimator count cases = [] ↔
      bundle.measurement_mode = some "cores" ∧ ∃ m, bundle.monitor = some m
        ∧ sessionProblems m required = [] ∧ placementProblems bundle m required = []
        ∧ Coverage bundle.worker_jobs m.workers required.thresholds m.layout.worker
            estimator count cases := by
  unfold problems
  by_cases hmode : bundle.measurement_mode = some "cores"
  · cases hm : bundle.monitor with
    | none => simp [hmode]
    | some m =>
        by_cases hsession : sessionProblems m required = []
        · simp [hmode, hsession, coverageProblems_eq_nil]
        · simp [hmode, hsession]
  · simp [hmode]

end TranspileBench.Lsf
