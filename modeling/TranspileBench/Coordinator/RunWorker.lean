import TranspileBench.Evaluator.Verdict
import TranspileBench.Lib.RecordLog
import Mathlib.Algebra.Order.Archimedean.Basic
import Mathlib.Data.List.Perm.Subperm
import Mathlib.Logic.Equiv.List
import Mathlib.Logic.Relation
import Mathlib.Tactic.DeriveEncodable
import Mathlib.Tactic.Linarith

/-!
`run_worker`: one process for a batch of seeds, watched by its heartbeats, and a fresh one
for the seeds behind a timeout. Whatever its processes do with their own rows, a batch
comes to an end with one row for each seed, unless a process goes away between a boundary of
its measurement and the acknowledgement.
-/
namespace TranspileBench.Coordinator.Batch
open Evaluator RecordLog

def PROTOCOL : String := "qtb-worker/1"

inductive Status
  | ok | unsupported | error
  deriving DecidableEq

/-- A result row: what the coordinator reads or writes of it, and the worker's other fields. -/
structure Row (ρ : Type) where
  protocol : String
  status : Status
  mode : String
  seed : Nat
  error : Option String := none
  returncode : Option Int := none
  log : Option String := none
  not_attempted : Bool := false
  job_file : Option String := none
  rest : Option ρ := none
  deriving DecidableEq

/-- A job the schema accepts, without the fields only the worker reads. -/
structure Job where
  mode : String
  seeds : List Nat
  timeout_s : ℚ
  seeds_ne : seeds ≠ []
  timeout_pos : 0 < timeout_s

/-- What there is on the measurement socket within a tenth of a second. -/
inductive Signal
  | quiet
  /-- The worker's end is closed. -/
  | closed
  /-- It was closed over an acknowledgement that nobody had read. -/
  | reset
  /-- A boundary, and whether the worker's end is still there when it is acknowledged. -/
  | boundary (acknowledged : Bool)
  deriving DecidableEq

/-- One turn of the loop: whether the process has exited, the file of results, the clock when
the rows are counted and when the timeout is checked, and the measurement socket. -/
structure Poll where
  exited : Bool
  file : List UInt8
  counted : ℚ
  checked : ℚ
  signal : Signal

/-- A worker process, as the coordinator sees it. -/
structure Process where
  started : ℚ
  poll : Nat → Poll
  /-- The results once the process is gone. -/
  file : List UInt8
  returncode : Int
  log_tail : String

/-- The processes that are started: the first for the job, the next ones after a timeout. -/
abbrev Workers := Nat → List Nat → Process

/-- One call of `run_worker`: the how-manieth process, its directory, its job, and whether
there is a hook for the boundaries of a measurement. -/
structure Attempt where
  number : Nat
  directory : String
  job : Job
  measured : Bool

variable {ρ : Type}

/-- `row.setdefault("job_file", ...)`. -/
def Row.filed (path : String) (row : Row ρ) : Row ρ :=
  { row with job_file := some (row.job_file.getD path) }

def Attempt.job_file (a : Attempt) : String := a.directory ++ "/job.json"

/-- The rows a call returns, each with a job file. -/
def Attempt.filed (a : Attempt) (rows : List (Row ρ)) : List (Row ρ) :=
  rows.map (Row.filed a.job_file)

def corrupt (a : Attempt) : Exn :=
  .harness ("Corrupt completed record in " ++ a.directory ++ "/out/results.jsonl")

def heartbeat (completed : Nat) (last : ℚ) (rows : List (Row ρ)) (counted : ℚ) : Nat × ℚ :=
  if completed < rows.length then (rows.length, counted) else (completed, last)

/-- Whether the socket is still listened to after a turn; a boundary is sent back. -/
def observe (observing : Bool) (signal : Signal) : Except Exn Bool :=
  if observing then
    match signal with
    | .quiet => .ok true
    | .closed => .ok false
    | .reset => .error (.other "ConnectionResetError")
    | .boundary acknowledged =>
        if acknowledged then .ok true else .error (.other "BrokenPipeError")
  else .ok false

/-- The loop over the heartbeats: whether the process timed out. It has no result while it
is still watching; hooks only look on. -/
def watch (codec : LineCodec (Row ρ)) (a : Attempt) (process : Process) :
    (fuel k completed : Nat) → (last : ℚ) → (observing : Bool) → Option (Except Exn Bool)
  | 0, _, _, _, _ => none
  | fuel + 1, k, completed, last, observing =>
      let now := process.poll k
      if now.exited then some (.ok false)
      else
        match readRecords codec now.file with
        | none => some (.error (corrupt a))
        | some rows =>
            let (completed, last) := heartbeat completed last rows now.counted
            if a.job.timeout_s < now.checked - last then some (.ok true)
            else
              match observe observing now.signal with
              | .error e => some (.error e)
              | .ok observing => watch codec a process fuel (k + 1) completed last observing

/-- Every row is a result of this job, and the only one of its seed. -/
def checkRows (job : Job) : (seen : List Nat) → List (Row ρ) → Except Exn (List Nat)
  | seen, [] => .ok seen
  | seen, row :: rest =>
      if row.protocol ≠ PROTOCOL then
        .error (.harness "Invalid result at ['protocol']: 'qtb-worker/1' was expected")
      else if row.seed ∉ job.seeds ∨ row.seed ∈ seen ∨ row.mode ≠ job.mode then
        .error (.harness "Worker returned duplicate/unrequested results")
      else checkRows job (seen ++ [row.seed]) rest

/-- The row of the first missing seed. -/
def interruptedRow (a : Attempt) (process : Process) (timed_out : Bool) (seed : Nat) : Row ρ :=
  let reason := if timed_out then "Worker timed out"
      else "Worker exited before completing the batch"
  { protocol := PROTOCOL
    status := .error
    mode := a.job.mode
    seed
    error := some (if process.log_tail = "" then reason else reason ++ ": " ++ process.log_tail)
    returncode := some process.returncode
    log := some (a.directory ++ "/worker.log") }

/-- The row of a seed behind it, after an exit. -/
def notAttemptedRow (a : Attempt) (process : Process) (first seed : Nat) : Row ρ :=
  { protocol := PROTOCOL
    status := .error
    mode := a.job.mode
    seed
    error := some ("Not attempted after abnormal worker exit for seed " ++ toString first)
    not_attempted := true
    returncode := some process.returncode
    log := some (a.directory ++ "/worker.log") }

/-- The call for the seeds behind the one that timed out. -/
def Attempt.retry (a : Attempt) (next : Nat) (rest : List Nat) : Attempt where
  number := a.number + 1
  directory := a.directory ++ "/retry-" ++ toString next
  job := { a.job with seeds := next :: rest, seeds_ne := List.cons_ne_nil next rest }
  measured := a.measured

/-- `run_worker`, without a hook that aborts, in a new directory. -/
def run_worker (codec : LineCodec (Row ρ)) (workers : Workers) :
    (fuel : Nat) → Attempt → Option (Except Exn (List (Row ρ)))
  | 0, _ => none
  | fuel + 1, a =>
      let process := workers a.number a.job.seeds
      match watch codec a process fuel 0 0 process.started a.measured with
      | none => none
      | some (.error e) => some (.error e)
      | some (.ok timed_out) =>
          match readRecords codec process.file with
          | none => some (.error (corrupt a))
          | some results =>
              match checkRows a.job [] results with
              | .error e => some (.error e)
              | .ok seen =>
                  match a.job.seeds.filter (· ∉ seen) with
                  | [] => some (.ok (a.filed results))
                  | [first] =>
                      some (.ok (a.filed (results ++ [interruptedRow a process timed_out first])))
                  | first :: next :: rest =>
                      let interrupted := results ++ [interruptedRow a process timed_out first]
                      if timed_out then
                        (run_worker codec workers fuel (a.retry next rest)).map fun outcome =>
                          outcome.map fun more => a.filed (interrupted ++ more)
                      else
                        some (.ok (a.filed (interrupted ++
                          (next :: rest).map (notAttemptedRow a process first))))

/-! ## The processes of a job -/

section Processes
variable {codec : LineCodec (Row ρ)} {workers : Workers}

def Attempt.process (workers : Workers) (a : Attempt) : Process := workers a.number a.job.seeds

def Attempt.completed (codec : LineCodec (Row ρ)) (workers : Workers) (a : Attempt) :
    List (Row ρ) :=
  (readRecords codec (a.process workers).file).getD []

/-- The seeds it left out. -/
def Attempt.pending (codec : LineCodec (Row ρ)) (workers : Workers) (a : Attempt) : List Nat :=
  a.job.seeds.filter (· ∉ (a.completed codec workers).map (·.seed))

/-- Whether the process was killed for a missing heartbeat. -/
def Attempt.Ends (codec : LineCodec (Row ρ)) (workers : Workers) (a : Attempt)
    (timed_out : Bool) : Prop :=
  ∃ fuel, ∀ fuel' ≥ fuel,
    watch codec a (a.process workers) fuel' 0 0 (a.process workers).started a.measured =
      some (.ok timed_out)

/-- A process that writes only valid rows for its seeds, each seed at most once. It may exit,
be killed or hang after any prefix, in the middle of a line too; the clock goes on. -/
structure Attempt.Behaves (codec : LineCodec (Row ρ)) (workers : Workers) (a : Attempt) :
    Prop where
  file : Holds codec (a.completed codec workers) (a.process workers).file
  beats : ∀ k, ∃ n, Holds codec ((a.completed codec workers).take n)
    ((a.process workers).poll k).file
  requested : ∀ row ∈ a.completed codec workers, row.seed ∈ a.job.seeds
  once : ((a.completed codec workers).map (·.seed)).Nodup
  valid : ∀ row ∈ a.completed codec workers, row.protocol = PROTOCOL ∧ row.mode = a.job.mode
  clock : ∀ t k, ∃ d, t < ((a.process workers).poll (k + d)).checked

/-- The process after one that timed out with more than one seed missing. -/
def Attempt.Retries (codec : LineCodec (Row ρ)) (workers : Workers) (a b : Attempt) : Prop :=
  a.Ends codec workers true ∧ ∃ first next rest,
    a.pending codec workers = first :: next :: rest ∧ b = a.retry next rest

/-- The processes a call starts. -/
abbrev Attempt.Starts (codec : LineCodec (Row ρ)) (workers : Workers) : Attempt → Attempt → Prop :=
  Relation.ReflTransGen (Attempt.Retries codec workers)

/-- The turns of the loop over a process, with what it carries from the ones before. -/
inductive Attempt.Turn (codec : LineCodec (Row ρ)) (workers : Workers) (a : Attempt) :
    (k completed : Nat) → (last : ℚ) → (observing : Bool) → Prop
  | first : a.Turn codec workers 0 0 (a.process workers).started a.measured
  | next {k completed last observing rows observing'}
      (before : a.Turn codec workers k completed last observing)
      (running : ((a.process workers).poll k).exited = false)
      (read : readRecords codec ((a.process workers).poll k).file = some rows)
      (inTime : ¬ a.job.timeout_s < ((a.process workers).poll k).checked -
        (heartbeat completed last rows ((a.process workers).poll k).counted).2)
      (heard : observe observing ((a.process workers).poll k).signal = .ok observing') :
      a.Turn codec workers (k + 1)
        (heartbeat completed last rows ((a.process workers).poll k).counted).1
        (heartbeat completed last rows ((a.process workers).poll k).counted).2 observing'

/-- In some turn of the loop the worker's end of the socket, which is still listened to, is
gone over an acknowledgement, unread or yet to be sent. -/
def Attempt.Severed (codec : LineCodec (Row ρ)) (workers : Workers) (a : Attempt) : Prop :=
  ∃ k completed last rows, a.Turn codec workers k completed last true ∧
    ((a.process workers).poll k).exited = false ∧
    readRecords codec ((a.process workers).poll k).file = some rows ∧
    ¬ a.job.timeout_s < ((a.process workers).poll k).checked -
      (heartbeat completed last rows ((a.process workers).poll k).counted).2 ∧
    (((a.process workers).poll k).signal = .reset ∨
      ((a.process workers).poll k).signal = .boundary false)

/-! ## Watching -/

theorem watch_more {a : Attempt} {process : Process} {fuel k completed : Nat} {last : ℚ}
    {observing : Bool} {outcome : Except Exn Bool}
    (h : watch codec a process fuel k completed last observing = some outcome)
    {fuel' : Nat} (hle : fuel ≤ fuel') :
    watch codec a process fuel' k completed last observing = some outcome := by
  induction fuel generalizing fuel' k completed last observing with
  | zero => cases h
  | succ fuel ih =>
      obtain ⟨fuel', rfl⟩ : ∃ more, fuel' = more + 1 := ⟨fuel' - 1, by omega⟩
      unfold watch at h ⊢
      dsimp only at h ⊢
      by_cases hexited : (process.poll k).exited
      · rwa [if_pos hexited] at h ⊢
      rw [if_neg hexited] at h ⊢
      cases hrows : readRecords codec (process.poll k).file with
      | none => rwa [hrows] at h
      | some rows =>
          simp only [hrows] at h ⊢
          generalize heartbeat completed last rows (process.poll k).counted = state at h ⊢
          by_cases hlate : a.job.timeout_s < (process.poll k).checked - state.2
          · rwa [if_pos hlate] at h ⊢
          · rw [if_neg hlate] at h ⊢
            cases hheard : observe observing (process.poll k).signal with
            | error e => rwa [hheard] at h
            | ok observing' =>
                rw [hheard] at h
                exact ih h (by omega)

/-- Without a hook for the measurement nothing is listened to. -/
theorem Attempt.Turn.unmeasured {a : Attempt} {k completed : Nat} {last : ℚ} {observing : Bool}
    (h : a.Turn codec workers k completed last observing) (hmeasured : a.measured = false) :
    observing = false := by
  induction h with
  | first => exact hmeasured
  | next _ _ _ _ heard ih =>
      rw [ih] at heard
      exact (Except.ok.inj heard).symm

theorem not_severed_of_unmeasured {a : Attempt} (hmeasured : a.measured = false) :
    ¬ a.Severed codec workers := by
  rintro ⟨k, completed, last, rows, hturn, -⟩
  cases hturn.unmeasured hmeasured

/-- The loop is where a turn says. -/
theorem Attempt.Turn.watch_eq {a : Attempt} {k completed : Nat} {last : ℚ} {observing : Bool}
    (h : a.Turn codec workers k completed last observing) (fuel : Nat) :
    watch codec a (a.process workers) (fuel + k) 0 0 (a.process workers).started a.measured =
      watch codec a (a.process workers) fuel k completed last observing := by
  induction h generalizing fuel with
  | first => rfl
  | @next k completed last observing rows observing' before running read inTime heard ih =>
      rw [show fuel + (k + 1) = fuel + 1 + k by omega, ih]
      simp only [watch, running, read, inTime, heard, Bool.false_eq_true, if_false]

/-- A loop that loses the worker's end raises. -/
theorem Attempt.Severed.raises {a : Attempt} (h : a.Severed codec workers) :
    ∃ fuel e, ∀ fuel' ≥ fuel,
      watch codec a (a.process workers) fuel' 0 0 (a.process workers).started a.measured =
        some (.error e) := by
  obtain ⟨k, completed, last, rows, hturn, running, read, inTime, hsignal⟩ := h
  have heard : ∃ e, observe true ((a.process workers).poll k).signal = .error e := by
    rcases hsignal with h | h <;> rw [h] <;> exact ⟨_, rfl⟩
  obtain ⟨e, heard⟩ := heard
  refine ⟨1 + k, e, fun fuel' hle => watch_more ?_ hle⟩
  rw [hturn.watch_eq]
  simp only [watch, running, read, inTime, heard, Bool.false_eq_true, if_false]

/-- The first boundary of a measurement that goes unacknowledged. -/
theorem watch_unacknowledged {a : Attempt} {rows : List (Row ρ)} (fuel : Nat)
    (measured : a.measured = true) (running : ((a.process workers).poll 0).exited = false)
    (read : readRecords codec ((a.process workers).poll 0).file = some rows)
    (inTime : ¬ a.job.timeout_s < ((a.process workers).poll 0).checked -
      (heartbeat 0 (a.process workers).started rows ((a.process workers).poll 0).counted).2)
    (signal : ((a.process workers).poll 0).signal = .boundary false) :
    watch codec a (a.process workers) (fuel + 1) 0 0 (a.process workers).started a.measured =
      some (.error (.other "BrokenPipeError")) := by
  simp only [watch, running, read, inTime, signal, measured, observe, Bool.false_eq_true, if_false,
    if_true]

/-- The loop comes to an end from here. -/
def Attempt.Watched (codec : LineCodec (Row ρ)) (workers : Workers) (a : Attempt)
    (k completed : Nat) (last : ℚ) (observing : Bool) : Prop :=
  ∃ fuel timed_out,
    watch codec a (a.process workers) fuel k completed last observing = some (.ok timed_out)

/-- One turn: the process has exited, or has timed out, or there is a new row, or neither. -/
theorem watched_step {a : Attempt} (behaves : a.Behaves codec workers)
    (whole : ¬ a.Severed codec workers) {k completed : Nat} {last : ℚ} {observing : Bool}
    (turn : a.Turn codec workers k completed last observing)
    (more : ∀ completed' last' observing',
      a.Turn codec workers (k + 1) completed' last' observing' → completed < completed' →
      completed' ≤ (a.completed codec workers).length →
        a.Watched codec workers (k + 1) completed' last' observing')
    (same : ∀ observing', a.Turn codec workers (k + 1) completed last observing' →
      ((a.process workers).poll k).checked ≤ last + a.job.timeout_s →
        a.Watched codec workers (k + 1) completed last observing') :
    a.Watched codec workers k completed last observing := by
  cases running : ((a.process workers).poll k).exited with
  | true => exact ⟨1, false, by simp [watch, running]⟩
  | false =>
  obtain ⟨n, hbeat⟩ := behaves.beats k
  have read := hbeat.readRecords
  have hlength : ((a.completed codec workers).take n).length ≤
      (a.completed codec workers).length := by simp
  generalize (a.completed codec workers).take n = rows at read hlength
  by_cases late : a.job.timeout_s < ((a.process workers).poll k).checked -
      (heartbeat completed last rows ((a.process workers).poll k).counted).2
  · exact ⟨1, true, by simp only [watch, running, read, late, Bool.false_eq_true,
      if_false, if_true]⟩
  have heard : ∃ observing', observe observing ((a.process workers).poll k).signal =
      .ok observing' := by
    cases observing with
    | false => exact ⟨false, rfl⟩
    | true =>
        cases hsignal : ((a.process workers).poll k).signal with
        | quiet => exact ⟨true, rfl⟩
        | closed => exact ⟨false, rfl⟩
        | reset => exact absurd ⟨k, completed, last, rows, turn, running, read, late,
            .inl hsignal⟩ whole
        | boundary acknowledged =>
            cases acknowledged with
            | true => exact ⟨true, rfl⟩
            | false =>
                exact absurd ⟨k, completed, last, rows, turn, running, read, late,
                  .inr hsignal⟩ whole
  obtain ⟨observing', heard⟩ := heard
  have hnext := turn.next running read late heard
  have hstep : ∀ fuel, watch codec a (a.process workers) (fuel + 1) k completed last observing =
      watch codec a (a.process workers) fuel (k + 1)
        (heartbeat completed last rows ((a.process workers).poll k).counted).1
        (heartbeat completed last rows ((a.process workers).poll k).counted).2 observing' := by
    intro fuel
    simp only [watch, running, read, late, heard, Bool.false_eq_true, if_false]
  suffices a.Watched codec workers (k + 1)
      (heartbeat completed last rows ((a.process workers).poll k).counted).1
      (heartbeat completed last rows ((a.process workers).poll k).counted).2 observing' by
    obtain ⟨fuel, timed_out, h⟩ := this
    exact ⟨fuel + 1, timed_out, (hstep fuel).trans h⟩
  by_cases hnew : completed < rows.length
  · refine more _ _ _ hnext ?_ ?_
    · rw [heartbeat, if_pos hnew]
      exact hnew
    · rw [heartbeat, if_pos hnew]
      exact hlength
  · rw [heartbeat, if_neg hnew] at hnext late ⊢
    exact same _ hnext (by linarith)

/-- Each new row is one of the rows the process completes, and while there is none the clock
runs out. -/
theorem watched {a : Attempt} (behaves : a.Behaves codec workers)
    (whole : ¬ a.Severed codec workers) {k completed : Nat} {last : ℚ} {observing : Bool}
    (turn : a.Turn codec workers k completed last observing) :
    a.Watched codec workers k completed last observing := by
  induction hleft : (a.completed codec workers).length - completed using Nat.strong_induction_on
    generalizing k completed last observing with
  | _ left ih =>
      have more : ∀ k completed' last' observing',
          a.Turn codec workers (k + 1) completed' last' observing' → completed < completed' →
          completed' ≤ (a.completed codec workers).length →
            a.Watched codec workers (k + 1) completed' last' observing' := by
        intro k completed' last' observing' hturn hnew hlength
        exact ih _ (by omega) hturn rfl
      obtain ⟨d, hd⟩ := behaves.clock (last + a.job.timeout_s) k
      induction d generalizing k observing with
      | zero => exact watched_step behaves whole turn (more k) fun _ _ h => absurd hd (not_lt.mpr h)
      | succ d ihd =>
          apply watched_step behaves whole turn (more k)
          intro observing' hturn _
          apply ihd hturn
          rwa [show k + 1 + d = k + (d + 1) by omega]

theorem Attempt.Behaves.ends {a : Attempt} (behaves : a.Behaves codec workers)
    (whole : ¬ a.Severed codec workers) : ∃ timed_out, a.Ends codec workers timed_out := by
  obtain ⟨fuel, timed_out, h⟩ := watched behaves whole (.first (a := a))
  exact ⟨timed_out, fuel, fun fuel' hle => watch_more h hle⟩

theorem Attempt.Ends.unique {a : Attempt} {timed_out timed_out' : Bool}
    (h : a.Ends codec workers timed_out) (h' : a.Ends codec workers timed_out') :
    timed_out = timed_out' := by
  obtain ⟨fuel, h⟩ := h
  obtain ⟨fuel', h'⟩ := h'
  have hsame := (h (fuel + fuel') (by omega)).symm.trans (h' (fuel + fuel') (by omega))
  simpa using hsame

/-! ## One row for each seed -/

theorem checkRows_ok {job : Job} (seen : List Nat) {rows : List (Row ρ)}
    (requested : ∀ row ∈ rows, row.seed ∈ job.seeds)
    (once : (seen ++ rows.map (·.seed)).Nodup)
    (valid : ∀ row ∈ rows, row.protocol = PROTOCOL ∧ row.mode = job.mode) :
    checkRows job seen rows = .ok (seen ++ rows.map (·.seed)) := by
  induction rows generalizing seen with
  | nil => simp [checkRows]
  | cons row rest ih =>
      obtain ⟨hprotocol, hmode⟩ := valid row List.mem_cons_self
      have hseed := requested row List.mem_cons_self
      have honce : (seen ++ [row.seed] ++ rest.map (·.seed)).Nodup := by
        simpa only [List.map_cons, List.append_assoc, List.singleton_append] using once
      have hnew : row.seed ∉ seen := by
        have := (List.nodup_append.mp honce).1
        grind
      unfold checkRows
      rw [if_neg (not_not_intro hprotocol),
        if_neg (by simp only [hseed, hnew, hmode, not_true, false_or, ne_eq, not_false_eq_true])]
      rw [ih (seen ++ [row.seed]) (fun row h => requested row (List.mem_cons_of_mem _ h)) honce
        fun row h => valid row (List.mem_cons_of_mem _ h)]
      simp

theorem Attempt.mem_pending {a : Attempt} {seed : Nat} :
    seed ∈ a.pending codec workers ↔
      seed ∈ a.job.seeds ∧ ∀ row ∈ a.completed codec workers, row.seed ≠ seed := by
  simp [Attempt.pending]

/-- The seeds of a job are those of the completed rows and the missing ones. -/
theorem Attempt.Behaves.seeds {a : Attempt} (behaves : a.Behaves codec workers)
    (hseeds : a.job.seeds.Nodup) :
    ((a.completed codec workers).map (·.seed) ++ a.pending codec workers).Perm a.job.seeds := by
  refine (List.perm_ext_iff_of_nodup ?_ hseeds).mpr fun seed => ?_
  · refine List.nodup_append.mpr ⟨behaves.once, hseeds.filter _, ?_⟩
    intro seed hseed seed' hpending
    obtain ⟨row, hrow, rfl⟩ := List.mem_map.mp hseed
    exact (Attempt.mem_pending.mp hpending).2 row hrow
  · constructor
    · intro hseed
      rcases List.mem_append.mp hseed with hdone | hpending
      · obtain ⟨row, hrow, rfl⟩ := List.mem_map.mp hdone
        exact behaves.requested row hrow
      · exact (Attempt.mem_pending.mp hpending).1
    · intro hseed
      by_cases hdone : seed ∈ (a.completed codec workers).map (·.seed)
      · exact List.mem_append_left _ hdone
      · refine List.mem_append_right _ (Attempt.mem_pending.mpr ⟨hseed, fun row hrow heq => ?_⟩)
        exact hdone (List.mem_map.mpr ⟨row, hrow, heq⟩)

/-- What a call returns once its process is gone. -/
theorem run_worker_eq {a : Attempt} (behaves : a.Behaves codec workers) {timed_out : Bool}
    (hends : a.Ends codec workers timed_out) :
    ∃ fuel, ∀ fuel' ≥ fuel, run_worker codec workers (fuel' + 1) a =
      let results := a.completed codec workers
      match a.pending codec workers with
      | [] => some (.ok (a.filed results))
      | [first] => some (.ok (a.filed
          (results ++ [interruptedRow a (a.process workers) timed_out first])))
      | first :: next :: rest =>
          let interrupted := results ++ [interruptedRow a (a.process workers) timed_out first]
          if timed_out then
            (run_worker codec workers fuel' (a.retry next rest)).map fun outcome =>
              outcome.map fun more => a.filed (interrupted ++ more)
          else
            some (.ok (a.filed (interrupted ++
              (next :: rest).map (notAttemptedRow a (a.process workers) first)))) := by
  obtain ⟨fuel, hends⟩ := hends
  refine ⟨fuel, fun fuel' hle => ?_⟩
  have hchecked := checkRows_ok [] behaves.requested behaves.once behaves.valid
  have hwatch := hends fuel' hle
  have hrows := behaves.file.readRecords
  have hpending : a.job.seeds.filter (· ∉ (a.completed codec workers).map (·.seed)) =
      a.pending codec workers := rfl
  rw [run_worker]
  simp only [Attempt.process] at hwatch hrows ⊢
  simp only [hwatch, hrows, hchecked, List.nil_append, hpending]

/-- What a call returns: one row for each seed, every completed row among them as it was
written apart from its job file, and error rows for the others. -/
structure Accounts (codec : LineCodec (Row ρ)) (workers : Workers) (a : Attempt)
    (rows : List (Row ρ)) : Prop where
  seeds : (rows.map (·.seed)).Perm a.job.seeds
  filed : ∀ row ∈ rows, row.job_file.isSome
  kept : ∀ b, a.Starts codec workers b → ∀ row ∈ b.completed codec workers,
    row.filed b.job_file ∈ rows
  others : ∀ row ∈ rows,
    (∃ b, a.Starts codec workers b ∧
      ∃ done ∈ b.completed codec workers, row = done.filed b.job_file) ∨
    (row.status = .error ∧ row.error.isSome ∧
      (∀ b, a.Starts codec workers b → ∀ done ∈ b.completed codec workers, done.seed ≠ row.seed) ∧
      (row.not_attempted = true → ∃ b first rest, a.Starts codec workers b ∧
        b.Ends codec workers false ∧ b.pending codec workers = first :: rest ∧ row.seed ∈ rest))

@[simp] theorem Row.filed_seed (path : String) (row : Row ρ) : (row.filed path).seed = row.seed :=
  rfl

@[simp] theorem Row.filed_isSome (path : String) (row : Row ρ) :
    (row.filed path).job_file.isSome := rfl

theorem Row.filed_of_isSome {path : String} {row : Row ρ} (h : row.job_file.isSome) :
    row.filed path = row := by
  obtain ⟨file, hfile⟩ := Option.isSome_iff_exists.mp h
  cases row
  simp_all [Row.filed]

@[simp] theorem Attempt.filed_append (a : Attempt) (rows more : List (Row ρ)) :
    a.filed (rows ++ more) = a.filed rows ++ a.filed more :=
  List.map_append

@[simp] theorem Attempt.filed_seeds (a : Attempt) (rows : List (Row ρ)) :
    (a.filed rows).map (·.seed) = rows.map (·.seed) := by
  simp [Attempt.filed]

theorem starts_cases {a b : Attempt} (h : a.Starts codec workers b) :
    b = a ∨ ∃ c, a.Retries codec workers c ∧ c.Starts codec workers b := by
  rcases Relation.ReflTransGen.cases_head h with heq | hretry
  · exact .inl heq.symm
  · exact .inr hretry

/-- A retry takes a timeout and two missing seeds. -/
theorem Attempt.Retries.length {a b : Attempt} (h : a.Retries codec workers b) :
    a.Ends codec workers true ∧ 2 ≤ (a.pending codec workers).length := by
  obtain ⟨hends, first, next, rest, hpending, _⟩ := h
  refine ⟨hends, ?_⟩
  rw [hpending]
  simp

/-- Without a retry the call starts one process. -/
theorem starts_only {a b : Attempt} (hnone : ∀ c, ¬ a.Retries codec workers c)
    (h : a.Starts codec workers b) : b = a := by
  rcases starts_cases h with heq | ⟨c, hretry, _⟩
  · exact heq
  · exact absurd hretry (hnone c)

/-- A retry is about missing seeds, but the first one. -/
theorem starts_seeds {a b : Attempt} (h : a.Starts codec workers b) :
    b.job.seeds.Sublist a.job.seeds := by
  induction h with
  | refl => exact List.Sublist.refl _
  | tail _ hretry ih =>
      obtain ⟨_, first, next, rest, hpending, rfl⟩ := hretry
      have hsub : (next :: rest).Sublist (first :: next :: rest) := List.sublist_cons_self _ _
      rw [← hpending] at hsub
      exact (hsub.trans List.filter_sublist).trans ih

/-- A call whose process was the only one: its rows, then an error row for each seed it left
out. -/
theorem accounts_only {a : Attempt} (behaves : a.Behaves codec workers)
    (hseeds : a.job.seeds.Nodup) (hnone : ∀ c, ¬ a.Retries codec workers c)
    (marked : List (Row ρ)) (hmarked : marked.map (·.seed) = a.pending codec workers)
    (herror : ∀ row ∈ marked, row.status = .error ∧ row.error.isSome ∧
      (row.not_attempted = true → ∃ first rest, a.Ends codec workers false ∧
        a.pending codec workers = first :: rest ∧ row.seed ∈ rest)) :
    Accounts codec workers a (a.filed (a.completed codec workers ++ marked)) where
  seeds := by
    rw [Attempt.filed_seeds, List.map_append, hmarked]
    exact behaves.seeds hseeds
  filed := by
    intro row hrow
    obtain ⟨row, _, rfl⟩ := List.mem_map.mp hrow
    exact Row.filed_isSome _ row
  kept := by
    intro b hstarts row hrow
    obtain rfl := starts_only hnone hstarts
    exact List.mem_map_of_mem (List.mem_append_left _ hrow)
  others := by
    intro row hfiled
    obtain ⟨row, hrow, rfl⟩ := List.mem_map.mp hfiled
    rcases List.mem_append.mp hrow with hdone | hmark
    · exact .inl ⟨a, .refl, row, hdone, rfl⟩
    · obtain ⟨hstatus, hreason, hlater⟩ := herror row hmark
      refine .inr ⟨hstatus, hreason, fun b hstarts => ?_, fun h => ?_⟩
      · obtain rfl := starts_only hnone hstarts
        have hpending : row.seed ∈ b.pending codec workers := by
          rw [← hmarked]
          exact List.mem_map_of_mem hmark
        exact (Attempt.mem_pending.mp hpending).2
      · obtain ⟨first, rest, hends, hpending, hseed⟩ := hlater h
        exact ⟨a, first, rest, .refl, hends, hpending, hseed⟩

/-- After a timeout the call starts its process and those of the retry. -/
theorem starts_retry {a b : Attempt} {first next : Nat} {rest : List Nat}
    (hpending : a.pending codec workers = first :: next :: rest)
    (h : a.Starts codec workers b) : b = a ∨ (a.retry next rest).Starts codec workers b := by
  rcases starts_cases h with heq | ⟨c, ⟨_, first', next', rest', hpending', rfl⟩, hb⟩
  · exact .inl heq
  · obtain ⟨_, rfl, rfl⟩ : first = first' ∧ next = next' ∧ rest = rest' := by
      simpa using hpending.symm.trans hpending'
    exact .inr hb

/-- No process of a call completes the seed that is interrupted in its first one. -/
theorem interrupted_missing {a : Attempt}
    (behaves : ∀ b, a.Starts codec workers b → b.Behaves codec workers)
    (hseeds : a.job.seeds.Nodup) (hends : a.Ends codec workers true) {first next : Nat}
    {rest : List Nat} (hpending : a.pending codec workers = first :: next :: rest) :
    ∀ b, a.Starts codec workers b → ∀ done ∈ b.completed codec workers, done.seed ≠ first := by
  intro b hstarts done hdone heq
  have hnodup : (a.pending codec workers).Nodup := hseeds.filter _
  rcases starts_retry hpending hstarts with rfl | hb
  · have hfirst : first ∈ b.pending codec workers := by
      rw [hpending]
      exact List.mem_cons_self
    exact (Attempt.mem_pending.mp hfirst).2 done hdone heq
  · rw [hpending] at hnodup
    have hseed := (behaves b hstarts).requested done hdone
    rw [heq] at hseed
    -- a retry is not asked for it
    exact (List.nodup_cons.mp hnodup).1 ((starts_seeds hb).subset hseed)

/-- A call whose process timed out: its rows, an error row for the first seed it left out,
and the rows of the retry for the ones behind it. -/
theorem accounts_retry {a : Attempt}
    (behaves : ∀ b, a.Starts codec workers b → b.Behaves codec workers)
    (hseeds : a.job.seeds.Nodup) (hends : a.Ends codec workers true) {first next : Nat}
    {rest : List Nat} (hpending : a.pending codec workers = first :: next :: rest)
    {more : List (Row ρ)} (hmore : Accounts codec workers (a.retry next rest) more) :
    Accounts codec workers a (a.filed (a.completed codec workers ++
      [interruptedRow a (a.process workers) true first] ++ more)) := by
  have hretry : a.Retries codec workers (a.retry next rest) :=
    ⟨hends, first, next, rest, hpending, rfl⟩
  have hfiled : a.filed more = more :=
    (List.map_congr_left fun row h => Row.filed_of_isSome (hmore.filed row h)).trans
      (List.map_id more)
  rw [Attempt.filed_append, hfiled]
  refine ⟨?_, ?_, ?_, ?_⟩
  · have hperm := (behaves a .refl).seeds hseeds
    rw [hpending] at hperm
    rw [List.map_append, Attempt.filed_seeds]
    simp only [List.map_append, List.map_cons, List.map_nil, List.append_assoc,
      List.singleton_append]
    exact (List.Perm.append_left _ (hmore.seeds.cons first)).trans hperm
  · intro row hrow
    rcases List.mem_append.mp hrow with hown | hlater
    · obtain ⟨row, _, rfl⟩ := List.mem_map.mp hown
      exact Row.filed_isSome _ row
    · exact hmore.filed row hlater
  · intro b hb row hrow
    rcases starts_retry hpending hb with rfl | hb
    · exact List.mem_append_left _ (List.mem_map_of_mem (List.mem_append_left _ hrow))
    · exact List.mem_append_right _ (hmore.kept b hb row hrow)
  · intro row hreturned
    rcases List.mem_append.mp hreturned with hown | hlater
    · obtain ⟨row, hrow, rfl⟩ := List.mem_map.mp hown
      rcases List.mem_append.mp hrow with hdone | hmark
      · exact .inl ⟨a, .refl, row, hdone, rfl⟩
      · obtain rfl := List.mem_singleton.mp hmark
        exact .inr ⟨rfl, rfl, interrupted_missing behaves hseeds hends hpending,
          fun h => absurd h Bool.false_ne_true⟩
    · rcases hmore.others row hlater with ⟨b, hb, done⟩ | ⟨hstatus, hreason, hnone, hattempt⟩
      · exact .inl ⟨b, .head hretry hb, done⟩
      · refine .inr ⟨hstatus, hreason, fun b hb => ?_, fun h => ?_⟩
        · rcases starts_retry hpending hb with rfl | hb
          · have hseed : row.seed ∈ b.pending codec workers := by
              rw [hpending]
              exact List.mem_cons_of_mem _ (hmore.seeds.subset (List.mem_map_of_mem hlater))
            exact (Attempt.mem_pending.mp hseed).2
          · exact hnone b hb
        · obtain ⟨b, first, rest, hb, hbehind⟩ := hattempt h
          exact ⟨b, first, rest, .head hretry hb, hbehind⟩

/-- A call comes to an end and accounts for every seed. -/
def Accounted (codec : LineCodec (Row ρ)) (workers : Workers) (a : Attempt) : Prop :=
  ∃ rows, Accounts codec workers a rows ∧
    ∃ fuel, ∀ fuel' ≥ fuel, run_worker codec workers fuel' a = some (.ok rows)

theorem Accounts.accounted {a : Attempt} {rows : List (Row ρ)}
    (h : Accounts codec workers a rows) {fuel : Nat}
    (hrun : ∀ fuel' ≥ fuel, run_worker codec workers (fuel' + 1) a = some (.ok rows)) :
    Accounted codec workers a := by
  refine ⟨rows, h, fuel + 1, fun fuel' hle => ?_⟩
  obtain ⟨fuel', rfl⟩ : ∃ more, fuel' = more + 1 := ⟨fuel' - 1, by omega⟩
  exact hrun fuel' (by omega)

theorem accounted_complete {a : Attempt} (behaves : a.Behaves codec workers)
    (whole : ¬ a.Severed codec workers) (hseeds : a.job.seeds.Nodup)
    (hpending : a.pending codec workers = []) : Accounted codec workers a := by
  obtain ⟨timed_out, hends⟩ := behaves.ends whole
  obtain ⟨fuel, hrun⟩ := run_worker_eq behaves hends
  have hnone : ∀ c, ¬ a.Retries codec workers c := by
    intro c h
    have := h.length.2
    simp [hpending] at this
  have haccounts := accounts_only behaves hseeds hnone [] hpending.symm (by simp)
  refine haccounts.accounted fun fuel' (hle : fuel ≤ fuel') => ?_
  simpa only [hpending, List.append_nil] using hrun fuel' hle

theorem accounted_last {a : Attempt} (behaves : a.Behaves codec workers)
    (whole : ¬ a.Severed codec workers) (hseeds : a.job.seeds.Nodup) {first : Nat}
    (hpending : a.pending codec workers = [first]) : Accounted codec workers a := by
  obtain ⟨timed_out, hends⟩ := behaves.ends whole
  obtain ⟨fuel, hrun⟩ := run_worker_eq behaves hends
  have hnone : ∀ c, ¬ a.Retries codec workers c := by
    intro c h
    have := h.length.2
    simp [hpending] at this
  have haccounts := accounts_only behaves hseeds hnone
    [interruptedRow a (a.process workers) timed_out first] hpending.symm (by
      intro row hrow
      obtain rfl := List.mem_singleton.mp hrow
      exact ⟨rfl, rfl, fun h => absurd h Bool.false_ne_true⟩)
  refine haccounts.accounted fun fuel' (hle : fuel ≤ fuel') => ?_
  simpa only [hpending] using hrun fuel' hle

/-- After an exit the seeds behind the first missing one are not attempted. -/
theorem accounted_exit {a : Attempt} (behaves : a.Behaves codec workers)
    (hseeds : a.job.seeds.Nodup) (hends : a.Ends codec workers false) {first next : Nat}
    {rest : List Nat} (hpending : a.pending codec workers = first :: next :: rest) :
    Accounted codec workers a := by
  obtain ⟨fuel, hrun⟩ := run_worker_eq behaves hends
  have hnone : ∀ c, ¬ a.Retries codec workers c := fun c h =>
    Bool.false_ne_true (hends.unique h.length.1)
  have haccounts := accounts_only behaves hseeds hnone
    (interruptedRow a (a.process workers) false first ::
      (next :: rest).map (notAttemptedRow a (a.process workers) first))
    (by
      rw [hpending]
      simp [interruptedRow, notAttemptedRow, Function.comp_def])
    (by
      intro row hrow
      rcases List.mem_cons.mp hrow with rfl | hbehind
      · exact ⟨rfl, rfl, fun h => absurd h Bool.false_ne_true⟩
      · obtain ⟨seed, hseed, rfl⟩ := List.mem_map.mp hbehind
        exact ⟨rfl, rfl, fun _ => ⟨first, next :: rest, hends, hpending, hseed⟩⟩)
  refine haccounts.accounted fun fuel' (hle : fuel ≤ fuel') => ?_
  have hreturn := hrun fuel' hle
  simp only [hpending] at hreturn
  simpa using hreturn

/-- After a timeout they are left to the retry. -/
theorem accounted_retry {a : Attempt}
    (behaves : ∀ b, a.Starts codec workers b → b.Behaves codec workers)
    (hseeds : a.job.seeds.Nodup) (hends : a.Ends codec workers true) {first next : Nat}
    {rest : List Nat} (hpending : a.pending codec workers = first :: next :: rest)
    (hretry : Accounted codec workers (a.retry next rest)) : Accounted codec workers a := by
  obtain ⟨fuel, hrun⟩ := run_worker_eq (behaves a .refl) hends
  obtain ⟨more, hmore, later, hreturns⟩ := hretry
  have haccounts := accounts_retry behaves hseeds hends hpending hmore
  refine haccounts.accounted fun fuel' (hle : fuel + later ≤ fuel') => ?_
  have hreturn := hrun fuel' (by omega)
  simpa only [hpending, hreturns fuel' (by omega), if_true, Option.map_some,
    Except.map] using hreturn

/-- Without a lost socket a call comes to an end and accounts for every seed. -/
theorem accounted_of_whole {a : Attempt} (hseeds : a.job.seeds.Nodup)
    (behaves : ∀ b, a.Starts codec workers b → b.Behaves codec workers)
    (whole : ∀ b, a.Starts codec workers b → ¬ b.Severed codec workers) :
    Accounted codec workers a := by
  -- each retry is asked for fewer seeds
  induction hlength : a.job.seeds.length using Nat.strong_induction_on generalizing a with
  | _ length ih =>
      have hbehaves := behaves a .refl
      have hwhole := whole a .refl
      cases hpending : a.pending codec workers with
      | nil => exact accounted_complete hbehaves hwhole hseeds hpending
      | cons first behind =>
          cases behind with
          | nil => exact accounted_last hbehaves hwhole hseeds hpending
          | cons next rest =>
              obtain ⟨timed_out, hends⟩ := hbehaves.ends hwhole
              cases timed_out with
              | false => exact accounted_exit hbehaves hseeds hends hpending
              | true =>
                  have hretry : a.Retries codec workers (a.retry next rest) :=
                    ⟨hends, first, next, rest, hpending, rfl⟩
                  have hsub : (first :: next :: rest).Sublist a.job.seeds := by
                    rw [← hpending]
                    exact List.filter_sublist
                  have hfewer : (next :: rest).length < length := by
                    rw [← hlength]
                    exact hsub.length_le
                  exact accounted_retry behaves hseeds hends hpending
                    (ih (next :: rest).length hfewer (hsub.nodup hseeds).of_cons
                      (fun b hb => behaves b (.head hretry hb))
                      (fun b hb => whole b (.head hretry hb)) rfl)

/-- A call without a hook for the measurement loses no socket, nor do its retries. -/
theorem starts_unmeasured {a b : Attempt} (h : a.Starts codec workers b)
    (hmeasured : a.measured = false) : b.measured = false := by
  induction h with
  | refl => exact hmeasured
  | tail _ hretry ih =>
      obtain ⟨_, _, _, _, _, rfl⟩ := hretry
      exact ih

/-- The quality stage passes no hooks, so its calls account for every seed. -/
theorem accounted_of_unmeasured {a : Attempt} (hseeds : a.job.seeds.Nodup)
    (behaves : ∀ b, a.Starts codec workers b → b.Behaves codec workers)
    (hmeasured : a.measured = false) : Accounted codec workers a :=
  accounted_of_whole hseeds behaves fun _ hb =>
    not_severed_of_unmeasured (starts_unmeasured hb hmeasured)

/-- A call that returns rows, for all fuel from some on. -/
def Attempt.Returns (codec : LineCodec (Row ρ)) (workers : Workers) (a : Attempt) : Prop :=
  ∃ fuel, ∀ fuel' ≥ fuel, ∃ rows, run_worker codec workers fuel' a = some (.ok rows)

theorem Attempt.Severed.not_returns {a : Attempt} (h : a.Severed codec workers) :
    ¬ a.Returns codec workers := by
  rintro ⟨fuel, hreturns⟩
  obtain ⟨fuel', e, hraises⟩ := h.raises
  obtain ⟨rows, hrows⟩ := hreturns (fuel + fuel' + 1) (by omega)
  have hwatch := hraises (fuel + fuel') (by omega)
  simp only [Attempt.process] at hwatch
  rw [run_worker] at hrows
  simp only [hwatch] at hrows
  cases hrows

/-- A call that returns has the rows of its retry. -/
theorem Attempt.Retries.returns {a b : Attempt} (behaves : a.Behaves codec workers)
    (hretry : a.Retries codec workers b) (h : a.Returns codec workers) :
    b.Returns codec workers := by
  obtain ⟨hends, first, next, rest, hpending, rfl⟩ := hretry
  obtain ⟨fuel, hrun⟩ := run_worker_eq behaves hends
  obtain ⟨fuel', hreturns⟩ := h
  refine ⟨fuel + fuel', fun more hle => ?_⟩
  obtain ⟨rows, hrows⟩ := hreturns (more + 1) (by omega)
  have hmore := hrun more (by omega)
  simp only [hpending, if_true] at hmore
  rw [hmore] at hrows
  obtain ⟨outcome, houtcome, hmap⟩ := Option.map_eq_some_iff.mp hrows
  cases outcome with
  | error e => cases hmap
  | ok later => exact ⟨later, houtcome⟩

theorem Attempt.Returns.starts {a b : Attempt} (h : a.Returns codec workers)
    (behaves : ∀ b, a.Starts codec workers b → b.Behaves codec workers)
    (hb : a.Starts codec workers b) : b.Returns codec workers := by
  induction hb with
  | refl => exact h
  | tail hstarts hretry ih => exact hretry.returns (behaves _ hstarts) ih

end Processes

/-! ## A worker that hangs after its first row -/

deriving instance Encodable for Status

instance encodableChar : Encodable Char := .ofLeftInverse Char.toNat Char.ofNat Char.ofNat_toNat

instance encodableString : Encodable String :=
  .ofLeftInverse String.toList String.ofList fun _ => by simp

instance encodableRow : Encodable (Row Unit) :=
  .ofLeftInverse
    (fun row => (row.protocol, row.status, row.mode, row.seed, row.error, row.returncode, row.log,
      row.not_attempted, row.job_file, row.rest))
    (fun (protocol, status, mode, seed, error, returncode, log, not_attempted, job_file, rest) =>
      ⟨protocol, status, mode, seed, error, returncode, log, not_attempted, job_file, rest⟩)
    fun _ => rfl

/-- Rows in unary. -/
def tallyCodec : LineCodec (Row Unit) where
  encode row := List.replicate (Encodable.encode row) 49
  decode line := Encodable.decode line.length
  newline_free row h := absurd (List.eq_of_mem_replicate h) (by decide)
  decode_encode row := by simp

def tallyRows (seeds : List Nat) : List (Row Unit) :=
  (seeds.take 1).map fun seed => { protocol := PROTOCOL, status := .ok, mode := "timing_e2e", seed }

/-- Each process finds the same on its socket in every turn. -/
def hanging (signal : Signal) : Workers := fun _ seeds =>
  { started := 0
    poll := fun k => ⟨false, frame tallyCodec (tallyRows seeds), k, k, signal⟩
    file := frame tallyCodec (tallyRows seeds)
    returncode := -9
    log_tail := "" }

theorem hanging_holds (seeds : List Nat) :
    Holds tallyCodec (tallyRows seeds) (frame tallyCodec (tallyRows seeds)) :=
  ⟨[], by simp, by simp⟩

theorem hanging_completed (signal : Signal) (a : Attempt) :
    a.completed tallyCodec (hanging signal) = tallyRows a.job.seeds := by
  simp [Attempt.completed, Attempt.process, hanging, (hanging_holds a.job.seeds).readRecords]

theorem hanging_behaves (signal : Signal) {a : Attempt} (hmode : a.job.mode = "timing_e2e") :
    a.Behaves tallyCodec (hanging signal) where
  file := by
    rw [hanging_completed]
    exact hanging_holds a.job.seeds
  beats k := by
    refine ⟨(tallyRows a.job.seeds).length, ?_⟩
    rw [hanging_completed, List.take_length]
    exact hanging_holds a.job.seeds
  requested := by
    rw [hanging_completed]
    intro row hrow
    obtain ⟨seed, hseed, rfl⟩ := List.mem_map.mp hrow
    exact List.mem_of_mem_take hseed
  once := by
    rw [hanging_completed]
    rcases a.job.seeds with _ | ⟨seed, _⟩ <;> simp [tallyRows]
  valid := by
    rw [hanging_completed]
    intro row hrow
    obtain ⟨seed, _, rfl⟩ := List.mem_map.mp hrow
    exact ⟨rfl, hmode.symm⟩
  clock t k := by
    obtain ⟨n, hn⟩ := exists_nat_gt t
    refine ⟨n, lt_of_lt_of_le hn ?_⟩
    simp [Attempt.process, hanging]

theorem starts_mode {ρ : Type} {codec : LineCodec (Row ρ)} {workers : Workers} {a b : Attempt}
    (h : a.Starts codec workers b) : b.job.mode = a.job.mode := by
  induction h with
  | refl => rfl
  | tail _ hretry ih =>
      obtain ⟨_, _, _, _, _, rfl⟩ := hretry
      exact ih

def hangingAttempt : Attempt where
  number := 0
  directory := "batch"
  job :=
    { mode := "timing_e2e"
      seeds := [0, 1, 2]
      timeout_s := 2
      seeds_ne := List.cons_ne_nil _ _
      timeout_pos := by norm_num }
  measured := true

end TranspileBench.Coordinator.Batch
