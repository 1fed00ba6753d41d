import Mathlib.Data.List.Sort
import Mathlib.Data.List.Nodup
import Mathlib.Algebra.Order.Ring.Rat
import Mathlib.Data.Rat.Floor

/-!
Monitoring the cost workers: the placement on exclusive cores, the check of every window
of a worker process, and the evidence a measured bundle carries. Counters are exact
rationals.
-/
namespace TranspileBench.Lsf

def CONTRACT : String := "qtb-lsf-monitor/3"
def EVIDENCE_FORMAT : String := "qtb-lsf-monitor-evidence/1"
def COST_SLOTS : ℕ := 9
def LAYOUT : String := "monitor=core0,worker=core1,reserved=core2-8"

/-- The approved hardware of the cost stage. -/
structure Tier where
  model : Option String
  ncpus : Option ℕ
  deriving DecidableEq

structure Thresholds where
  window_s : ℚ
  idle_probe_s : ℚ
  foreign_cpu_fraction : ℚ
  foreign_cpu_floor_s : ℚ
  deriving DecidableEq

def THRESHOLDS : Thresholds := ⟨2, 2, 3 / 20, 3 / 100⟩

/-! The evidence of a bundle. A field that is missing is `none`, and so is a counter that
is no finite number. -/

/-- What a window's `measurement` field holds: the index of an interval when the monitor
wrote it, anything when the evidence was forged. -/
inductive Tag
  | number (value : ℚ)
  | boolean (value : Bool)
  | other (text : String)
  deriving DecidableEq

/-- `tag == index`, where a boolean is the number it stands for. -/
def Tag.is (index : ℕ) : Tag → Bool
  | .number value => value = index
  | .boolean value => value.toNat = index
  | .other _ => false

structure Window where
  index : Option ℕ
  start : Option ℚ
  stop : Option ℚ
  seconds : Option ℚ
  busy_s : Option ℚ
  worker_cpu_s : Option ℚ
  foreign_s : Option ℚ
  final : Bool
  measurement : Option Tag
  deriving DecidableEq

structure Interval where
  start : Option ℚ
  stop : Option ℚ
  deriving DecidableEq

/-- What the monitor saw of one worker process. -/
structure WorkerRecord where
  job : Option String
  process : Option ℕ
  launched : Option ℚ
  exited : Option ℚ
  returncode : Option ℤ
  aborted : Bool
  cpus : List ℕ
  windows : List Window
  measurements : List Interval
  deriving DecidableEq

structure Allocation where
  slots : Option ℕ
  hosts : List String
  exclusive_cores_requested : Bool
  single_host_requested : Bool
  selectors : Tier
  deriving DecidableEq

structure Layout where
  name : Option String
  mask : List ℕ
  monitor : List ℕ
  worker : List ℕ
  deriving DecidableEq

structure IdleProbe where
  seconds : Option ℚ
  foreign_s : Option ℚ
  deriving DecidableEq

/-- A bundle's `monitor` field. -/
structure Evidence where
  format : Option String
  contract : Option String
  identity : Option String
  thresholds : Option Thresholds
  tier : Option Tier
  host : Option String
  /-- The job key of the attempt that measured. -/
  attempt : Option String
  physical_cores : Option ℕ
  allocation : Allocation
  layout : Layout
  idle_probe : IdleProbe
  workers : List WorkerRecord
  deriving DecidableEq

/-! ## Checks -/

/-- `check_a`: whether the foreign time is within its limit, and the limit. -/
def checkA (foreign_s seconds : ℚ) (t : Thresholds) : Bool × ℚ :=
  let limit := max (t.foreign_cpu_fraction * seconds) t.foreign_cpu_floor_s
  (decide (foreign_s ≤ limit), limit)

def Window.decisive (w : Window) : Bool := w.measurement.isSome

/-- Rounding to the nearest integer, halves to even. -/
def roundHalfEven (q : ℚ) : ℤ :=
  let low := ⌊q⌋
  if q - low < 1 / 2 then low
  else if 1 / 2 < q - low then low + 1
  else if low % 2 = 0 then low else low + 1

/-- A number with a fixed count of decimals, as a format of Python prints it. -/
def fixed (places : ℕ) (q : ℚ) : String :=
  let scaled := roundHalfEven (|q| * 10 ^ places)
  let digits := (scaled.toNat % 10 ^ places).repr
  (if q < 0 then "-" else "") ++ (scaled.toNat / 10 ^ places).repr
    ++ if places = 0 then "" else "." ++ "".pushn '0' (places - digits.length) ++ digits

/-- `judge`: the reasons check A fails, empty when it holds. -/
def judge (foreign_s seconds : ℚ) (t : Thresholds) : List String :=
  let (ok, limit) := checkA foreign_s seconds t
  if ok then []
  else ["A: foreign CPU " ++ fixed 3 foreign_s ++ " s > " ++ fixed 3 limit ++ " s ("
    ++ fixed 0 (t.foreign_cpu_fraction * 100) ++ "% of " ++ fixed 2 seconds ++ " s)"]

theorem judge_eq_nil {foreign_s seconds : ℚ} {t : Thresholds} :
    judge foreign_s seconds t = [] ↔ (checkA foreign_s seconds t).1 = true := by
  unfold judge
  cases h : (checkA foreign_s seconds t).1 <;> simp [h]

end TranspileBench.Lsf
