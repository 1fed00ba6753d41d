import TranspileBench.Lsf.CostEvidence

/-!
What monitored cost evidence without problems proves: which jobs were measured, that each
process was watched from its launch to its exit, and that every measured stretch passed
check A.
-/
namespace TranspileBench.Lsf
open Evaluator (Estimator)
open Tiling

def Window.span (w : Window) : Option (ℚ × ℚ) := do
  let start ← w.start
  let stop ← w.stop
  some (start, stop)

theorem Window.span_eq {w : Window} {c : Counters} (h : w.counters = some c) :
    w.start = some c.start ∧ w.stop = some c.stop ∧ w.span = some (c.start, c.stop) := by
  simp only [Window.counters, Option.bind_eq_bind, Option.bind_eq_some_iff] at h
  obtain ⟨_, hstart, _, hstop, _, -, _, -, _, -, _, -, hc⟩ := h
  cases hc
  simp [Window.span, hstart, hstop]

def Spans (windows : List Window) (spans : List (ℚ × ℚ)) : Prop :=
  windows.map Window.span = spans.map some

/-- A process that was watched without a gap from its launch to its exit, in windows of
which the last and no other is final. -/
structure Watched (r : WorkerRecord) : Prop where
  tiled : ∃ launched exited spans, r.launched = some launched ∧ r.exited = some exited
    ∧ Spans r.windows spans ∧ Tiles TOLERANCE_S launched exited spans
  final : ∃ front last, r.windows = front ++ [last] ∧ last.final = true
    ∧ ∀ w ∈ front, w.final = false

/-- A measured interval that an unbroken run of the windows tagged with it covers. -/
def Covered (windows : List Window) (index : ℕ) (interval : Interval) : Prop :=
  ∃ start stop spans, interval.start = some start ∧ interval.stop = some stop ∧ start < stop
    ∧ Spans (windows.filter (Window.tagged index)) spans ∧ Tiles TOLERANCE_S start stop spans
    ∧ spans.IsChain fun x y => x.2 = y.1

/-- A window whose own counters, consistent within the tolerance, pass check A. -/
def Clean (t : Thresholds) (w : Window) : Prop :=
  ∃ c, w.counters = some c ∧ 0 < c.seconds
    ∧ |c.stop - c.start - c.seconds| ≤ TOLERANCE_S
    ∧ |c.busy_s - c.worker_cpu_s - c.foreign_s| ≤ TOLERANCE_S
    ∧ (checkA c.foreign_s c.seconds t).1 = true

/-- What admitted evidence proves of a measurement. -/
structure Vouched (bundle : MonitoredBundle) (records : List WorkerRecord) (t : Thresholds)
    (estimator : Estimator) (count cases : ℕ) : Prop where
  /-- As many distinct jobs as the estimator implies. -/
  jobs : (bundle.worker_jobs.map (·.job)).Nodup
    ∧ (bundle.worker_jobs.map (·.job)).length = expectedJobs estimator count cases
  /-- Both arms and no other, equally often. -/
  arms : (∀ job ∈ bundle.worker_jobs, job.arm = some "baseline" ∨ job.arm = some "evolved")
    ∧ (bundle.worker_jobs.map (·.arm)).count (some "baseline")
      = (bundle.worker_jobs.map (·.arm)).count (some "evolved")
  recorded : ∀ job ∈ bundle.worker_jobs, ∃ r ∈ records, r.job = job.job
  own : ∀ r ∈ records, ∃ job ∈ bundle.worker_jobs, job.job = r.job
  measured : ∀ job ∈ bundle.worker_jobs,
    measuredEntries records job.job = entriesPerJob estimator cases
  watched : ∀ r ∈ records, Watched r
  covered : ∀ r ∈ records, ∀ index interval, r.measurements[index]? = some interval →
    Covered r.windows index interval
  clean : ∀ r ∈ records, ∀ w ∈ r.windows, w.measurement.isSome = true → Clean t w

/-! ## Windows -/

section Windows
variable {t : Thresholds} {previous : Option Counters} {windows : List Window}

theorem WindowsAdmissible.mem (h : WindowsAdmissible t previous windows) :
    ∀ w ∈ windows, ∃ c before, w.counters = some c ∧ c.Admissible t before w.decisive := by
  induction windows generalizing previous with
  | nil => simp
  | cons w rest ih =>
      obtain ⟨c, hc, hok, hrest⟩ := h
      exact List.forall_mem_cons.mpr ⟨⟨c, previous, hc, hok⟩, ih hrest⟩

theorem spans_of_counters (h : ∀ w ∈ windows, ∃ c, w.counters = some c) :
    ∃ spans, Spans windows spans := by
  induction windows with
  | nil => exact ⟨[], rfl⟩
  | cons w rest ih =>
      obtain ⟨⟨c, hc⟩, hrest⟩ := List.forall_mem_cons.mp h
      obtain ⟨spans, hspans⟩ := ih hrest
      refine ⟨(c.start, c.stop) :: spans, ?_⟩
      simp only [Spans, List.map_cons, (Window.span_eq hc).2.2]
      rw [hspans]

/-- Each window meets the one before it, so together they tile the time they start and
end in. -/
theorem WindowsAdmissible.tiles (h : WindowsAdmissible t previous windows) {a b : ℚ}
    (ha : near (windows.head?.bind (·.start)) a = true)
    (hb : near (windows.getLast?.bind (·.stop)) b = true) :
    ∃ spans, Spans windows spans ∧ Tiles TOLERANCE_S a b spans := by
  induction windows generalizing previous a with
  | nil => simp [near] at ha
  | cons w rest ih =>
      obtain ⟨c, hc, -, hrest⟩ := h
      obtain ⟨hstart, hstop, hspan⟩ := Window.span_eq hc
      have hfirst : |c.start - a| ≤ TOLERANCE_S := by simpa [near, hstart] using ha
      cases rest with
      | nil =>
          have hlast : |c.stop - b| ≤ TOLERANCE_S := by simpa [near, hstop] using hb
          exact ⟨[(c.start, c.stop)], by simp [Spans, hspan], hfirst, hlast⟩
      | cons w' rest =>
          obtain ⟨c', hc', hok', -⟩ := id hrest
          have hmeets : near ((w' :: rest).head?.bind (·.start)) c.stop = true := by
            simpa [near, (Window.span_eq hc').1] using hok'.meets c rfl
          have hlast : near ((w' :: rest).getLast?.bind (·.stop)) b = true := by
            simpa using hb
          obtain ⟨spans, hspans, htiles⟩ := ih hrest hmeets hlast
          cases spans with
          | nil => exact htiles.elim
          | cons s spans =>
              refine ⟨(c.start, c.stop) :: s :: spans, ?_, hfirst, htiles⟩
              simp only [Spans, List.map_cons, hspan] at hspans ⊢
              rw [hspans]

theorem Window.start_stop_of_span {w : Window} {span : ℚ × ℚ} (h : w.span = some span) :
    w.start = some span.1 ∧ w.stop = some span.2 := by
  simp only [Window.span, Option.bind_eq_bind, Option.bind_eq_some_iff] at h
  obtain ⟨start, hstart, stop, hstop, hspan⟩ := h
  cases hspan
  exact ⟨hstart, hstop⟩

theorem Spans.chain {spans : List (ℚ × ℚ)} (h : Spans windows spans)
    (hchain : windows.IsChain fun a b => a.stop = b.start) :
    spans.IsChain fun x y => x.2 = y.1 := by
  induction windows generalizing spans with
  | nil =>
      have hnil : spans = [] := List.map_eq_nil_iff.mp (Eq.symm h)
      simp [hnil]
  | cons w rest ih =>
      cases spans with
      | nil => simp
      | cons s spans =>
          obtain ⟨hw, hrest⟩ := List.cons_eq_cons.mp h
          cases rest with
          | nil =>
              have hnil : spans = [] := List.map_eq_nil_iff.mp (Eq.symm hrest)
              simp [hnil]
          | cons w' rest =>
              obtain ⟨hmeet, hchain⟩ := List.isChain_cons_cons.mp hchain
              cases spans with
              | nil => simp
              | cons s' spans =>
                  have hw' := (List.cons_eq_cons.mp hrest).1
                  rw [(Window.start_stop_of_span hw).2, (Window.start_stop_of_span hw').1] at hmeet
                  exact List.isChain_cons_cons.mpr ⟨Option.some.inj hmeet, ih hrest hchain⟩

end Windows

/-! ## Records -/

section Records
variable {t : Thresholds} {worker_cpus : List ℕ} {r : WorkerRecord}

theorem RecordAdmissible.watched (h : RecordAdmissible t worker_cpus r) : Watched r where
  tiled := by
    obtain ⟨launched, w, v, hl, hw, hv, hnear⟩ := h.launched
    obtain ⟨exited, w', v', he, hw', hv', hnear'⟩ := h.exited
    have ha : near (r.windows.head?.bind (·.start)) launched = true :=
      near_eq_true.mpr ⟨v, by simp [hw, hv], hnear⟩
    have hb : near (r.windows.getLast?.bind (·.stop)) exited = true :=
      near_eq_true.mpr ⟨v', by simp [hw', hv'], hnear'⟩
    obtain ⟨spans, hspans, htiles⟩ := h.windows.tiles ha hb
    exact ⟨launched, exited, spans, hl, he, hspans, htiles⟩
  final := by
    have hfinal := h.final
    cases hlast : r.windows.getLast? with
    | none => simp [hlast] at hfinal
    | some last =>
        refine ⟨r.windows.dropLast, last, ?_, by simpa [hlast] using hfinal, ?_⟩
        · exact (List.dropLast_append_getLast? last hlast).symm
        · simpa using h.single

theorem RecordAdmissible.covered (h : RecordAdmissible t worker_cpus r) {index : ℕ}
    {interval : Interval} (hi : r.measurements[index]? = some interval) :
    Covered r.windows index interval := by
  have hcovered := h.intervals interval index (List.mk_mem_zipIdx_iff_getElem?.mpr hi)
  obtain ⟨start, stop, hstart, hstop, hlt⟩ := hcovered.bounds
  obtain ⟨w, v, hw, hv, hnear⟩ := hcovered.first
  obtain ⟨w', v', hw', hv', hnear'⟩ := hcovered.last
  obtain ⟨spans, hspans⟩ : ∃ spans, Spans (r.windows.filter (Window.tagged index)) spans := by
    apply spans_of_counters
    intro x hx
    obtain ⟨c, -, hc, -⟩ := h.windows.mem x (List.mem_filter.mp hx).1
    exact ⟨c, hc⟩
  have hchain := hspans.chain hcovered.unbroken
  refine ⟨start, stop, spans, hstart, hstop, hlt, hspans, ?_, hchain⟩
  apply tiles_of_chain (by norm_num [TOLERANCE_S]) ?_ ?_ hchain
  · rintro rfl
    have hnil := List.map_eq_nil_iff.mp hspans
    simp [hnil] at hw
  · intro s hs
    have hspan : w.span = some s := by
      simpa [hw, Option.mem_def.mp hs] using congrArg List.head? hspans
    rw [(Window.start_stop_of_span hspan).1] at hv
    cases hv
    exact hnear start hstart
  · intro s hs
    have hspan : w'.span = some s := by
      simpa [hw', Option.mem_def.mp hs] using congrArg List.getLast? hspans
    rw [(Window.start_stop_of_span hspan).2] at hv'
    cases hv'
    exact hnear' stop hstop

theorem RecordAdmissible.clean (h : RecordAdmissible t worker_cpus r) {w : Window}
    (hw : w ∈ r.windows) (hm : w.measurement.isSome = true) : Clean t w := by
  obtain ⟨c, before, hc, hok⟩ := h.windows.mem w hw
  exact ⟨c, hc, hok.positive, hok.length, hok.foreign, hok.clean hm⟩

end Records

/-- Evidence without problems vouches for the measurement. -/
theorem evidence_sound (bundle : MonitoredBundle) (required : EvidenceRequirement)
    (estimator : Estimator) (count cases : ℕ)
    (h : problems bundle required estimator count cases = []) :
    ∃ m, bundle.monitor = some m ∧ m.thresholds = some required.thresholds
      ∧ Vouched bundle m.workers required.thresholds estimator count cases := by
  obtain ⟨-, m, hm, hsession, -, hcoverage⟩ := problems_eq_nil.mp h
  have ht := (sessionProblems_eq_nil.mp hsession).2.2.2.1
  refine ⟨m, hm, ht, ?_⟩
  have harms := hcoverage.arms
  simp only [balanced, Bool.and_eq_true, List.all_eq_true, beq_iff_eq] at harms
  exact {
    jobs := ⟨hcoverage.distinct, by simpa using hcoverage.count⟩
    arms := ⟨fun job hjob => by
      simpa [ARMS] using harms.1.1 job.arm (List.mem_map_of_mem hjob), harms.2⟩
    recorded := fun job hjob => by
      simpa using hcoverage.monitored job.job (List.mem_map_of_mem hjob)
    own := fun r hr => by simpa using hcoverage.own r.job (List.mem_map_of_mem hr)
    measured := fun job hjob => hcoverage.measured job.job (List.mem_map_of_mem hjob)
    watched := fun r hr => (hcoverage.admissible r hr).watched
    covered := fun r hr index interval hi => (hcoverage.admissible r hr).covered hi
    clean := fun r hr w hw hm => (hcoverage.admissible r hr).clean hw hm }

/-! ## One round of a panel of one case, on cores 0 and 1 of a host with hyperthreads -/

def sampleTier : Tier := ⟨none, some 56⟩

def sampleWindow : Window where
  index := some 0
  start := some 0
  stop := some 1
  seconds := some 1
  busy_s := some 1
  worker_cpu_s := some 1
  foreign_s := some 0
  final := true
  measurement := some (.number 0)

def sampleRecord (arm : String) : WorkerRecord where
  job := some ("0-batch-" ++ arm)
  process := some 1
  launched := some 0
  exited := some 1
  returncode := some 0
  aborted := false
  cpus := [1, 57]
  windows := [sampleWindow]
  measurements := [⟨some 0, some 1⟩]

def sampleEvidence : Evidence where
  format := some EVIDENCE_FORMAT
  contract := some CONTRACT
  identity := some "measured"
  thresholds := some THRESHOLDS
  tier := some sampleTier
  host := some "node"
  attempt := some "cost-a01"
  physical_cores := some 56
  allocation := ⟨some 9, ["node"], true, true, sampleTier⟩
  layout := ⟨some LAYOUT, [0, 1, 56, 57], [0, 56], [1, 57]⟩
  idle_probe := ⟨some 2, some 0⟩
  workers := ["baseline", "evolved"].map sampleRecord

def sampleBundle : MonitoredBundle where
  measurement_mode := some "cores"
  host := some "node"
  worker_jobs := ["baseline", "evolved"].map fun arm => ⟨some ("0-batch-" ++ arm), some arm⟩
  monitor := some sampleEvidence

theorem evidence_sound_sample :
    problems sampleBundle (requirement "measured" sampleTier) .timing 1 1 = [] ∧
      ∃ m, sampleBundle.monitor = some m ∧ m.thresholds = some THRESHOLDS
        ∧ Vouched sampleBundle m.workers THRESHOLDS .timing 1 1 :=
  have h : problems sampleBundle (requirement "measured" sampleTier) .timing 1 1 = [] := by
    decide +kernel
  ⟨h, evidence_sound sampleBundle (requirement "measured" sampleTier) .timing 1 1 h⟩

end TranspileBench.Lsf
