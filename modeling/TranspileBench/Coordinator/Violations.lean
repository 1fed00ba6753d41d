import TranspileBench.Coordinator.GateAgreement
import TranspileBench.Coordinator.CostReplay
import Mathlib

/-!
A violation that the evidence of a decision proves. Grading adds no harness record, so the
verdict over the evidence is a constraint violation, and it stands as soon as every required
stage has ended; a required stage that has not finished keeps the decision open.
-/
namespace TranspileBench.Coordinator
open Evaluator Fallible

variable {N H : Type}

/-- A check of the candidate has failed, and nothing of the harness has. -/
structure Violated (evidence : List (Record N)) : Prop where
  violation : ∃ r ∈ evidence, r.result = .failed ∧ r.subject = .evolved ∧ r.kind ≠ .improvement
  harness : ∀ r ∈ evidence, r.result = .failed → r.kind ≠ .harness

/-- The verdict over evidence that proves a violation, whatever grading adds to it. -/
theorem Violated.verdict {pre : String} {evidence graded : List (Record N)} {ids : List String}
    {status : Status} (h : Violated evidence) (hgraded : ∀ r ∈ graded, IsGraded pre r)
    (hverdict : Evaluator.verdict (evidence ++ graded) ids = .ok status) :
    status = .CONSTRAINT_VIOLATION := by
  obtain ⟨r, hr, hfailed, hsubject, hkind⟩ := h.violation
  rw [← (verdict_eq_ok.mp hverdict).2]
  apply grade_violation _ (List.mem_append_left _ hr) hfailed hsubject hkind
  intro x hx hxfailed
  cases List.mem_append.mp hx with
  | inl hold => exact h.harness x hold hxfailed
  | inr hnew =>
      cases (hgraded x hnew).kind with
      | inl hguard => simp [hguard]
      | inr himproved => simp [himproved]

section Decision
variable [Arith N] [DecidableEq N] {platform : Platform N H} {run : Run N} {view : Snapshot N H}
  {w : World N H} {d : Decision N H}

/-- What a decision is made of: the stages that keep it open, and the verdict over the evidence
and what grading adds to it. -/
theorem decideOn_graded (h : decideOn platform run view w = .ok d) :
    ∃ (graded : List (Record N)) (status : Status), (∀ r ∈ graded, IsGraded run.prefix_ r)
      ∧ d.constraints = d.evidence ++ graded ∧ verdict d.constraints d.required_ids = .ok status
      ∧ d.pending = d.required.filter (fun s => isPending (view.states s))
      ∧ d.status = decisionStatus status (if d.pending = [] then none else some .INCONCLUSIVE) := by
  unfold decideOn gradeDecision at h
  obtain ⟨required, -, h⟩ := bind_eq_ok.mp h
  obtain ⟨merged, -, h⟩ := bind_eq_ok.mp h
  obtain ⟨rows, -, h⟩ := bind_eq_ok.mp h
  obtain ⟨replayed, -, h⟩ := bind_eq_ok.mp h
  obtain ⟨evidence, -, h⟩ := bind_eq_ok.mp h
  obtain ⟨⟨records, evaluated, summaries⟩, hevaluated, h⟩ := bind_eq_ok.mp h
  obtain ⟨panels, -, h⟩ := bind_eq_ok.mp h
  obtain ⟨status, hverdict, h⟩ := bind_eq_ok.mp h
  obtain ⟨observations, graded, -, hgraded, rfl, -, -⟩ := evaluateQuality_eq_ok.mp hevaluated
  cases h
  exact ⟨graded.records, status, gradePanels_all hgraded, rfl, hverdict, rfl, rfl⟩

/-- With nothing pending a proven violation is the decision. -/
theorem decideOn_settled (h : decideOn platform run view w = .ok d)
    (hviolated : Violated d.evidence)
    (hsettled : ∀ s ∈ d.required, isPending (view.states s) = false) :
    d.status = .CONSTRAINT_VIOLATION := by
  obtain ⟨graded, status, hgraded, hrecords, hverdict, hpending, hstatus⟩ := decideOn_graded h
  rw [hrecords] at hverdict
  obtain rfl := hviolated.verdict hgraded hverdict
  have hempty : d.pending = [] := by
    rw [hpending, List.filter_eq_nil_iff]
    intro s hs
    simp [hsettled s hs]
  rw [hstatus, if_pos hempty]
  rfl

/-- The guard of `make_decision`: a pending stage imposes its status over any verdict but an
error. -/
theorem decideOn_pending (h : decideOn platform run view w = .ok d)
    (hviolated : Violated d.evidence)
    {s : Stage} (hs : s ∈ d.required) (hpends : isPending (view.states s) = true) :
    d.status = .INCONCLUSIVE := by
  obtain ⟨graded, status, hgraded, hrecords, hverdict, hpending, hstatus⟩ := decideOn_graded h
  rw [hrecords] at hverdict
  obtain rfl := hviolated.verdict hgraded hverdict
  have hmem : s ∈ d.pending := by
    rw [hpending]
    exact List.mem_filter.mpr ⟨hs, hpends⟩
  rw [hstatus, if_neg (List.ne_nil_of_mem hmem)]
  rfl

/-- A proven violation is the decision as long as no required stage is pending; while one is,
the decision is inconclusive. -/
theorem decideOn_violation (h : decideOn platform run view w = .ok d)
    (hviolated : Violated d.evidence) :
    ((∀ s ∈ d.required, isPending (view.states s) = false) → d.status = .CONSTRAINT_VIOLATION)
      ∧ ((∃ s ∈ d.required, isPending (view.states s) = true) → d.status = .INCONCLUSIVE) :=
  ⟨decideOn_settled h hviolated, fun ⟨_, hs, hpends⟩ => decideOn_pending h hviolated hs hpends⟩

end Decision

/-! ## Identical builds that measured alike; the unit tests have found a regression -/

section Sample
attribute [local instance] integerArith

def regression : Record Int :=
  { id := "CA1/upstream/evolved", kind := .correctness, result := .failed }

def unitTestEvidence : List (Record Int) :=
  [{ id := "CA1/upstream/baseline", kind := .correctness, result := .passed,
     subject := .reference }, regression,
    { id := "CA1/upstream", kind := .correctness, result := .unresolved }]

/-- The session, by where its correctness stage is. -/
noncomputable def regressedWorld (correctness : StageState) : World Int StageState :=
  { World.empty with
    run := some identicalRun
    stages := fun s => match s with
      | .compile => { state := some ⟨.complete, 1, none, none⟩, evidence := [roundtrip .passed] }
      | .quality =>
          { state := some ⟨.complete, 1, some (.aa, ""), none⟩
            observations := RecordLog.frame (Platform.unary sampleSetting).codec gradedRows }
      | .correctness => { state := some correctness }
      | .unit_tests => { state := some ⟨.complete, 1, none, none⟩, evidence := unitTestEvidence }
      | .cost => {} }

theorem regressed_rows (correctness : StageState) :
    readRows (Platform.unary sampleSetting)
      ((regressedWorld correctness).stages .quality).observations
      = .ok gradedRows := by
  have holds : RecordLog.Holds (Platform.unary sampleSetting).codec gradedRows
      ((regressedWorld correctness).stages .quality).observations :=
    ⟨[], by simp, (List.append_nil _).symm⟩
  rw [readRows, holds.readRecords]

/-- The session while its correctness stage runs. -/
noncomputable def runningWorld : World Int StageState :=
  regressedWorld ⟨.running, 1, none, none⟩

theorem running_decided : ∃ d, decideOn (Platform.unary sampleSetting) identicalRun
    (runningWorld.snapshot (Platform.unary sampleSetting)) runningWorld = .ok d
      ∧ d.evidence = roundtrip .passed :: unitTestEvidence
      ∧ d.required = [.compile, .quality, .correctness, .unit_tests] := by
  have graded : ((evaluateQuality gradedManifest gradedPolicy gradedRows
      (roundtrip .passed :: unitTestEvidence)).bind fun out =>
        verdict out.1 (requiredIds identicalRun out.2.1 []
          [.compile, .quality, .correctness, .unit_tests])).isOk = true := by
    decide +kernel
  obtain ⟨status, hstatus⟩ := isOk_iff.mp graded
  obtain ⟨out, hout, hverdict⟩ := bind_eq_ok.mp hstatus
  have hrows : decidedRows (Platform.unary sampleSetting) false
      (runningWorld.snapshot (Platform.unary sampleSetting)) runningWorld = .ok gradedRows :=
    bind_eq_ok.mpr ⟨_, regressed_rows _, rfl⟩
  refine ⟨_, bind_eq_ok.mpr ⟨_, rfl, bind_eq_ok.mpr ⟨_, rfl, bind_eq_ok.mpr ⟨_, hrows,
    bind_eq_ok.mpr ⟨_, rfl, bind_eq_ok.mpr ⟨_, rfl, bind_eq_ok.mpr ⟨_, hout,
      bind_eq_ok.mpr ⟨[], rfl, bind_eq_ok.mpr ⟨_, hverdict, rfl⟩⟩⟩⟩⟩⟩⟩⟩, rfl, rfl⟩

theorem unitTestEvidence_violated : Violated (roundtrip .passed :: unitTestEvidence) :=
  ⟨⟨regression, by simp [unitTestEvidence], rfl, rfl, by decide⟩, by
    simp [unitTestEvidence, regression, roundtrip]⟩

theorem decideOn_violation_running : ∃ d, decideOn (Platform.unary sampleSetting) identicalRun
    (runningWorld.snapshot (Platform.unary sampleSetting)) runningWorld = .ok d
      ∧ d.status = .INCONCLUSIVE := by
  obtain ⟨d, hd, hevidence, hrequired⟩ := running_decided
  have hviolated : Violated d.evidence := hevidence ▸ unitTestEvidence_violated
  exact ⟨d, hd, (decideOn_violation hd hviolated).2 ⟨.correctness, by simp [hrequired], rfl⟩⟩

/-- The regression is proven and correctness still runs: the decision is inconclusive. -/
theorem violation_outranked : ∃ d, decideOn (Platform.unary sampleSetting) identicalRun
    (runningWorld.snapshot (Platform.unary sampleSetting)) runningWorld = .ok d
      ∧ Violated d.evidence ∧ d.status ≠ .CONSTRAINT_VIOLATION := by
  obtain ⟨d, hd, hevidence, hrequired⟩ := running_decided
  have hviolated : Violated d.evidence := hevidence ▸ unitTestEvidence_violated
  have hstatus := decideOn_pending hd hviolated (s := .correctness) (by simp [hrequired]) rfl
  exact ⟨d, hd, hviolated, by simp [hstatus]⟩

end Sample

end TranspileBench.Coordinator
