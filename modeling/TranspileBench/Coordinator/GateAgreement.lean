import TranspileBench.Coordinator.Playback
import TranspileBench.Coordinator.StateMachine
import TranspileBench.Evaluator.Frame
import Mathlib

/-!
The gate of the quality stage and the cost that is due behind it. They apply different
rules to records of different times, and they agree: behind an open gate, cost is due
unless correctness found a failure.
-/
namespace TranspileBench.Coordinator
open Evaluator Fallible

variable {N H : Type}

/-! ## An open gate -/

section Gate
variable {builds : Builds} {records : List (Record N)} {required improvements : List String}

/-- An open gate is A/A for identical builds; else every improvement has passed. -/
theorem gate_cases (h : (gate builds records required improvements).1 ≠ .closed) :
    ((gate builds records required improvements).1 = .aa ∧ sameBuild builds = true) ∨
    ((gate builds records required improvements).1 = .improved ∧
      ∀ r ∈ records, r.kind = .improvement → r.result = .passed) := by
  unfold gate at h ⊢
  dsimp only at h ⊢
  generalize (if improvements = [] then
    sortedSet ((records.filter (·.kind == .improvement)).map (·.id))
    else sortedSet improvements) = ids at h ⊢
  by_cases hblocking : blockingIds records required improvements ≠ []
  · rw [if_pos hblocking] at h
    exact absurd rfl h
  rw [if_neg hblocking] at h ⊢
  by_cases hsame : sameBuild builds = true
  · rw [if_pos hsame]
    exact .inl ⟨rfl, hsame⟩
  rw [if_neg hsame] at h ⊢
  by_cases hpassed : ids ≠ [] ∧
      ids.all (fun id => (byId records.reverse id).any (·.result == .passed)) ∧
      records.all (fun r => r.kind != .improvement || r.result == .passed)
  · rw [if_pos hpassed]
    refine .inr ⟨rfl, fun r hr hkind => ?_⟩
    have hall := List.all_eq_true.mp hpassed.2.2 r hr
    simpa [hkind] using hall
  · rw [if_neg hpassed] at h
    split at h <;> exact absurd rfl h

def Blocking (r : Record N) : Prop := r.result = .failed ∧ r.kind ≠ .improvement

theorem costStageDue_eq_none :
    costStageDue builds records = none ↔
      ((∃ r ∈ records, r.kind = .improvement ∧ r.result = .passed) →
        ∃ r ∈ records, r.result = .failed) ∧
      (sameBuild builds = true → ∃ r ∈ records, Blocking r) := by
  have himproved : (records.any fun r => r.kind == .improvement && r.result == .passed) = true ↔
      ∃ r ∈ records, r.kind = .improvement ∧ r.result = .passed := by simp
  have hfailed : (records.any (·.result == .failed)) = true ↔
      ∃ r ∈ records, r.result = .failed := by
    simp
  have hblocking : (records.any fun r => r.result == .failed && r.kind != .improvement) = true ↔
      ∃ r ∈ records, Blocking r := by
    simp [Blocking]
  rw [← himproved, ← hfailed, ← hblocking]
  unfold costStageDue
  generalize (records.any fun r => r.kind == .improvement && r.result == .passed) = improved
  generalize records.any (·.result == .failed) = failed
  generalize (records.any fun r => r.result == .failed && r.kind != .improvement) = blocking
  cases improved <;> cases failed <;> cases blocking <;> cases sameBuild builds <;> decide

end Gate

/-! ## Grading again with more evidence -/

section Regrading
variable {evidence more : List (Record N)} {policy : Policy N}

theorem resultOf_append {id : String} (fresh : ∀ r ∈ more, r.id ≠ id) :
    resultOf (evidence ++ more) id = resultOf evidence id := by
  have hnone : byId more.reverse id = none := by
    refine List.find?_eq_none.mpr fun r hr => ?_
    simpa using fresh r (List.mem_reverse.mp hr)
  unfold byId at hnone
  simp only [resultOf, byId, List.reverse_append, List.find?_append, hnone, Option.none_or]

theorem exists_of_resultOf {id : String} {result : Result}
    (h : resultOf evidence id = some result) : ∃ r ∈ evidence, r.id = id := by
  obtain ⟨r, hr, -⟩ := Option.map_eq_some_iff.mp h
  refine ⟨r, List.mem_reverse.mp (List.mem_of_find?_eq_some hr), ?_⟩
  simpa using List.find?_some hr

/-- Evidence of other ids does not touch a prerequisite that has passed. -/
theorem panelValid_append (hvalid : panelValid policy evidence = true)
    (distinct : ∀ a ∈ evidence, ∀ b ∈ more, a.id ≠ b.id) :
    panelValid policy (evidence ++ more) = true := by
  rw [panelValid_iff] at hvalid ⊢
  intro id hid
  obtain ⟨r, hr, rfl⟩ := exists_of_resultOf (hvalid id hid)
  rw [resultOf_append fun b hb => (distinct r hr b hb).symm]
  exact hvalid r.id hid

end Regrading

section Agreement
variable [Arith N] {view : Run N} {rows : List (Observation N)}
  {evidence more : List (Record N)} {found : GateState × String}

/-- What an open gate was judged over: the evidence, and records of a valid measurement. -/
structure OpenGate (view : Run N) (rows : List (Observation N)) (evidence graded : List (Record N))
    (required : List String) (summaries : List (String × Summary N))
    (found : GateState × String) : Prop where
  judged : gate view.builds (evidence ++ graded) (requiredQuality view.prefix_ required)
    (improvementIds view.profile.manifest) = found
  evaluated : evaluateQuality view.profile.manifest view.profile.policy rows evidence =
    .ok (evidence ++ graded, required, summaries)
  /-- Evidence of other ids changes none of it. -/
  again : ∀ more : List (Record N), (∀ a ∈ evidence, ∀ b ∈ more, a.id ≠ b.id) →
    evaluateQuality view.profile.manifest view.profile.policy rows (evidence ++ more) =
      .ok (evidence ++ more ++ graded, required, summaries)
  passed : ∀ r ∈ evidence ++ graded, r.kind ≠ .improvement → r.result = .passed
  improved : found.1 = .improved →
    (∀ r ∈ evidence ++ graded, r.kind = .improvement → r.result = .passed) ∧
      ∃ r ∈ graded, r.kind = .improvement
  aa : found.1 ≠ .improved → found.1 = .aa

theorem qualityGate_open (h : qualityGate view rows evidence = .ok found)
    (hopen : found.1 ≠ .closed) :
    ∃ graded required summaries, OpenGate view rows evidence graded required summaries found := by
  unfold qualityGate at h
  obtain ⟨⟨records, required, summaries⟩, hevaluated, h⟩ := bind_eq_ok.mp h
  obtain ⟨observations, graded, hindex, hgraded, rfl, rfl, rfl⟩ :=
    evaluateQuality_eq_ok.mp hevaluated
  obtain rfl := Except.ok.inj h
  have hpassed := gate_open hopen
  -- the gate count is guarded, and would be unresolved in an invalid measurement
  have hvalid : panelValid view.profile.policy evidence = true := by
    obtain ⟨r, hr, hkind, hinvalid⟩ := gradePanels_guard hgraded
    by_contra hno
    have hresult := hpassed r (List.mem_append_right _ hr) (by simp [hkind])
    rw [hinvalid (Bool.eq_false_iff.mpr hno)] at hresult
    cases hresult
  refine ⟨graded.records, _, _, rfl, hevaluated, fun more distinct => ?_, hpassed,
    fun himproved => ?_,
    fun hne => ?_⟩
  · refine evaluateQuality_eq_ok.mpr ⟨observations, graded, hindex, ?_, rfl, rfl, rfl⟩
    rw [panelValid_append hvalid distinct, ← hvalid]
    exact hgraded
  · obtain ⟨r, hr, -, hkind, -⟩ := gradePanels_improvement hgraded
    rcases gate_cases hopen with ⟨haa, _⟩ | ⟨_, hall⟩
    · rw [himproved] at haa
      cases haa
    · exact ⟨hall, r, hr, hkind⟩
  · rcases gate_cases hopen with ⟨haa, _⟩ | ⟨himproved, _⟩
    · exact haa
    · exact absurd himproved hne

/-- Behind an open gate cost is due unless the new evidence has a failed record. -/
theorem OpenGate.costDue {run : Run N} {graded : List (Record N)} {required : List String}
    {summaries : List (String × Summary N)}
    (h : OpenGate view rows evidence graded required summaries found)
    (profile : run.profile = view.profile)
    (identical : found.1 = .aa → sameBuild run.builds = true)
    (distinct : ∀ a ∈ evidence, ∀ b ∈ more, a.id ≠ b.id)
    (kinds : ∀ r ∈ more, r.kind ≠ .improvement) :
    ∃ due, gradeCostDue run rows (evidence ++ more) = .ok due ∧
      (due = none ↔ ∃ r ∈ more, r.result = .failed) := by
  refine ⟨costStageDue run.builds (evidence ++ more ++ graded), ?_, ?_⟩
  · unfold gradeCostDue
    rw [profile, h.again more distinct]
    rfl
  have hmember : ∀ r, r ∈ evidence ++ more ++ graded ↔ r ∈ evidence ++ graded ∨ r ∈ more := by
    intro r
    simp only [List.mem_append]
    tauto
  -- a failed record that is no improvement comes with the new evidence
  have hblocking : (∃ r ∈ evidence ++ more ++ graded, Blocking r) ↔
      ∃ r ∈ more, r.result = .failed := by
    constructor
    · rintro ⟨r, hr, hresult, hkind⟩
      rcases (hmember r).mp hr with hold | hnew
      · rw [h.passed r hold hkind] at hresult
        cases hresult
      · exact ⟨r, hnew, hresult⟩
    · rintro ⟨r, hr, hresult⟩
      exact ⟨r, (hmember r).mpr (.inr hr), hresult, kinds r hr⟩
  rw [costStageDue_eq_none, ← hblocking]
  constructor
  · rintro ⟨hfailed, hsame⟩
    by_cases himproved : found.1 = .improved
    · obtain ⟨hall, r, hr, hkind⟩ := h.improved himproved
      have hold : r ∈ evidence ++ graded := List.mem_append_right _ hr
      obtain ⟨x, hx, hresult⟩ := hfailed ⟨r, (hmember r).mpr (.inl hold), hkind, hall r hold hkind⟩
      refine ⟨x, hx, hresult, fun hximproved => ?_⟩
      rcases (hmember x).mp hx with hxold | hxnew
      · rw [hall x hxold hximproved] at hresult
        cases hresult
      · exact kinds x hxnew hximproved
    · exact hsame (identical (h.aa himproved))
  · rintro ⟨r, hr, hblocks⟩
    exact ⟨fun _ => ⟨r, hr, hblocks.1⟩, fun _ => ⟨r, hr, hblocks⟩⟩

end Agreement

section Sample
attribute [local instance] integerArith

def identicalRun : Run Int :=
  { sampleRun with
    profile := ⟨gradedManifest, gradedPolicy, gradedManifest_distinct⟩
    builds := ⟨some ⟨"b", none⟩, some ⟨"b", none⟩⟩ }

/-- Identical builds that measure alike open the gate. -/
example : (qualityGate identicalRun gradedRows [roundtrip .passed]).toOption.map
    (·.1) = some .aa := by
  decide +kernel

/-- Behind it no cost is due once a check has failed. -/
example : (gradeCostDue identicalRun gradedRows
    [roundtrip .passed, { id := "CA1/C7", kind := .correctness, result := .failed }]).toOption =
      some none := by
  decide +kernel

end Sample

/-! ## In a session -/

section Session
variable [Arith N] {platform : Platform N H} {w : World N H}

/-- Record ids of different stages are distinct, as `decide` checks. -/
def World.DistinctIds (w : World N H) : Prop :=
  ∀ s t, s ≠ t → ∀ a ∈ w.committed s, ∀ b ∈ w.committed t, a.id ≠ b.id

/-- The evidence of the quality gate. -/
def World.gateEvidence (w : World N H) : List (Record N) :=
  w.committed .compile ++ w.committed .quality

/-- Gate, cost and correctness agree, where `found` is the gate that was recorded. -/
structure World.Agrees (platform : Platform N H) (w : World N H) (run : Run N)
    (found : GateState × String) : Prop where
  /-- Cost is due, and required, unless correctness found a failure; an A/A gate is asked
  about in a `run.json` with identical builds. -/
  due : ∀ view : Run N, view.profile = run.profile →
    (found.1 = .aa → sameBuild view.builds = true) →
      ∃ due, w.costDue platform view = .ok due ∧
        (due = none ↔ ∃ r ∈ w.committed .correctness, r.result = .failed) ∧
        requiredCost platform view (w.stages .correctness).state w =
          .ok (if due = none then [] else [.cost])
  /-- The correctness evidence leaves what the gate was judged over as it was. -/
  regraded : ∃ view rows graded required summaries, view.profile = run.profile ∧
    readRows platform (w.stages .quality).observations = .ok rows ∧
    OpenGate view rows w.gateEvidence graded required summaries found ∧
    evaluateQuality run.profile.manifest run.profile.policy rows
        (w.gateEvidence ++ w.committed .correctness) =
      .ok (w.gateEvidence ++ w.committed .correctness ++ graded, required, summaries)

omit [Arith N] in
theorem committed_of_complete {s : Stage} (h : w.status s = some .complete) :
    w.committed s = (w.stages s).evidence := by
  cases hst : (w.stages s).state with
  | none => simp [World.status, hst] at h
  | some st =>
      have hcomplete : st.status = .complete := by simpa [World.status, hst] using h
      simp [World.committed, committedRows, hst, hcomplete]

theorem Inv.agrees (h : Inv platform w) {run : Run N} {st : StageState}
    {found : GateState × String} (hrun : w.run = some run)
    (hst : (w.stages .quality).state = some st) (hcomplete : st.status = .complete)
    (hfound : st.gate = some found) (hopen : found.1 ≠ .closed)
    (correct : w.status .correctness = some .complete) (ids : w.DistinctIds) :
    w.Agrees platform run found := by
  obtain ⟨run', view, rows, gate, hrun', hview, hrows, -, hgate, hgate', -⟩ :=
    (h.stage .quality).complete st hst hcomplete
  obtain rfl : run' = run := Option.some.inj (hrun'.symm.trans hrun)
  obtain rfl : gate = found := Option.some.inj (hgate'.symm.trans hfound)
  have hquality : w.status .quality = some .complete := by simp [World.status, hst, hcomplete]
  have hevidence : w.committed .compile ++ (w.stages .quality).evidence = w.gateEvidence := by
    rw [World.gateEvidence, committed_of_complete hquality]
  rw [hevidence] at hgate
  obtain ⟨graded, required, summaries, hopened⟩ := qualityGate_open hgate hopen
  have distinct : ∀ a ∈ w.gateEvidence, ∀ b ∈ w.committed .correctness, a.id ≠ b.id := by
    intro a ha b hb
    rcases List.mem_append.mp ha with ha | ha
    · exact ids .compile .correctness (by decide) a ha b hb
    · exact ids .quality .correctness (by decide) a ha b hb
  have kinds : ∀ r ∈ w.committed .correctness, r.kind ≠ .improvement := by
    intro r hr
    rw [committed_of_complete correct] at hr
    exact ((h.stage .correctness).records run' hrun r hr).improvement (by decide)
  refine ⟨fun own hprofile identical => ?_, view, rows, graded, required, summaries, hview, hrows,
    hopened, ?_⟩
  · obtain ⟨due, hdue, hiff⟩ :=
      hopened.costDue (hprofile.trans hview.symm) identical distinct kinds
    have hworld : w.costDue platform own = .ok due := by
      unfold World.costDue
      rw [hrows]
      exact hdue
    refine ⟨due, hworld, hiff, ?_⟩
    have hdone : isComplete (w.stages .correctness).state = true := by
      cases hcorrect : (w.stages .correctness).state with
      | none => simp [World.status, hcorrect] at correct
      | some st => simpa [World.status, hcorrect, isComplete] using correct
    unfold requiredCost
    rw [if_pos hdone, hworld]
    cases due <;> rfl
  · rw [← hview]
    exact hopened.again _ distinct

end Session

/-! ## A gate that was judged on other builds

`compile` is killed once both builds, which are alike, are recorded. A quality stage opens
`run.json`, and before it looks at its prerequisites a second `compile` gets to its end with
another baseline build.
-/

section Sample
attribute [local instance] integerArith

def staleInputs : CompileInputs Int where
  baseline := "main"
  evolved := "candidate"
  profile := ⟨⟨false, [gradedCase]⟩, samplePolicy, by decide⟩
  store := "store"
  session := none
  harness := ⟨"coordinator", "harness"⟩
  run_id := "run"

def staleRun : Run Int := staleInputs.compiled [] [] ⟨"a", some "k"⟩ ⟨"a", none⟩

def rebuiltRun : Run Int := staleInputs.compiled [] [] ⟨"b", some "k"⟩ ⟨"a", none⟩

noncomputable def stalePlatform : Platform Int StageState := Platform.unary sampleSetting

def verifiedCheck (oracle : String) : Check where
  oracle := oracle
  status := "verified"
  reference_hash := "c"
  input_domain := "all_inputs"
  mode := "quality"
  covers := STAGES
  substituted := []
  union_width := none

/-- A row of a worker with all its checks. -/
def verifiedRow (metric : Int) (seed : ℕ) : WorkerRow Int :=
  ⟨seed, "ok", false, none, fun _ => some metric, some "o", ["C0", "C6", "C2"].map verifiedCheck⟩

def staleMeasurement : Measurement staleRun where
  case := gradedCase
  baseline := ⟨"a", some "k"⟩
  evolved := ⟨"a", none⟩
  report _ := [0, 1].map (verifiedRow 1)
  cases := rfl
  builds := rfl
  batched := rfl
  sized := by decide
  reported _ := .refl _

def startedFiles : Stage → StageFiles Int
  | .compile => { state := some { status := .running, attempts := 1 } }
  | _ => {}

noncomputable def staleRows : List (Observation Int) :=
  staleMeasurement.observations stalePlatform

def staleGate : GateState × String :=
  (.aa, "identical builds (A/A): later stages run as a harness check")

theorem stale_gate : qualityGate staleRun staleRows
    (committedOf (resumedFiles startedFiles) .compile
    ++ (staleMeasurement.written stalePlatform {}).evidence) = .ok staleGate :=
  toOption_eq_some.mp (by decide +kernel)

noncomputable def staleFiles : Stage → StageFiles Int :=
  settleStage (resumedFiles startedFiles) .quality (staleMeasurement.written stalePlatform {})
    (some staleGate)

noncomputable def finishedFiles : Stage → StageFiles Int :=
  settleStage staleFiles .correctness
    { (staleFiles .correctness).rerun .correctness with
      clifford := [], evidence := suiteEvidence } none

theorem stale_startable : Startable stalePlatform (resumedFiles startedFiles) .quality staleRun
    staleInputs.harness where
  later := by decide
  live := rfl
  finals t ht := by
    rw [List.mem_singleton.mp ht]
    rfl
  pinned := rfl
  stored := by decide
  baseline := rfl
  ungated v _ := .ret none v

theorem rebuilt_startable :
    Startable stalePlatform staleFiles .correctness rebuiltRun staleInputs.harness where
  later := by decide
  live := rfl
  finals t ht := by
    rw [List.mem_singleton.mp ht]
    rfl
  pinned := rfl
  stored := by decide
  baseline := rfl
  ungated v stages := by
    exact Exec.bind (a := (staleFiles .quality).state)
      (.fallible ⟨(congrArg (fun files => (files .quality).state) stages).symm, rfl⟩) (.ret none v)

theorem reachable_started : ∃ w : World Int StageState,
    (sessionSystem stalePlatform).Reachable ⟨w, fun _ => none⟩ ∧
      w.Resting staleRun startedFiles := by
  have start : (sessionSystem stalePlatform).Reachable ⟨World.empty, fun _ => none⟩ :=
    .init ⟨rfl, fun _ => rfl⟩
  have created : Reaches (runCompile stalePlatform 0 staleInputs) World.empty _ _ :=
    reaches_created rfl rfl rfl rfl rfl (exec_createSession rfl)
  have killed := created.exec (exec_held_killed (exec_compiled_killed staleInputs.newRun [] []
    "harness" ⟨"a", some "k"⟩ ⟨"a", none⟩ none))
  have reached := System.Reachable.exec _ 0 start rfl ⟨.compile staleInputs, rfl⟩ killed.stopped
  refine ⟨_, reached, rfl, rfl, rfl, fun s => ?_, funext fun s => ?_⟩
  · cases s <;> rfl
  · cases s <;> rfl

/-- The quality stage is complete by the builds it was opened on, and others are recorded. -/
theorem reachable_stale : ∃ w : World Int StageState,
    (sessionSystem stalePlatform).Reachable ⟨w, fun _ => none⟩ ∧
      w.Resting rebuiltRun staleFiles := by
  obtain ⟨w, reached, hrest⟩ := reachable_started
  have begun := reached.step (.start 1 _ rfl ⟨.stage .quality staleInputs.harness, rfl⟩)
  have opened : Reaches (runStage stalePlatform 1 .quality staleInputs.harness) w _ _ :=
    reaches_opened hrest (by decide) rfl rfl
  have waiting := begun.advance (if_pos rfl) (opened.bind _)
  have same : staleInputs.match_ staleRun = true := rfl
  obtain ⟨w', resumed, entered⟩ := exec_resumed stalePlatform 2 [] [] "harness" ⟨"b", some "k"⟩
    ⟨"a", none⟩ (hrest.entered 1 .quality) (by decide) rfl same rfl rfl
  have rebuilt := System.Reachable.exec _ 2 waiting rfl ⟨.compile staleInputs, rfl⟩
    (resumed.bind (.ret () w'))
  obtain ⟨w'', measured, ended, -⟩ := exec_executed (entered.release 2) stale_startable
    fun v stages => staleMeasurement.exec_body rfl stale_gate stages
  have finished := rebuilt.finish _ (if_pos rfl) (measured.bind (.ret () w''))
  have resting : (w''.release stalePlatform 1).Resting rebuiltRun staleFiles := ended.release 1
  refine ⟨_, ?_, resting⟩
  convert finished using 2
  · rfl
  · funext q
    by_cases hq : q = 1 <;> simp [hq]

theorem finished_due {w : World Int StageState} (h : w.Resting rebuiltRun finishedFiles) :
    w.costDue stalePlatform rebuiltRun = .ok none := by
  have holds : RecordLog.Holds stalePlatform.codec staleRows (w.stages .quality).observations := by
    rw [h.stages]
    exact .of_frame _
  refine bind_eq_ok.mpr ⟨staleRows, by rw [readRows, holds.readRecords], ?_⟩
  have committed : ∀ s, w.committed s = committedOf finishedFiles s := fun s => by
    rw [World.committed, h.stages, committedOf]
  rw [committed, committed, committed]
  exact toOption_eq_some.mp (by decide +kernel)

theorem finished_distinct {w : World Int StageState} (h : w.Resting rebuiltRun finishedFiles) :
    w.DistinctIds := by
  have distinct : (STAGE_ORDER.all fun s => STAGE_ORDER.all fun t => s == t ||
      (committedOf finishedFiles s).all fun a =>
        (committedOf finishedFiles t).all fun b => a.id != b.id) = true := by
    decide +kernel
  have mem : ∀ s : Stage, s ∈ STAGE_ORDER := fun s => by cases s <;> decide
  intro s t hne a ha b hb
  rw [World.committed, h.stages] at ha hb
  have hst := List.all_eq_true.mp (List.all_eq_true.mp distinct s (mem s)) t (mem t)
  rw [Bool.or_eq_true, beq_iff_eq, or_iff_right hne] at hst
  exact bne_iff_ne.mp (List.all_eq_true.mp (List.all_eq_true.mp hst a ha) b hb)

theorem reachable_finished : ∃ w : World Int StageState,
    (sessionSystem stalePlatform).Reachable ⟨w, fun _ => none⟩ ∧
      w.Resting rebuiltRun finishedFiles := by
  obtain ⟨w, reached, hrest⟩ := reachable_stale
  have body : ∀ v : World Int StageState, v.stages = Function.update staleFiles .correctness
      ((staleFiles .correctness).rerun .correctness) →
      Exec (stageBody stalePlatform .correctness rebuiltRun) v (some (.ok none))
        (v.setStage .correctness { (staleFiles .correctness).rerun .correctness with
          clifford := [], evidence := suiteEvidence }) := by
    intro v stages
    have hstage : (stageLens .correctness).get v
        = (staleFiles .correctness).rerun .correctness := by
      simp [stageLens, stages]
    exact (exec_correctnessBody.zoom (stageLens .correctness) hstage).bind (.ret none _)
  obtain ⟨w', ended, hended, -⟩ := reachable_stage reached hrest rebuilt_startable body
  exact ⟨w', ended, hended⟩

def finishedState : StageState where
  status := .complete
  attempts := 1
  gate := some staleGate

theorem finished_state {w : World Int StageState} (h : w.Resting rebuiltRun finishedFiles) :
    (w.stages .quality).state = some finishedState ∧ w.status .correctness = some .complete := by
  rw [World.status, h.stages]
  exact ⟨rfl, rfl⟩

end Sample

/-! ## Every run -/

/-- Gate, cost and correctness agree at every moment of every run of a session, asked in a
`run.json` that behind an A/A gate still has identical builds. -/
theorem gates_agree [Arith N] [DecidableEq N] [DecidableEq H] (platform : Platform N H)
    (r : (sessionSystem platform).Run) (i : ℕ) {run : Run N} {st : StageState}
    {found : GateState × String} (hrun : (r.config i).world.run = some run)
    (hst : ((r.config i).world.stages .quality).state = some st) (hcomplete : st.status = .complete)
    (hfound : st.gate = some found) (hopen : found.1 = .improved ∨ found.1 = .aa)
    (correct : (r.config i).world.status .correctness = some .complete)
    (ids : (r.config i).world.DistinctIds) : (r.config i).world.Agrees platform run found := by
  have hne : found.1 ≠ .closed := by
    rcases hopen with h | h <;> simp [h]
  exact (session_inv platform (r.reachable _ i)).agrees hrun hst hcomplete hfound hne correct ids

section Finished
attribute [local instance] integerArith

/-- The session of `cost_not_due`, asked in the `run.json` its gate was judged in. -/
theorem gates_agree_finished : ∃ (r : (sessionSystem stalePlatform).Run) (i : ℕ),
    (r.config i).world.Agrees stalePlatform rebuiltRun staleGate ∧
      ∃ due, (r.config i).world.costDue stalePlatform staleRun = .ok due ∧
        (due = none ↔ ∃ row ∈ (r.config i).world.committed .correctness, row.result = .failed) := by
  obtain ⟨w, reached, hrest⟩ := reachable_finished
  obtain ⟨r, i, hi⟩ := reached.exists_run
  have world : (r.config i).world = w := congrArg Config.world hi
  rw [← world] at hrest
  obtain ⟨state, correct⟩ := finished_state hrest
  have agrees := gates_agree stalePlatform r i hrest.found state rfl rfl (.inr rfl) correct
    (finished_distinct hrest)
  obtain ⟨due, hdue, hnone, -⟩ := agrees.due staleRun rfl fun _ => rfl
  exact ⟨r, i, agrees, due, hdue, hnone⟩

/-- Correctness found nothing, and no cost is due: the gate is A/A, and the recorded builds
are others. -/
theorem cost_not_due : ∃ (r : (sessionSystem stalePlatform).Run) (i : ℕ) (run : Run Int)
    (st : StageState) (reason : String),
    (r.config i).world.run = some run ∧
      ((r.config i).world.stages .quality).state = some st ∧ st.status = .complete ∧
      st.gate = some (.aa, reason) ∧ (r.config i).world.status .correctness = some .complete ∧
      (r.config i).world.DistinctIds ∧
      (r.config i).world.costDue stalePlatform run = .ok none ∧
      ∀ row ∈ (r.config i).world.committed .correctness, row.result ≠ .failed := by
  obtain ⟨w, reached, hrest⟩ := reachable_finished
  obtain ⟨r, i, hi⟩ := reached.exists_run
  have world : (r.config i).world = w := congrArg Config.world hi
  have found : w.committed .correctness = suiteEvidence := by
    rw [World.committed, hrest.stages]
    rfl
  obtain ⟨state, correct⟩ := finished_state hrest
  refine ⟨r, i, rebuiltRun, finishedState, staleGate.2, ?_⟩
  rw [world]
  refine ⟨hrest.found, state, rfl, rfl, correct, finished_distinct hrest, finished_due hrest, ?_⟩
  rw [found]
  simp [suiteEvidence]

end Finished

end TranspileBench.Coordinator
