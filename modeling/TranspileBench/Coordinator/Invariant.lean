import TranspileBench.Coordinator.Decide

/-!
The invariant of a session, what a process may do to it in one step, and how the
facts about a stage outlive changes elsewhere.
-/
namespace TranspileBench.Coordinator
open Evaluator

variable {N H : Type}

/-- Stage evidence keeps to its own ids and kinds: stage coverage is `decide`'s, section 5
and the cost kind are the cost stage's, and improvements are the evaluator's. -/
structure StageRecord (pre : String) (s : Stage) (r : Record N) : Prop where
  coverage : r.id ≠ pre ++ "1/stage-coverage"
  cost : s ≠ .cost → r.kind ≠ .cost ∧ ¬ InSection pre "5" r.id
  improvement : s ≠ .cost → r.kind ≠ .improvement

/-- The seeds a quality stage has to compile. -/
def Wanted (profile : Profile N) (key : String × Revision × Nat) : Prop :=
  ∃ case ∈ qualityCases profile.manifest, key.1 = case.case_id ∧ key.2.2 < case.seeds_per_block

/-- A row a quality stage commits. -/
structure IsRow (platform : Platform N H) (profile : Profile N) (row : Observation N) : Prop where
  wanted : Wanted profile row.key
  block : row.seed_block = "B0"
  mode : row.mode = "quality"
  id : ∃ hash, row.id = platform.observationId
    ⟨row.case_id, hash, row.build_id, row.revision, row.seed, row.seed_block⟩

/-- The failure records and the rows agree, up to records that have no row yet. -/
structure Agree (rows : List (Observation N)) (evidence : List (Record N)) : Prop where
  recorded : ∀ row ∈ rows, row.status ≠ "ok" → failureRecord row ∈ evidence
  committed : ∀ r ∈ evidence, ∀ id, r.id = "failure/" ++ id →
    (∃ row ∈ rows, row.status ≠ "ok" ∧ r = failureRecord row) ∨ ∀ row ∈ rows, row.id ≠ id

/-- The rows of a quality stage, at any moment. -/
structure Observed (platform : Platform N H) (profile : Profile N) (torn : Prop)
    (f : StageFiles N) (rows : List (Observation N)) : Prop where
  file : RecordLog.Holds platform.codec rows f.observations
  row : ∀ row ∈ rows, IsRow platform profile row
  nodup : (rows.map (·.key)).Nodup
  agree : torn ∨ Agree rows f.evidence

/-- The gate of a complete quality stage, if it is open. -/
def World.GateOpen (w : World N H) : Prop :=
  ∃ st, (w.stages .quality).state = some st ∧ st.status = .complete ∧
    ∀ reason, st.gate ≠ some (.closed, reason)

def World.GateClosed (w : World N H) : Prop :=
  ∃ st reason, (w.stages .quality).state = some st ∧ st.status = .complete ∧
    st.gate = some (.closed, reason)

/-- What holds of the other stages when a stage has started. -/
structure World.Startable (w : World N H) (s : Stage) : Prop where
  prerequisites : ∀ q ∈ PREREQUISITES s, w.Final q
  gate : s ∈ GATED → w.GateOpen
  cost : s = .cost → w.status .correctness = some .complete

section Graded
variable [Arith N] (platform : Platform N H)

/-- Why a stage was skipped, in the view of `run.json` it opened. -/
def World.Skippable (w : World N H) (s : Stage) : Prop :=
  w.GateClosed ∨ (s = .cost ∧ w.status .correctness = some .complete ∧
    ∃ run view, w.run = some run ∧ view.profile = run.profile ∧
      w.costDue platform view = .ok none)

/-- What a complete stage leaves behind. -/
def World.Completed (w : World N H) (st : StageState) : Stage → Prop
  | .compile => ∃ run, w.run = some run ∧ run.scope.isSome ∧ run.builds.baseline.isSome ∧
      run.builds.evolved.isSome
  | .quality => ∃ run view rows gate, w.run = some run ∧ view.profile = run.profile ∧
      readRows platform (w.stages .quality).observations = .ok rows ∧
      (∀ key, Wanted run.profile key → key ∈ rows.map (·.key)) ∧
      qualityGate view rows (w.committed .compile ++ (w.stages .quality).evidence) = .ok gate ∧
      st.gate = some gate ∧ (w.torn ∨ ¬ Unanswered platform (w.stages .quality))
  | _ => True

structure StageInv (w : World N H) (s : Stage) : Prop where
  fresh : (w.stages s).state = none → w.stages s = {}
  records : ∀ run, w.run = some run → ∀ r ∈ (w.stages s).evidence, StageRecord run.prefix_ s r
  started : ∀ st, (w.stages s).state = some st → st.status ≠ .skipped → w.Startable s
  skipped : ∀ st, (w.stages s).state = some st → st.status = .skipped →
    s ∈ GATED ∧ (∀ q ∈ PREREQUISITES s, w.Final q) ∧ w.Skippable platform s
  failed : ∀ st, (w.stages s).state = some st → st.status = .failed →
    ∃ e, errorRecord s e ∈ (w.stages s).evidence
  complete : ∀ st, (w.stages s).state = some st → st.status = .complete →
    w.Completed platform st s
  /-- Only the cost stage measures; what grading raises is not looked into. -/
  noisy : ∀ st, (w.stages s).state = some st → st.status = .noisy → s = .cost ∨ s = .quality

/-- What holds while a process is in the body of a stage. -/
structure World.InBody (w : World N H) (s : Stage) (view : Run N) : Prop where
  clean : w.clean = none
  running : w.status s = some .running
  startable : w.Startable s
  opened : ∃ run, w.run = some run ∧ view.profile = run.profile
  due : s = .cost → ∃ due, w.costDue platform view = .ok (some due)

/-- The invariant of a session. -/
structure Inv (w : World N H) : Prop where
  exclusive : ∀ p, w.exclusive = some p → ∀ q, w.shared q = false
  stageLock : ∀ s p, w.stageLock s = some p → w.shared p = true
  inside : ∀ p s, w.phase p = .inside s → w.stageLock s = some p
  body : ∀ p s view, w.phase p = .body s view →
    w.stageLock s = some p ∧ w.InBody platform s view
  created : w.run = none → ∀ s, w.stages s = {}
  stage : ∀ s, StageInv platform w s
  observed : ∀ run, w.run = some run →
    ∃ rows, Observed platform run.profile w.torn (w.stages .quality) rows
  free : w.stageLock .quality = none → w.torn ∨ ¬ Unanswered platform (w.stages .quality)

end Graded

def attemptsOf (state : Option StageState) : Nat := (state.map (·.attempts)).getD 0

/-- The states that may follow a state: each start is a new attempt, a skip is none, and
an attempt ends once. -/
def Succeeds (old : Option StageState) (st : StageState) : Prop :=
  (st.status = .running ∧ st.attempts = attemptsOf old + 1) ∨
  (st.status = .skipped ∧ st.attempts = attemptsOf old) ∨
  ∃ running, old = some running ∧ running.status = .running ∧
    (st.status = .complete ∨ st.status = .failed ∨ st.status = .noisy) ∧
    st.attempts = running.attempts

/-- A process writes a file of the stage it holds. -/
structure StageStep [Arith N] (platform : Platform N H) (w : World N H) (p : Nat) (s : Stage)
    (f : StageFiles N) : Prop where
  held : w.stageLock s = some p
  clean : w.clean = none
  created : w.run ≠ none
  live : ¬ w.Final s
  /-- Only the files of a running stage change, and its state only outside its body. -/
  next : (f.state = (w.stages s).state ∧ w.status s = some .running) ∨
    (w.phase p = .inside s ∧ f.evidence = (w.stages s).evidence ∧
      ∃ st, f.state = some st ∧ Succeeds (w.stages s).state st)
  stage : StageInv platform (w.setStage s f) s
  observed : s = .quality → ∀ run, w.run = some run →
    ∃ rows, Observed platform run.profile w.torn f rows

/-- One step of process `p`. -/
inductive Effect [Arith N] (platform : Platform N H) (p : Nat) : World N H → World N H → Prop
  | idle (w : World N H) : Effect platform p w w
  | takeShared (w : World N H) (free : w.exclusive = none) : Effect platform p w (w.takeShared p)
  | dropShared (w : World N H) (free : ∀ s, w.stageLock s ≠ some p) :
      Effect platform p w (w.dropShared p)
  | takeStage (w : World N H) (s : Stage) (shared : w.shared p = true)
      (free : w.stageLock s = none) (outside : w.phase p = .outside) :
      Effect platform p w (w.takeStage p s)
  | dropStage (w : World N H) (s : Stage) (inside : w.phase p = .inside s) :
      Effect platform p w (w.dropStage platform p s)
  | enter (w : World N H) (s : Stage) (view : Run N) (inside : w.phase p = .inside s)
      (body : w.InBody platform s view) : Effect platform p w (w.mark p (.body s view))
  | leave (w : World N H) (s : Stage) (view : Run N) (body : w.phase p = .body s view) :
      Effect platform p w (w.mark p (.inside s))
  | takeExclusive (w : World N H) (free : w.exclusive = none) (alone : ∀ q, w.shared q = false) :
      Effect platform p w (w.takeExclusive p)
  | dropExclusive (w : World N H) (held : w.exclusive = some p) :
      Effect platform p w w.dropExclusive
  | write (w : World N H) (s : Stage) (f : StageFiles N) (step : StageStep platform w p s f) :
      Effect platform p w (w.setStage s f)
  | save (w : World N H) (run : Run N) (held : w.stageLock .compile = some p)
      (live : ¬ w.Final .compile) (same : ∀ old, w.run = some old → run.profile = old.profile) :
      Effect platform p w { w with run := some run }
  | amend (w : World N H) (run : Run N) (amendments : List Amendment)
      (held : w.exclusive = some p) (found : w.run = some run) :
      Effect platform p w { w with run := some { run with amendments } }
  | clean (w : World N H) (status : CleanStatus) (held : w.exclusive = some p) :
      Effect platform p w { w with clean := some status }
  | decide (w : World N H) (hashes : Stage → Option H) :
      Effect platform p w { w with decision := some hashes }

/-- How a session can only grow: final stages stay, and a session keeps its profile and,
once compiled, its builds and scope. -/
structure Extends (w w' : World N H) : Prop where
  final : ∀ s, w.Final s → w'.stages s = w.stages s
  run : ∀ run, w.run = some run → ∃ run', w'.run = some run' ∧ run'.profile = run.profile ∧
    (w.Final .compile → ∃ amendments, run' = { run with amendments })
  torn : w.torn → w'.torn
  cleaned : w.clean ≠ none → w'.clean ≠ none

theorem World.Final.congr {w w' : World N H} {s : Stage} (h : w.Final s)
    (same : w'.stages s = w.stages s) : w'.Final s := by
  obtain ⟨status, hfinal, hstatus⟩ := h
  exact ⟨status, hfinal, by rw [World.status, same]; exact hstatus⟩

theorem Extends.refl (w : World N H) : Extends w w where
  final _ _ := rfl
  run run h := ⟨run, h, rfl, fun _ => ⟨run.amendments, rfl⟩⟩
  torn := id
  cleaned := id

theorem Extends.keeps {w w' : World N H} (h : Extends w w') {s : Stage} (hs : w.Final s) :
    w'.Final s := hs.congr (h.final s hs)

theorem Extends.trans {w w' w'' : World N H} (h : Extends w w') (h' : Extends w' w'') :
    Extends w w'' where
  final s hs := (h'.final s (h.keeps hs)).trans (h.final s hs)
  run run hrun := by
    obtain ⟨run', hrun', hprofile, hsame⟩ := h.run run hrun
    obtain ⟨run'', hrun'', hprofile', hsame'⟩ := h'.run run' hrun'
    refine ⟨run'', hrun'', hprofile'.trans hprofile, fun hfinal => ?_⟩
    obtain ⟨a, rfl⟩ := hsame hfinal
    obtain ⟨a', rfl⟩ := hsame' (h.keeps hfinal)
    exact ⟨a', rfl⟩
  torn := h'.torn ∘ h.torn
  cleaned := h'.cleaned ∘ h.cleaned

theorem World.final_of_status {w : World N H} {s : Stage} (h : w.status s = some .complete) :
    w.Final s := ⟨.complete, by decide, h⟩

section Frame
variable {w w' : World N H}

theorem World.Final.state {s : Stage} (h : w.Final s) : ∃ st, (w.stages s).state = some st := by
  obtain ⟨status, -, hstatus⟩ := h
  cases hst : (w.stages s).state with
  | none => simp [World.status, hst] at hstatus
  | some st => exact ⟨st, rfl⟩

theorem Extends.committed (h : Extends w w') {s : Stage} (hs : w.Final s) :
    w'.committed s = w.committed s := by
  rw [World.committed, World.committed, h.final s hs]

theorem Extends.status (h : Extends w w') {s : Stage} (hs : w.Final s) :
    w'.status s = w.status s := by
  rw [World.status, World.status, h.final s hs]

theorem World.GateOpen.final (h : w.GateOpen) : w.Final .quality := by
  obtain ⟨st, hst, hcomplete, -⟩ := h
  exact ⟨.complete, by decide, by simp [World.status, hst, hcomplete]⟩

theorem World.GateClosed.final (h : w.GateClosed) : w.Final .quality := by
  obtain ⟨st, reason, hst, hcomplete, -⟩ := h
  exact ⟨.complete, by decide, by simp [World.status, hst, hcomplete]⟩

theorem Extends.gateOpen (h : Extends w w') (hw : w.GateOpen) : w'.GateOpen := by
  rw [World.GateOpen, h.final .quality hw.final]
  exact hw

theorem Extends.gateClosed (h : Extends w w') (hw : w.GateClosed) : w'.GateClosed := by
  rw [World.GateClosed, h.final .quality hw.final]
  exact hw

theorem Extends.startable (h : Extends w w') {s : Stage} (hw : w.Startable s) :
    w'.Startable s where
  prerequisites q hq := h.keeps (hw.prerequisites q hq)
  gate hs := h.gateOpen (hw.gate hs)
  cost hs := (h.status (World.final_of_status (hw.cost hs))).trans (hw.cost hs)

variable [Arith N] {platform : Platform N H}

/-- Cost is due by the files of three final stages. -/
theorem Extends.costDue (h : Extends w w') (compile : w.Final .compile)
    (quality : w.Final .quality) (correctness : w.Final .correctness) (view : Run N) :
    w'.costDue platform view = w.costDue platform view := by
  rw [World.costDue, World.costDue, h.committed compile, h.committed quality,
    h.committed correctness, h.final .quality quality]

theorem StageInv.prerequisites {s : Stage} (h : StageInv platform w s) {st : StageState}
    (hst : (w.stages s).state = some st) : ∀ q ∈ PREREQUISITES s, w.Final q := by
  by_cases hskip : st.status = .skipped
  · exact (h.skipped st hst hskip).2.1
  · exact (h.started st hst hskip).prerequisites

/-- Behind a final correctness stage everything is final. -/
theorem final_before (stage : ∀ s, StageInv platform w s) (h : w.Final .correctness) :
    w.Final .compile ∧ w.Final .quality := by
  obtain ⟨st, hst⟩ := h.state
  have hquality := (stage .correctness).prerequisites hst .quality (by decide)
  obtain ⟨st', hst'⟩ := hquality.state
  exact ⟨(stage .quality).prerequisites hst' .compile (by decide), hquality⟩

theorem Extends.skippable (h : Extends w w') (stage : ∀ s, StageInv platform w s) {s : Stage}
    (hw : w.Skippable platform s) : w'.Skippable platform s := by
  rcases hw with hclosed | ⟨rfl, hstatus, run, view, hrun, hview, hdue⟩
  · exact .inl (h.gateClosed hclosed)
  · have hfinal := World.final_of_status hstatus
    obtain ⟨hcompile, hquality⟩ := final_before stage hfinal
    obtain ⟨run', hrun', hprofile, -⟩ := h.run run hrun
    refine .inr ⟨rfl, (h.status hfinal).trans hstatus, run', view, hrun', ?_, ?_⟩
    · rw [hview, hprofile]
    · rw [h.costDue hcompile hquality hfinal, hdue]

theorem Extends.completed (h : Extends w w') (stage : ∀ s, StageInv platform w s) {s : Stage}
    {st : StageState} (hst : (w.stages s).state = some st) (hcomplete : st.status = .complete)
    (hw : w.Completed platform st s) : w'.Completed platform st s := by
  have hfinal : w.Final s := World.final_of_status (by simp [World.status, hst, hcomplete])
  cases s with
  | compile =>
      obtain ⟨run, hrun, hbuilt⟩ := hw
      obtain ⟨run', hrun', -, hsame⟩ := h.run run hrun
      obtain ⟨a, rfl⟩ := hsame hfinal
      exact ⟨_, hrun', hbuilt⟩
  | quality =>
      obtain ⟨run, view, rows, gate, hrun, hview, hrows, hwanted, hgate, hst', htorn⟩ := hw
      obtain ⟨run', hrun', hprofile, -⟩ := h.run run hrun
      have hcompile := (stage .quality).prerequisites hst .compile (by decide)
      refine ⟨run', view, rows, gate, hrun', by rw [hview, hprofile], ?_, ?_, ?_, hst', ?_⟩
      · rw [h.final .quality hfinal, hrows]
      · rw [hprofile]; exact hwanted
      · rw [h.final .quality hfinal, h.committed hcompile, hgate]
      · rw [h.final .quality hfinal]
        exact htorn.imp_left h.torn
  | correctness | unit_tests | cost => trivial

/-- The facts about a stage outlive changes elsewhere. -/
theorem StageInv.frame {s : Stage} (hs : StageInv platform w s)
    (stage : ∀ s, StageInv platform w s) (created : w.run = none → ∀ s, w.stages s = {})
    (h : Extends w w') (same : w'.stages s = w.stages s) : StageInv platform w' s where
  fresh hst := by rw [same] at hst ⊢; exact hs.fresh hst
  records run' hrun' r hr := by
    rw [same] at hr
    cases hrun : w.run with
    | none => rw [created hrun s] at hr; cases hr
    | some run =>
        obtain ⟨found, hfound, hprofile, -⟩ := h.run run hrun
        obtain rfl : found = run' := Option.some.inj (hfound.symm.trans hrun')
        rw [show found.prefix_ = run.prefix_ by rw [Run.prefix_, Run.prefix_, hprofile]]
        exact hs.records run hrun r hr
  started st hst hskip := by rw [same] at hst; exact h.startable (hs.started st hst hskip)
  skipped st hst hskip := by
    rw [same] at hst
    obtain ⟨hgated, hpre, hwhy⟩ := hs.skipped st hst hskip
    exact ⟨hgated, fun q hq => h.keeps (hpre q hq), h.skippable stage hwhy⟩
  failed st hst hfailed := by rw [same] at hst ⊢; exact hs.failed st hst hfailed
  complete st hst hcomplete := by
    rw [same] at hst
    exact h.completed stage hst hcomplete (hs.complete st hst hcomplete)
  noisy st hst hnoisy := by rw [same] at hst; exact hs.noisy st hst hnoisy

theorem Extends.inBody (h : Extends w w') (stage : ∀ s, StageInv platform w s) {s : Stage}
    {view : Run N} (hw : w.InBody platform s view) (clean : w'.clean = w.clean)
    (same : (w'.stages s).state = (w.stages s).state) : w'.InBody platform s view where
  clean := clean.trans hw.clean
  running := by rw [World.status, same]; exact hw.running
  startable := h.startable hw.startable
  opened := by
    obtain ⟨run, hrun, hview⟩ := hw.opened
    obtain ⟨run', hrun', hprofile, -⟩ := h.run run hrun
    exact ⟨run', hrun', hview.trans hprofile.symm⟩
  due hs := by
    obtain ⟨due, hdue⟩ := hw.due hs
    have hfinal := World.final_of_status (hw.startable.cost hs)
    obtain ⟨hcompile, hquality⟩ := final_before stage hfinal
    exact ⟨due, by rw [h.costDue hcompile hquality hfinal, hdue]⟩

end Frame

end TranspileBench.Coordinator
