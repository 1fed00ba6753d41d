import TranspileBench.Compile.Tree
import TranspileBench.Coordinator.Playback
import TranspileBench.Coordinator.StateMachine
import TranspileBench.Coordinator.Violations
import Mathlib

/-!
What a `PASS` rests on. The verdict sees records only; that the records are those of stages
which are complete, behind an open gate and from bundles that were judged again is a matter
of the ids that every stage keeps to and of the states a session can be in.
-/
namespace TranspileBench.Coordinator
open Evaluator Fallible

variable {N H : Type}

/-! ## How a decision comes about -/

theorem mergeRows_eq_ok {rows seen out : List (Stage × Record N)}
    (h : mergeRows seen rows = .ok out) : out = seen ++ rows := by
  induction rows generalizing seen with
  | nil =>
      cases h
      exact (List.append_nil _).symm
  | cons row rest ih =>
      rw [mergeRows] at h
      split at h
      · cases h
      · rw [ih h, List.append_assoc, List.singleton_append]

theorem mem_mergeEvidence {view : Snapshot N H} {merged : List (Stage × Record N)}
    (h : mergeEvidence view = .ok merged) {s : Stage} {r : Record N} :
    (s, r) ∈ merged ↔ r ∈ view.evidence s := by
  have hs : s ∈ STAGE_ORDER := by cases s <;> decide
  rw [mergeRows_eq_ok h, List.nil_append]
  simp [List.mem_flatMap, hs]

theorem mem_of_keptEvidence {broken : Bool} {merged : List (Stage × Record N)} {r : Record N}
    (h : r ∈ keptEvidence broken merged) : ∃ s, (s, r) ∈ merged := by
  cases broken with
  | false =>
      obtain ⟨row, hrow, rfl⟩ := List.mem_map.mp h
      exact ⟨row.1, hrow⟩
  | true =>
      obtain ⟨row, hrow, rfl⟩ := List.mem_map.mp h
      exact ⟨row.1, (List.mem_filter.mp hrow).1⟩

/-- The harness records count even over a broken baseline. -/
theorem harness_kept {broken : Bool} {merged : List (Stage × Record N)} {s : Stage} {r : Record N}
    (h : (s, r) ∈ merged) (harness : r.kind = .harness) : r ∈ keptEvidence broken merged := by
  cases broken with
  | false => exact List.mem_map.mpr ⟨(s, r), h, rfl⟩
  | true => exact List.mem_map.mpr ⟨(s, r), List.mem_filter.mpr ⟨h, by simp [harness]⟩, rfl⟩

section Decision
variable [Arith N] [DecidableEq N] {platform : Platform N H} {run : Run N} {view : Snapshot N H}
  {w : World N H} {d : Decision N H}

theorem decideOn_steps (h : decideOn platform run view w = .ok d) :
    ∃ merged rows replayed panels evaluated graded status,
      requiredStages platform run view w = .ok d.required
        ∧ d.pending = d.required.filter (fun s => isPending (view.states s))
        ∧ mergeEvidence view = .ok merged
        ∧ decidedRows platform (isBroken merged) view w = .ok rows
        ∧ replayedEvidence platform run view w (keptEvidence (isBroken merged) merged)
          = .ok replayed
        ∧ coveredEvidence run (isBroken merged) view w rows replayed = .ok d.evidence
        ∧ evaluateQuality run.profile.manifest run.profile.policy rows d.evidence
          = .ok (d.constraints, evaluated, graded)
        ∧ guardedPanels run = .ok panels
        ∧ d.required_ids = requiredIds run evaluated panels d.required
        ∧ verdict d.constraints d.required_ids = .ok status
        ∧ d.status = decisionStatus status (if d.pending = [] then none else some .INCONCLUSIVE) :=
          by
  unfold decideOn gradeDecision at h
  obtain ⟨required, hrequired, h⟩ := bind_eq_ok.mp h
  obtain ⟨merged, hmerged, h⟩ := bind_eq_ok.mp h
  obtain ⟨rows, hrows, h⟩ := bind_eq_ok.mp h
  obtain ⟨replayed, hreplayed, h⟩ := bind_eq_ok.mp h
  obtain ⟨evidence, hevidence, h⟩ := bind_eq_ok.mp h
  obtain ⟨⟨records, evaluated, summaries⟩, hevaluated, h⟩ := bind_eq_ok.mp h
  obtain ⟨panels, hpanels, h⟩ := bind_eq_ok.mp h
  obtain ⟨status, hverdict, h⟩ := bind_eq_ok.mp h
  cases h
  exact ⟨merged, rows, replayed, panels, evaluated, summaries, status, hrequired, rfl, hmerged,
    hrows, hreplayed, hevidence, hevaluated, hpanels, rfl, hverdict, rfl⟩

end Decision

/-! ## Where a graded record comes from -/

section Records
variable [Arith N] [DecidableEq N] {platform : Platform N H} {run : Run N} {view : Snapshot N H}
  {w : World N H} {setting : Setting N} {guarded : List String} {bundles : String → Directory N}
  {evidence out : List (Record N)} {r : Record N}

theorem panel_section {pre name : String} : InSection pre "5" (pre ++ "5/" ++ name) := .of_eq

theorem mem_replaySteps {panels : List (Panel N)}
    (h : panels.foldlM (replayStep setting run guarded bundles) evidence = .ok out) (hr : r ∈ out) :
    r ∈ evidence ∨ InSection run.prefix_ "5" r.id := by
  induction panels generalizing evidence with
  | nil =>
      cases h
      exact .inl hr
  | cons panel rest ih =>
      rw [List.foldlM_cons] at h
      obtain ⟨mid, hmid, h⟩ := bind_eq_ok.mp h
      rcases ih h with hr | hr
      · unfold replayStep at hmid
        simp only at hmid
        split_ifs at hmid
        · cases hmid
          exact .inl hr
        · obtain ⟨s, -, hmid⟩ := bind_eq_ok.mp hmid
          obtain ⟨row, hrow, hmid⟩ := bind_eq_ok.mp hmid
          cases hmid
          rcases mem_putRecord.mp hr with ⟨hr, -⟩ | rfl
          · exact .inl hr
          · exact .inr (replayPanel_id hrow ▸ panel_section)
      · exact .inr hr

/-- Replaying complete cost decisions touches the records of section 5 only. -/
theorem mem_replayedEvidence
    (h : replayedEvidence platform run view w evidence = .ok out) (hr : r ∈ out) :
    r ∈ evidence ∨ (InSection run.prefix_ "5" r.id ∧ isComplete (view.states .cost) = true) := by
  unfold replayedEvidence at h
  split_ifs at h with hcost
  · unfold replayCosts at h
    split at h
    · cases h
      exact .inl hr
    · obtain ⟨guarded, -, h⟩ := bind_eq_ok.mp h
      obtain ⟨panels, -, h⟩ := bind_eq_ok.mp h
      exact (mem_replaySteps h hr).imp_right fun hid => ⟨hid, hcost⟩
  · cases h
    exact .inl hr

theorem replayed_keeps (h : replayedEvidence platform run view w evidence = .ok out)
    (hr : r ∈ evidence) (hid : ¬ InSection run.prefix_ "5" r.id) : r ∈ out := by
  unfold replayedEvidence at h
  split_ifs at h
  · unfold replayCosts at h
    split at h
    · cases h
      exact hr
    · obtain ⟨guarded, -, h⟩ := bind_eq_ok.mp h
      obtain ⟨panels, -, h⟩ := bind_eq_ok.mp h
      have hother : ∀ panel ∈ panels, run.prefix_ ++ "5/" ++ panel.name ≠ r.id :=
        fun panel _ heq => hid (heq ▸ panel_section)
      have hsame := replaySteps_other hother h
      have hmem : r ∈ evidence.filter (·.id == r.id) := List.mem_filter.mpr ⟨hr, beq_self_eq_true _⟩
      rw [← hsame] at hmem
      exact List.mem_of_mem_filter hmem
  · cases h
    exact hr

omit [Arith N] [DecidableEq N] in
/-- Stage coverage is added over two complete stages and a sound baseline. -/
theorem mem_coveredEvidence {broken : Bool} {rows : List (Observation N)}
    (h : coveredEvidence run broken view w rows evidence = .ok out) :
    (∀ r ∈ evidence, r ∈ out) ∧ ∀ r ∈ out, r ∈ evidence ∨
      (stageCoverage (run.scope.getD []) run.profile.manifest.cases rows
          (w.stages .correctness).clifford run.prefix_ = .ok r ∧ broken = false ∧
        isComplete (view.states .quality) = true ∧ isComplete (view.states .correctness) = true) :=
          by
  unfold coveredEvidence at h
  split_ifs at h with hcovered
  · obtain ⟨coverage, hcoverage, h⟩ := bind_eq_ok.mp h
    cases h
    refine ⟨fun r hr => List.mem_append_left _ hr, fun r hr => ?_⟩
    rcases List.mem_append.mp hr with hr | hr
    · exact .inl hr
    · obtain rfl := List.mem_singleton.mp hr
      exact .inr ⟨hcoverage, hcovered⟩
  · cases h
    exact ⟨fun _ hr => hr, fun _ hr => .inl hr⟩

end Records

/-! ## The states behind the records -/

/-- A guarded panel passed: it is the panel of that name of the change scope, its saved bundles
were judged again by the sample counts of its estimator, and what they say is a pass. -/
structure World.PanelPassed [Arith N] [DecidableEq N] (platform : Platform N H) (w : World N H)
    (run : Run N) (guarded : List String) (name : String) : Prop where
  judged : ∃ scope panels panel s counts result, run.scope = some scope ∧
    costPanels run.profile.manifest.confirm scope run.profile.manifest.cases = .ok panels ∧
    panel ∈ panels ∧ panel.name = name ∧
    panelSubject platform.toSetting run panel = .ok s ∧
    regimeCounts s.estimator run.profile.policy.measurement_protocol = .ok counts ∧
    replayRegimes s (panelTerms platform.toSetting run guarded panel) counts
      ((w.stages .cost).bundles name) = .ok result ∧
    (result.result = .passed ∨ result.result = .passed_on_rerun)

/-- What a `PASS` says of the session it was decided on. -/
structure World.Warrants [Arith N] [DecidableEq N] (platform : Platform N H)
    (w : World N H) (run : Run N)
    (d : Decision N H) : Prop where
  complete : ∀ s ∈ [Stage.compile, .quality, .correctness, .cost], w.status s = some .complete
  gate : ∃ st reason, (w.stages .quality).state = some st ∧
    (st.gate = some (.improved, reason) ∨ st.gate = some (.aa, reason))
  tests : w.status .unit_tests = none ∨ w.status .unit_tests = some .skipped ∨
    (w.status .unit_tests = some .complete ∧ run.prefix_ ++ "1/upstream" ∈ d.required_ids)
  /-- Every seed that was wanted is measured once. -/
  measured : ∃ rows, readRows platform (w.stages .quality).observations = .ok rows ∧
    Exactly run.profile rows
  policy : ∀ id ∈ run.profile.policy.required_ids, id ∈ d.required_ids
  guarded : ∃ guarded, guardedPanels (effective run) = .ok guarded ∧ ∀ name ∈ guarded,
    run.prefix_ ++ "5/" ++ name ∈ d.required_ids ∧
      w.PanelPassed platform (effective run) guarded name
  passed : ∀ id ∈ d.required_ids, ∃ r ∈ d.constraints, r.id = id ∧ r.isPassed = true
  clear : ∀ r ∈ d.constraints, r.result ≠ .failed

section States
variable [Arith N] [DecidableEq N] {platform : Platform N H} {run : Run N} {w : World N H}
  {d : Decision N H}

omit [Arith N] [DecidableEq N] in
theorem errorId_not_section {run : Run N} {s : Stage} {k : String} :
    ¬ InSection run.prefix_ k s.errorId := by
  rintro ⟨rest, heq⟩
  have hhead := congrArg (fun id => id.toList.head?) heq
  unfold Run.prefix_ Manifest.prefix_ at hhead
  split_ifs at hhead <;> simp [Stage.errorId] at hhead

/-- The records of a decision begin with its evidence. -/
theorem evidence_constraints (h : decideOn platform run (w.snapshot platform) w = .ok d) :
    ∃ graded, (∀ r ∈ graded, IsGraded run.prefix_ r) ∧ d.constraints = d.evidence ++ graded := by
  obtain ⟨graded, -, hgraded, hrecords, -, -, -⟩ := decideOn_graded h
  exact ⟨graded, hgraded, hrecords⟩

/-- A failed stage leaves its crash record, which no decision sets aside. -/
theorem failed_stage (hinv : Inv platform w)
    (h : decideOn platform run (w.snapshot platform) w = .ok d) {s : Stage}
    (failed : w.status s = some .failed) : ∃ r ∈ d.constraints, r.result = .failed := by
  obtain ⟨st, hst, hstatus⟩ := Option.map_eq_some_iff.mp failed
  obtain ⟨e, he⟩ := (hinv.stage s).failed st hst hstatus
  have committed : errorRecord s e ∈ w.committed s := by
    rw [World.committed, hst, committedRows]
    simp only [hstatus, reduceCtorEq, if_false, if_true]
    exact List.mem_filter.mpr ⟨he, by simp [errorRecord]⟩
  obtain ⟨merged, rows, replayed, panels, evaluated, summaries, status, -, -, hmerged, -,
    hreplayed, hcovered, -⟩ := decideOn_steps h
  obtain ⟨graded, -, hrecords⟩ := evidence_constraints h
  have hmem := (mem_mergeEvidence hmerged (s := s)).mpr committed
  have kept := replayed_keeps hreplayed (harness_kept hmem rfl) errorId_not_section
  exact ⟨_, hrecords ▸ List.mem_append_left _ ((mem_coveredEvidence hcovered).1 _ kept), rfl⟩

theorem pass_graded (h : decideOn platform run (w.snapshot platform) w = .ok d)
    (pass : d.status = .PASS) : d.pending = [] ∧ (∀ r ∈ d.constraints, r.result ≠ .failed) ∧
      ∀ id ∈ d.required_ids, ∃ r ∈ d.constraints, r.id = id ∧ r.isPassed = true := by
  obtain ⟨-, -, -, -, -, -, status, -, -, -, -, -, -, -, -, -, hverdict, hstatus⟩ :=
    decideOn_steps h
  rw [pass] at hstatus
  have settled : d.pending = [] := by
    by_contra hpending
    rw [if_neg hpending] at hstatus
    cases status <;> simp [decisionStatus] at hstatus
  rw [if_pos settled] at hstatus
  obtain rfl : Status.PASS = status := hstatus
  obtain ⟨-, hgrade⟩ := verdict_eq_ok.mp hverdict
  obtain ⟨clear, required⟩ := grade_pass.mp hgrade
  refine ⟨settled, clear, fun id hid => ?_⟩
  obtain ⟨r, hr, hpassed⟩ := required id hid
  obtain ⟨hmem, hrid⟩ := byId_mem hr
  exact ⟨r, hmem, hrid, hpassed⟩

theorem required_final (hinv : Inv platform w)
    (h : decideOn platform run (w.snapshot platform) w = .ok d) (pass : d.status = .PASS)
    {s : Stage} (hs : s ∈ d.required) : w.Final s := by
  obtain ⟨settled, clear, -⟩ := pass_graded h pass
  obtain ⟨-, -, -, -, -, -, -, -, hpending, -⟩ := decideOn_steps h
  rw [settled] at hpending
  have hnot := (List.filter_eq_nil_iff.mp hpending.symm) s hs
  rw [World.final_iff]
  by_contra hfinal
  have hlive : isFinal (w.stages s).state = false := by simpa using hfinal
  have hfailed : (w.stages s).state.any (·.status == .failed) = true := by
    simpa [isPending, World.snapshot, hlive] using hnot
  have failed : w.status s = some .failed := by
    cases hst : (w.stages s).state with
    | none => simp [hst] at hfailed
    | some st => simpa [hst, World.status] using hfailed
  obtain ⟨r, hr, hresult⟩ := failed_stage hinv h failed
  exact clear r hr hresult

omit [Arith N] [DecidableEq N] in
theorem status_of_isComplete {s : Stage} :
    isComplete (w.stages s).state = true ↔ w.status s = some .complete := by
  rw [World.status]
  cases (w.stages s).state with
  | none => simp [isComplete]
  | some st => simp [isComplete]

omit [DecidableEq N] in
/-- The first two stages are never skipped. -/
theorem complete_of_final (hinv : Inv platform w) {s : Stage} (hs : s ∉ GATED) (final : w.Final s) :
    w.status s = some .complete := by
  obtain ⟨status, hfinal, hstatus⟩ := final
  simp only [FINAL, List.mem_cons, List.not_mem_nil, or_false] at hfinal
  rcases hfinal with rfl | rfl
  · exact hstatus
  · obtain ⟨st, hst, hskip⟩ := Option.map_eq_some_iff.mp hstatus
    exact absurd ((hinv.stage s).skipped st hst hskip).1 hs

omit [Arith N] [DecidableEq N] in
theorem committed_of_mem {s : Stage} {r : Record N} (h : r ∈ w.committed s) :
    isCommitted (w.stages s).state = true ∧ r ∈ (w.stages s).evidence := by
  by_cases committed : isCommitted (w.stages s).state = true
  · refine ⟨committed, ?_⟩
    unfold World.committed committedRows at h
    split at h
    · cases h
    · split_ifs at h
      · exact h
      · exact List.mem_of_mem_filter h
      · cases h
  · rw [World.committed, committedRows_eq_nil (by simpa using committed)] at h
    cases h

omit [Arith N] [DecidableEq N] in
theorem coverage_section {pre id : String} (h : id = pre ++ "1/stage-coverage") :
    InSection pre "1" id :=
  ⟨"stage-coverage", by rw [h]; simp [String.ext_iff]⟩

omit [Arith N] [DecidableEq N] in
theorem coverage_not_section {pre id : String} (h : id = pre ++ "1/stage-coverage") :
    ¬ InSection pre "5" id := by
  intro hsection
  have heq := hsection.unique (a := '5') (b := '1') rfl rfl (coverage_section h)
  exact absurd heq (by decide)

omit [Arith N] [DecidableEq N] in
/-- Grading keeps to sections 2, 3 and 4. -/
theorem graded_not_section {pre : String} {r : Record N} (h : IsGraded pre r) :
    ¬ InSection pre "1" r.id ∧ ¬ InSection pre "5" r.id := by
  have apart : ∀ a b : Char, ∀ k k' : String, k.toList = [a] → k'.toList = [b] → a ≠ b →
      InSection pre k r.id → ¬ InSection pre k' r.id :=
    fun a b k k' hk hk' hne hsection hsection' => hne (hsection.unique hk hk' hsection')
  rcases h.id with hid | hid | hid
  · exact ⟨apart '2' '1' _ _ rfl rfl (by decide) hid, apart '2' '5' _ _ rfl rfl (by decide) hid⟩
  · exact ⟨apart '3' '1' _ _ rfl rfl (by decide) hid, apart '3' '5' _ _ rfl rfl (by decide) hid⟩
  · exact ⟨apart '4' '1' _ _ rfl rfl (by decide) hid, apart '4' '5' _ _ rfl rfl (by decide) hid⟩

/-- A record under the id of stage coverage, or of section 5, that a decision names is there
because the stages behind it are complete. -/
theorem decided_sources (hinv : Inv platform w) (found : w.run = some run)
    (h : decideOn platform (effective run) (w.snapshot platform) w = .ok d) {r : Record N}
    (hr : r ∈ d.constraints) :
    (r.id = run.prefix_ ++ "1/stage-coverage" → isComplete (w.stages .correctness).state = true) ∧
      (InSection run.prefix_ "5" r.id → isCommitted (w.stages .cost).state = true) := by
  obtain ⟨graded, hgraded, hrecords⟩ := evidence_constraints h
  obtain ⟨merged, rows, replayed, panels, evaluated, summaries, status, -, -, hmerged, -,
    hreplayed, hcovered, -⟩ := decideOn_steps h
  rw [hrecords] at hr
  rcases List.mem_append.mp hr with hr | hr
  · rcases (mem_coveredEvidence hcovered).2 r hr with hr | ⟨hcoverage, -, -, hcorrect⟩
    · rcases mem_replayedEvidence hreplayed hr with hr | ⟨hsection, hcost⟩
      · obtain ⟨s, hs⟩ := mem_of_keptEvidence hr
        obtain ⟨committed, hevidence⟩ := committed_of_mem ((mem_mergeEvidence hmerged).mp hs)
        have hrecord := (hinv.stage s).records run found r hevidence
        refine ⟨fun hid => absurd hid hrecord.coverage, fun hsection => ?_⟩
        by_cases hcost : s = .cost
        · exact hcost ▸ committed
        · exact absurd hsection (hrecord.cost hcost).2
      · refine ⟨fun hid => absurd hsection (coverage_not_section hid), fun _ => ?_⟩
        cases hst : (w.stages .cost).state with
        | none => simp [World.snapshot, hst, isComplete] at hcost
        | some st => simp_all [World.snapshot, isComplete, isCommitted]
    · have hid := (stageCoverage_id hcoverage).1
      exact ⟨fun _ => hcorrect, fun hsection => absurd hsection (coverage_not_section hid)⟩
  · obtain ⟨hfirst, hfifth⟩ := graded_not_section (hgraded r hr)
    exact ⟨fun hid => absurd (coverage_section hid) hfirst, fun hsection => absurd hsection hfifth⟩

omit [Arith N] [DecidableEq N] in
theorem requiredCostPanels_name {confirm : Bool} {scope : List Scope} {paths guarded : List String}
    {cases : List (Case N)} (h : requiredCostPanels confirm scope paths cases = .ok guarded) :
    ∃ panels, costPanels confirm scope cases = .ok panels ∧
      ∀ name ∈ guarded, ∃ panel ∈ panels, panel.name = name := by
  unfold requiredCostPanels at h
  obtain ⟨panels, hpanels, h⟩ := bind_eq_ok.mp h
  refine ⟨panels, hpanels, fun name hname => ?_⟩
  cases h
  refine List.mem_map.mp ?_
  split_ifs at hname
  · exact hname
  · exact List.mem_of_mem_filter hname

theorem replayPanel_passed {s : Subject N} {t : Terms N} {id : String} {bundles : Directory N}
    {row : Record N} (guarded : t.guarded = true) (h : replayPanel s t id bundles = .ok row)
    (passed : row.isPassed = true) : ∃ counts result,
      regimeCounts s.estimator t.policy.measurement_protocol = .ok counts ∧
        replayRegimes s t counts bundles = .ok result ∧
        (result.result = .passed ∨ result.result = .passed_on_rerun) := by
  unfold replayPanel at h
  obtain ⟨counts, hcounts, h⟩ := bind_eq_ok.mp h
  split at h
  · rename_i result hresult
    rw [if_pos guarded] at h
    cases h
    exact ⟨counts, result, hcounts, hresult, by simpa [Record.isPassed] using passed⟩
  · cases h
    simp [Record.isPassed, guarded] at passed
  · cases h

/-- A guarded panel that a decision passes was judged from its bundles. -/
theorem pass_panel (found : w.run = some run) (hinv : Inv platform w)
    (h : decideOn platform (effective run) (w.snapshot platform) w = .ok d)
    (hcompile : w.status .compile = some .complete)
      (hcost : isComplete (w.stages .cost).state = true)
    {guarded : List String} (hguarded : guardedPanels (effective run) = .ok guarded) {name : String}
    (hname : name ∈ guarded) {r : Record N} (hr : r ∈ d.constraints)
    (hid : r.id = run.prefix_ ++ "5/" ++ name) (passed : r.isPassed = true) :
    w.PanelPassed platform (effective run) guarded name := by
  obtain ⟨st, hst, hstatus⟩ := Option.map_eq_some_iff.mp hcompile
  obtain ⟨run', found', hscope, hbaseline, hevolved⟩ :=
    (hinv.stage .compile).complete st hst hstatus
  obtain rfl : run = run' := Option.some.inj (found.symm.trans found')
  obtain ⟨scope, hscope⟩ := Option.isSome_iff_exists.mp hscope
  obtain ⟨baseline, hbaseline⟩ := Option.isSome_iff_exists.mp hbaseline
  obtain ⟨evolved, hevolved⟩ := Option.isSome_iff_exists.mp hevolved
  have hscope : (effective run).scope = some scope := hscope
  have hrequired : requiredCostPanels (effective run).profile.manifest.confirm scope
      (effective run).changed_paths (effective run).profile.manifest.cases = .ok guarded := by
    rwa [guardedPanels, hscope] at hguarded
  obtain ⟨panels, hpanels, named⟩ := requiredCostPanels_name hrequired
  obtain ⟨panel, hpanel, rfl⟩ := named name hname
  obtain ⟨s, hs⟩ : ∃ s, panelSubject platform.toSetting (effective run) panel = .ok s := by
    rw [panelSubject, show (effective run).builds.baseline = some baseline from hbaseline,
      show (effective run).builds.evolved = some evolved from hevolved]
    exact ⟨_, rfl⟩
  obtain ⟨merged, rows, replayed, -, -, -, -, -, -, -, -, hreplayed, hcovered, -⟩ :=
    decideOn_steps h
  obtain ⟨graded, hgraded, hrecords⟩ := evidence_constraints h
  have hsection : InSection run.prefix_ "5" r.id := hid ▸ panel_section
  have hin : r ∈ replayed := by
    rw [hrecords] at hr
    rcases List.mem_append.mp hr with hr | hr
    · rcases (mem_coveredEvidence hcovered).2 r hr with hr | ⟨hcoverage, -⟩
      · exact hr
      · exact absurd hsection (coverage_not_section (stageCoverage_id hcoverage).1)
    · exact absurd hsection (graded_not_section (hgraded r hr)).2
  have hview : isComplete ((w.snapshot platform).states .cost) = true := hcost
  rw [replayedEvidence, if_pos hview] at hreplayed
  have hfilter : r ∈ replayed.filter (·.id == (effective run).prefix_ ++ "5/" ++ panel.name) :=
    List.mem_filter.mpr ⟨hin, beq_iff_eq.mpr hid⟩
  rcases replayCosts_cases hscope hrequired hpanels hpanel hs hreplayed with
    ⟨-, hnone⟩ | ⟨row, hrow, hone⟩
  · rw [hnone] at hfilter
    cases hfilter
  · rw [hone] at hfilter
    obtain rfl := List.mem_singleton.mp hfilter
    obtain ⟨counts, result, hcounts, hresult, hpass⟩ :=
      replayPanel_passed (by simpa [panelTerms] using hname) hrow passed
    exact ⟨scope, panels, panel, s, counts, result, hscope, hpanels, hpanel, rfl, hs, hcounts,
      hresult, hpass⟩

omit [Arith N] [DecidableEq N] in
@[simp]
theorem prefix_effective (run : Run N) : (effective run).prefix_ = run.prefix_ := rfl

/-- A policy whose required ids reach every stage: both profiles' do. -/
structure Policy.Thorough (policy : Policy N) (pre : String) : Prop where
  coverage : pre ++ "1/stage-coverage" ∈ policy.required_ids
  cost : ∃ id ∈ policy.required_ids, InSection pre "5" id

/-- What a decision requires. -/
theorem decided_ids (h : decideOn platform run (w.snapshot platform) w = .ok d) :
    (∀ id ∈ run.profile.policy.required_ids, id ∈ d.required_ids) ∧
      (∃ guarded, guardedPanels run = .ok guarded ∧
        ∀ name ∈ guarded, run.prefix_ ++ "5/" ++ name ∈ d.required_ids) ∧
      (.unit_tests ∈ d.required → run.prefix_ ++ "1/upstream" ∈ d.required_ids) := by
  obtain ⟨merged, rows, replayed, guarded, evaluated, summaries, status, -, -, -, -, -, -,
    hevaluated, hguarded, hids, -⟩ := decideOn_steps h
  obtain ⟨-, graded, -, -, -, hrequired, -⟩ := evaluateQuality_eq_ok.mp hevaluated
  have keeps : ∀ id ∈ sortedSet (evaluated ++ guarded.map fun name => run.prefix_ ++ "5/" ++ name),
      id ∈ d.required_ids := by
    intro id hid
    rw [hids]
    unfold requiredIds
    simp only
    split_ifs
    · exact mem_sortedSet.mpr (List.mem_append_left _ hid)
    · exact hid
  refine ⟨fun id hid => ?_, ⟨guarded, hguarded, fun name hname => ?_⟩, fun tests => ?_⟩
  · refine keeps id (mem_sortedSet.mpr (List.mem_append_left _ ?_))
    rw [hrequired]
    exact mem_sortedSet.mpr (List.mem_append_left _ hid)
  · exact keeps _ (mem_sortedSet.mpr (List.mem_append_right _ (List.mem_map_of_mem hname)))
  · rw [hids]
    unfold requiredIds
    simp only
    rw [if_pos (by simpa using tests)]
    exact mem_sortedSet.mpr (List.mem_append_right _ (List.mem_singleton.mpr rfl))

theorem decided_required (h : decideOn platform run (w.snapshot platform) w = .ok d) :
    ∃ gated, d.required = [.compile, .quality] ++ gated ++
      requiredTests (w.stages .unit_tests).state := by
  obtain ⟨-, -, -, -, -, -, -, hrequired, -⟩ := decideOn_steps h
  unfold requiredStages at hrequired
  obtain ⟨gated, -, hrequired⟩ := bind_eq_ok.mp hrequired
  exact ⟨gated, (Except.ok.inj hrequired).symm⟩

theorem pass_tests (hinv : Inv platform w)
    (h : decideOn platform run (w.snapshot platform) w = .ok d) (pass : d.status = .PASS) :
    w.status .unit_tests = none ∨ w.status .unit_tests = some .skipped ∨
      (w.status .unit_tests = some .complete ∧ run.prefix_ ++ "1/upstream" ∈ d.required_ids) := by
  obtain ⟨gated, hrequired⟩ := decided_required h
  cases hst : (w.stages .unit_tests).state with
  | none => exact .inl (by rw [World.status, hst]; rfl)
  | some st =>
      have hstatus : w.status .unit_tests = some st.status := by rw [World.status, hst]; rfl
      have started : [StageStatus.running, .failed, .complete].contains st.status = true →
          .unit_tests ∈ d.required := fun hstarted => by
        rw [hrequired, hst, requiredTests, Option.any_some, if_pos hstarted]
        simp
      have ended : [StageStatus.running, .failed, .complete].contains st.status = true →
          st.status ∈ FINAL := fun hstarted => by
        obtain ⟨status, hfinal, heq⟩ := required_final hinv h pass (started hstarted)
        exact Option.some.inj (hstatus.symm.trans heq) ▸ hfinal
      rw [hstatus]
      cases hcase : st.status with
      | skipped => exact .inr (.inl rfl)
      | noisy =>
          rcases (hinv.stage .unit_tests).noisy st hst hcase with hs | hs <;> cases hs
      | running => exact absurd (ended (by simp [hcase])) (by simp [hcase, FINAL])
      | failed => exact absurd (ended (by simp [hcase])) (by simp [hcase, FINAL])
      | complete => exact .inr (.inr ⟨rfl, (decided_ids h).2.2 (started (by simp [hcase]))⟩)

/-- In every state of a session a `PASS` is warranted. -/
theorem Inv.warrants (hinv : Inv platform w) (found : w.run = some run)
    (thorough : Policy.Thorough run.profile.policy run.prefix_)
    (h : decideOn platform (effective run) (w.snapshot platform) w = .ok d)
    (pass : d.status = .PASS) : w.Warrants platform run d := by
  obtain ⟨settled, clear, passed⟩ := pass_graded h pass
  obtain ⟨policy, ⟨guarded, hguarded, hpanels⟩, -⟩ := decided_ids h
  have tests := pass_tests hinv h pass
  rw [effective_profile] at policy
  rw [prefix_effective] at hpanels tests
  obtain ⟨gated, hrequired⟩ := decided_required h
  have hcompile : w.status .compile = some .complete :=
    complete_of_final hinv (by decide) (required_final hinv h pass (by simp [hrequired]))
  have hquality : w.status .quality = some .complete :=
    complete_of_final hinv (by decide) (required_final hinv h pass (by simp [hrequired]))
  obtain ⟨r, hr, hid, -⟩ := passed _ (policy _ thorough.coverage)
  have hcorrect := (decided_sources hinv found h hr).1 hid
  obtain ⟨id, hid, hsection⟩ := thorough.cost
  obtain ⟨r, hr, rfl, -⟩ := passed _ (policy _ hid)
  have hcommitted := (decided_sources hinv found h hr).2 hsection
  have hcost : w.status .cost = some .complete := by
    cases hst : (w.stages .cost).state with
    | none => simp [hst, isCommitted] at hcommitted
    | some st =>
        have hstatus : w.status .cost = some st.status := by rw [World.status, hst]; rfl
        have hends : st.status = .complete ∨ st.status = .failed := by
          simpa [hst, isCommitted] using hcommitted
        rcases hends with hends | hends
        · rw [hstatus, hends]
        · obtain ⟨r, hr, hfailed⟩ := failed_stage hinv h (hstatus.trans (congrArg some hends))
          exact absurd hfailed (clear r hr)
  have hcorrect := status_of_isComplete.mp hcorrect
  refine ⟨?_, ?_, tests, ?_, policy, ⟨guarded, hguarded, ?_⟩, passed, clear⟩
  · simp [hcompile, hquality, hcorrect, hcost]
  · obtain ⟨st, hst, hstatus⟩ := Option.map_eq_some_iff.mp hquality
    obtain ⟨-, -, -, ⟨state, reason⟩, -, -, -, -, -, hgate, -⟩ :=
      (hinv.stage .quality).complete st hst hstatus
    obtain ⟨st', hst', hended⟩ := Option.map_eq_some_iff.mp hcorrect
    obtain ⟨opened, hopened, -, hopen⟩ :=
      ((hinv.stage .correctness).started st' hst' (by simp [hended])).gate (by decide)
    obtain rfl : st = opened := Option.some.inj (hst.symm.trans hopened)
    refine ⟨st, reason, hst, ?_⟩
    cases state with
    | improved => exact .inl hgate
    | aa => exact .inr hgate
    | closed => exact absurd hgate (hopen reason)
  · obtain ⟨rows, hread, -, hexactly⟩ := hinv.exactly found hquality
    exact ⟨rows, hread, hexactly⟩
  · intro name hname
    obtain ⟨r, hr, hid, hpassed⟩ := passed _ (hpanels name hname)
    exact ⟨hpanels name hname, pass_panel found hinv h hcompile
      (status_of_isComplete.mpr hcost) hguarded
      hname hr hid hpassed⟩

end States

/-! ## A session that passes

One optimization pass has changed. The evolved tree lowers both metrics of the one scored case,
every check is verified, and the timing panel passes at once.
-/

section Sample
open Compile (scopes)

attribute [local instance] integerArith

def passingCase : Case Int :=
  { sampleCase with case_id := "routing/qft", role := .scored, panel := none, seeds_per_block := 2 }

def passingInputs : CompileInputs Int where
  baseline := "main"
  evolved := "candidate"
  profile := ⟨⟨false, [passingCase, sampleCase]⟩, samplePolicy, by decide⟩
  store := "store"
  session := none
  harness := ⟨"coordinator", "harness"⟩
  run_id := "run"

def passingPaths : List String := ["qiskit/transpiler/passes/optimization/collapse.py"]

def passingRun : Run Int :=
  passingInputs.compiled passingPaths (scopes id passingPaths) ⟨"a", some "k"⟩ ⟨"b", none⟩

noncomputable def passingPlatform : Platform Int StageState := Platform.unary sampleSetting

def passingMeasurement : Measurement passingRun where
  case := passingCase
  baseline := ⟨"a", some "k"⟩
  evolved := ⟨"b", none⟩
  report
    | .baseline => [0, 1].map (verifiedRow 8)
    | .evolved => [0, 1].map (verifiedRow 1)
  cases := rfl
  builds := rfl
  batched := rfl
  sized := by decide
  reported revision := by cases revision <;> exact .refl _

noncomputable def passingRows : List (Observation Int) :=
  passingMeasurement.observations passingPlatform

def passingGate : GateState × String :=
  (.improved, "quality improved with every quality check passing")

theorem passing_gate : qualityGate passingRun passingRows (committedOf compiledFiles .compile ++
    (passingMeasurement.written passingPlatform {}).evidence) = .ok passingGate :=
  toOption_eq_some.mp (by decide +kernel)

noncomputable def measuredFiles : Stage → StageFiles Int :=
  settleStage compiledFiles .quality (passingMeasurement.written passingPlatform {})
    (some passingGate)

theorem quality_startable :
    Startable passingPlatform compiledFiles .quality passingRun passingInputs.harness where
  later := by decide
  live := rfl
  finals t ht := by
    rw [List.mem_singleton.mp ht]
    rfl
  pinned := rfl
  stored := by decide
  baseline := rfl
  ungated v _ := .ret none v

noncomputable def correctFiles : Stage → StageFiles Int :=
  settleStage measuredFiles .correctness
    { (measuredFiles .correctness).rerun .correctness with
      clifford := [], evidence := suiteEvidence } none

theorem correctness_startable :
    Startable passingPlatform measuredFiles .correctness passingRun passingInputs.harness where
  later := by decide
  live := rfl
  finals t ht := by
    rw [List.mem_singleton.mp ht]
    rfl
  pinned := rfl
  stored := by decide
  baseline := rfl
  ungated v stages := by
    exact Exec.bind (a := (measuredFiles .quality).state)
      (.fallible ⟨(congrArg (fun files => (files .quality).state) stages).symm, rfl⟩) (.ret none v)

def passingPanel : Panel Int := ⟨"timing", [sampleCase], .timing⟩

def passingTerms : Terms Int := panelTerms sampleSetting passingRun ["timing"] passingPanel

def passingBundle : Bundle Int :=
  newBundle sampleSubject passingTerms ⟨2, 1, 2, 0, 0⟩ .normal "session" id
    (fun _ => [("timing/qft", .timing [[5]])]) "machine"

def passingDirectory : Directory Int := Directory.save (fun _ => none) .normal passingBundle

def passingPanelRow : Record Int :=
  { id := "IA5/timing", kind := .cost, result := .passed,
    details := .cost sampleResult.toCostDetails none }

theorem passing_thorough : Policy.Thorough passingRun.profile.policy passingRun.prefix_ where
  coverage := by decide
  cost := ⟨"IA5/timing", by decide, ⟨"timing", rfl⟩⟩

theorem passing_rows {v : World Int StageState}
    (stages : v.stages .quality = correctFiles .quality) :
    readRows passingPlatform (v.stages .quality).observations = .ok passingRows := by
  have holds : RecordLog.Holds passingPlatform.codec passingRows
      (v.stages .quality).observations := by
    rw [stages]
    exact .of_frame _
  rw [readRows, holds.readRecords]

theorem passing_due : gradeCostDue passingRun passingRows (committedOf correctFiles .compile ++
    committedOf correctFiles .quality ++ committedOf correctFiles .correctness)
      = .ok (some .improved) :=
  toOption_eq_some.mp (by decide +kernel)

theorem passing_costDue {v : World Int StageState}
    (quality : v.stages .quality = correctFiles .quality)
    (committed : ∀ s ∈ [Stage.compile, .quality, .correctness], v.committed s
      = committedOf correctFiles s) :
    v.costDue passingPlatform passingRun = .ok (some .improved) := by
  refine bind_eq_ok.mpr ⟨passingRows, passing_rows quality, ?_⟩
  rw [committed .compile (by simp), committed .quality (by simp), committed .correctness (by simp)]
  exact passing_due

theorem cost_startable :
    Startable passingPlatform correctFiles .cost passingRun passingInputs.harness where
  later := by decide
  live := rfl
  finals t ht := by
    rw [List.mem_singleton.mp ht]
    rfl
  pinned := rfl
  stored := by decide
  baseline := rfl
  ungated v stages := by
    have state : ∀ s, Exec (readState s) v (some (.ok (correctFiles s).state)) v := fun s =>
      .fallible ⟨(congrArg (fun files => (files s).state) stages).symm, rfl⟩
    have due : v.costDue passingPlatform passingRun = .ok (some .improved) :=
      passing_costDue (congrFun stages _) fun s _ => by rw [World.committed, stages, committedOf]
    refine (state .quality).bind ((state .correctness).bind ?_)
    exact (exec_costDue due).bind (.ret none v)

/-- What the stage measures. -/
def passedCosts : CostFiles Int :=
  { (directoryLens "timing").set ⟨fun _ _ => none, []⟩ passingDirectory with
    evidence := [passingPanelRow] }

theorem passing_guarded : requiredCostPanels false (scopes id passingPaths) passingPaths
    [passingCase, sampleCase] = .ok ["timing"] :=
  toOption_eq_some.mp (by decide +kernel)

theorem passing_panels : costPanels false (scopes id passingPaths) [passingCase, sampleCase]
    = .ok [passingPanel] := by
  have unknown : unknownScope (scopes id passingPaths) = false := by decide +kernel
  have stages : (scopes id passingPaths).flatMap (·.stages) =
      ["init", "optimization", "init", "optimization", "init", "optimization", "init",
        "optimization"] := by
    decide +kernel
  rw [costPanels, unknown, stages]
  rfl

theorem passing_measured : Exec (measureCosts sampleSetting passingRun) ⟨fun _ _ => none, []⟩
    (some (.ok ())) passedCosts := by
  have measured : Exec (measurePanel sampleSubject passingTerms) (fun _ => none)
      (some (.ok sampleResult)) passingDirectory :=
    exec_measured_once ⟨0, 1, 2⟩ rfl rfl rfl rfl
      ⟨"session", id, _, "machine", by decide, rfl⟩ rfl rfl
  have step : Exec (measureStep sampleSetting passingRun ["timing"] passingPanel)
      ⟨fun _ _ => none, []⟩ (some (.ok ())) passedCosts :=
    exec_measureStep rfl measured rfl
  exact (exec_ofExcept passing_guarded).bind ((exec_ofExcept passing_panels).bind
    (step.bind (.ret () _)))

theorem reachable_measured : ∃ w : World Int StageState,
    (sessionSystem passingPlatform).Reachable ⟨w, fun _ => none⟩
      ∧ w.Resting passingRun measuredFiles := by
  obtain ⟨w, reached, hrest, -⟩ := reachable_compile passingPlatform passingInputs passingPaths
    (scopes id passingPaths) ⟨"a", some "k"⟩ ⟨"b", none⟩
  obtain ⟨w', ended, hended, -⟩ := reachable_stage reached hrest quality_startable
    fun v stages => passingMeasurement.exec_body rfl passing_gate stages
  exact ⟨w', ended, hended⟩

theorem reachable_correct : ∃ w : World Int StageState,
    (sessionSystem passingPlatform).Reachable ⟨w, fun _ => none⟩
      ∧ w.Resting passingRun correctFiles := by
  obtain ⟨w, reached, hrest⟩ := reachable_measured
  have body : ∀ v : World Int StageState, v.stages = Function.update measuredFiles .correctness
      ((measuredFiles .correctness).rerun .correctness) →
      Exec (stageBody passingPlatform .correctness passingRun) v (some (.ok none))
        (v.setStage .correctness { (measuredFiles .correctness).rerun .correctness with
          clifford := [], evidence := suiteEvidence }) := by
    intro v stages
    have hstage : (stageLens .correctness).get v = (measuredFiles .correctness).rerun
        .correctness := by
      simp [stageLens, stages]
    exact (exec_correctnessBody.zoom (stageLens .correctness) hstage).bind (.ret none _)
  obtain ⟨w', ended, hended, -⟩ := reachable_stage reached hrest correctness_startable body
  exact ⟨w', ended, hended⟩

noncomputable def passedFiles : Stage → StageFiles Int :=
  settleStage correctFiles .cost
    { (correctFiles .cost).rerun .cost with
      bundles := passedCosts.bundles, evidence := passedCosts.evidence } none

theorem reachable_passing : ∃ w : World Int StageState,
    (sessionSystem passingPlatform).Reachable ⟨w, fun _ => none⟩
      ∧ w.Resting passingRun passedFiles := by
  obtain ⟨w, reached, hrest⟩ := reachable_correct
  have body : ∀ v : World Int StageState, v.stages = Function.update correctFiles .cost
      ((correctFiles .cost).rerun .cost) →
      Exec (stageBody passingPlatform .cost passingRun) v (some (.ok none))
        (v.setStage .cost { (correctFiles .cost).rerun .cost with
          bundles := passedCosts.bundles, evidence := passedCosts.evidence }) := by
    intro v stages
    have hstage : v.stages .cost = (correctFiles .cost).rerun .cost := by simp [stages]
    have due : v.costDue passingPlatform passingRun = .ok (some .improved) := by
      refine passing_costDue (by simp [stages]) fun s hs => ?_
      have hne : s ≠ .cost := by rintro rfl; simp at hs
      simp [World.committed, committedOf, stages, hne]
    have measured : Exec (measureCosts sampleSetting passingRun) ⟨(v.stages .cost).bundles, []⟩
        (some (.ok ())) passedCosts := by
      rw [hstage]
      exact passing_measured
    have body := exec_costBody due measured
    rwa [hstage] at body
  obtain ⟨w', ended, hended, -⟩ := reachable_stage reached hrest cost_startable body
  exact ⟨w', ended, hended⟩

noncomputable def passedMerged : List (Stage × Record Int) :=
  STAGE_ORDER.flatMap fun s => (committedOf passedFiles s).map fun r => (s, r)

/-- Deciding it gives `PASS`. -/
theorem passing_decided {w : World Int StageState} (h : w.Resting passingRun passedFiles) :
    ∃ d, decideOn passingPlatform passingRun (w.snapshot passingPlatform) w = .ok d
      ∧ d.status = .PASS := by
  have committed : (w.snapshot passingPlatform).evidence = committedOf passedFiles := by
    funext s
    change w.committed s = _
    rw [World.committed, h.stages, committedOf]
  have states : ∀ s, (w.snapshot passingPlatform).states s = (passedFiles s).state := by
    intro s
    rw [World.snapshot, h.stages]
  have required : requiredStages passingPlatform passingRun (w.snapshot passingPlatform) w
      = .ok [.compile, .quality, .correctness, .cost] := by
    have due : w.costDue passingPlatform passingRun = .ok (some .improved) :=
      passing_costDue (congrFun h.stages _) fun s hs => by
        have hne : s ≠ .cost := by rintro rfl; simp at hs
        rw [World.committed, h.stages, committedOf]
        simp [passedFiles, settleStage, hne]
    refine bind_eq_ok.mpr ⟨[.correctness, .cost], ?_, ?_⟩
    · rw [requiredGated, states, states]
      refine bind_eq_ok.mpr ⟨[.cost], bind_eq_ok.mpr ⟨some .improved, due, rfl⟩, rfl⟩
    · rw [states]
      rfl
  have merged : mergeEvidence (w.snapshot passingPlatform) = .ok passedMerged := by
    have distinct : (mergeRows [] passedMerged).isOk = true := by decide +kernel
    obtain ⟨out, hout⟩ := isOk_iff.mp distinct
    obtain rfl : out = passedMerged := mergeRows_eq_ok hout
    rw [mergeEvidence, committed]
    exact hout
  have rows : decidedRows passingPlatform false (w.snapshot passingPlatform) w
      = .ok passingRows := by
    rw [decidedRows, states]
    exact bind_eq_ok.mpr ⟨passingRows, passing_rows (congrFun h.stages _), rfl⟩
  have graded : ((replayCosts sampleSetting passingRun (passedFiles .cost).bundles
      (passedMerged.map (·.2))).bind fun replayed =>
        (stageCoverage (scopes id passingPaths) [passingCase, sampleCase] passingRows [] "IA").bind
          fun coverage =>
        (evaluateQuality passingRun.profile.manifest samplePolicy passingRows
          (replayed ++ [coverage])).bind fun out =>
        (guardedPanels passingRun).bind fun panels =>
        verdict out.1 (requiredIds passingRun out.2.1 panels
          [.compile, .quality, .correctness, .cost])) = .ok .PASS := by
    exact toOption_eq_some.mp (by decide +kernel)
  obtain ⟨replayed, hreplayed, hcovered⟩ := bind_eq_ok.mp graded
  obtain ⟨coverage, hcoverage, hevaluated⟩ := bind_eq_ok.mp hcovered
  obtain ⟨out, hout, hpanels⟩ := bind_eq_ok.mp hevaluated
  obtain ⟨panels, hpanels, hverdict⟩ := bind_eq_ok.mp hpanels
  have replay : replayedEvidence passingPlatform passingRun (w.snapshot passingPlatform) w
      (keptEvidence false passedMerged) = .ok replayed := by
    rw [replayedEvidence, states, h.stages]
    exact hreplayed
  have cover : coveredEvidence passingRun false (w.snapshot passingPlatform) w passingRows replayed
      = .ok (replayed ++ [coverage]) := by
    rw [coveredEvidence, states, states, h.stages]
    exact bind_eq_ok.mpr ⟨coverage, hcoverage, rfl⟩
  refine ⟨_, bind_eq_ok.mpr ⟨_, required, bind_eq_ok.mpr ⟨_, merged, bind_eq_ok.mpr ⟨_, rows,
    bind_eq_ok.mpr ⟨_, replay, bind_eq_ok.mpr ⟨_, cover, bind_eq_ok.mpr ⟨_, hout,
      bind_eq_ok.mpr ⟨_, hpanels, bind_eq_ok.mpr ⟨_, hverdict, rfl⟩⟩⟩⟩⟩⟩⟩⟩, ?_⟩
  have settled : ([.compile, .quality, .correctness, .cost] : List Stage).filter
      (fun s => isPending ((w.snapshot passingPlatform).states s)) = [] := by
    simp only [states]
    rfl
  simp [decisionStatus, settled]

end Sample

/-! ## The warrant -/

/-- However its stages were started, killed, resumed, cleaned up or amended, a session that
passes is complete, behind an open gate, and passes by its own records and bundles. -/
theorem pass_warranted [Arith N] [DecidableEq N] [DecidableEq H] (platform : Platform N H)
    (r : (sessionSystem platform).Run) (i : ℕ) {run : Run N} {d : Decision N H}
    (found : (r.config i).world.run = some run)
    (thorough : Policy.Thorough run.profile.policy run.prefix_)
    (decided : decideOn platform (effective run) ((r.config i).world.snapshot platform)
      (r.config i).world = .ok d) (pass : d.status = .PASS) :
    (r.config i).world.Warrants platform run d :=
  (session_inv platform (r.reachable _ i)).warrants found thorough decided pass

section Improved
attribute [local instance] integerArith

theorem pass_warranted_improved :
    ∃ (r : (sessionSystem passingPlatform).Run) (i : ℕ) (d : Decision Int StageState),
      decideOn passingPlatform (effective passingRun) ((r.config i).world.snapshot passingPlatform)
        (r.config i).world = .ok d ∧ d.status = .PASS ∧
      (r.config i).world.Warrants passingPlatform passingRun d := by
  obtain ⟨w, reached, hrest⟩ := reachable_passing
  obtain ⟨d, decided, pass⟩ := passing_decided hrest
  obtain ⟨r, i, hi⟩ := reached.exists_run
  have world : (r.config i).world = w := congrArg Config.world hi
  rw [← world] at hrest decided
  exact ⟨r, i, d, decided, pass, pass_warranted passingPlatform r i hrest.found passing_thorough
    decided pass⟩

end Improved

end TranspileBench.Coordinator
