import TranspileBench.Coordinator.Lifecycle

/-!
An attempt of a stage: from its `running` state over its body to the state it ends in,
which is `complete` only with what the stage promises.
-/
namespace TranspileBench.Coordinator
open Evaluator

variable {N H : Type}

/-- Only cost is interfered with; what quality's grading raises is not looked into. -/
def Tolerated (s : Stage) (e : Exn) : Prop := s = .cost ∨ s = .quality ∨ crash e

/-- How a body ends: with what the stage promises of the state to come, or by an exception. -/
structure Promised [Arith N] (platform : Platform N H) (p : Nat) (s : Stage) (torn : Prop)
    (st : StageState)
    (phase : Phase N) (gate : Option (GateState × String)) (w : World N H) : Prop where
  working : ∃ view, Working platform p s view torn st phase w
  completed : w.Completed platform { status := .complete, attempts := st.attempts, gate } s

def Broken (platform : Platform N H) (p : Nat) (s : Stage) (torn : Prop) (st : StageState)
    (phase : Phase N) (e : Exn) (w : World N H) : Prop :=
  (∃ view, Working platform p s view torn st phase w) ∧ Tolerated s e

/-! ## Bodies -/

/-- Builds that end without an exception are both recorded. -/
theorem BuildOutcome.built {o : BuildOutcome} {run : Run N} {baseline : Build}
    (hbaseline : o.baseline = .ok baseline) (hevolved : ∀ e, o.evolved ≠ some (.error e))
    (reused : o.evolved = none → run.builds.evolved.isSome) :
    (o.record run).builds.baseline.isSome ∧ (o.record run).builds.evolved.isSome := by
  refine ⟨by simp [BuildOutcome.record, hbaseline, Except.toOption], ?_⟩
  cases he : o.evolved with
  | none => simpa [BuildOutcome.record, he] using reused he
  | some result =>
      cases result with
      | error e => exact absurd he (hevolved e)
      | ok b => simp [BuildOutcome.record, he, Except.toOption]

section Compile
variable [Arith N] {platform : Platform N H} {p : Nat} {w : World N H} {view : Run N}
  {torn : Prop} {st : StageState} {phase : Phase N}

/-- The compile stage saves `run.json`. -/
theorem wp_saveRun {run : Run N} (h : Working platform p .compile view torn st phase w)
    (hprofile : run.profile = view.profile) :
    (saveRun run).wp (sessionContract platform p)
      (fun _ => Working platform p .compile run torn st phase)
      (Broken platform p .compile torn st phase) w := by
  refine wp_write (Working.stable platform p .compile view torn st phase) h (fun w₁ hinv h₁ => ?_)
    (fun w₁ hinv h₁ => ?_) fun _ _ he h₁ => ⟨⟨view, h₁⟩, .inr (.inr he)⟩
  · refine .save w₁ run h₁.lock ?_ fun old hold => hprofile.trans (h₁.shows.profile hold).symm
    have hstatus : w₁.status .compile = some .running := by
      rw [World.status, h₁.files.state, Option.map_some, h₁.running]
    exact World.not_final hstatus (by decide)
  · exact ⟨⟨h₁.shared, h₁.lock, h₁.only⟩, h₁.phase_eq, h₁.clean, ⟨run, rfl, rfl, fun _ => rfl⟩,
      ⟨by simp [PREREQUISITES], by simp [GATED], by simp⟩, h₁.running, hprofile ▸ h₁.files,
      fun hs => by cases hs⟩

theorem wp_compileAsk {β : Type} {P : β → Prop} {Q : β → World N H → Prop}
    (h : Working platform p .compile view torn st phase w)
    (ok : ∀ w₁ b, P b → Working platform p .compile view torn st phase w₁ → Q b w₁) :
    (Prog.request crash P).wp (sessionContract platform p) Q
      (Broken platform p .compile torn st phase) w :=
  wp_ask (Working.stable platform p .compile view torn st phase) h ok
    fun _ _ he h₁ => ⟨⟨view, h₁⟩, .inr (.inr he)⟩

theorem wp_reuseEvolved {run : Run N} {saved : Option Build}
    (h : Working platform p .compile view torn st phase w) (hprofile : run.profile = view.profile) :
    (reuseEvolved run saved).wp (sessionContract platform p)
      (fun out w => out.scope = run.scope ∧ (saved.isSome → out.builds.evolved.isSome) ∧
        ∃ v, out.profile = v.profile ∧ Working platform p .compile v torn st phase w)
      (Broken platform p .compile torn st phase) w := by
  cases saved with
  | none => exact ⟨rfl, by simp, view, hprofile, h⟩
  | some b =>
      change (saveRun _ >>= _).wp _ _ _ _
      rw [Prog.wp_bind]
      exact Prog.wp_mono (wp_saveRun h hprofile) (fun _ _ h₁ => ⟨rfl, fun _ => rfl, _, rfl, h₁⟩)
        fun _ _ he => he

/-- `build` returns the `run.json` it saved, with the scope and both builds in it. -/
theorem wp_build {run : Run N} (h : Working platform p .compile run torn st phase w) :
    (build run).wp (sessionContract platform p)
      (fun out w => Working platform p .compile out torn st phase w ∧ out.scope.isSome ∧
        out.builds.baseline.isSome ∧ out.builds.evolved.isSome)
      (Broken platform p .compile torn st phase) w := by
  unfold build
  rw [Prog.wp_bind]
  refine wp_compileAsk h fun w₁ found _ h₁ => ?_
  rw [Prog.wp_bind]
  refine wp_compileAsk h₁ fun w₂ saved _ h₂ => ?_
  rw [Prog.wp_bind]
  refine Prog.wp_mono (wp_reuseEvolved h₂ rfl) ?_ fun _ _ he => he
  rintro out w₃ ⟨hscope, hevolved, v, hv, h₃⟩
  rw [Prog.wp_bind]
  refine wp_compileAsk h₃ fun w₄ outcome houtcome h₄ => ?_
  obtain ⟨⟨hbase, hevo⟩, honly⟩ := houtcome
  rw [Prog.wp_bind]
  refine Prog.wp_mono (wp_saveRun h₄ hv) (fun _ w₅ h₅ => ?_) fun _ _ he => he
  rw [Prog.wp_bind]
  cases hb : outcome.baseline with
  | error e => exact ⟨⟨_, h₅⟩, .inr (.inr (hbase e hb))⟩
  | ok baseline =>
      change (raiseEvolved outcome.evolved >>= _).wp _ _ _ _
      rw [Prog.wp_bind]
      unfold raiseEvolved
      split
      · rename_i e he
        exact ⟨⟨_, h₅⟩, .inr (.inr (hevo e he))⟩
      · rename_i hne
        have built := outcome.built hb hne fun hnone => hevolved (by simpa [hnone] using honly.symm)
        rw [Prog.wp_pure, Prog.wp_bind]
        refine wp_compileAsk h₅ fun w₆ _ _ h₆ => ?_
        rw [Prog.wp_bind]
        refine Prog.wp_mono (wp_saveRun h₆ rfl) (fun _ w₇ h₇ => ?_) fun _ _ he => he
        exact ⟨h₇, by rw [BuildOutcome.record, hscope]; rfl, built⟩

theorem wp_compileBody (h : Working platform p .compile view torn st phase w) :
    (compileBody view).wp (sessionContract platform p)
      (fun _ => Promised platform p .compile torn st phase none)
      (Broken platform p .compile torn st phase) w := by
  unfold compileBody
  rw [Prog.wp_bind]
  refine Prog.wp_mono (wp_build h) ?_ fun _ _ he => he
  rintro out w₁ ⟨h₁, hbuilt⟩
  rw [Prog.wp_bind]
  refine wp_compileAsk h₁ fun w₂ _ _ h₂ => ?_
  refine Prog.wp_mono (h₂.zoom (safe_putEvidence (by decide) (.foreign (by simp) (by simp)) _)) ?_
    ?_
  · rintro _ w₃ ⟨h₃, -⟩
    obtain ⟨run, hrun, -, hsame⟩ := h₃.shows
    exact ⟨⟨out, h₃⟩, run, hrun, hsame rfl ▸ hbuilt⟩
  · rintro e w₃ ⟨h₃, he⟩
    exact ⟨⟨out, h₃⟩, .inr (.inr he)⟩

end Compile

section Bodies
variable [Arith N] {platform : Platform N H} {p : Nat} {s : Stage} {w : World N H} {view : Run N}
  {torn : Prop} {st : StageState} {phase : Phase N}

/-- A body that only keeps to its stage, of a stage that promises nothing more. -/
theorem wp_suiteBody {prog : Prog (StageFiles N) Exn Unit}
    (hs : s = .correctness ∨ s = .unit_tests)
    (h : Working platform p s view torn st phase w)
    (safe : Prog.Safe (bodyContract platform view.profile torn s st) crash prog) :
    (prog.zoom (stageLens s)).wp (sessionContract platform p)
      (fun _ => Promised platform p s torn st phase none)
        (Broken platform p s torn st phase) w := by
  refine Prog.wp_mono (h.zoom (safe _)) ?_ ?_
  · rintro _ w₁ ⟨h₁, -⟩
    refine ⟨⟨view, h₁⟩, ?_⟩
    rcases hs with rfl | rfl <;> trivial
  · rintro e w₁ ⟨h₁, he⟩
    exact ⟨⟨view, h₁⟩, .inr (.inr he)⟩

/-- The quality stage ends with all rows, and the gate they imply. -/
theorem wp_qualityBody (h : Working platform p .quality view torn st phase w)
    (answered : w.Answered platform .quality) :
    (qualityBody platform view).wp (sessionContract platform p)
      (fun gate => Promised platform p .quality torn st phase (some gate))
      (Broken platform p .quality torn st phase) w := by
  have broken : ∀ e w, Working platform p .quality view torn st phase w →
      Broken platform p .quality torn st phase e w := fun e w hw => ⟨⟨view, hw⟩, .inr (.inl rfl)⟩
  obtain ⟨saved, hsaved⟩ := h.files.observed rfl
  have start := hsaved.committed h.files.state h.files.records
    ((answered rfl).imp_left (h.torn_iff rfl).mp)
  unfold qualityBody
  rw [Prog.wp_bind]
  refine Prog.wp_mono (h.zoom (runs_measureQuality rfl start)) ?_ fun e w hw => broken e w hw.1
  rintro rows w₁ ⟨h₁, hrows, hwanted⟩
  have stable : Stable p fun w => Working platform p .quality view torn st phase w ∧
      Committed platform view.profile torn st rows (w.stages .quality) := fun w w' hw hrely =>
    ⟨Working.stable platform p .quality view torn st phase w w' hw.1 hrely,
      by rw [hrely.files .quality hw.1.lock]; exact hw.2⟩
  have compile : ∀ w, Working platform p .quality view torn st phase w → w.Final .compile :=
    fun w hw => hw.startable.prerequisites .compile (by decide)
  rw [Prog.wp_bind]
  refine Prog.wp_mono (wp_committedEvidence stable (fun w hw => compile w hw.1) ⟨h₁, hrows⟩) ?_
    fun e w hw => broken e w hw.1
  rintro records w₂ ⟨h₂, hrecords⟩
  have stable₂ : Stable p fun w : World N H => (Working platform p .quality view torn st phase w ∧
      Committed platform view.profile torn st rows (w.stages .quality)) ∧
        records = w.committed .compile :=
    stable.and_stage (P := fun f => records = committedRows .compile f.state f.evidence) .compile
      fun w hw => compile w hw.1
  rw [Prog.wp_bind]
  refine wp_readFile stable₂ ⟨h₂, hrecords⟩ (fun w₃ _ h₃ => ?_) fun _ _ _ h₃ => broken _ _ h₃.1.1
  rw [wp_ofExcept]
  refine ⟨fun gate hgate => ?_, fun e _ => broken e w₃ h₃.1.1⟩
  obtain ⟨⟨hworking, hcommitted⟩, hcompile⟩ := h₃
  obtain ⟨run, hrun, hprofile, -⟩ := hworking.shows
  refine ⟨⟨view, hworking⟩, run, view, rows, gate, hrun, hprofile.symm, ?_, ?_, ?_, rfl, ?_⟩
  · rw [readRows, hcommitted.file.readRecords]
  · rw [hprofile]; exact hwanted
  · rw [← hcompile]; exact hgate
  · exact (hcommitted.tidy.imp_left (hworking.torn_iff rfl).mpr).imp_right fun tidy =>
      tidy.not_unanswered hcommitted.file

theorem keeps_committedEvidence {A : World N H → Prop} (stable : Stable p A) (t : Stage) :
    Prog.Keeps (sessionContract platform p) A (committedEvidence t) := by
  refine .bind (keeps_readFile stable) fun state => ?_
  split_ifs
  · exact .bind (keeps_readFile stable) fun rows => .pure _
  · exact .pure _

theorem keeps_costDue {A : World N H → Prop} (stable : Stable p A) :
    Prog.Keeps (sessionContract platform p) A (costDue platform view) :=
  .bind (keeps_readFile stable) fun _ => .bind (keeps_ofExcept _) fun _ =>
    .bind (keeps_committedEvidence stable _) fun _ =>
      .bind (keeps_committedEvidence stable _) fun _ =>
        .bind (keeps_committedEvidence stable _) fun _ => keeps_ofExcept _

/-- Panels are measured and recorded on the cost stage's own files. -/
theorem safe_measure [DecidableEq N] :
    Prog.Safe (bodyContract platform view.profile torn .cost st) (fun _ => True)
      ((measureCosts platform.toSetting view).zoom costFilesLens) := by
  refine .zoom costFilesLens (fun f hf => hf.records) ?_ safe_measureCosts
  intro f c hf _ hc
  exact ⟨trivial, hf.state, hc, fun hs => by cases hs⟩

/-- The cost stage records what it measured; only it can end contaminated. -/
theorem wp_costBody [DecidableEq N] (h : Working platform p .cost view torn st phase w) :
    (costBody platform view).wp (sessionContract platform p)
      (fun _ => Promised platform p .cost torn st phase none)
      (Broken platform p .cost torn st phase) w := by
  have broken : ∀ e w, Working platform p .cost view torn st phase w →
      Broken platform p .cost torn st phase e w := fun e w hw => ⟨⟨view, hw⟩, .inl rfl⟩
  unfold costBody
  rw [Prog.wp_bind]
  refine Prog.wp_mono (h.zoom (safe_resetEvidence (by decide) _)) ?_ fun e w hw => broken e w hw.1
  rintro _ w₁ ⟨h₁, -⟩
  rw [Prog.wp_bind]
  refine Prog.wp_mono (keeps_costDue (Working.stable platform p .cost view torn st phase) _ h₁) ?_
    broken
  intro _ w₂ h₂
  rw [Prog.wp_bind, Prog.wp_attempt]
  have recorded : ∀ measured w, Working platform p .cost view torn st phase w →
      (incompleteCosts view measured).wp (sessionContract platform p)
        (fun _ => Promised platform p .cost torn st phase none)
        (Broken platform p .cost torn st phase) w := by
    intro measured w₃ h₃
    unfold incompleteCosts
    split
    · exact ⟨⟨view, h₃⟩, trivial⟩
    · have hid : view.prefix_ ++ "5/timing" = view.prefix_ ++ "5/" ++ "timing" := by
        rw [String.append_assoc]
        rfl
      exact Prog.wp_mono (h₃.zoom (safe_putEvidence (by decide) (panelId_record hid) _))
        (fun _ w hw => ⟨⟨view, hw.1⟩, trivial⟩) fun e w hw => broken e w hw.1
    · exact broken _ w₃ h₃
  exact Prog.wp_mono (h₂.zoom (safe_measure _)) (fun _ w hw => recorded _ w hw.1)
    fun _ w hw => recorded _ w hw.1

end Bodies

/-! ## From the first state of an attempt to its last -/

theorem Working.holding {platform : Platform N H} {p : Nat} {s : Stage} {view : Run N} {torn : Prop}
    {st : StageState} {w : World N H} (h : Working platform p s view torn st (.inside s) w) :
    Holding p s w :=
  ⟨h.toLocked, h.phase_eq⟩

/-- The body is over: the process is between its locks again. -/
theorem Working.left {platform : Platform N H} {p : Nat} {s : Stage} {view : Run N} {torn : Prop}
    {st : StageState} {phase : Phase N} {w : World N H}
    (h : Working platform p s view torn st phase w) :
    Working platform p s view torn st (.inside s) (w.mark p (.inside s)) :=
  ⟨⟨h.shared, h.lock, h.only⟩, by simp, h.clean, h.shows,
    (Extends.mark w p _).startable h.startable, h.running, h.files, h.torn_iff⟩

/-- The state an attempt starts with. -/
abbrev startedState (previous : Option StageState) : StageState :=
  { status := .running, attempts := (previous.map (·.attempts)).getD 0 + 1 }

section Attempt
variable [Arith N] {platform : Platform N H} {p : Nat} {s : Stage} {w : World N H} {view : Run N}
  {torn : Prop} {st : StageState} {phase : Phase N} {previous : Option StageState}

/-- The attempt is marked running, and its body has not begun. -/
structure Begun (platform : Platform N H) (p : Nat) (s : Stage) (view : Run N) (torn : Prop)
    (st : StageState) (w : World N H) : Prop
    extends Working platform p s view torn st (.inside s) w where
  answered : w.Answered platform s
  before : s = .cost → w.Final .compile ∧ w.Final .quality
  due : s = .cost → ∃ due, w.costDue platform view = .ok (some due)

theorem Begun.stable (platform : Platform N H) (p : Nat) (s : Stage) (view : Run N) (torn : Prop)
    (st : StageState) : Stable p (Begun platform p s view torn st) := by
  intro w w' h hrely
  refine ⟨Working.stable platform p s view torn st _ _ _ h.toWorking hrely,
    h.answered.undisturbed h.toLocked hrely, fun hs =>
    ⟨hrely.extend.keeps (h.before hs).1, hrely.extend.keeps (h.before hs).2⟩, fun hs => ?_⟩
  obtain ⟨due, hdue⟩ := h.due hs
  rw [hrely.extend.costDue (h.before hs).1 (h.before hs).2
    (World.final_of_status (h.startable.cost hs))]
  exact ⟨due, hdue⟩

/-- The files of the attempt may change as its body may change them. -/
theorem Begun.setStage {f : StageFiles N} (h : Begun platform p s view torn st w)
    (live : ¬ w.Final s) (hf : BodyInv platform view.profile torn s st f)
    (observations : f.observations = (w.stages s).observations)
    (evidence : ∀ r ∈ f.evidence, r ∈ (w.stages s).evidence) :
    Begun platform p s view torn st (w.setStage s f) := by
  have hext : Extends w (w.setStage s f) := .setStage f live
  refine ⟨h.toWorking.setStage live hf, ?_, fun hs =>
    ⟨hext.keeps (h.before hs).1, hext.keeps (h.before hs).2⟩, fun hs => ?_⟩
  · rintro rfl
    rw [World.setStage_same]
    exact (h.answered rfl).imp_right fun hun hf' => hun (hf'.of_subset observations evidence)
  · obtain ⟨due, hdue⟩ := h.due hs
    rw [hext.costDue (h.before hs).1 (h.before hs).2
      (World.final_of_status (h.startable.cost hs))]
    exact ⟨due, hdue⟩

theorem Begun.inBody (h : Begun platform p s view torn st w) : w.InBody platform s view := by
  obtain ⟨run, hrun, hprofile, -⟩ := h.shows
  exact ⟨h.clean, by rw [World.status, h.files.state, Option.map_some, h.running], h.startable,
    ⟨run, hrun, hprofile.symm⟩, h.due⟩

/-- The `running` state is the first write of an admitted invocation. -/
theorem wp_writeRunning (live : isFinal previous = false)
    (h : Admitted platform p s view previous w) :
    (writeState s (startedState previous)).wp (sessionContract platform p)
      (fun _ w => ∃ torn, Begun platform p s view torn (startedState previous) w)
      (fun _ => Holding p s) w := by
  have notFinal : ∀ w, Admitted platform p s view previous w → ¬ w.Final s := fun w hw => by
    rw [World.final_iff, hw.state, live]
    decide
  unfold writeState
  refine wp_write (Admitted.stable platform p s view previous) h (fun w₁ hinv h₁ => ?_)
    (fun w₁ hinv h₁ => ⟨w₁.torn, ?_⟩) fun _ _ _ h₁ => h₁.toHolding
  · refine .write w₁ s _ (hinv.stateStep h₁.toHolding h₁.clean h₁.shows.created (notFinal w₁ h₁)
      (.inl ⟨rfl, by rw [h₁.state]; rfl⟩) (fun _ => h₁.startable) ?_ ?_ ?_ ?_)
    all_goals exact fun heq => by cases heq
  · have hext := Extends.setStage { w₁.stages s with state := some (startedState previous) }
      (notFinal w₁ h₁)
    obtain ⟨run, hrun, hprofile, hsame⟩ := h₁.shows
    have files : BodyInv platform view.profile w₁.torn s (startedState previous)
        { w₁.stages s with state := some (startedState previous) } := by
      refine ⟨rfl, fun r hr => ?_, fun hs => ?_⟩
      · have hrecord := (hinv.stage s).records run hrun r hr
        rwa [Run.prefix_, hprofile] at hrecord
      · subst hs
        obtain ⟨rows, hrows⟩ := hinv.observed run hrun
        rw [hprofile] at hrows
        exact ⟨rows, hrows.file, hrows.row, hrows.nodup, hrows.agree⟩
    refine ⟨⟨h₁.toHolding.setStage.toLocked, h₁.phase, h₁.clean, ⟨run, hrun, hprofile, hsame⟩,
      hext.startable h₁.startable, rfl, by rw [World.setStage_same]; exact files,
      fun _ => Iff.rfl⟩, ?_, fun hs => ⟨hext.keeps (h₁.before hs).1, hext.keeps (h₁.before hs).2⟩,
      fun hs => ?_⟩
    · rintro rfl
      rw [World.setStage_same]
      exact (h₁.answered rfl).imp_right fun hun hf => hun (hf.of_subset rfl fun _ => id)
    · obtain ⟨due, hdue⟩ := h₁.due hs
      rw [hext.costDue (h₁.before hs).1 (h₁.before hs).2
        (World.final_of_status (h₁.startable.cost hs))]
      exact ⟨due, hdue⟩

/-- An attempt drops the crash record of the one it resumes. -/
theorem wp_commitRecords (h : Begun platform p s view torn st w) :
    (commitRecords s).wp (sessionContract platform p)
      (fun _ => Begun platform p s view torn st) (fun _ => Holding p s) w := by
  have resumed : ∀ f, BodyInv platform view.profile torn s st f →
      BodyInv platform view.profile torn s st (f.resumed s) := by
    intro f hf
    refine ⟨hf.state, fun r hr => hf.records r (List.mem_filter.mp hr).1, fun hs => ?_⟩
    obtain ⟨rows, hrows⟩ := hf.observed hs
    refine ⟨rows, hrows.file, hrows.row, hrows.nodup, hrows.agree.imp_right fun agree =>
      ⟨fun row hrow hbad => ?_, fun r hr => agree.committed r (List.mem_filter.mp hr).1⟩⟩
    refine List.mem_filter.mpr ⟨agree.recorded row hrow hbad, ?_⟩
    have hne : (failureRecord row).id ≠ s.errorId := fun heq => by
      have hhead := congrArg (fun id => id.toList[0]?) heq
      simp [failureRecord, Stage.errorId] at hhead
    simpa using hne
  unfold commitRecords
  refine wp_write (Begun.stable platform p s view torn st) h (fun w₁ hinv h₁ => ?_)
    (fun w₁ hinv h₁ => ?_) fun _ _ _ h₁ => h₁.toWorking.holding
  · exact .write w₁ s _ (h₁.toWorking.stageStep hinv (resumed _ h₁.files))
  · exact h₁.setStage (h₁.toWorking.stageStep hinv h₁.files).live (resumed _ h₁.files) rfl
      fun r hr => (List.mem_filter.mp hr).1

/-- Each body ends with what its stage promises, or breaks off. -/
theorem wp_stageBody [DecidableEq N] (h : Working platform p s view torn st phase w)
    (answered : w.Answered platform s) :
    (stageBody platform s view).wp (sessionContract platform p)
    (Promised platform p s torn st phase)
      (Broken platform p s torn st phase) w := by
  cases s with
  | compile => exact Prog.wp_bind.mpr (wp_compileBody h)
  | quality => exact Prog.wp_bind.mpr (wp_qualityBody h answered)
  | correctness => exact Prog.wp_bind.mpr (wp_suiteBody (.inl rfl) h safe_correctnessBody)
  | unit_tests => exact Prog.wp_bind.mpr (wp_suiteBody (.inr rfl) h safe_unitTestsBody)
  | cost => exact Prog.wp_bind.mpr (wp_costBody h)

theorem World.Completed.undisturbed {w' : World N H} (h : w.Completed platform st s)
    (hlock : Locked p s w) (compile : s = .quality → w.Final .compile)
    (hrely : Undisturbed p w w') :
    w'.Completed platform st s := by
  cases s with
  | compile =>
      obtain ⟨run, hrun, hbuilt⟩ := h
      exact ⟨run, (hrely.run (.inl hlock.lock)).trans hrun, hbuilt⟩
  | quality =>
      obtain ⟨run, view, rows, gate, hrun, hview, hrows, hwanted, hgate, hst, htorn⟩ := h
      obtain ⟨run', hrun', hprofile, -⟩ := hrely.extend.run run hrun
      refine ⟨run', view, rows, gate, hrun', hview.trans hprofile.symm, ?_, ?_, ?_, hst, ?_⟩
      · rw [hrely.files .quality hlock.lock]; exact hrows
      · rw [hprofile]; exact hwanted
      · rw [hrely.files .quality hlock.lock, hrely.extend.committed (compile rfl)]; exact hgate
      · rw [hrely.files .quality hlock.lock]; exact htorn.imp_left hrely.extend.torn
  | correctness | unit_tests | cost => trivial

theorem Promised.stable (platform : Platform N H) (p : Nat) (s : Stage) (torn : Prop)
    (st : StageState) (phase : Phase N) (gate : Option (GateState × String)) :
    Stable p fun w => Promised platform p s torn st phase gate w := by
  rintro w w' ⟨⟨view, h⟩, hcompleted⟩ hrely
  refine ⟨⟨view, Working.stable platform p s view torn st phase w w' h hrely⟩,
    hcompleted.undisturbed h.toLocked (fun hs => ?_) hrely⟩
  subst hs
  exact h.startable.prerequisites .compile (by decide)

theorem World.Completed.marked (h : w.Completed platform st s) :
    (w.mark p phase).Completed platform st s := by
  cases s <;> exact h

/-- The last state of an attempt follows its first. -/
theorem wp_commitState {A : World N H → Prop} {state : StageState} {code : Nat}
    (stable : Stable p A) (h : A w) (hold : ∀ w, A w → Holding p s w)
    (step : ∀ w, Inv platform w → A w →
      StageStep platform w p s { w.stages s with state := some state }) :
    (commitState s state code).wp (sessionContract platform p) (fun _ => Holding p s)
      (fun _ => Holding p s) w := by
  unfold commitState
  rw [Prog.wp_bind]
  refine wp_ask stable h (fun w₁ _ _ h₁ => ?_) fun w₁ _ _ h₁ => hold w₁ h₁
  rw [Prog.wp_bind]
  refine wp_write stable h₁ (fun w₂ hinv h₂ => .write w₂ s _ (step w₂ hinv h₂)) (fun w₂ _ h₂ => ?_)
    fun w₂ _ _ h₂ => hold w₂ h₂
  exact (Prog.Keeps.bind (keeps_ask (Holding.stable p s)) fun _ => .pure _) _ (hold w₂ h₂).setStage

/-- The state an attempt ends in may follow the one it runs in. -/
theorem Working.endStep {state : StageState}
    (h : Working platform p s view torn st (.inside s) w) (hinv : Inv platform w)
    (ended : state.status = .complete ∨ state.status = .failed ∨ state.status = .noisy)
    (attempts : state.attempts = st.attempts)
    (failed : state.status = .failed → ∃ e, errorRecord s e ∈ (w.stages s).evidence)
    (complete : state.status = .complete → w.Completed platform state s)
    (noisy : state.status = .noisy → s = .cost ∨ s = .quality) :
    StageStep platform w p s { w.stages s with state := some state } :=
  hinv.stateStep h.holding h.clean h.shows.created (h.stageStep hinv h.files).live
    (.inr (.inr ⟨st, h.files.state, h.running, ended, attempts⟩)) (fun _ => h.startable)
    (fun heq => by rcases ended with he | he | he <;> cases heq.symm.trans he) failed complete noisy

/-- A complete invocation commits its state last. -/
theorem wp_finish_ok {gate : Option (GateState × String)}
    (h : Promised platform p s torn st (.inside s) gate w) :
    (finish s st.attempts (.ok gate)).wp (sessionContract platform p) (fun _ => Holding p s)
      (fun _ => Holding p s) w := by
  refine wp_commitState (Promised.stable platform p s torn st _ gate) h
    (fun w hw => hw.working.elim fun _ => Working.holding) fun w hinv hw => ?_
  obtain ⟨⟨view, hworking⟩, hcompleted⟩ := hw
  exact hworking.endStep hinv (.inl rfl) rfl (fun heq => by cases heq)
    (fun _ => hcompleted) fun heq => by cases heq

/-- A crash is recorded before it is committed; interference is not recorded. -/
theorem wp_finish_error {e : Exn} (h : Broken platform p s torn st (.inside s) e w) :
    (finish s st.attempts (.error e)).wp (sessionContract platform p) (fun _ => Holding p s)
      (fun _ => Holding p s) w := by
  obtain ⟨⟨view, hw⟩, htolerated⟩ := h
  have stable := Working.stable platform p s view torn st (.inside s)
  have crashed : ((putEvidence (errorRecord s e)).zoom (stageLens s) >>= fun _ =>
      commitState s { status := .failed, attempts := st.attempts, reason := some (Exn.text e) }
        EXIT_ERROR).wp (sessionContract platform p) (fun _ => Holding p s)
          (fun _ => Holding p s) w := by
    have hid : ∀ id, (errorRecord s e : Record N).id ≠ "failure/" ++ id := fun id heq => by
      have hhead := congrArg (fun id => id.toList[0]?) heq
      simp [errorRecord, Stage.errorId] at hhead
    rw [Prog.wp_bind]
    refine Prog.wp_mono (hw.zoom (wp_putEvidence (errorRecord_record s e) fun _ => hid)) ?_
      fun _ _ h₁ => h₁.1.holding
    rintro _ w₁ h₁
    have stable₁ : Stable p fun w => Working platform p s view torn st (.inside s) w ∧
        errorRecord s e ∈ (w.stages s).evidence := fun w w' hw hrely =>
      ⟨stable w w' hw.1 hrely, by rw [hrely.files s hw.1.lock]; exact hw.2⟩
    refine wp_commitState stable₁ h₁ (fun _ hw => hw.1.holding) fun w hinv hw => ?_
    exact hw.1.endStep hinv (.inr (.inl rfl)) rfl (fun _ => ⟨e, hw.2⟩) (fun heq => by cases heq)
      fun heq => by cases heq
  cases e with
  | contaminated text =>
      refine wp_commitState stable hw (fun _ => Working.holding) fun w hinv hw => ?_
      refine hw.endStep hinv (.inr (.inr rfl)) rfl (fun heq => by cases heq)
        (fun heq => by cases heq) fun _ => ?_
      rcases htolerated with hs | hs | hcrash
      · exact .inl hs
      · exact .inr hs
      · exact absurd rfl (hcrash text)
  | harness | incomplete | precondition | usage | lookup | other => exact crashed

theorem wp_prepare (h : Admitted platform p s view previous w) :
    (prepare s).wp (sessionContract platform p)
      (fun prepared w => Admitted platform p s view previous w ∧ (prepared.isSome → s = .cost))
      (fun _ => Holding p s) w := by
  unfold prepare
  split_ifs with hs
  · exact wp_ask (Admitted.stable platform p s view previous) h (fun _ _ _ h₁ => ⟨h₁, fun _ => hs⟩)
      fun _ _ _ h₁ => h₁.toHolding
  · exact ⟨h, by simp⟩

theorem wp_runBody [DecidableEq N] {prepared : Option Exn} (cost : prepared.isSome → s = .cost)
    (h : Working platform p s view torn st phase w) (answered : w.Answered platform s) :
    (runBody platform s view prepared).wp (sessionContract platform p)
      (Promised platform p s torn st phase) (Broken platform p s torn st phase) w := by
  cases prepared with
  | none => exact wp_stageBody h answered
  | some e => exact ⟨⟨view, h⟩, .inl (cost rfl)⟩

/-- An admitted invocation runs its body once, and lets go of the stage. -/
theorem wp_runAttempt [DecidableEq N] (live : isFinal previous = false)
    (h : Admitted platform p s view previous w) :
    (runAttempt platform p s view ((previous.map (·.attempts)).getD 0 + 1)).wp
      (sessionContract platform p) (fun _ => Holding p s) (fun _ => Holding p s) w := by
  unfold runAttempt
  rw [Prog.wp_bind]
  refine Prog.wp_mono (wp_prepare h) ?_ fun _ _ he => he
  rintro prepared w₁ ⟨h₁, hcost⟩
  rw [Prog.wp_bind]
  refine Prog.wp_mono (wp_writeRunning live h₁) ?_ fun _ _ he => he
  rintro _ w₂ ⟨torn, h₂⟩
  rw [Prog.wp_bind]
  refine Prog.wp_mono (wp_commitRecords h₂) (fun _ w₃ h₃ => ?_) fun _ _ he => he
  rw [Prog.wp_bind]
  refine wp_change (Begun.stable platform p s view torn _) h₃
    (fun w₄ _ h₄ => .enter w₄ s view h₄.phase_eq h₄.inBody) fun w₄ _ h₄ => ?_
  have hworking : Working platform p s view torn (startedState previous) (.body s view)
      (w₄.mark p (.body s view)) :=
    ⟨⟨h₄.shared, h₄.lock, h₄.only⟩, by simp, h₄.clean, h₄.shows,
      (Extends.mark w₄ p _).startable h₄.startable, h₄.running, h₄.files, h₄.torn_iff⟩
  rw [Prog.wp_bind, Prog.wp_attempt]
  -- however the body ends, its phase ends before the state is written
  refine Prog.wp_mono (wp_runBody hcost hworking h₄.answered) (fun gate w₅ h₅ => ?_)
    fun e w₅ h₅ => ?_
  · rw [Prog.wp_bind]
    refine wp_change (Promised.stable platform p s torn _ _ gate) h₅ ?_ fun w₆ _ h₆ => ?_
    · rintro w₆ _ ⟨⟨v, hv⟩, -⟩
      exact .leave w₆ s view hv.phase_eq
    · obtain ⟨⟨v, hv⟩, hcompleted⟩ := h₆
      exact wp_finish_ok ⟨⟨v, hv.left⟩, hcompleted.marked⟩
  · obtain ⟨⟨v, hv⟩, htolerated⟩ := h₅
    rw [Prog.wp_bind]
    refine wp_change (Working.stable platform p s v torn _ _) hv
      (fun w₆ _ h₆ => .leave w₆ s view h₆.phase_eq) fun w₆ _ h₆ => ?_
    exact wp_finish_error ⟨⟨v, h₆.left⟩, htolerated⟩

/-- `_execute` keeps the contract of its process. -/
theorem wp_execute [DecidableEq N] (live : isFinal previous = false)
    (h : Opened platform p s view previous [] w) :
    (execute platform p s view previous).wp (sessionContract platform p) (fun _ => Holding p s)
      (fun _ => Holding p s) w := by
  unfold execute
  rw [Prog.wp_bind]
  refine Prog.wp_mono (wp_preconditions live h) (fun ended w₁ h₁ => ?_) fun _ _ he => he
  split_ifs with hended
  · simpa [hended] using h₁
  · exact wp_runAttempt live (by simpa [hended] using h₁)

end Attempt

end TranspileBench.Coordinator
