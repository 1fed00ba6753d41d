import TranspileBench.Store.Baseline

/-!
What one run of a stage's body does to a session and its store, whatever the evolved tree
does: the builds and published results are filled in, the baseline's rows are measured,
and an audit marks what it judges.
-/
namespace TranspileBench.Store
open Evaluator Coordinator Routine

variable {N H : Type} {setup : Setup N H} {w : Site N} {run : Run N} {evolved : Behaviour N}

/-- The part of a site that a stage's body leaves alone. -/
def Site.outside (s : Stage) (w : Site N) : Site N :=
  let w := { w with through := Function.update w.through s false }
  match s with
  | .compile =>
      { w with run := { w.run with builds := {} }, store :=
        { w.store with builds := fun _ => none } }
  | .quality =>
      { w with observations := [], evidence := [], audited := false, agreed := false,
               store := { w.store with quality := fun _ => none, invalidated := fun _ => false } }
  | .correctness => { w with store := { w.store with correctness := fun _ => none } }
  | .unit_tests => { w with store := { w.store with unit_tests := fun _ => none } }
  | .cost => w

theorem pass_outside (s : Stage) : Ignores (Site.outside (N := N) s) (pass s) := by
  refine .change fun w => ?_
  unfold Site.outside
  cases s <;> simp

/-! ## Compile -/

/-- The build that `baseline_build` ends with, and the builds it leaves in the store. -/
def readyBuild (setup : Setup N H) (builds : String → Option Build) :
    Except Exn Build × (String → Option Build) :=
  let ready (build : Build) := (setup.baseline.verify build).map fun _ =>
    { build with store_key := some setup.buildKey }
  match builds setup.buildKey with
  | some build => (ready build, builds)
  | none =>
      match setup.baseline.build with
      | .error e => (.error e, builds)
      | .ok build => (ready build, Function.update builds setup.buildKey (some build))

theorem readyBuild_ready (builds : String → Option Build) :
    readyBuild setup (readyBuild setup builds).2 = readyBuild setup builds := by
  unfold readyBuild
  cases hfound : builds setup.buildKey with
  | some build => simp only [hfound]
  | none =>
      cases hbuilt : setup.baseline.build with
      | error e => simp only [hfound]
      | ok build => simp only [Function.update_self]

theorem baselineBuild_exec (w : Site N) :
    (baselineBuild setup).exec w = ((readyBuild setup w.store.builds).1,
      { w with store := { w.store with builds := (readyBuild setup w.store.builds).2 } }) := by
  unfold baselineBuild readyBuild
  simp only [exec_bind, exec_read, next_ok]
  cases w.store.builds setup.buildKey with
  | some build =>
      simp only [exec_bind, exec_pure, next_ok, exec_ask]
      cases setup.baseline.verify build <;> rfl
  | none =>
      simp only [exec_bind, exec_ask]
      cases setup.baseline.build with
      | error e => rfl
      | ok build =>
          simp only [next_ok, exec_bind, exec_change, exec_pure, exec_ask]
          cases setup.baseline.verify build <;> rfl

/-- The builds of a session whose compile has run from `w`. -/
structure Built (setup : Setup N H) (w w' : Site N) : Prop where
  outside : w'.outside .compile = w.outside .compile
  builds : w'.store.builds = w.store.builds ∨
    w'.store.builds = (readyBuild setup w.store.builds).2
  through : w'.through .compile = true →
    w.through .compile = true ∨ w'.store.builds = (readyBuild setup w.store.builds).2

theorem recordBuilds_built {outcome : BuildOutcome}
    (ready : outcome.baseline = (readyBuild setup w.store.builds).1) :
    Ensures (recordBuilds outcome)
      (· = { w with store := { w.store with builds := (readyBuild setup w.store.builds).2 } })
      (fun _ w' => Built setup w w' ∧ w'.run.builds.baseline =
        (readyBuild setup w.store.builds).1.toOption) (Built setup w) := by
  rintro s rfl
  rw [← ready]
  cases hbaseline : outcome.baseline with
  | error e =>
      simp only [recordBuilds, exec_bind, exec_change, next_ok, exec_ask, hbaseline, next_error]
      exact ⟨fun _ heq => (by cases heq), fun _ _ => ⟨rfl, .inr rfl, .inl⟩⟩
  | ok build =>
      have built : Built setup w { w with
          run := outcome.record w.run
          store := { w.store with builds := (readyBuild setup w.store.builds).2 }
          through := Function.update w.through .compile true } :=
        ⟨by simp [Site.outside, BuildOutcome.record], .inr rfl, fun _ => .inr rfl⟩
      have recorded : (outcome.record w.run).builds.baseline = some build := by
        simp [BuildOutcome.record, hbaseline, Except.toOption]
      simp only [recordBuilds, exec_bind, exec_change, next_ok, exec_ask, hbaseline, pass]
      cases outcome.evolved with
      | none => exact ⟨fun _ _ => ⟨built, recorded⟩, fun _ heq => (by cases heq)⟩
      | some evolved =>
          cases evolved with
          | ok _ => exact ⟨fun _ _ => ⟨built, recorded⟩, fun _ heq => (by cases heq)⟩
          | error e => exact ⟨fun _ heq => (by cases heq), fun _ _ => built⟩

theorem compileBody_built : Ensures (compileBody setup evolved) (· = w)
    (fun _ w' => Built setup w w' ∧ w'.run.builds.baseline =
      (readyBuild setup w.store.builds).1.toOption) (Built setup w) := by
  have same : Built setup w w := ⟨rfl, .inl rfl, .inl⟩
  have asked : ∀ r : Except Exn Unit,
      Ensures (ask r) (· = w) (fun _ => (· = w)) (Built setup w) :=
    fun _ => .ask (fun _ h _ _ => h) fun s h => h ▸ same
  have answered : ∀ r : Except Exn Unit, Ensures (ask r)
      (fun w' => Built setup w w' ∧ w'.run.builds.baseline =
        (readyBuild setup w.store.builds).1.toOption)
      (fun _ w' => Built setup w w' ∧ w'.run.builds.baseline =
        (readyBuild setup w.store.builds).1.toOption) (Built setup w) :=
    fun _ => .ask (fun _ h _ _ => h) fun _ h => h.1
  refine .bind ?_ fun _ => (answered _).bind fun _ => answered _
  refine (asked _).bind fun _ => (asked _).bind fun _ => ?_
  refine .bind (.read (Q := fun _ => (· = w)) fun _ h => h) fun saved => ?_
  have checked : Ensures (verifySaved evolved saved) (· = w) (fun _ => (· = w))
      (Built setup w) := by
    cases saved with
    | some build => exact asked _
    | none => exact .pure fun _ h => h
  refine checked.bind fun _ => .bind (R := fun answer s =>
    answer = (readyBuild setup w.store.builds).1 ∧ s = { w with store :=
      { w.store with builds := (readyBuild setup w.store.builds).2 } }) ?_
    fun answer => .pointwise ?_
  · rintro s rfl
    refine ⟨fun answer heq => ?_, fun _ heq => (by cases heq)⟩
    rw [exec_attempt, baselineBuild_exec] at heq ⊢
    exact ⟨(Except.ok.inj heq).symm, rfl⟩
  · rintro s ⟨hanswer, rfl⟩
    exact (recordBuilds_built hanswer).bind fun _ => answered _

/-! ## Published results -/

/-- The entries after a baseline half has got through. -/
def published {α : Type} (key : Option String) (fresh : Option α)
    (entries : String → Option α) : String → Option α :=
  match key, fresh with
  | some key, some entry => publish key entry entries
  | _, _ => entries

theorem published_published {α : Type} (key : Option String) (fresh : Option α)
    (entries : String → Option α) :
    published key fresh (published key fresh entries) = published key fresh entries := by
  cases key with
  | none => rfl
  | some key =>
      cases fresh with
      | none => rfl
      | some entry =>
          simp only [published, publish]
          split
          case isTrue => rfl
          case isFalse => rw [Function.update_self, Option.isSome_some, if_pos rfl]

theorem published_found {α : Type} {key : Option String} {fresh : Option α}
    {entries : String → Option α} {entry : α} (h : key.bind entries = some entry) :
    published key fresh entries = entries := by
  cases key with
  | none => rfl
  | some key =>
      cases fresh with
      | none => rfl
      | some _ =>
          have found : entries key = some entry := h
          simp only [published, publish, found, Option.isSome_some, if_true]

/-- The half that a baseline's fresh checks publish. -/
def freshHalf (setup : Setup N H) : Option (CorrectnessHalf N) :=
  match setup.baseline.suite, setup.baseline.clifford with
  | .ok answers, .ok clifford =>
      let (half, decisive) := baselineHalf setup.run.prefix_ answers clifford
      if decisive then some half else none
  | _, _ => none

/-- The suites that a baseline's fresh tests publish. -/
def freshSuites (setup : Setup N H) : Option Suites :=
  match setup.baseline.python, setup.baseline.rust with
  | .ok python, .ok rust => if python.completed && rust.completed then some ⟨python, rust⟩ else none
  | _, _ => none

theorem baselineCorrectness_publishes (key : Option String) :
    Ensures (baselineCorrectness setup key) (· = w)
      (fun _ => (· = { w with store :=
        { w.store with correctness := published key (freshHalf setup) w.store.correctness } }))
      (· = w) := by
  rintro s rfl
  unfold baselineCorrectness
  simp only [exec_bind, exec_read, next_ok]
  cases hfound : key.bind s.store.correctness with
  | some half =>
      rw [published_found hfound]
      exact ⟨fun _ _ => rfl, fun _ _ => rfl⟩
  | none =>
      simp only [exec_bind, exec_ask]
      cases hsuite : setup.baseline.suite with
      | error e => exact ⟨fun _ heq => (by cases heq), fun _ _ => rfl⟩
      | ok answers =>
          simp only [next_ok, exec_bind, exec_ask]
          cases hclifford : setup.baseline.clifford with
          | error e => exact ⟨fun _ heq => (by cases heq), fun _ _ => rfl⟩
          | ok clifford =>
              simp only [freshHalf, hsuite, hclifford, next_ok]
              cases (baselineHalf setup.run.prefix_ answers clifford).2 with
              | false =>
                  cases key <;> exact ⟨fun _ _ => rfl, fun _ heq => (by cases heq)⟩
              | true =>
                  cases key <;> exact ⟨fun _ _ => rfl, fun _ heq => (by cases heq)⟩

theorem baselineSuites_publishes (key : Option String) :
    Ensures (baselineSuites setup key) (· = w)
      (fun _ => (· = { w with store :=
        { w.store with unit_tests := published key (freshSuites setup) w.store.unit_tests } }))
      (· = w) := by
  rintro s rfl
  unfold baselineSuites
  simp only [exec_bind, exec_read, next_ok]
  cases hfound : key.bind s.store.unit_tests with
  | some suites =>
      rw [published_found hfound]
      exact ⟨fun _ _ => rfl, fun _ _ => rfl⟩
  | none =>
      simp only [exec_bind, exec_ask]
      cases hpython : setup.baseline.python with
      | error e => exact ⟨fun _ heq => (by cases heq), fun _ _ => rfl⟩
      | ok python =>
          simp only [next_ok, exec_bind, exec_ask]
          cases hrust : setup.baseline.rust with
          | error e => exact ⟨fun _ heq => (by cases heq), fun _ _ => rfl⟩
          | ok rust =>
              simp only [freshSuites, hpython, hrust, next_ok]
              cases python.completed && rust.completed with
              | false =>
                  cases key <;> exact ⟨fun _ _ => rfl, fun _ heq => (by cases heq)⟩
              | true =>
                  cases key <;> exact ⟨fun _ _ => rfl, fun _ heq => (by cases heq)⟩

/-- The entries of one kind of results before and after a body has run over them. -/
structure Publishes {α : Type} (key : Option String) (fresh : Option α)
    (before after : String → Option α) (through through' : Bool) : Prop where
  entries : after = before ∨ after = published key fresh before
  through : through' = true → through = true ∨ after = published key fresh before

/-- The correctness entries before and after a body over them. -/
abbrev HalfPublished (setup : Setup N H) (run : Run N) (w w' : Site N) : Prop :=
  Publishes (resultsKey run setup.correctnessKey) (freshHalf setup) w.store.correctness
    w'.store.correctness (w.through .correctness) (w'.through .correctness)

/-- The unit-test entries before and after a body over them. -/
abbrev SuitesPublished (setup : Setup N H) (run : Run N) (w w' : Site N) : Prop :=
  Publishes (resultsKey run setup.unitTestsKey) (freshSuites setup) w.store.unit_tests
    w'.store.unit_tests (w.through .unit_tests) (w'.through .unit_tests)

theorem correctnessBody_publishes : Ensures (correctnessBody setup run evolved) (· = w)
    (fun _ => HalfPublished setup run w) (HalfPublished setup run w) := by
  refine .bind ((baselineCorrectness_publishes _).mono (fun _ h => h) (fun _ _ h => h) ?_)
    fun half => .pointwise ?_
  · rintro s rfl
    exact ⟨.inl rfl, .inl⟩
  · rintro s rfl
    refine .bind (R := fun _ => HalfPublished setup run w) (.change ?_) fun _ => ?_
    · rintro s rfl
      exact ⟨.inr rfl, fun _ => .inr rfl⟩
    · cases byId half.evidence "baseline/preflight" with
      | none => exact .throw fun _ h => h
      | some preflight =>
          dsimp only
          split
          · exact .pure fun _ h => h
          · exact .bind (.ask (fun _ h _ _ => h) fun _ h => h) fun _ =>
              .bind (.ask (fun _ h _ _ => h) fun _ h => h) fun _ => .pure fun _ h => h

theorem unitTestsBody_publishes : Ensures (unitTestsBody setup run evolved) (· = w)
    (fun _ => SuitesPublished setup run w) (SuitesPublished setup run w) := by
  refine .bind ((baselineSuites_publishes _).mono (fun _ h => h) (fun _ _ h => h) ?_)
    fun suites => .pointwise ?_
  · rintro s rfl
    exact ⟨.inl rfl, .inl⟩
  · rintro s rfl
    refine .bind (R := fun _ => SuitesPublished setup run w) (.change ?_) fun _ => ?_
    · rintro s rfl
      exact ⟨.inr rfl, fun _ => .inr rfl⟩
    · exact .bind (.ask (fun _ h _ _ => h) fun _ h => h) fun _ =>
        .bind (.ask (fun _ h _ _ => h) fun _ h => h) fun _ =>
          .bind (.ask (fun _ h _ _ => h) fun _ h => h) fun _ => .pure fun _ h => h

/-- The bodies of correctness and unit tests leave everything else alone. -/
theorem correctnessBody_outside :
    Ignores (Site.outside .correctness) (correctnessBody setup run evolved) := by
  refine .bind ?_ fun half => (pass_outside .correctness).bind fun _ => ?_
  · refine .bind (.read _) fun found => ?_
    cases found with
    | some half => exact .pure _
    | none =>
        refine .bind (.ask _) fun answers => .bind (.ask _) fun clifford => ?_
        dsimp only
        split
        · exact .pure _
        · exact .bind (.change fun _ => rfl) fun _ => .pure _
  · cases byId half.evidence "baseline/preflight" with
    | none => exact .throw _
    | some preflight =>
        dsimp only
        split
        · exact .pure _
        · exact .bind (.ask _) fun _ => .bind (.ask _) fun _ => .pure _

theorem unitTestsBody_outside :
    Ignores (Site.outside .unit_tests) (unitTestsBody setup run evolved) := by
  refine .bind ?_ fun suites => (pass_outside .unit_tests).bind fun _ =>
    .bind (.ask _) fun _ => .bind (.ask _) fun _ => .bind (.ask _) fun _ => .pure _
  refine .bind (.read _) fun found => ?_
  cases found with
  | some suites => exact .pure _
  | none =>
      refine .bind (.ask _) fun python => .bind (.ask _) fun rust => ?_
      split
      · exact .pure _
      · exact .bind (.change fun _ => rfl) fun _ => .pure _

/-! ## Quality -/

/-- Whether the baseline's own sampled rows fail to be reproduced. -/
def baselineFails (setup : Setup N H) (rows : List (Observation N)) : Bool :=
  match reproduced setup setup.baseline [] (auditRows rows .baseline) with
  | .ok false => true
  | _ => false

/-- The marks after an audit that fails, or does not. -/
def markedEntries (setup : Setup N H) (run : Run N) (failed : Bool)
    (quality : String → Option (QualityEntry N)) (invalidated : String → Bool) (key : String) :
    Bool :=
  invalidated key || (failed && run.store.isSome &&
    run.builds.baseline.any fun build => (quality key).isSome &&
      ((qualityCases setup.run.profile.manifest).map (setup.qualityKey build)).contains key)

/-- The marks after the baseline's own rows have been judged. -/
def judgedMarks (setup : Setup N H) (run : Run N)
    (measured : List (Observation N) × (String → Option (QualityEntry N))) :
    (String → Bool) → String → Bool :=
  markedEntries setup run (baselineFails setup measured.1) measured.2

theorem judgedMarks_judgedMarks
    (measured : List (Observation N) × (String → Option (QualityEntry N)))
    (invalidated : String → Bool) :
    judgedMarks setup run measured (judgedMarks setup run measured invalidated) =
      judgedMarks setup run measured invalidated := by
  funext key
  simp only [judgedMarks, markedEntries, Bool.or_assoc, Bool.or_self]

theorem invalidateEntries_marks (ok : Bool) :
    Ensures (invalidateEntries setup run ok) (· = w)
      (fun _ => (· = { w with store := { w.store with
        invalidated := markedEntries setup run (!ok) w.store.quality w.store.invalidated } }))
      (· = w) := by
  rintro s rfl
  unfold invalidateEntries
  cases hmark : !ok && run.store.isSome with
  | false =>
      have same : markedEntries setup run (!ok) s.store.quality s.store.invalidated =
          s.store.invalidated := by
        funext key
        simp only [markedEntries, hmark, Bool.false_and, Bool.or_false]
      rw [same]
      exact ⟨fun _ _ => rfl, fun _ heq => (by cases heq)⟩
  | true =>
      cases hbuild : run.builds.baseline with
      | none => exact ⟨fun _ heq => (by cases heq), fun _ _ => rfl⟩
      | some build =>
          have marked : markedEntries setup run (!ok) s.store.quality s.store.invalidated =
              (invalidate setup (setup.qualityKey build) s.store).invalidated := by
            funext key
            simp only [markedEntries, hmark, hbuild, Option.any_some, Bool.true_and, invalidate]
          rw [marked]
          exact ⟨fun _ _ => rfl, fun _ heq => (by cases heq)⟩

theorem auditRows_baseline (rows : List (Observation N)) :
    auditRows (baselineRows rows) .baseline = auditRows rows .baseline := by
  simp only [auditRows, baselineRows, List.filter_filter]
  refine List.filter_congr fun r _ => ?_
  cases r.revision <;> simp

/-- What an audit does to the marks: it is refused, or has judged both revisions' rows. -/
structure Audits (setup : Setup N H) (run : Run N) (w w' : Site N) : Prop where
  measured : w'.measured = w.measured
  through : w'.through = w.through
  marks : (w'.store.invalidated = w.store.invalidated ∧ w'.audited = w.audited ∧
      w'.agreed = w.agreed) ∨
    (w'.audited = true ∧ (w'.agreed = true → w.agreed = true ∧
      w'.store.invalidated = judgedMarks setup run w.measured w.store.invalidated))

theorem audit_audits : Ensures (audit setup run evolved) (· = w) (fun _ => Audits setup run w)
    (Audits setup run w) := by
  have same : Audits setup run w w := ⟨rfl, rfl, .inl ⟨rfl, rfl, rfl⟩⟩
  refine .bind (R := fun mine s => s = w ∧ mine = auditRows w.observations .baseline)
    (.read fun s hs => ⟨hs, hs ▸ rfl⟩) fun mine => .pointwise ?_
  rintro s ⟨rfl, rfl⟩
  refine .bind (.read (Q := fun _ => (· = s)) fun _ h => h) fun theirs => ?_
  refine .bind (R := fun baseline_ok s' => s' = s ∧
    baselineFails setup s.measured.1 = !baseline_ok) (.ask ?_ fun _ h => h ▸ same)
    fun baseline_ok => .pointwise ?_
  · rintro s rfl baseline_ok hanswer
    refine ⟨rfl, ?_⟩
    simp only [baselineFails, Site.measured, auditRows_baseline, hanswer]
    cases baseline_ok <;> rfl
  · rintro s' ⟨rfl, hfails⟩
    refine .bind (.ask (Q := fun _ => (· = s')) (fun _ h _ _ => h) fun _ h => h ▸ same)
      fun evolved_ok => ?_
    refine .bind (.change (Q := fun _ s => ∃ evidence, s = { s' with evidence := evidence })
      ?_) fun _ => .pointwise ?_
    · rintro s rfl
      exact ⟨_, rfl⟩
    rintro s ⟨evidence, rfl⟩
    refine ((invalidateEntries_marks (baseline_ok && evolved_ok)).mono (fun _ h => h)
      (fun _ _ h => h) ?_).bind fun _ => .change ?_
    · rintro s rfl
      exact ⟨rfl, rfl, .inl ⟨rfl, rfl, rfl⟩⟩
    · rintro s rfl
      refine ⟨rfl, rfl, .inr ⟨rfl, fun hagreed => ?_⟩⟩
      obtain ⟨hagreed, htheirs⟩ := Bool.and_eq_true_iff.mp hagreed
      refine ⟨hagreed, ?_⟩
      rw [judgedMarks, hfails, htheirs, Bool.and_true]
      rfl

/-- A quality body over the baseline half that it starts with. -/
structure Measures (setup : Setup N H) (run : Run N) (w : Site N)
    (half : Except Exn Unit × Site N) (w' : Site N) : Prop where
  measured : w'.measured = half.2.measured
  through : w'.through .quality = true → w.through .quality = true ∨ half.1 = .ok ()
  marks : (w'.store.invalidated = w.store.invalidated ∧ w'.audited = w.audited ∧
      w'.agreed = w.agreed) ∨
    (half.1 = .ok () ∧ w'.audited = true ∧ (w'.agreed = true → w.agreed = true ∧
      w'.store.invalidated = judgedMarks setup run half.2.measured w.store.invalidated))

/-- Where the baseline's cases are planned, the evolved ones are too. -/
theorem plan_evolved {keys : Option (Case N → String)} {owed : Case N → List ℕ}
    {tasks : List (Batch N)} {w' : Site N} (owed' : Case N → List ℕ)
    (planned : (plan setup keys owed).exec w = (.ok tasks, w')) :
    ∃ tasks', (plan setup none owed').exec w' = (.ok tasks', w') ∧
      ∀ t ∈ tasks', t.cache = none := by
  have evolved : Ensures (plan setup none owed') _ _ _ := plan_uncached w' owed'
  have uncached := evolved w' rfl
  cases hplan : (plan setup none owed').exec w' with
  | mk answer s =>
      rw [hplan] at uncached
      cases answer with
      | ok tasks' =>
          obtain ⟨rfl, hcache⟩ := uncached.1 tasks' rfl
          exact ⟨tasks', rfl, hcache⟩
      | error e =>
          have none_planned : Ensures (plan setup keys owed) _ _ _ :=
            plan_empty (uncached.2 e rfl).2
          have empty := (none_planned w trivial).1 tasks (congrArg Prod.fst planned)
          unfold plan at hplan
          rw [empty] at hplan
          cases hplan

/-- What planning and committing keep. -/
theorem Site.of_around {w w' : Site N} (h : w'.around = w.around) :
    w'.through = w.through ∧ w'.store.invalidated = w.store.invalidated ∧
      w'.audited = w.audited ∧ w'.agreed = w.agreed := by
  have through := congrArg Site.through h
  have invalidated := congrArg (fun s : Site N => s.store.invalidated) h
  have audited := congrArg Site.audited h
  have agreed := congrArg Site.agreed h
  exact ⟨through, invalidated, audited, agreed⟩

/-- Nothing of the evolved half reaches what the baseline half measured. -/
theorem quality_measures : Ensures (quality setup run evolved) (· = w)
    (fun _ w' => Measures setup run w
        ((measureBaseline setup run.builds.baseline (storeKeys setup run)).exec w) w' ∧
      ((measureBaseline setup run.builds.baseline (storeKeys setup run)).exec w).1 = .ok () ∧
      w'.store.invalidated = w.store.invalidated ∧ w'.audited = w.audited ∧ w'.agreed = w.agreed)
    (Measures setup run w
      ((measureBaseline setup run.builds.baseline (storeKeys setup run)).exec w)) := by
  rintro s rfl
  have ignored : Ignores Site.around
      (measureBaseline setup run.builds.baseline (storeKeys setup run)) := measureBaseline_around
  have around := ignored s
  have stopped : ∀ e s', s'.around = s.around → Measures setup run s (.error e, s') s' := by
    intro e s' h
    obtain ⟨hthrough, hmarks⟩ := Site.of_around h
    exact ⟨rfl, fun h => .inl (hthrough ▸ h), .inl hmarks⟩
  simp only [quality, measureBaseline, exec_bind, exec_read, next_ok] at around ⊢
  cases hplan : (plan setup (storeKeys setup run) (owedSeeds s.observations .baseline)).exec s with
  | mk answer s₁ =>
      rw [hplan] at around
      cases answer with
      | error e => exact ⟨fun _ heq => (by cases heq), fun _ _ => stopped e s₁ around⟩
      | ok tasks =>
          obtain ⟨tasks', hplan', uncached⟩ :=
            plan_evolved (owedSeeds s.observations .evolved) hplan
          simp only [next_ok, exec_bind, hplan'] at around ⊢
          cases hrun : (each (runBatch setup run.builds.baseline .baseline setup.baseline)
              tasks).exec s₁ with
          | mk answer s₂ =>
              rw [hrun] at around
              cases answer with
              | error e => exact ⟨fun _ heq => (by cases heq), fun _ _ => stopped e s₂ around⟩
              | ok _ =>
                  simp only [next_ok, exec_bind, pass, exec_change]
                  obtain ⟨-, hkept⟩ := Site.of_around around
                  have view : Ignores Site.measuring
                      (each (runBatch setup run.builds.evolved .evolved evolved) tasks') :=
                    .each fun task htask => runBatch_evolved (uncached task htask)
                  have frame : Ignores Site.around
                      (each (runBatch setup run.builds.evolved .evolved evolved) tasks') :=
                    .each fun task _ => runBatch_around task
                  have hview := view
                    { s₂ with through := Function.update s₂.through .quality true }
                  have hframe := (Site.of_around (frame
                    { s₂ with through := Function.update s₂.through .quality true })).2
                  generalize (each (runBatch setup run.builds.evolved .evolved evolved)
                    tasks').exec _ = r at hview hframe ⊢
                  have marks : r.2.store.invalidated = s.store.invalidated ∧
                      r.2.audited = s.audited ∧ r.2.agreed = s.agreed :=
                    ⟨hframe.1.trans hkept.1, hframe.2.1.trans hkept.2.1,
                      hframe.2.2.trans hkept.2.2⟩
                  have measures : Measures setup run s (.ok (), s₂) r.2 :=
                    ⟨congrArg Prod.fst hview, fun _ => .inr rfl, .inl marks⟩
                  exact ⟨fun _ _ => ⟨measures, trivial, marks⟩, fun _ _ => measures⟩

theorem qualityBody_outside [Arith N] :
    Ignores (Site.outside .quality) (qualityBody setup run evolved) := by
  have planned : ∀ {keys : Option (Case N → String)} {owed : Case N → List ℕ},
      Ignores (Site.outside .quality) (plan setup keys owed) :=
    (plan_around _).comp (Site.outside .quality)
  have committed : ∀ {build : Option Build} {revision : Revision} {b : Behaviour N} {tasks},
      Ignores (Site.outside .quality) (each (runBatch setup build revision b) tasks) :=
    .each fun task _ => (runBatch_around task).comp (Site.outside .quality)
  have put : ∀ row : Record N, Ignores (Site.outside .quality) (putEvidence row) :=
    fun row => .change fun _ => rfl
  refine .bind ?_ fun _ => .bind ?_ fun _ => .bind (.read _) fun rows =>
    .bind (.each fun row _ => put row) fun _ => .bind (.read _) fun _ => .ask _
  · exact .bind (.read _) fun _ => .bind (.read _) fun _ => planned.bind fun _ =>
      planned.bind fun _ => committed.bind fun _ => (pass_outside .quality).bind fun _ => committed
  · refine .bind (.read _) fun _ => .bind (.read _) fun _ => .bind (.ask _) fun _ =>
      .bind (.ask _) fun _ => (put _).bind fun _ => .bind ?_ fun _ => .change fun _ => rfl
    unfold invalidateEntries
    split
    · cases run.builds.baseline with
      | none => exact .throw _
      | some build => exact .change fun _ => rfl
    · exact .pure _

theorem qualityBody_measures [Arith N] : Ensures (qualityBody setup run evolved) (· = w)
    (fun _ => Measures setup run w
      ((measureBaseline setup run.builds.baseline (storeKeys setup run)).exec w))
    (Measures setup run w
      ((measureBaseline setup run.builds.baseline (storeKeys setup run)).exec w)) := by
  refine quality_measures.bind fun _ => .pointwise ?_
  rintro s ⟨measures, got, hmarks⟩
  have judged : ∀ s', Audits setup run s s' → Measures setup run w
      ((measureBaseline setup run.builds.baseline (storeKeys setup run)).exec w) s' := by
    intro s' audits
    refine ⟨audits.measured.trans measures.measured, fun h => .inr got, ?_⟩
    rcases audits.marks with h | ⟨haudited, hagreed⟩
    · exact .inl ⟨h.1.trans hmarks.1, h.2.1.trans hmarks.2.1, h.2.2.trans hmarks.2.2⟩
    · refine .inr ⟨got, haudited, fun h => ?_⟩
      rw [← measures.measured, ← hmarks.1, ← hmarks.2.2]
      exact hagreed h
  refine (audit_audits.mono (fun _ h => h) (fun _ => judged) judged).bind fun _ => ?_
  refine .bind (.read (Q := fun _ => Measures setup run w
    ((measureBaseline setup run.builds.baseline (storeKeys setup run)).exec w)) fun _ h => h)
    fun rows => ?_
  have recorded := Ensures.each (E := Measures setup run w
      ((measureBaseline setup run.builds.baseline (storeKeys setup run)).exec w))
    (f := putEvidence) (fun _ => Measures setup run w
      ((measureBaseline setup run.builds.baseline (storeKeys setup run)).exec w))
    (fun row _ => .change fun s h => ⟨h.measured, h.through, h.marks⟩)
    (aggregateChecks run.profile.manifest rows)
  exact recorded.bind fun _ => .bind (.read fun _ h => h) fun evidence =>
    .ask (fun _ h _ _ => h) fun _ h => h

end TranspileBench.Store
