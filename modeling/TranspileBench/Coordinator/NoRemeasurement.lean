import TranspileBench.Coordinator.IncompletePanel

/-!
No remeasurement until it passes. An admissible bundle stays, only two breaches fail a panel,
and what the bundles of a panel say is said again by every decision and by every invocation
that no guarded panel interrupts.
-/
namespace TranspileBench.Coordinator
open Evaluator

variable {N H : Type}

section Records
variable {id : String}

/-- The record a decision makes of a panel's outcome. -/
def decidedRecord (id : String) (guarded : Bool) :
    Except Exn (CostResult N) → Except Exn (Record N)
  | .error (.incomplete text) =>
      .ok { id, kind := .cost, result := if guarded then .unresolved else .not_evaluated,
            details := .detail text }
  | out => measuredRecord id guarded out

/-- A measurement that repeats an outcome can only be recorded as that outcome is. -/
theorem measuredRecord_repeats {out x : Except Exn (CostResult N)} {row : Record N}
    {guarded : Bool} (h : Repeats out (some x)) (hrow : measuredRecord id guarded x = .ok row) :
    measuredRecord id guarded out = .ok row := by
  rcases h with hnone | hout | ⟨e, ⟨text, rfl⟩, hx⟩
  · cases hnone
  · rwa [← Option.some.inj hout]
  · cases hx
    cases hrow

end Records

section Uninterrupted
variable {view : Run N} {w w' : World N H}

/-- What is incomplete is not handled. -/
def unlessIncomplete : Except Exn Unit → Prog (World N H) Exn Unit
  | .ok () => pure ()
  | .error (.incomplete _) => Prog.never
  | .error e => throw e

theorem unlessIncomplete_handled {x : Except Exn Unit} {o : Option (Except Exn Unit)}
    (h : Exec (unlessIncomplete x) w o w') : Handled False view x o w w' := by
  unfold unlessIncomplete at h
  split at h
  · cases h with
    | stop => exact ⟨rfl, .inl ⟨rfl, fun _ => rfl⟩⟩
    | ret => exact ⟨rfl, .inl ⟨rfl, fun _ => rfl⟩⟩
  · cases h with
    | stop => exact ⟨rfl, .inl ⟨rfl, nofun⟩⟩
    | @act _ _ _ _ _ _ b => exact b.elim
  · cases h with
    | stop => exact ⟨rfl, .inl ⟨rfl, nofun⟩⟩
    | raise => exact ⟨rfl, .inl ⟨rfl, nofun⟩⟩

theorem incompleteCosts_of_unless {x : Except Exn Unit} {o : Option (Except Exn Unit)}
    (h : Exec (unlessIncomplete x) w o w') : Exec (incompleteCosts view x) w o w' := by
  cases x with
  | ok _ => exact h
  | error e =>
      cases e with
      | incomplete text =>
          cases h with
          | stop => exact .stop _ _
          | @act _ _ _ _ _ _ b => exact b.elim
      | _ => exact h

theorem unlessIncomplete_of_costs {x : Except Exn Unit} {o : Option (Except Exn Unit)}
    (hx : ∀ text, x ≠ .error (.incomplete text)) (h : Exec (incompleteCosts view x) w o w') :
    Exec (unlessIncomplete x) w o w' := by
  cases x with
  | ok _ => exact h
  | error e =>
      cases e with
      | incomplete text => exact absurd rfl (hx text)
      | _ => exact h

variable [Arith N] [DecidableEq N] {platform : Platform N H}

/-- `cost_body` in the runs in which no guarded panel raises `Incomplete`. -/
def uninterruptedBody (platform : Platform N H) (view : Run N) : Prog (World N H) Exn Unit :=
  costBodyWith platform view unlessIncomplete

/-- Its runs are runs of the stage. -/
theorem uninterrupted_body {o : Option (Except Exn Unit)}
    (h : Exec (uninterruptedBody platform view) w o w') : Exec (costBody platform view) w o w' := by
  rw [costBody_eq]
  exact h.bind_mono fun _ _ _ due => due.bind_mono fun _ _ _ measured =>
    measured.bind_mono fun _ _ _ last => incompleteCosts_of_unless last

/-- Every other run of the stage is one in which measuring the panels raised `Incomplete`. -/
theorem costBody_uninterrupted {o : Option (Except Exn Unit)}
    (h : Exec (costBody platform view) w o w') :
    Exec (uninterruptedBody platform view) w o w' ∨ ∃ text files files',
      Exec (measureCosts platform.toSetting view) files
        (some (.error (.incomplete text))) files' := by
  by_cases hraised : ∃ text files files',
      Exec (measureCosts platform.toSetting view) files (some (.error (.incomplete text))) files'
  · exact .inr hraised
  rw [costBody_eq] at h
  refine .inl (h.bind_mono fun _ _ _ due => due.bind_mono fun _ _ _ measured =>
    measured.bind_mono fun x _ first last => ?_)
  refine unlessIncomplete_of_costs (fun text hx => hraised ?_) last
  obtain ⟨r, hrun, hr⟩ := first.attempt_cases
  rcases hr with hr | ⟨y, rfl, hy⟩
  · cases hr
  obtain rfl := Except.ok.inj (Option.some.inj hy)
  obtain ⟨f, hf, -⟩ := hrun.zoom_cases
  obtain ⟨files', hfiles, -⟩ := hf.zoom_cases
  exact ⟨text, _, files', hx ▸ hfiles⟩

end Uninterrupted

section Panels
variable [Arith N] [DecidableEq N] {setting : Setting N} {platform : Platform N H}
  {run view : Run N} {panel : Panel N} {s : Subject N} {t : Terms N} {id : String}
  {w w' : World N H}

theorem replayPanel_saved {d : Directory N} {out : Except Exn (CostResult N)} (hd : Coherent s d)
    (h : panelOutcome s t d = some out) :
    replayPanel s t id d = decidedRecord id t.guarded out := by
  unfold panelOutcome at h
  unfold replayPanel
  cases hcounts : regimeCounts s.estimator t.policy.measurement_protocol with
  | error e => simp [hcounts] at h
  | ok counts =>
      simp only [hcounts] at h
      simp only [bind, Except.bind, replayRegimes_saved hd h]
      unfold decidedRecord measuredRecord
      split
      · split <;> simp_all
      · rfl
      · split <;> simp_all

/-- What an invocation and a decision say of a panel whose bundles decide `out`: the
uninterrupted invocation that completes records just that, and one that does not records
nothing else. -/
structure Repeated (platform : Platform N H) (run : Run N) (panel : Panel N) (t : Terms N)
    (out : Except Exn (CostResult N)) (w : World N H) : Prop where
  records : ∀ view o w', SameComparison run view → Exec (uninterruptedBody platform view) w o w' →
    (w'.stages .cost).evidence = (w.stages .cost).evidence ∨
      ∀ row ∈ (w'.stages .cost).evidence, row.id = run.prefix_ ++ "5/" ++ panel.name →
        measuredRecord (run.prefix_ ++ "5/" ++ panel.name) t.guarded out = .ok row
  completed : ∀ view w', SameComparison run view →
    Exec (uninterruptedBody platform view) w (some (.ok ())) w' →
      ∃ row ∈ (w'.stages .cost).evidence,
        measuredRecord (run.prefix_ ++ "5/" ++ panel.name) t.guarded out = .ok row
  decided : ∀ view, SameComparison run view → ∀ evidence rows,
    replayCosts platform.toSetting view (w.stages .cost).bundles evidence = .ok rows →
      ∃ row, decidedRecord (run.prefix_ ++ "5/" ++ panel.name) t.guarded out = .ok row ∧
        panelRows (run.prefix_ ++ "5/" ++ panel.name) rows = [row]

/-- The laws of the cost invocations of one comparison; nothing has been measured in
`first` yet. -/
structure NoRemeasurement (platform : Platform N H) (run : Run N) (panel : Panel N)
    (s : Subject N) (t : Terms N) : Prop where
  /-- An admissible bundle stays as it was saved. -/
  kept : ∀ w w', CostHistory platform run w w' → ∀ r b,
    (w.stages .cost).bundles panel.name r = some b → Admissible s t b →
      (w'.stages .cost).bundles panel.name r = some b
  /-- Only two breaches, in sessions of their own, fail a panel in a record of the stage. -/
  failed : ∀ first w, first.stages .cost = {} → CostHistory platform run first w →
    ∀ row ∈ (w.stages .cost).evidence, row.id = run.prefix_ ++ "5/" ++ panel.name →
      row.result = .failed → TwiceBreached s t ((w.stages .cost).bundles panel.name)
  /-- The same holds of the records of a decision. -/
  decided_failed : ∀ view, SameComparison run view → ∀ bundles evidence rows,
    replayCosts platform.toSetting view bundles evidence = .ok rows →
    ∀ row ∈ rows, row.id = run.prefix_ ++ "5/" ++ panel.name → row.result = .failed →
      TwiceBreached s t (bundles panel.name)
  /-- Once the bundles the panel needs exist, their outcome is repeated for ever. -/
  settled : ∀ first w w', first.stages .cost = {} → CostHistory platform run first w →
    CostHistory platform run w w' →
    ∀ out, panelOutcome s t ((w.stages .cost).bundles panel.name) = some out →
      Repeated platform run panel t out w'

theorem replayCosts_panel {bundles : String → Directory N} {evidence rows : List (Record N)}
    (h : replayCosts setting run bundles evidence = .ok rows) (hp : PanelOf setting run panel s t) :
    (REGIMES.all (fun r => (bundles panel.name r).isNone) = true ∧
        panelRows (run.prefix_ ++ "5/" ++ panel.name) rows = []) ∨
      ∃ row, replayPanel s t (run.prefix_ ++ "5/" ++ panel.name) (bundles panel.name) = .ok row ∧
        panelRows (run.prefix_ ++ "5/" ++ panel.name) rows = [row] := by
  obtain ⟨scope, guarded, panels, hscope, hguarded, hpanels, hpanel, rfl⟩ := hp.listed
  exact replayCosts_cases hscope hguarded hpanels hpanel hp.subject h

/-- No remeasurement until it passes: no later cost invocation alters an admissible
bundle, only two breaches in two sessions fail a panel, and once the bundles a panel needs
exist every decision agrees on it, and every invocation that no guarded panel interrupts. -/
theorem no_remeasurement (platform : Platform N H) (run : Run N) (panel : Panel N)
    (s : Subject N) (t : Terms N) (hp : PanelOf platform.toSetting run panel s t) :
    NoRemeasurement platform run panel s t where
  kept w w' h := h.keeps hp
  failed first w start h := h.failed hp start
  decided_failed view same bundles evidence rows h row hrow hid failed := by
    rw [← same.prefix_] at hid
    have hmem := mem_panelRows.mpr ⟨hrow, hid⟩
    rcases replayCosts_panel h (hp.same same) with ⟨-, hnone⟩ | ⟨row', hrow', hone⟩
    · simp [hnone] at hmem
    · rw [hone, List.mem_singleton] at hmem
      subst hmem
      exact replayPanel_failed hrow' failed
  settled first w w' start before after out hout := by
    have hcoherent : Coherent s ((w'.stages .cost).bundles panel.name) := by
      refine after.coherent hp (before.coherent hp ?_)
      rw [start]
      exact .empty s
    have hsaved : panelOutcome s t ((w'.stages .cost).bundles panel.name) = some out :=
      panelOutcome_mono (after.keeps hp) hout
    constructor
    · intro view o w'' same body
      have step := costBodyWith_same body unlessIncomplete_handled same hp
      refine step.records.imp_right fun hrecords row hrow hid => ?_
      obtain ⟨x, hrun, hx⟩ := (hrecords row hrow hid).resolve_left (·.1)
      exact measuredRecord_repeats (measurePanel_repeats hsaved hrun).2 hx
    · intro view w'' same body
      have step := costBodyWith_same body unlessIncomplete_handled same hp
      obtain ⟨x, row, hrun, hx, hmem⟩ := (step.completed rfl).resolve_left (·.1)
      exact ⟨row, hmem, measuredRecord_repeats (measurePanel_repeats hsaved hrun).2 hx⟩
    · intro view same evidence rows h
      rw [← same.prefix_]
      rcases replayCosts_panel h (hp.same same) with ⟨hnone, -⟩ | ⟨row, hrow, hone⟩
      · simp [panelOutcome_saved hsaved] at hnone
      · exact ⟨row, (replayPanel_saved hcoherent hsaved).symm.trans hrow, hone⟩

end Panels

section Sample

attribute [local instance] integerArith

theorem samplePanel_of : PanelOf sampleSetting sampleRun samplePanel sampleSubject sampleTerms where
  listed := ⟨[], ["timing"], [samplePanel], rfl, rfl, rfl, List.mem_singleton.mpr rfl, rfl⟩
  subject := rfl

theorem no_remeasurement_sample : NoRemeasurement (Platform.unary sampleSetting) sampleRun
    samplePanel sampleSubject sampleTerms :=
  no_remeasurement _ _ _ _ _ samplePanel_of

/-- The bundle of `sample_measured` is all its panel needs. -/
example : panelOutcome sampleSubject sampleTerms
    (Directory.save (fun _ => none) .normal sampleBundle) = some (.ok sampleResult) := by
  have counts : regimeCounts sampleSubject.estimator sampleTerms.policy.measurement_protocol
      = .ok ⟨0, 1, 2⟩ := rfl
  have admissible : Admissible sampleSubject sampleTerms sampleBundle :=
    costGuard_validates sampleBundle_judged
  simp [panelOutcome, REGIMES, savedOutcome, counts, Counts.get, admissible, sampleBundle_judged,
    sampleResult]

/-! ## A timing panel that passed, beside a memory panel whose workers report nothing -/

def pairedRun : Run Int :=
  { memoryRun with profile := ⟨⟨false, [sampleCase, memoryCase]⟩, samplePolicy, by decide⟩ }

def pairedSubject : Subject Int := ⟨[sampleCase], .timing, "a", "a", fun _ => "hash"⟩

def pairedTerms : Terms Int :=
  panelTerms sampleSetting pairedRun ["timing", "memory"] samplePanel

def pairedBundle : Bundle Int :=
  newBundle pairedSubject pairedTerms ⟨2, 1, 2, 0, 0⟩ .normal "session" id
    (fun _ => [("timing/qft", .timing [[5]])]) "machine"

def pairedDirectory : Directory Int := Directory.save (fun _ => none) .normal pairedBundle

def pairedRow : Record Int :=
  { id := "IA5/timing", kind := .cost, result := .passed,
    details := .cost sampleResult.toCostDetails none }

theorem pairedPanel_of : PanelOf sampleSetting pairedRun samplePanel pairedSubject pairedTerms where
  listed := ⟨[], ["timing", "memory"], [samplePanel, memoryPanel], rfl, rfl, rfl,
    List.mem_cons_self, rfl⟩
  subject := rfl

theorem pairedBundle_judged : judge pairedSubject pairedTerms pairedBundle = .ok sampleResult :=
  rfl

theorem paired_measured : Exec (measurePanel pairedSubject pairedTerms) (fun _ => none)
    (some (.ok sampleResult)) pairedDirectory :=
  exec_measured_once ⟨0, 1, 2⟩ rfl rfl rfl rfl
    ⟨"session", id, _, "machine", by decide, rfl⟩ pairedBundle_judged rfl

theorem paired_reused : Exec (measurePanel pairedSubject pairedTerms) pairedDirectory
    (some (.ok sampleResult)) pairedDirectory := by
  have admissible : Admissible pairedSubject pairedTerms pairedBundle :=
    costGuard_validates pairedBundle_judged
  have saved : pairedDirectory.save .normal pairedBundle = pairedDirectory := by
    funext r
    cases r <;> rfl
  have judged := exec_judged_once (d := pairedDirectory) ⟨0, 1, 2⟩
    (some pairedBundle) rfl rfl rfl (reusable_admissible admissible) (.ret _ _)
    pairedBundle_judged rfl
  rwa [saved] at judged

/-- Nothing is committed, and the bundles are those of the timing panel. -/
structure PairedWorld (w : World Int StageState) (d : Directory Int) : Prop where
  uncommitted : ∀ s : Stage, s ≠ .cost → (w.stages s).state = none
  unobserved : (w.stages .quality).observations = []
  timing : (w.stages .cost).bundles "timing" = d
  memory : (w.stages .cost).bundles "memory" = fun _ => none

/-- An invocation measures the timing panel, and the memory panel interrupts it. -/
theorem paired_invoked {w : World Int StageState} {d : Directory Int} (h : PairedWorld w d)
    (measured : Exec (measurePanel pairedSubject pairedTerms) d (some (.ok sampleResult))
      pairedDirectory) :
    ∃ w', InterruptedStage memoryPlatform pairedRun w memoryPanel [pairedRow] w' ∧
      PairedWorld w' pairedDirectory ∧
      (w'.stages .cost).evidence = [incompleteRow pairedRun "Missing cost samples"] := by
  set files : CostFiles Int :=
    ⟨((directoryLens "timing").set ⟨(w.stages .cost).bundles, []⟩ pairedDirectory).bundles,
      [pairedRow]⟩ with hfiles
  have due : Exec (costDue memoryPlatform pairedRun) w.unrecorded (some (.ok (some .aa)))
      w.unrecorded := by
    refine aa_due (fun s hs => ?_) ?_ (by decide +kernel)
    · simp [World.unrecorded, hs, h.uncommitted s hs]
    · simp [World.unrecorded, h.unobserved]
  have first : Exec (Prog.each (measureStep sampleSetting pairedRun ["timing", "memory"])
      [samplePanel]) ⟨(w.stages .cost).bundles, []⟩ (some (.ok ())) files := by
    rw [← h.timing] at measured
    have step : Exec (measureStep sampleSetting pairedRun ["timing", "memory"] samplePanel)
        ⟨(w.stages .cost).bundles, []⟩ (some (.ok ())) files :=
      exec_measureStep rfl measured rfl
    exact step.bind (.ret () _)
  have interrupted : Interrupted sampleSetting pairedRun (w.stages .cost).bundles memoryPanel
      "Missing cost samples" files files := by
    refine ⟨[], ["timing", "memory"], [samplePanel], [], _, rfl, rfl, rfl, by decide, first, rfl,
      ?_⟩
    have hmemory : files.bundles "memory" = fun _ => none := by
      simp [hfiles, directoryLens, h.memory]
    have zoomed := (memory_incomplete
      (t := panelTerms sampleSetting pairedRun ["timing", "memory"] memoryPanel) rfl).zoom
      (directoryLens "memory") (w := files) hmemory
    rwa [← hmemory, show (directoryLens "memory").set files (files.bundles "memory") = files from
      (directoryLens "memory").set_get files] at zoomed
  have recorded : putRecord ((stageLens .cost).get (w.putCosts files)).evidence
      (incompleteRow pairedRun "Missing cost samples")
      = [incompleteRow pairedRun "Missing cost samples"] := by
    have hrows : ((stageLens .cost).get (w.putCosts files)).evidence = [pairedRow] := by
      simp [stageLens, World.putCosts, hfiles]
    rw [hrows]
    rfl
  refine ⟨(stageLens .cost).set (w.putCosts files)
    { (w.putCosts files).stages .cost with
      evidence := [incompleteRow pairedRun "Missing cost samples"] }, ⟨⟨_, due⟩, _, files, files,
      interrupted, rfl, ?_⟩, ?_, ?_⟩
  · refine Exec.zoom (stageLens .cost) ?_ rfl
    refine Exec.bind (a := ()) (Exec.fallible ?_) (Exec.fallible rfl)
    rw [← recorded]
    rfl
  · constructor
    · intro s hs
      simp [stageLens, World.putCosts, hs, h.uncommitted s hs]
    · simp [stageLens, World.putCosts, h.unobserved]
    · simp [stageLens, World.putCosts, hfiles, directoryLens]
    · simp [stageLens, World.putCosts, hfiles, directoryLens, h.memory]
  · simp [stageLens]

theorem pairedDirectory_outcome :
    panelOutcome pairedSubject pairedTerms pairedDirectory = some (.ok sampleResult) := by
  have counts : regimeCounts pairedSubject.estimator pairedTerms.policy.measurement_protocol
      = .ok ⟨0, 1, 2⟩ := rfl
  have admissible : Admissible pairedSubject pairedTerms pairedBundle :=
    costGuard_validates pairedBundle_judged
  simp [panelOutcome, REGIMES, savedOutcome, counts, Counts.get, pairedDirectory, admissible,
    pairedBundle_judged, sampleResult]

def pairedWorld : World Int StageState := { World.empty with run := some pairedRun }

/-- The timing panel's bundle passed and is all it needs, and the next invocation of the
stage reports the panel unresolved. -/
theorem settled_unresolved :
    PanelOf memoryPlatform.toSetting pairedRun samplePanel pairedSubject pairedTerms ∧
    ∃ w w' : World Int StageState,
      pairedWorld.stages .cost = {} ∧ CostHistory memoryPlatform pairedRun pairedWorld w ∧
      panelOutcome pairedSubject pairedTerms ((w.stages .cost).bundles samplePanel.name)
        = some (.ok sampleResult) ∧
      Exec (costBody memoryPlatform pairedRun) w (some (.ok ())) w' ∧
      panelRows (pairedRun.prefix_ ++ "5/" ++ samplePanel.name) (w'.stages .cost).evidence
        = [incompleteRow pairedRun "Missing cost samples"] ∧
      ¬ ∃ row ∈ (w'.stages .cost).evidence, measuredRecord
        (pairedRun.prefix_ ++ "5/" ++ samplePanel.name) pairedTerms.guarded (.ok sampleResult)
          = .ok row := by
  have start : PairedWorld pairedWorld fun _ => none :=
    ⟨fun s hs => rfl, rfl, rfl, rfl⟩
  obtain ⟨w, first, paired, -⟩ := paired_invoked start paired_measured
  obtain ⟨w', again, -, evidence⟩ := paired_invoked paired paired_reused
  have same : SameComparison pairedRun pairedRun := ⟨rfl, rfl, rfl, rfl, rfl, rfl⟩
  refine ⟨pairedPanel_of, w, w', rfl, .invoked (.refl _) same first.body, ?_, again.body, ?_, ?_⟩
  · rw [show samplePanel.name = "timing" from rfl, paired.timing]
    exact pairedDirectory_outcome
  · rw [evidence]
    rfl
  · rintro ⟨row, hrow, hmeasured⟩
    rw [evidence, List.mem_singleton] at hrow
    subst hrow
    have hid := congrArg (fun r => r.toOption.map (·.result)) hmeasured
    revert hid
    decide

end Sample
end TranspileBench.Coordinator
