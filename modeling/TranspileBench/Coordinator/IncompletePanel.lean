import TranspileBench.Coordinator.CostStage

/-!
A guarded panel that stays incomplete. The exception ends the loop over the panels, and the
stage records it where it no longer knows whose measurement raised it.
-/
namespace TranspileBench.Coordinator
open Evaluator

variable {N H : Type}

section Interrupted
variable [Arith N] [DecidableEq N]

/-- The loop over the panels ends at a guarded one: those before it were measured into
`mid`, its own measurement is incomplete and leaves `files`. -/
structure Interrupted (setting : Setting N) (view : Run N) (bundles : String → Directory N)
    (panel : Panel N) (text : String) (mid files : CostFiles N) : Prop where
  stopped : ∃ scope guarded before after s,
    view.scope = some scope ∧
    requiredCostPanels view.profile.manifest.confirm scope view.changed_paths
      view.profile.manifest.cases = .ok guarded ∧
    costPanels view.profile.manifest.confirm scope view.profile.manifest.cases =
      .ok (before ++ panel :: after) ∧
    guarded.contains panel.name = true ∧
    Exec (Prog.each (measureStep setting view guarded) before) ⟨bundles, []⟩ (some (.ok ())) mid ∧
    panelSubject setting view panel = .ok s ∧
    Exec ((measurePanel s (panelTerms setting view guarded panel)).zoom
      (directoryLens panel.name)) mid (some (.error (.incomplete text))) files

/-- The stage before it measures: without the records of earlier invocations. -/
def World.unrecorded (w : World N H) : World N H :=
  w.setStage .cost { w.stages .cost with evidence := [] }

def World.putCosts (w : World N H) (files : CostFiles N) : World N H :=
  w.setStage .cost { w.stages .cost with bundles := files.bundles, evidence := files.evidence }

/-- A cost stage from `w` to `w'` in which measuring a guarded panel raised `Incomplete`,
where `recorded` is what measuring the panels before it gave. -/
structure InterruptedStage (platform : Platform N H) (view : Run N) (w : World N H)
    (panel : Panel N) (recorded : List (Record N)) (w' : World N H) : Prop where
  due : ∃ due, Exec (costDue platform view) w.unrecorded (some (.ok due)) w.unrecorded
  stopped : ∃ text mid files,
    Interrupted platform.toSetting view (w.stages .cost).bundles panel text mid files ∧
    mid.evidence = recorded ∧
    Exec (incompleteCosts view (.error (.incomplete text))) (w.putCosts files) (some (.ok ())) w'

/-- The panel is unresolved under its own id, and every other panel is as it was measured. -/
structure ReportedAsItself (view : Run N) (panel : Panel N)
    (recorded evidence : List (Record N)) : Prop where
  own : ∃ row, panelRows (view.prefix_ ++ "5/" ++ panel.name) evidence = [row] ∧
    row.result = .unresolved
  others : ∀ name, name ≠ panel.name →
    panelRows (view.prefix_ ++ "5/" ++ name) evidence
      = panelRows (view.prefix_ ++ "5/" ++ name) recorded

variable {setting : Setting N} {platform : Platform N H} {view : Run N} {panel : Panel N}
  {bundles : String → Directory N} {text : String} {mid files : CostFiles N}
  {w w' : World N H} {recorded : List (Record N)}

/-- What one panel raises, the loop raises after the panels before it. -/
theorem exec_each_raised {W ε α : Type} {f : α → Prog W ε Unit} {before after : List α} {x : α}
    {w w₁ w₂ : W} {e : ε} (first : Exec (Prog.each f before) w (some (.ok ())) w₁)
    (raised : Exec (f x) w₁ (some (.error e)) w₂) :
    Exec (Prog.each f (before ++ x :: after)) w (some (.error e)) w₂ := by
  induction before generalizing w with
  | nil =>
      cases first
      exact Exec.raised raised
  | cons y before ih =>
      change Exec (f y >>= fun _ => Prog.each f before) w (some (.ok ())) w₁ at first
      rcases first.bind_cases with ⟨_, -, -, hok⟩ | ⟨_, w₃, one, rest⟩
      · exact absurd rfl (hok ())
      · exact one.bind (ih rest)

theorem Interrupted.measureCosts (h : Interrupted setting view bundles panel text mid files) :
    Exec (measureCosts setting view) ⟨bundles, []⟩ (some (.error (.incomplete text))) files := by
  obtain ⟨scope, guarded, before, after, s, hscope, hguarded, hpanels, hname, first, hs, raised⟩ :=
    h.stopped
  have step : Exec (measureStep setting view guarded panel) mid
      (some (.error (.incomplete text))) files := by
    refine (exec_ofExcept hs).bind ?_
    refine raised.attempt.bind ?_
    refine Exec.raised (exec_ofExcept_error ?_)
    have hguard : (panelTerms setting view guarded panel).guarded = true := hname
    simp [measuredRecord, hguard]
  unfold Coordinator.measureCosts
  simp only [hscope, hguarded, hpanels]
  exact (exec_ofExcept rfl).bind ((exec_ofExcept rfl).bind (exec_each_raised first step))

/-- Such a stage is a completed run of the cost body. -/
theorem InterruptedStage.body (h : InterruptedStage platform view w panel recorded w') :
    Exec (costBody platform view) w (some (.ok ())) w' := by
  obtain ⟨due, hdue⟩ := h.due
  obtain ⟨text, mid, files, interrupted, -, last⟩ := h.stopped
  have reset : Exec (resetEvidence.zoom (stageLens .cost)) w (some (Except.ok (ε := Exn) ()))
      w.unrecorded := (Exec.fallible rfl).zoom (stageLens .cost) rfl
  have measured : Exec (((Coordinator.measureCosts platform.toSetting view).zoom costFilesLens).zoom
      (stageLens .cost)) w.unrecorded (some (.error (.incomplete text))) (w.putCosts files) := by
    have hrun := (interrupted.measureCosts.zoom costFilesLens
      (w := { w.stages .cost with evidence := [] }) rfl).zoom (stageLens .cost)
      (w := w.unrecorded) (by simp [stageLens, World.unrecorded])
    have hworld : (stageLens .cost).set w.unrecorded
        (costFilesLens.set { w.stages .cost with evidence := [] } files) = w.putCosts files := by
      simp [stageLens, costFilesLens, World.unrecorded, World.putCosts, World.setStage]
    rwa [hworld] at hrun
  exact reset.bind (hdue.bind (measured.attempt.bind last))

/-- The record of an incomplete measurement goes under the timing panel's id. -/
theorem InterruptedStage.evidence (h : InterruptedStage platform view w panel recorded w') :
    ∃ text, (w'.stages .cost).evidence = putRecord recorded (incompleteRow view text) := by
  obtain ⟨text, mid, files, interrupted, rfl, last⟩ := h.stopped
  obtain ⟨scope, guarded, before, after, s, -, -, -, -, -, -, raised⟩ := interrupted.stopped
  have hfiles : ((w.putCosts files).stages .cost).evidence = mid.evidence := by
    rw [← (measurePanel_zoomed raised).2.1]
    simp [World.putCosts]
  rcases (incompleteCosts_handled last).2 with ⟨-, hok⟩ | ⟨-, text', he⟩
  · cases hok rfl
  · exact ⟨text', by rw [he, hfiles]⟩

/-- The panel that stopped the loop has no record from it. -/
theorem InterruptedStage.own_unrecorded (h : InterruptedStage platform view w panel recorded w') :
    panelRows (view.prefix_ ++ "5/" ++ panel.name) recorded = [] := by
  obtain ⟨text, mid, files, interrupted, rfl, -⟩ := h.stopped
  obtain ⟨scope, guarded, before, after, s, -, -, hpanels, -, first, -, -⟩ := interrupted.stopped
  have hnodup := costPanels_nodup hpanels
  rw [List.map_append, List.map_cons, List.nodup_append] at hnodup
  have hfresh : panel.name ∉ before.map (·.name) := fun hmem =>
    hnodup.2.2 _ hmem _ List.mem_cons_self rfl
  exact (measureSteps_other first hfresh).2

/-- The stage reports an incomplete guarded panel as itself just when it is the timing
panel; any other is lost, and takes the timing panel's record with it. -/
theorem interrupted_reported_iff (h : InterruptedStage platform view w panel recorded w') :
    ReportedAsItself view panel recorded (w'.stages .cost).evidence ↔ panel.name = "timing" := by
  obtain ⟨text, hevidence⟩ := h.evidence
  have hother : ∀ name, name ≠ "timing" →
      panelRows (view.prefix_ ++ "5/" ++ name) (w'.stages .cost).evidence
        = panelRows (view.prefix_ ++ "5/" ++ name) recorded := by
    intro name hname
    rw [hevidence]
    refine putRecord_other fun heq => hname ?_
    have hid : view.prefix_ ++ "5/" ++ "timing" = view.prefix_ ++ "5/" ++ name := by
      rw [← heq, String.append_assoc]
      rfl
    exact (panel_id_inj hid).symm
  constructor
  · intro reported
    by_contra hname
    obtain ⟨row, hrow, -⟩ := reported.own
    rw [hother _ hname, h.own_unrecorded] at hrow
    cases hrow
  · intro hname
    refine ⟨⟨incompleteRow view text, ?_, rfl⟩, fun name hne => hother name (hname ▸ hne)⟩
    have hid : view.prefix_ ++ "5/" ++ panel.name = (incompleteRow view text).id := by
      rw [hname, String.append_assoc]
      rfl
    rw [hevidence, hid]
    exact putRecord_same recorded _

end Interrupted

/-! ## Identical builds with one memory panel, whose workers report nothing -/

section Sample

attribute [local instance] integerArith

def memoryCase : Case Int :=
  { sampleCase with case_id := "memory/qft", role := .memory, panel := some "memory" }

def memoryPanel : Panel Int := ⟨"memory", [memoryCase], .memory⟩

def memoryRun : Run Int :=
  { sampleRun with
    profile := ⟨⟨false, [memoryCase]⟩, samplePolicy, by decide⟩
    builds := ⟨some ⟨"a", some "k"⟩, some ⟨"a", none⟩⟩ }

noncomputable def memoryPlatform : Platform Int StageState := Platform.unary sampleSetting

def memoryWorld : World Int StageState := { World.empty with run := some memoryRun }

example : (gradeCostDue memoryRun [] []).toOption = some (some .aa) := by decide +kernel

/-- Identical builds are measured before anything is committed. -/
theorem aa_due {view : Run Int} {w : World Int StageState}
    (uncommitted : ∀ s : Stage, s ≠ .cost → (w.stages s).state = none)
    (unobserved : (w.stages .quality).observations = [])
    (hdue : (gradeCostDue view [] []).toOption = some (some .aa)) :
    Exec (costDue memoryPlatform view) w (some (.ok (some .aa))) w := by
  have committed : ∀ s : Stage, s ≠ .cost →
      Exec (committedEvidence s) w (some (.ok [])) w := fun s hs =>
    Exec.bind (a := none) (Exec.fallible ⟨(uncommitted s hs).symm, rfl⟩) (.ret _ _)
  refine Exec.bind (a := []) (Exec.fallible ⟨unobserved.symm, rfl⟩) ?_
  refine Exec.bind (a := []) (exec_ofExcept rfl) ?_
  refine (committed .compile (by decide)).bind ?_
  refine (committed .quality (by decide)).bind ?_
  refine (committed .correctness (by decide)).bind ?_
  refine exec_ofExcept ?_
  cases h : gradeCostDue view [] [] with
  | error e =>
      rw [h] at hdue
      cases hdue
  | ok due =>
      rw [h] at hdue
      cases hdue
      exact h

theorem memory_due :
    Exec (costDue memoryPlatform memoryRun) memoryWorld.unrecorded (some (.ok (some .aa)))
      memoryWorld.unrecorded := by
  refine aa_due (fun s hs => ?_) ?_ (by decide +kernel)
  · simp [World.unrecorded, hs, memoryWorld, World.empty]
  · simp [World.unrecorded, memoryWorld, World.empty]

def memoryFiles : CostFiles Int := ⟨(memoryWorld.stages .cost).bundles, []⟩

/-- The session after its stage: one record, of the timing panel. -/
noncomputable def memoryReported : World Int StageState :=
  (stageLens .cost).set (memoryWorld.putCosts memoryFiles)
    { (memoryWorld.putCosts memoryFiles).stages .cost with
      evidence := [incompleteRow memoryRun "Missing cost samples"] }

/-- No worker of the memory panel reports a sample. -/
theorem memory_incomplete {t : Terms Int} (hpolicy : t.policy = samplePolicy) :
    Exec (measurePanel ⟨[memoryCase], .memory, "a", "a", fun _ => "hash"⟩ t) (fun _ => none)
      (some (.error (.incomplete "Missing cost samples"))) (fun _ => none) := by
  refine Exec.bind (a := ⟨0, 5, 10⟩) (exec_ofExcept (by rw [hpolicy]; rfl)) ?_
  change Exec (measureRegime _ _ .normal >>= _) _ _ _
  refine Exec.raised ?_
  refine Exec.bind (a := none) (.act ⟨rfl, rfl⟩ (.ret _ _)) ?_
  refine Exec.bind (a := none) (exec_ofExcept rfl) (Exec.raised ?_)
  refine Exec.bind (a := ⟨2, 1, 2, 0, 0⟩) (exec_ofExcept (by rw [hpolicy]; rfl)) ?_
  exact Exec.fails trivial

theorem memory_interrupted :
    InterruptedStage memoryPlatform memoryRun memoryWorld memoryPanel [] memoryReported := by
  have interrupted : Interrupted sampleSetting memoryRun (memoryWorld.stages .cost).bundles
      memoryPanel "Missing cost samples" memoryFiles memoryFiles := by
    refine ⟨[], ["memory"], [], [], _, rfl, rfl, rfl, by decide, .ret _ _, rfl, ?_⟩
    have zoomed := (memory_incomplete (t := panelTerms sampleSetting memoryRun
        ["memory"] memoryPanel)
      rfl).zoom (directoryLens "memory") (w := memoryFiles) rfl
    rwa [show (directoryLens "memory").set memoryFiles (fun _ => none) = memoryFiles from
      (directoryLens "memory").set_get memoryFiles] at zoomed
  refine ⟨⟨_, memory_due⟩, _, memoryFiles, memoryFiles, interrupted, rfl, ?_⟩
  refine Exec.zoom (stageLens .cost) ?_ rfl
  exact Exec.bind (a := ()) (Exec.fallible rfl) (Exec.fallible rfl)

theorem interrupted_reported_iff_memory :
    InterruptedStage memoryPlatform memoryRun memoryWorld memoryPanel [] memoryReported ∧
      (ReportedAsItself memoryRun memoryPanel [] (memoryReported.stages .cost).evidence ↔
        memoryPanel.name = "timing") :=
  ⟨memory_interrupted, interrupted_reported_iff memory_interrupted⟩

/-- The memory panel is incomplete, and the stage reports the timing panel unresolved. -/
theorem interrupted_memory_lost : ∃ w', InterruptedStage memoryPlatform memoryRun memoryWorld
    memoryPanel [] w' ∧ ¬ ReportedAsItself memoryRun memoryPanel [] (w'.stages .cost).evidence := by
  refine ⟨_, memory_interrupted, fun reported => ?_⟩
  obtain ⟨own, hown, -⟩ := reported.own
  have hnone : panelRows (memoryRun.prefix_ ++ "5/" ++ memoryPanel.name)
      [incompleteRow memoryRun "Missing cost samples"] = [] := by decide
  simp only [memoryReported, stageLens, World.setStage_same] at hown
  rw [hnone] at hown
  cases hown

end Sample
end TranspileBench.Coordinator
