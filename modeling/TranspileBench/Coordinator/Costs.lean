import TranspileBench.Coordinator.Gate
import TranspileBench.Lib.Program

/-!
Cost panels: which are measured and guarded for a change scope, how one is measured
into its directory of regime bundles, and how a decision replays the saved bundles.
-/
namespace TranspileBench.Coordinator
open Evaluator

variable {N : Type}

/-- A change that maps to every stage, or to unmapped paths, could affect anything. -/
def unknownScope (scope : List Scope) : Bool :=
  scope.any fun value =>
    (STAGES.all value.stages.contains && value.stages.all STAGES.contains)
      || !value.unmapped_paths.isEmpty

/-- A panel to measure: its name, its cases and how it is estimated. -/
structure Panel (N : Type) where
  name : String
  cases : List (Case N)
  estimator : Estimator

/-- The multi-seed companion's cases; a group without its case is an error. -/
def companionCases (confirm : Bool) (cases : List (Case N)) : Except Exn (List (Case N)) :=
  if confirm then
    let memory := cases.filter fun c =>
      c.panel == some "memory" && c.input_group != "multiplier_h18_n20"
    (sortedSet (memory.map (·.input_group))).mapM fun group =>
      match cases.find? fun c =>
          c.input_group == group && c.role == .scored && c.optimization_level == 2 with
      | some case => .ok case
      | none => .error (.other "StopIteration")
  else .ok (cases.filter fun c => c.panel == some "timing" && c.modes == ["timing_reuse"])

/-- `cost_panels`: the panels to measure for the change scope. -/
def costPanels (confirm : Bool) (scope : List Scope) (cases : List (Case N)) :
    Except Exn (List (Panel N)) := do
  let stages := scope.flatMap (·.stages)
  let unknown := unknownScope scope
  let named := ["timing", "timing-basis", "preset", "confirm-timing", "memory"].map fun name =>
    (⟨name, cases.filter fun c => c.panel == some name,
      if name = "memory" then .memory else .timing⟩ : Panel N)
  let panels := named.filter fun panel => !panel.cases.isEmpty
  let panels :=
    if unknown || stages.contains "translation" || stages.contains "optimization" then panels
    else panels.filter (·.name != "timing-basis")
  if unknown || stages.contains "layout" || stages.contains "routing" then
    let companion ← companionCases confirm cases
    pure (panels ++ [⟨"companion", companion, .companion⟩])
  else pure panels

def isInfix (needle haystack : String) : Bool :=
  haystack.toList.tails.any fun tail => needle.toList.isPrefixOf tail

/-- `required_cost_panels`: the names of the guarded panels. -/
def requiredCostPanels (confirm : Bool) (scope : List Scope) (changed_paths : List String)
    (cases : List (Case N)) : Except Exn (List String) := do
  let panels ← costPanels confirm scope cases
  let paths := changed_paths.map fun path =>
    String.ofList (path.toLower.toList.map fun c => if c = '\\' then '/' else c)
  let preset := unknownScope scope
    || paths.any fun path => isInfix "preset_passmanager" path || isInfix "/target" path
  let names := panels.map (·.name)
  pure (if preset then names else names.filter (· != "preset"))

section Weights
variable [Arith N]
open Arith

def panelWeights (cases : List (Case N)) (estimator : Estimator) : List (String × N) :=
  if estimator ≠ .memory then
    cases.map fun c => (c.case_id, div (ofInt 1) (ofInt cases.length))
  else
    let families := (cases.map (·.family)).dedup
    cases.map fun c =>
      (c.case_id, div (div (ofInt 1) (ofInt families.length))
        (ofInt (cases.countP fun o => o.family == c.family)))

end Weights

/-- The saved regime bundles of one panel. -/
abbrev Directory (N : Type) := Regime → Option (Bundle N)

/-- What identifies a panel's measurements: its cases and the two builds. -/
structure Subject (N : Type) where
  cases : List (Case N)
  estimator : Estimator
  baseline_id : String
  evolved_id : String
  /-- The digest of a case definition. -/
  digest : Case N → String

/-- What one invocation measures or replays a panel under. -/
structure Terms (N : Type) where
  policy : Policy N
  run_id : String
  requirement : Option Requirement
  extension : Extension N
  guarded : Bool

def Subject.buildId (s : Subject N) (arm : String) : String :=
  if arm = "baseline" then s.baseline_id else s.evolved_id

def Subject.caseHashes (s : Subject N) : List (String × String) :=
  s.cases.map fun c => (c.case_id, s.digest c)

/-- A fresh bundle over the two arms, tagged with its regime and thresholds. -/
def newBundle (s : Subject N) (t : Terms N) (fixed : CostThresholds N) (regime : Regime)
    (session : String) (arm_id : String → String)
    (samples : String → List (String × Samples N)) (mode : String) : Bundle N where
  session_id := session
  complete := true
  arms := MEASURED_ARMS.map fun arm =>
    (arm, { arm_id := arm_id arm, session_id := session, build_id := s.buildId arm,
            samples := samples arm })
  run_id := t.run_id
  estimator := some s.estimator
  regime := regime
  case_hashes := s.caseHashes
  thresholds_id := some fixed
  measurement_mode := some mode

/-- Each regime of a directory is saved under its own name. -/
def Directory.save (d : Directory N) (regime : Regime) (bundle : Bundle N) : Directory N :=
  fun r => if r = regime then some bundle else d r

def Prog.ofExcept {W ε α : Type} : Except ε α → Prog W ε α
  | .ok a => .ret a
  | .error e => .raise e

section Measure
variable [Arith N] [DecidableEq N] (s : Subject N) (t : Terms N)

def Subject.weights (s : Subject N) : List (String × N) := panelWeights s.cases s.estimator

/-- `collect_panel` and the tagging of its bundle: a measurement in a fresh session,
or an exception; the samples are whatever the workers report. -/
def collectPanel (regime : Regime) : Prog (Directory N) Exn (Bundle N) := do
  let fixed ← Prog.ofExcept (thresholdsId t.policy)
  Prog.fallible (fun _ => True) fun d bundle d' =>
    d' = d ∧ ∃ session arm_id samples mode,
      (∀ r saved, d r = some saved → saved.session_id ≠ session) ∧
      arm_id "baseline" ≠ arm_id "evolved" ∧
      bundle = newBundle s t fixed regime session arm_id samples mode

def judge (bundle : Bundle N) : Except Exn (CostResult N) :=
  costGuard t.extension bundle t.policy s.estimator s.weights t.run_id t.requirement

/-- A saved bundle is reused only when it is admissible; any other is measured again. -/
def reusable (saved : Option (Bundle N)) : Except Exn (Option (Bundle N)) :=
  match saved with
  | none => .ok none
  | some bundle =>
      match validateBundle t.extension bundle t.policy s.estimator s.weights t.run_id
          t.requirement with
      | .ok _ => .ok (some bundle)
      | .error (.incomplete _) => .ok none
      | .error e => .error e

/-- The bundle a regime is judged on: the saved one, or a fresh measurement. -/
def obtainBundle (regime : Regime) : Option (Bundle N) → Prog (Directory N) Exn (Bundle N)
  | some bundle => pure bundle
  | none => collectPanel s t regime

/-- A failing write is neither an incomplete nor a contaminated measurement. -/
def writeError (e : Exn) : Prop := ∃ text, e = .other text

/-- One regime of `measure_panel`'s loop. -/
def measureRegime (regime : Regime) : Prog (Directory N) Exn (CostResult N) := do
  let saved ← Prog.read fun d => d regime
  let kept ← Prog.ofExcept (reusable s t saved)
  let bundle ← obtainBundle s t regime kept
  Prog.fallible writeError fun d (_ : Unit) d' => d' = d.save regime bundle
  Prog.ofExcept (judge s t bundle)

/-- `results[-1]`. -/
def lastResult : Option (CostResult N) → Prog (Directory N) Exn (CostResult N)
  | some last => pure last
  | none => throw (.lookup "list index out of range")

/-- The loop of `measure_panel` over the regimes, with the last result so far. -/
def measureRegimes (counts : Counts) (last : Option (CostResult N)) :
    List Regime → Prog (Directory N) Exn (CostResult N)
  | [] => lastResult last
  | regime :: rest =>
      if (counts.get regime).isNone then measureRegimes counts last rest
      else if regime = .rerun ∧ t.guarded = false then lastResult last
      else do
        let result ← measureRegime s t regime
        if (regime = .screen ∧ result.needs_full) ∨ (regime = .normal ∧ result.needs_rerun) then
          measureRegimes counts (some result) rest
        else pure result

def REGIMES : List Regime := [.screen, .normal, .rerun]

def measurePanel : Prog (Directory N) Exn (CostResult N) := do
  let counts ← Prog.ofExcept (regimeCounts s.estimator t.policy.measurement_protocol)
  measureRegimes s t counts none REGIMES

/-- The record `measure_costs` makes of a panel's measurement; an incomplete panel that
is not guarded is only reported. -/
def measuredRecord (id : String) (guarded : Bool) :
    Except Exn (CostResult N) → Except Exn (Record N)
  | .ok result =>
      let observed := if guarded then none else some result.result
      .ok { id, kind := .cost, result := if guarded then result.result else .not_evaluated,
            details := .cost result.toCostDetails observed }
  | .error (.incomplete text) =>
      if guarded then .error (.incomplete text)
      else .ok { id, kind := .cost, result := .not_evaluated,
                 details := .observed .unresolved text }
  | .error e => .error e

/-- The admission checks of one replayed bundle, and its judgement. -/
def checkBundle (d : Directory N) (regime : Regime) (previous : Option (Bundle N)) :
    Except Exn (Bundle N × CostResult N) :=
  match d regime with
  | none => .error (.incomplete ("Missing " ++ regime.name ++ " cost bundle"))
  | some bundle =>
      if bundle.regime ≠ regime then
        .error (.incomplete ("Expected the " ++ regime.name ++ " bundle"))
      else if previous.any fun p => bundle.session_id == p.session_id then
        .error (.incomplete ("The " ++ regime.name ++ " bundle must be a fresh session"))
      else if bundle.case_hashes ≠ s.caseHashes then
        .error (.incomplete "Cost bundle case definitions changed")
      else
        match MEASURED_ARMS.find? fun arm => (bundle.arms.lookup arm).isNone with
        | some arm => .error (.lookup arm)
        | none =>
            if MEASURED_ARMS.any fun arm =>
                (bundle.arms.lookup arm).any fun a => a.build_id != s.buildId arm then
              .error (.incomplete "Cost bundle build identities changed")
            else (judge s t bundle).map fun result => (bundle, result)

/-- The screen, and the full measurement when it is unclear or there is no screen. -/
def replayFirst (counts : Counts) (d : Directory N) : Except Exn (Bundle N × CostResult N) :=
  if (counts.get .screen).isSome then do
    let screen ← checkBundle s t d .screen none
    if screen.2.needs_full then checkBundle s t d .normal (some screen.1) else .ok screen
  else checkBundle s t d .normal none

/-- The regimes a decision walks through, and the result it ends with. -/
def replayRegimes (counts : Counts) (d : Directory N) : Except Exn (CostResult N) := do
  let first ← replayFirst s t counts d
  if t.guarded && first.2.needs_rerun then
    if (d .rerun).isNone then
      .error (.incomplete "Cost breach requires a fresh doubled-count rerun")
    else (checkBundle s t d .rerun (some first.1)).map (·.2)
  else .ok first.2

/-- The record `replay_costs` makes for one panel. -/
def replayPanel (id : String) (d : Directory N) : Except Exn (Record N) := do
  let counts ← regimeCounts s.estimator t.policy.measurement_protocol
  match replayRegimes s t counts d with
  | .ok result =>
      let details := result.toCostDetails
      if t.guarded then
        .ok { id, kind := .cost, result := result.result, details := .cost details none }
      else .ok { id, kind := .cost, result := .not_evaluated,
                 details := .cost details (some result.result) }
  | .error (.incomplete text) =>
      .ok { id, kind := .cost, result := if t.guarded then .unresolved else .not_evaluated,
            details := .detail text }
  | .error e => .error e

end Measure

/-- Replace the record with the same id, or add it at the end. -/
def putRecord (evidence : List (Record N)) (row : Record N) : List (Record N) :=
  evidence.filter (·.id != row.id) ++ [row]

/-- The parameters of a session that lie outside its files: the evidence extension and
the digest of a case definition. -/
structure Setting (N : Type) where
  extension : Extension N
  digest : Case N → String

section Replay
variable [Arith N] [DecidableEq N] (setting : Setting N)

def panelSubject (run : Run N) (panel : Panel N) : Except Exn (Subject N) :=
  match run.builds.baseline, run.builds.evolved with
  | some baseline, some evolved =>
      .ok ⟨panel.cases, panel.estimator, baseline.id, evolved.id, setting.digest⟩
  | _, _ => .error (.lookup "builds")

def panelTerms (run : Run N) (guarded : List String) (panel : Panel N) : Terms N :=
  ⟨run.profile.policy, run.run_id, run.cost_evidence, setting.extension,
    guarded.contains panel.name⟩

/-- The files a cost stage writes. -/
structure CostFiles (N : Type) where
  bundles : String → Directory N
  evidence : List (Record N)

/-- The directory of one panel among them. -/
def directoryLens (name : String) : Lens (CostFiles N) (Directory N) where
  get files := files.bundles name
  set files d := { files with bundles := fun n => if n = name then d else files.bundles n }
  get_set _ _ := by simp
  set_get files := by
    obtain ⟨bundles, evidence⟩ := files
    congr 1
    funext n
    by_cases h : n = name <;> simp [h]
  set_set _ _ _ := by
    congr 1
    funext n
    by_cases h : n = name <;> simp [h]

/-- One panel of `measure_costs`. -/
def measureStep (run : Run N) (guarded : List String) (panel : Panel N) :
    Prog (CostFiles N) Exn Unit := do
  let subject ← Prog.ofExcept (panelSubject setting run panel)
  let terms := panelTerms setting run guarded panel
  let measured ← ((measurePanel subject terms).zoom (directoryLens panel.name)).attempt
  let row ← Prog.ofExcept
    (measuredRecord (run.prefix_ ++ "5/" ++ panel.name) terms.guarded measured)
  Prog.fallible (fun _ => True) fun files (_ : Unit) files' =>
    files' = { files with evidence := putRecord files.evidence row }

/-- `measure_costs`: every cost panel of the change scope. -/
def measureCosts (run : Run N) : Prog (CostFiles N) Exn Unit :=
  match run.scope with
  | none => throw (.lookup "scope")
  | some scope => do
      let manifest := run.profile.manifest
      let guarded ← Prog.ofExcept
        (requiredCostPanels manifest.confirm scope run.changed_paths manifest.cases)
      let panels ← Prog.ofExcept (costPanels manifest.confirm scope manifest.cases)
      Prog.each (measureStep setting run guarded) panels

/-- One panel of `replay_costs`. -/
def replayStep (run : Run N) (guarded : List String) (bundles : String → Directory N)
    (evidence : List (Record N)) (panel : Panel N) : Except Exn (List (Record N)) :=
  let id := run.prefix_ ++ "5/" ++ panel.name
  let d := bundles panel.name
  if (REGIMES.all fun r => (d r).isNone) && !evidence.any (·.id == id) then .ok evidence
  else if run.profile.policy.cost_thresholds = none then
    .error (.harness ("Archived policy has no cost_thresholds (a pre-version-4 run); "
      ++ "re-evaluate it with the harness wheel archived in that run"))
  else do
    let subject ← panelSubject setting run panel
    let row ← replayPanel subject (panelTerms setting run guarded panel) id d
    pure (putRecord evidence row)

/-- Recompute complete cost decisions from the saved bundles, never cached verdicts. -/
def replayCosts (run : Run N) (bundles : String → Directory N) (evidence : List (Record N)) :
    Except Exn (List (Record N)) :=
  match run.scope with
  | none => .ok evidence
  | some scope => do
      let manifest := run.profile.manifest
      let guarded ← requiredCostPanels manifest.confirm scope run.changed_paths manifest.cases
      let panels ← costPanels manifest.confirm scope manifest.cases
      panels.foldlM (replayStep setting run guarded bundles) evidence

end Replay

end TranspileBench.Coordinator
