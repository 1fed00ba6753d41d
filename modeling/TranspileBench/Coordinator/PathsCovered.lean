import TranspileBench.Coordinator.PassWarranted
import TranspileBench.Compile.Tree
import Mathlib

/-!
The change scope is conservative: another changed path only adds to what a `PASS` needs. So a
`PASS` accounts for every changed path by itself, whatever else has changed.
-/
namespace TranspileBench.Coordinator
open Evaluator Fallible
open Compile (changed_scope scopes reaches non_source_path)

variable {N H : Type}

/-! ## Scopes -/

/-- A scope asks for nothing that another does not ask for. -/
structure Scope.Within (s t : Scope) : Prop where
  stages : s.stages ⊆ t.stages
  components : s.components ⊆ t.components
  unmapped_paths : s.unmapped_paths ⊆ t.unmapped_paths

section Scopes
variable {normal : String → String} {paths paths' : List String} {level : ℕ}

/-- More changed paths, a wider scope. -/
theorem changed_scope_mono (h : paths ⊆ paths') :
    (changed_scope normal paths level).Within (changed_scope normal paths' level) := by
  have hsource : (paths.map normal).filter (fun path => !non_source_path path) ⊆
      (paths'.map normal).filter fun path => !non_source_path path :=
    List.filter_subset _ (List.map_subset _ h)
  refine ⟨fun x hx => ?_, fun x hx => ?_, List.filter_subset _ hsource⟩
  · rw [changed_scope, mem_sortedSet, List.mem_flatMap] at hx ⊢
    obtain ⟨reached, hreached, hx⟩ := hx
    exact ⟨reached, List.map_subset _ hsource hreached, hx⟩
  · rw [changed_scope, mem_sortedSet, List.mem_flatMap] at hx ⊢
    obtain ⟨reached, hreached, hx⟩ := hx
    exact ⟨reached, List.map_subset _ hsource hreached, hx⟩

theorem reaches_stages {path : String} {reached : List String × List String}
    (h : reaches level path = some reached) : reached.1 ⊆ STAGES := by
  unfold reaches at h
  dsimp only at h
  split_ifs at h <;> cases h <;> simp [STAGES]

theorem changed_scope_stages : (changed_scope normal paths level).stages ⊆ STAGES := by
  intro x hx
  rw [changed_scope, mem_sortedSet, List.mem_flatMap] at hx
  obtain ⟨reached, hreached, hx⟩ := hx
  obtain ⟨path, -, rfl⟩ := List.mem_map.mp hreached
  cases hpath : reaches level path with
  | none => simpa [hpath] using hx
  | some reached =>
      rw [hpath] at hx
      exact reaches_stages hpath hx

/-- A scope that could affect anything still could with more changed paths. -/
theorem unknownScope_mono (h : paths ⊆ paths') (hunknown : unknownScope
    (scopes normal paths) = true) :
    unknownScope (scopes normal paths') = true := by
  obtain ⟨scope, hscope, hvalue⟩ := List.any_eq_true.mp hunknown
  obtain ⟨level, hlevel, rfl⟩ := List.mem_map.mp hscope
  have hwithin : (changed_scope normal paths level).Within (changed_scope normal paths' level) :=
    changed_scope_mono h
  refine List.any_eq_true.mpr ⟨_, List.mem_map_of_mem hlevel, ?_⟩
  rw [Bool.or_eq_true, Bool.and_eq_true, List.all_eq_true, List.all_eq_true] at hvalue ⊢
  rcases hvalue with ⟨hall, -⟩ | hunmapped
  · refine .inl ⟨fun stage hstage => ?_, fun stage hstage => ?_⟩
    · exact List.contains_iff_mem.mpr (hwithin.stages
        (List.contains_iff_mem.mp (hall stage hstage)))
    · exact List.contains_iff_mem.mpr (changed_scope_stages hstage)
  · refine .inr ?_
    rw [Bool.not_eq_true', List.isEmpty_eq_false_iff] at hunmapped ⊢
    obtain ⟨path, hpath⟩ := List.exists_mem_of_ne_nil _ hunmapped
    exact List.ne_nil_of_mem (hwithin.unmapped_paths hpath)

theorem scopes_stage (h : paths ⊆ paths') {stage : String}
    (hstage : ((scopes normal paths).flatMap (·.stages)).contains stage = true) :
    ((scopes normal paths').flatMap (·.stages)).contains stage = true := by
  rw [List.contains_iff_mem, List.mem_flatMap] at hstage ⊢
  obtain ⟨scope, hscope, hstage⟩ := hstage
  obtain ⟨level, hlevel, rfl⟩ := List.mem_map.mp hscope
  exact ⟨_, List.mem_map_of_mem hlevel, (changed_scope_mono h).stages hstage⟩

theorem covered_within {case : Case N} {checks : List Check} {s t : Scope} (h : s.Within t)
    (hcovered : covered case checks t = true) : covered case checks s = true := by
  obtain ⟨check, hcheck, hvalue⟩ := List.any_eq_true.mp hcovered
  refine List.any_eq_true.mpr ⟨check, hcheck, ?_⟩
  simp only [Bool.and_eq_true, List.all_eq_true, Bool.not_eq_true', List.any_eq_false] at hvalue ⊢
  obtain ⟨⟨hkept, hstages⟩, hcomponents⟩ := hvalue
  exact ⟨⟨hkept, fun stage hstage => hstages stage (h.stages hstage)⟩,
    fun component hcomponent => hcomponents component (h.components hcomponent)⟩

/-! ## Cost panels -/

/-- Whether a change could reach one of two stages. -/
def eitherDue (stage other : String) (scope : List Scope) : Bool :=
  unknownScope scope || (scope.flatMap (·.stages)).contains stage ||
    (scope.flatMap (·.stages)).contains other

/-- Whether the basis panel is measured. -/
def basisDue (scope : List Scope) : Bool := eitherDue "translation" "optimization" scope

/-- Whether the companion is measured. -/
def companionDue (scope : List Scope) : Bool := eitherDue "layout" "routing" scope

/-- A changed path as the cost panels read it. -/
def slashed (path : String) : String :=
  String.ofList (path.toLower.toList.map fun c => if c = '\\' then '/' else c)

/-- Whether the preset panel is guarded. -/
def presetDue (scope : List Scope) (paths : List String) : Bool :=
  unknownScope scope || (paths.map slashed).any fun path =>
    isInfix "preset_passmanager" path || isInfix "/target" path

theorem eitherDue_mono (h : paths ⊆ paths') {stage other : String}
    (hdue : eitherDue stage other (scopes normal paths) = true) :
    eitherDue stage other (scopes normal paths') = true := by
  simp only [eitherDue, Bool.or_eq_true] at hdue ⊢
  exact hdue.imp (Or.imp (unknownScope_mono h) (scopes_stage h)) (scopes_stage h)

theorem presetDue_mono (h : paths ⊆ paths') (hdue : presetDue (scopes normal paths) paths = true) :
    presetDue (scopes normal paths') paths' = true := by
  simp only [presetDue, Bool.or_eq_true, List.any_eq_true] at hdue ⊢
  refine hdue.imp (unknownScope_mono h) fun hpath => ?_
  obtain ⟨path, hpath, hnamed⟩ := hpath
  exact ⟨path, List.map_subset _ h hpath, hnamed⟩

/-- The panels that have cases, the companion aside. -/
def namedPanels (cases : List (Case N)) : List (Panel N) :=
  (["timing", "timing-basis", "preset", "confirm-timing", "memory"].map fun name =>
    (⟨name, cases.filter fun c => c.panel == some name,
      if name = "memory" then .memory else .timing⟩ : Panel N)).filter
        fun panel => !panel.cases.isEmpty

/-- Those of them that a scope measures. -/
def duePanels (scope : List Scope) (cases : List (Case N)) : List (Panel N) :=
  if basisDue scope then namedPanels cases else (namedPanels cases).filter
    (·.name != "timing-basis")

/-- The panels of a scope, over the companion's cases. -/
def measuredPanels (scope : List Scope) (cases companion : List (Case N)) : List (Panel N) :=
  duePanels scope cases ++ if companionDue scope then [⟨"companion", companion, .companion⟩] else []

theorem costPanels_eq {confirm : Bool} {scope : List Scope} {cases : List (Case N)} :
    costPanels confirm scope cases =
      if companionDue scope then do
        let companion ← companionCases confirm cases
        pure (duePanels scope cases ++ [⟨"companion", companion, .companion⟩])
      else pure (duePanels scope cases) :=
  rfl

theorem costPanels_eq_ok {confirm : Bool} {scope : List Scope} {cases : List (Case N)}
    {panels : List (Panel N)} : costPanels confirm scope cases = .ok panels ↔
      ∃ companion, (companionDue scope = true → companionCases confirm cases = .ok companion) ∧
        panels = measuredPanels scope cases companion := by
  rw [costPanels_eq]
  by_cases hdue : companionDue scope = true
  · rw [if_pos hdue, bind_eq_ok]
    constructor
    · rintro ⟨companion, hcompanion, h⟩
      cases h
      exact ⟨companion, fun _ => hcompanion, by rw [measuredPanels, if_pos hdue]⟩
    · rintro ⟨companion, hcompanion, rfl⟩
      exact ⟨companion, hcompanion hdue, by rw [measuredPanels, if_pos hdue]; rfl⟩
  · rw [if_neg hdue]
    constructor
    · intro h
      cases h
      exact ⟨[], fun hcontra => absurd hcontra hdue, by rw [measuredPanels, if_neg hdue,
        List.append_nil]⟩
    · rintro ⟨companion, -, rfl⟩
      rw [measuredPanels, if_neg hdue, List.append_nil]
      rfl

theorem mem_measuredPanels {scope : List Scope} {cases companion : List (Case N)}
    {panel : Panel N} :
    panel ∈ measuredPanels scope cases companion ↔
      (panel ∈ namedPanels cases ∧ (panel.name = "timing-basis" → basisDue scope = true)) ∨
        (panel = ⟨"companion", companion, .companion⟩ ∧ companionDue scope = true) := by
  have hkept : duePanels scope cases =
      (namedPanels cases).filter fun panel => basisDue scope || panel.name != "timing-basis" := by
    unfold duePanels
    cases basisDue scope <;> simp
  rw [measuredPanels, hkept, List.mem_append, List.mem_filter, Bool.or_eq_true, bne_iff_ne,
    ← imp_iff_or_not]
  refine or_congr Iff.rfl ?_
  by_cases hdue : companionDue scope = true
  · rw [if_pos hdue, List.mem_singleton, and_iff_left hdue]
  · rw [if_neg hdue]
    exact iff_of_false List.not_mem_nil fun h => hdue h.2

/-- Fewer changed paths, fewer panels, and no more cases to look up. -/
theorem costPanels_mono (h : paths ⊆ paths') {confirm : Bool} {cases : List (Case N)}
    {panels' : List (Panel N)} (hpanels : costPanels confirm (scopes normal paths')
      cases = .ok panels') :
    ∃ panels, costPanels confirm (scopes normal paths) cases = .ok panels ∧ panels ⊆ panels' := by
  obtain ⟨companion, hcompanion, rfl⟩ := costPanels_eq_ok.mp hpanels
  refine ⟨measuredPanels (scopes normal paths) cases companion,
    costPanels_eq_ok.mpr ⟨companion, fun hdue => hcompanion (eitherDue_mono h hdue), rfl⟩, ?_⟩
  intro panel hpanel
  refine mem_measuredPanels.mpr ((mem_measuredPanels.mp hpanel).imp ?_ ?_)
  · rintro ⟨hnamed, hdue⟩
    exact ⟨hnamed, fun hbasis => eitherDue_mono h (hdue hbasis)⟩
  · rintro ⟨heq, hdue⟩
    exact ⟨heq, eitherDue_mono h hdue⟩

theorem requiredCostPanels_eq_ok {confirm : Bool} {scope : List Scope} {paths names : List String}
    {cases : List (Case N)} : requiredCostPanels confirm scope paths cases = .ok names ↔
      ∃ panels, costPanels confirm scope cases = .ok panels ∧
        names = (panels.map (·.name)).filter fun name =>
          presetDue scope paths || name != "preset" := by
  have hkept : ∀ names : List String, (if presetDue scope
      paths then names else names.filter (· != "preset")) =
      names.filter fun name => presetDue scope paths || name != "preset" := by
    intro names
    cases presetDue scope paths <;> simp
  unfold requiredCostPanels
  rw [bind_eq_ok]
  refine exists_congr fun panels => and_congr_right fun _ => ?_
  rw [← hkept]
  exact ⟨fun h => (Except.ok.inj h).symm, fun h => congrArg Except.ok h.symm⟩

/-- More changed paths, more guarded panels. -/
theorem requiredCostPanels_mono (h : paths ⊆ paths') {confirm : Bool} {cases : List (Case N)}
    {names' : List String}
    (hnames : requiredCostPanels confirm (scopes normal paths') paths' cases = .ok names') :
    ∃ names, requiredCostPanels confirm (scopes normal paths) paths cases = .ok names ∧
      names ⊆ names' := by
  obtain ⟨panels', hpanels', rfl⟩ := requiredCostPanels_eq_ok.mp hnames
  obtain ⟨panels, hpanels, hsubset⟩ := costPanels_mono h hpanels'
  refine ⟨_, requiredCostPanels_eq_ok.mpr ⟨panels, hpanels, rfl⟩, fun name hname => ?_⟩
  obtain ⟨hname, hkept⟩ := List.mem_filter.mp hname
  refine List.mem_filter.mpr ⟨List.map_subset _ hsubset hname, ?_⟩
  rw [Bool.or_eq_true] at hkept ⊢
  exact hkept.imp_left (presetDue_mono h)

end Scopes

/-! ## Coverage -/

section Coverage
variable {normal : String → String}

/-- The checks of a case's outputs that coverage reads. -/
def evolvedChecks (observations : List (Observation N)) (clifford : List CliffordRow)
    (case : Case N) : List Check :=
  (observations.filter fun r =>
      r.seed_block == "B0" && r.case_id == case.case_id && r.revision == .evolved).flatMap
        (·.checks) ++
    (clifford.filter fun c => c.case_id == case.case_id && c.revision == .evolved).map (·.check)

theorem filterMapM_nil {ε α β : Type} {f : α → Except ε (Option β)} {xs : List α}
    (h : xs.filterMapM f = .ok []) : ∀ x ∈ xs, f x = .ok none := by
  induction xs with
  | nil => exact fun x hx => absurd hx List.not_mem_nil
  | cons x xs ih =>
      rw [List.filterMapM_cons] at h
      obtain ⟨found, hfound, h⟩ := bind_eq_ok.mp h
      cases found with
      | some y =>
          obtain ⟨rest, -, h⟩ := bind_eq_ok.mp h
          cases h
      | none => exact List.forall_mem_cons.mpr ⟨hfound, ih h⟩

/-- Coverage that passed covers every scored case at its level. -/
theorem stageCoverage_passed {scope : List Scope} {cases : List (Case N)}
    {observations : List (Observation N)}
    {clifford : List CliffordRow} {pre : String} {r : Record N}
    (h : stageCoverage scope cases observations clifford pre = .ok r) (passed : r.isPassed = true) :
    ∀ case ∈ cases, case.role = .scored → ∃ level, scope[case.optimization_level]? = some level ∧
      covered case (evolvedChecks observations clifford case) level = true := by
  unfold stageCoverage at h
  obtain ⟨missing, hmissing, h⟩ := bind_eq_ok.mp h
  cases h
  have hnone : missing = [] := by
    by_contra hne
    simp [Record.isPassed, hne] at passed
  rw [hnone] at hmissing
  intro case hcase hrole
  have hcovered := filterMapM_nil hmissing case (List.mem_filter.mpr ⟨hcase, by simp [hrole]⟩)
  dsimp only at hcovered
  cases hlevel : scope[case.optimization_level]? with
  | none =>
      rw [hlevel] at hcovered
      cases hcovered
  | some level =>
      rw [hlevel] at hcovered
      refine ⟨level, rfl, ?_⟩
      by_contra hne
      rw [evolvedChecks] at hne
      dsimp only at hcovered
      rw [if_neg hne] at hcovered
      cases hcovered

end Coverage

/-! ## What a `PASS` says of one changed path -/

section Accounts
variable [Arith N] [DecidableEq N] {platform : Platform N H} {run : Run N} {w : World N H}
  {d : Decision N H} {normal : String → String}

/-- A changed path is accounted for by itself: every scored case has a verified check of all
that the path reaches, and each panel it alone would guard is required and judged again. -/
structure World.Accounts (platform : Platform N H) (w : World N H) (run : Run N)
    (d : Decision N H) (normal : String → String) (path : String) : Prop where
  covered : ∃ rows, readRows platform (w.stages .quality).observations = .ok rows ∧
    ∀ case ∈ run.profile.manifest.cases, case.role = .scored →
      covered case (evolvedChecks rows (w.stages .correctness).clifford case)
        (changed_scope normal [path] case.optimization_level) = true
  guarded : ∃ names guarded,
    requiredCostPanels run.profile.manifest.confirm (scopes normal [path]) [path]
        run.profile.manifest.cases = .ok names ∧
      guardedPanels (effective run) = .ok guarded ∧
      ∀ name ∈ names, run.prefix_ ++ "5/" ++ name ∈ d.required_ids ∧
        w.PanelPassed platform (effective run) guarded name

/-- A record of stage coverage that a decision names is that of the rows on disk. -/
theorem decided_coverage (hinv : Inv platform w) (found : w.run = some run)
    (h : decideOn platform (effective run) (w.snapshot platform) w = .ok d) {r : Record N}
    (hr : r ∈ d.constraints) (hid : r.id = run.prefix_ ++ "1/stage-coverage") :
    ∃ rows, readRows platform (w.stages .quality).observations = .ok rows ∧
      stageCoverage (run.scope.getD []) run.profile.manifest.cases rows
        (w.stages .correctness).clifford run.prefix_ = .ok r := by
  obtain ⟨graded, hgraded, hrecords⟩ := evidence_constraints h
  obtain ⟨merged, rows, replayed, panels, evaluated, summaries, status, -, -, hmerged, hrows,
    hreplayed, hcovered, -⟩ := decideOn_steps h
  rw [hrecords] at hr
  rcases List.mem_append.mp hr with hr | hr
  · rcases (mem_coveredEvidence hcovered).2 r hr with hr | ⟨hcoverage, sound, hquality, -⟩
    · rcases mem_replayedEvidence hreplayed hr with hr | ⟨hsection, -⟩
      · obtain ⟨s, hs⟩ := mem_of_keptEvidence hr
        obtain ⟨-, hevidence⟩ := committed_of_mem ((mem_mergeEvidence hmerged).mp hs)
        exact absurd hid ((hinv.stage s).records run found r hevidence).coverage
      · exact absurd hsection (coverage_not_section hid)
    · rw [decidedRows, if_pos hquality] at hrows
      obtain ⟨read, hread, hrows⟩ := bind_eq_ok.mp hrows
      rw [sound] at hrows
      cases hrows
      exact ⟨_, hread, hcoverage⟩
  · exact absurd (coverage_section hid) (graded_not_section (hgraded r hr)).1

/-- Behind a `PASS` every changed path is accounted for. -/
theorem Inv.accounts (hinv : Inv platform w) (found : w.run = some run)
    (thorough : Policy.Thorough run.profile.policy run.prefix_)
    (hscope : run.scope = some (scopes normal run.changed_paths))
    (h : decideOn platform (effective run) (w.snapshot platform) w = .ok d)
    (pass : d.status = .PASS) {path : String} (hpath : path ∈ run.changed_paths) :
    w.Accounts platform run d normal path := by
  have hwarrants := hinv.warrants found thorough h pass
  have hpaths : [path] ⊆ run.changed_paths := List.cons_subset.mpr ⟨hpath, List.nil_subset _⟩
  constructor
  · obtain ⟨r, hr, hid, passed⟩ := hwarrants.passed _ (hwarrants.policy _ thorough.coverage)
    obtain ⟨rows, hrows, hcoverage⟩ := decided_coverage hinv found h hr hid
    refine ⟨rows, hrows, fun case hcase hrole => ?_⟩
    obtain ⟨level, hlevel, hcovered⟩ := stageCoverage_passed hcoverage passed case hcase hrole
    rw [hscope, Option.getD_some, scopes, List.getElem?_map, Option.map_eq_some_iff] at hlevel
    obtain ⟨optimization_level, hlevel, rfl⟩ := hlevel
    obtain ⟨hlt, hlevel⟩ := List.getElem?_eq_some_iff.mp hlevel
    rw [List.getElem_range] at hlevel
    subst hlevel
    exact covered_within (changed_scope_mono hpaths) hcovered
  · obtain ⟨guarded, hguarded, hpanels⟩ := hwarrants.guarded
    have hrequired : requiredCostPanels run.profile.manifest.confirm
        (scopes normal run.changed_paths) run.changed_paths
          run.profile.manifest.cases = .ok guarded := by
      rwa [guardedPanels, show (effective run).scope = _ from hscope] at hguarded
    obtain ⟨names, hnames, hsubset⟩ := requiredCostPanels_mono hpaths hrequired
    exact ⟨names, guarded, hnames, hguarded, fun name hname => hpanels name (hsubset hname)⟩

end Accounts

/-- However a session came about, what passes accounts for every changed path by itself,
whatever else has changed. -/
theorem paths_accounted [Arith N] [DecidableEq N] [DecidableEq H] (platform : Platform N H)
    (r : (sessionSystem platform).Run) (i : ℕ) {run : Run N} {d : Decision N H}
    {normal : String → String} {path : String} (found : (r.config i).world.run = some run)
    (thorough : Policy.Thorough run.profile.policy run.prefix_)
    (hscope : run.scope = some (scopes normal run.changed_paths))
    (decided : decideOn platform (effective run) ((r.config i).world.snapshot platform)
      (r.config i).world = .ok d) (pass : d.status = .PASS) (hpath : path ∈ run.changed_paths) :
    (r.config i).world.Accounts platform run d normal path :=
  (session_inv platform (r.reachable _ i)).accounts found thorough hscope decided pass hpath

section Sample
attribute [local instance] integerArith

/-- A session whose evolved tree changes one optimization pass, and that passes. -/
theorem paths_accounted_improved :
    ∃ (r : (sessionSystem passingPlatform).Run) (i : ℕ) (d : Decision Int StageState),
      decideOn passingPlatform (effective passingRun) ((r.config i).world.snapshot passingPlatform)
        (r.config i).world = .ok d ∧ d.status = .PASS ∧
      (r.config i).world.Accounts passingPlatform passingRun d id
        "qiskit/transpiler/passes/optimization/collapse.py" := by
  obtain ⟨w, reached, hrest⟩ := reachable_passing
  obtain ⟨d, decided, pass⟩ := passing_decided hrest
  obtain ⟨r, i, hi⟩ := reached.exists_run
  have world : (r.config i).world = w := congrArg Config.world hi
  rw [← world] at hrest decided
  exact ⟨r, i, d, decided, pass, paths_accounted passingPlatform r i hrest.found passing_thorough
    rfl decided pass (List.mem_singleton.mpr rfl)⟩

end Sample

end TranspileBench.Coordinator
