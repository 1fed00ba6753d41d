import TranspileBench.Coordinator.Remeasure

/-!
The invocations of a cost stage. Each measures a panel at most once, from the bundles the
invocations before it saved, and records the panel under its id.
-/
namespace TranspileBench.Coordinator
open Evaluator Fallible

variable {N H : Type}

/-- The comparison a cost stage measures is the same: its builds, its scope, its policy and
its evidence requirement. -/
structure SameComparison (run view : Run N) : Prop where
  run_id : view.run_id = run.run_id
  profile : view.profile = run.profile
  builds : view.builds = run.builds
  changed_paths : view.changed_paths = run.changed_paths
  scope : view.scope = run.scope
  cost_evidence : view.cost_evidence = run.cost_evidence

def panelRows (id : String) (evidence : List (Record N)) : List (Record N) :=
  evidence.filter (·.id == id)

theorem mem_panelRows {id : String} {evidence : List (Record N)} {row : Record N} :
    row ∈ panelRows id evidence ↔ row ∈ evidence ∧ row.id = id := by
  simp [panelRows]

theorem ofExcept_cases {W ε α : Type} {x : Except ε α} {w w' : W} {o : Option (Except ε α)}
    (h : Exec (Prog.ofExcept x) w o w') : w' = w ∧ (o = none ∨ o = some x) := by
  cases x with
  | ok a =>
      cases h with
      | stop => exact ⟨rfl, .inl rfl⟩
      | ret => exact ⟨rfl, .inr rfl⟩
  | error e =>
      cases h with
      | stop => exact ⟨rfl, .inl rfl⟩
      | raise => exact ⟨rfl, .inr rfl⟩

/-- What follows a check runs when the check passes. -/
theorem ofExcept_bind {W ε α β : Type} {x : Except ε β} {f : β → Prog W ε α} {w w' : W}
    {o : Option (Except ε α)} (h : Exec (Prog.ofExcept x >>= f) w o w') :
    (w' = w ∧ ∀ a, o ≠ some (.ok a)) ∨ ∃ b, x = .ok b ∧ Exec (f b) w o w' := by
  rcases h.bind_cases with ⟨r, -, first, ho⟩ | ⟨b, w₁, first, rest⟩
  · exact .inl ⟨(ofExcept_cases first).1, ho⟩
  · obtain ⟨rfl, hx⟩ := ofExcept_cases first
    rcases hx with hx | hx
    · cases hx
    · exact .inr ⟨b, (Option.some.inj hx).symm, rest⟩

/-- What an invocation records of a guarded panel that stays incomplete. -/
def incompleteRow (run : Run N) (text : String) : Record N where
  id := run.prefix_ ++ "5/timing"
  kind := .cost
  result := .unresolved
  details := .detail text

section Frame
variable {run view : Run N} {id : String} {w w' : World N H}

theorem SameComparison.prefix_ (same : SameComparison run view) : view.prefix_ = run.prefix_ := by
  rw [Run.prefix_, Run.prefix_, same.profile]

/-- No panel's record is taken for that of a crash. -/
theorem panelId_ne_error {name : String} : run.prefix_ ++ "5/" ++ name ≠ Stage.cost.errorId := by
  intro heq
  have hlist := congrArg String.toList heq
  rw [String.append_assoc, String.toList_append, String.toList_append] at hlist
  unfold Run.prefix_ Manifest.prefix_ at hlist
  split_ifs at hlist <;> simp [Stage.errorId, Stage.name] at hlist

/-- What becomes of the outcome `x` of the measuring: with success nothing, with what is
incomplete (in an `interrupted` invocation) its record. -/
def Handled (interrupted : Prop) (view : Run N) (x : Except Exn Unit) (o : Option (Except Exn Unit))
    (w w' : World N H) : Prop :=
  (w'.stages .cost).bundles = (w.stages .cost).bundles ∧
    (((w'.stages .cost).evidence = (w.stages .cost).evidence ∧
        (o = some (.ok ()) → some x = some (.ok ()))) ∨
      interrupted ∧ ∃ text, (w'.stages .cost).evidence
        = putRecord (w.stages .cost).evidence (incompleteRow view text))

/-- What is incomplete is recorded in the place of the timing panel. -/
theorem incompleteCosts_handled {x : Except Exn Unit} {o : Option (Except Exn Unit)}
    (h : Exec (incompleteCosts view x) w o w') : Handled True view x o w w' := by
  unfold incompleteCosts at h
  split at h
  · cases h with
    | stop => exact ⟨rfl, .inl ⟨rfl, fun _ => rfl⟩⟩
    | ret => exact ⟨rfl, .inl ⟨rfl, fun _ => rfl⟩⟩
  · rename_i text
    obtain ⟨f, hf, rfl⟩ := h.zoom_cases
    unfold putEvidence at hf
    rcases hf.bind_cases with ⟨_, -, write, ho⟩ | ⟨_, f₁, write, rest⟩
    · rcases write.fallible_cases with ⟨rfl, -⟩ | ⟨_, rfl, -⟩
      · exact ⟨by simp [stageLens], .inl ⟨by simp [stageLens], fun hok => absurd hok (ho ())⟩⟩
      · exact ⟨by simp [stageLens], .inr ⟨trivial, text, by simp [stageLens, incompleteRow]⟩⟩
    · rcases write.fallible_cases with ⟨-, hok⟩ | ⟨_, rfl, -⟩
      · exact absurd rfl (hok _)
      · rcases rest.fallible_cases with ⟨rfl, -⟩ | ⟨_, rfl, -⟩ <;>
          exact ⟨by simp [stageLens], .inr ⟨trivial, text, by simp [stageLens, incompleteRow]⟩⟩
  · cases h with
    | stop => exact ⟨rfl, .inl ⟨rfl, nofun⟩⟩
    | raise => exact ⟨rfl, .inl ⟨rfl, nofun⟩⟩

end Frame

section Due
variable [Arith N] {platform : Platform N H} {view : Run N} {w w' : World N H}

/-- Whether cost is due is only read. -/
theorem costDue_frame {o : Option (Except Exn (Option CostDue))}
    (h : Exec (costDue platform view) w o w') : w' = w := by
  have reads : ∀ {β : Type} (f : World N H → β),
      Prog.Safe (Contract.alone (fun w' => w' = w) fun _ _ => True)
        (fun _ => True) (readFile f) := by
    intro β f
    refine .fallible (fun _ => trivial) ?_ fun _ _ => trivial
    rintro w₁ _ _ hw ⟨-, rfl⟩
    exact ⟨trivial, hw⟩
  have committed : ∀ stage,
      Prog.Safe (Contract.alone (fun w' => w' = w) fun _ _ => True) (fun _ => True)
        (committedEvidence stage) := by
    intro stage
    refine .bind (reads _) fun state => ?_
    split
    · exact .bind (reads _) fun rows => .pure _
    · exact .pure _
  have start : (Contract.alone (fun w' => w' = w) fun _ _ => True).inv w := rfl
  refine h.safe start (.bind (reads _) fun file => .bind (safe_ofExcept fun _ _ => trivial)
    fun rows => .bind (committed _) fun _ => .bind (committed _) fun _ => .bind (committed _)
      fun _ => safe_ofExcept fun _ _ => trivial)

end Due

section Panels
variable {setting : Setting N} {run view : Run N} {guarded : List String} {panel : Panel N}
  {s : Subject N} {t : Terms N} {id : String}

/-- `panel` is one of the cost panels of `run`, over the subject `s` and under the terms `t`. -/
structure PanelOf (setting : Setting N) (run : Run N) (panel : Panel N) (s : Subject N)
    (t : Terms N) : Prop where
  listed : ∃ scope guarded panels, run.scope = some scope ∧
    requiredCostPanels run.profile.manifest.confirm scope run.changed_paths
      run.profile.manifest.cases = .ok guarded ∧
    costPanels run.profile.manifest.confirm scope run.profile.manifest.cases = .ok panels ∧
    panel ∈ panels ∧ t = panelTerms setting run guarded panel
  subject : panelSubject setting run panel = .ok s

theorem PanelOf.same (h : PanelOf setting run panel s t) (same : SameComparison run view) :
    PanelOf setting view panel s t := by
  obtain ⟨scope, guarded, panels, hscope, hguarded, hpanels, hpanel, rfl⟩ := h.listed
  refine ⟨⟨scope, guarded, panels, ?_, ?_, ?_, hpanel, ?_⟩, ?_⟩
  · rw [same.scope, hscope]
  · rw [same.profile, same.changed_paths, hguarded]
  · rw [same.profile, hpanels]
  · unfold panelTerms
    rw [same.profile, same.run_id, same.cost_evidence]
  · unfold panelSubject
    rw [same.builds]
    exact h.subject

variable [Arith N] [DecidableEq N]

/-- What an invocation does to one panel: nothing, or one measurement, which it records
unless it is stopped or raises. -/
def Treated (s : Subject N) (t : Terms N) (id : String) (d d' : Directory N)
    (rows rows' : List (Record N)) (o : Option (Except Exn Unit)) : Prop :=
  (d' = d ∧ rows' = rows ∧ o ≠ some (.ok ())) ∨
    ∃ r, Exec (measurePanel s t) d r d' ∧
      ((rows' = rows ∧ o ≠ some (.ok ())) ∨
        ∃ x row, r = some x ∧ measuredRecord id t.guarded x = .ok row ∧ rows' = [row])

/-- A panel that is not measured is not touched either. -/
theorem Treated.refused {d : Directory N} {rows : List (Record N)} {o : Option (Except Exn Unit)}
    (ho : o ≠ some (.ok ())) : Treated s t id d d rows rows o :=
  .inl ⟨rfl, rfl, ho⟩

/-- A run of a panel's measurement among the files is one in its directory. -/
theorem measurePanel_zoomed {files mid : CostFiles N} {name : String}
    {r : Option (Except Exn (CostResult N))}
    (h : Exec ((measurePanel s t).zoom (directoryLens name)) files r mid) :
    Exec (measurePanel s t) (files.bundles name) r (mid.bundles name) ∧
      mid.evidence = files.evidence ∧
      ∀ other, other ≠ name → mid.bundles other = files.bundles other := by
  obtain ⟨d, hd, rfl⟩ := h.zoom_cases
  refine ⟨?_, rfl, fun other hother => by simp [directoryLens, hother]⟩
  rw [show ((directoryLens name).set files d).bundles name = d from
    (directoryLens name).get_set files d]
  exact hd

/-- A round of a panel treats the panel and no other. -/
structure Round (run : Run N) (name : String) (s : Subject N) (t : Terms N)
    (files files' : CostFiles N) (o : Option (Except Exn Unit)) : Prop where
  treated : Treated s t (run.prefix_ ++ "5/" ++ name) (files.bundles name) (files'.bundles name)
    (panelRows (run.prefix_ ++ "5/" ++ name) files.evidence)
    (panelRows (run.prefix_ ++ "5/" ++ name) files'.evidence) o
  other : ∀ other, other ≠ name → files'.bundles other = files.bundles other ∧
    panelRows (run.prefix_ ++ "5/" ++ other) files'.evidence
      = panelRows (run.prefix_ ++ "5/" ++ other) files.evidence

theorem measureStep_cases {files files' : CostFiles N} {o : Option (Except Exn Unit)}
    (h : Exec (measureStep setting run guarded panel) files o files') :
    (files' = files ∧ o ≠ some (.ok ())) ∨ ∃ s, panelSubject setting run panel = .ok s ∧
      Round run panel.name s (panelTerms setting run guarded panel) files files' o := by
  unfold measureStep at h
  rcases ofExcept_bind h with ⟨rfl, ho⟩ | ⟨s, hs, h⟩
  · exact .inl ⟨rfl, ho ()⟩
  refine .inr ⟨s, hs, ?_⟩
  -- the round was cut short with the evidence as it was
  have unrecorded : ∀ {r : Option (Except Exn (CostResult N))},
      Exec ((measurePanel s (panelTerms setting run guarded panel)).zoom
        (directoryLens panel.name)) files r files' → o ≠ some (.ok ()) →
      Round run panel.name s (panelTerms setting run guarded panel) files files' o := by
    intro r hrun ho
    obtain ⟨hpanel, hevidence, hother⟩ := measurePanel_zoomed hrun
    constructor
    · exact .inr ⟨r, hpanel, .inl ⟨by rw [hevidence], ho⟩⟩
    · exact fun name hname => ⟨hother name hname, by rw [hevidence]⟩
  rcases h.bind_cases with ⟨_, -, first, ho⟩ | ⟨x, mid, first, rest⟩
  · obtain ⟨r, hrun, -⟩ := first.attempt_cases
    exact unrecorded hrun (ho ())
  obtain ⟨r, hrun, hr⟩ := first.attempt_cases
  rcases hr with hr | ⟨y, rfl, hy⟩
  · cases hr
  obtain rfl := Except.ok.inj (Option.some.inj hy)
  rcases ofExcept_bind rest with ⟨rfl, ho⟩ | ⟨row, hrow, rest⟩
  · exact unrecorded hrun (ho ())
  rcases rest.fallible_cases with ⟨rfl, ho⟩ | ⟨_, rfl, -⟩
  · exact unrecorded hrun (ho ())
  obtain ⟨hpanel, hevidence, hother⟩ := measurePanel_zoomed hrun
  have hrowid := measuredRecord_id hrow
  refine ⟨.inr ⟨_, hpanel, .inr ⟨x, row, rfl, hrow, ?_⟩⟩, fun name hname => ?_⟩
  · rw [← hrowid]
    exact putRecord_same mid.evidence row
  · refine ⟨hother name hname, ?_⟩
    rw [← hevidence]
    refine putRecord_other fun heq => hname ?_
    rw [hrowid] at heq
    exact (panel_id_inj heq).symm

/-- A round of another panel leaves a panel alone. -/
theorem measureStep_other {files files' : CostFiles N} {o : Option (Except Exn Unit)}
    {name : String} (h : Exec (measureStep setting run guarded panel) files o files')
    (hname : name ≠ panel.name) :
    files'.bundles name = files.bundles name ∧
      panelRows (run.prefix_ ++ "5/" ++ name) files'.evidence
        = panelRows (run.prefix_ ++ "5/" ++ name) files.evidence := by
  rcases measureStep_cases h with ⟨rfl, -⟩ | ⟨_, -, round⟩
  · exact ⟨rfl, rfl⟩
  · exact round.other name hname

theorem measureSteps_other {panels : List (Panel N)} {files files' : CostFiles N}
    {o : Option (Except Exn Unit)} {name : String}
    (h : Exec (Prog.each (measureStep setting run guarded) panels) files o files')
    (hname : name ∉ panels.map (·.name)) :
    files'.bundles name = files.bundles name ∧
      panelRows (run.prefix_ ++ "5/" ++ name) files'.evidence
        = panelRows (run.prefix_ ++ "5/" ++ name) files.evidence := by
  induction panels generalizing files with
  | nil =>
      cases h with
      | stop => exact ⟨rfl, rfl⟩
      | ret => exact ⟨rfl, rfl⟩
  | cons panel rest ih =>
      rw [List.map_cons, List.mem_cons, not_or] at hname
      change Exec (measureStep setting run guarded panel >>= fun _ =>
        Prog.each (measureStep setting run guarded) rest) files o files' at h
      rcases h.bind_cases with ⟨_, -, first, -⟩ | ⟨_, mid, first, others⟩
      · exact measureStep_other first hname.1
      · have hfirst := measureStep_other first hname.1
        have hothers := ih others hname.2
        exact ⟨hothers.1.trans hfirst.1, hothers.2.trans hfirst.2⟩

/-- The rounds of an invocation treat each panel once. -/
theorem measureSteps_panel {panels : List (Panel N)} {files files' : CostFiles N}
    {o : Option (Except Exn Unit)}
    (h : Exec (Prog.each (measureStep setting run guarded) panels) files o files')
    (hnodup : (panels.map (·.name)).Nodup) (hpanel : panel ∈ panels)
    (hs : panelSubject setting run panel = .ok s) :
    Treated s (panelTerms setting run guarded panel) (run.prefix_ ++ "5/" ++ panel.name)
      (files.bundles panel.name) (files'.bundles panel.name)
      (panelRows (run.prefix_ ++ "5/" ++ panel.name) files.evidence)
      (panelRows (run.prefix_ ++ "5/" ++ panel.name) files'.evidence) o := by
  induction panels generalizing files with
  | nil => simp at hpanel
  | cons first rest ih =>
      rw [List.map_cons, List.nodup_cons] at hnodup
      change Exec (measureStep setting run guarded first >>= fun _ =>
        Prog.each (measureStep setting run guarded) rest) files o files' at h
      rcases List.mem_cons.mp hpanel with rfl | hrest
      · rcases h.bind_cases with ⟨r, hr, round, ho⟩ | ⟨_, mid, round, others⟩
        · rcases measureStep_cases round with ⟨rfl, -⟩ | ⟨s', hs', round⟩
          · exact .refused (ho ())
          · obtain rfl := Except.ok.inj (hs.symm.trans hs')
            rcases round.treated with ⟨hd, hrows, -⟩ | ⟨x, hrun, ⟨hrows, -⟩ | hrow⟩
            · exact .inl ⟨hd, hrows, ho ()⟩
            · exact .inr ⟨x, hrun, .inl ⟨hrows, ho ()⟩⟩
            · exact .inr ⟨x, hrun, .inr hrow⟩
        · obtain ⟨hd, hrows⟩ := measureSteps_other others hnodup.1
          rcases measureStep_cases round with ⟨-, hr⟩ | ⟨s', hs', round⟩
          · exact absurd rfl hr
          · obtain rfl := Except.ok.inj (hs.symm.trans hs')
            rw [hd, hrows]
            rcases round.treated with ⟨-, -, hr⟩ | ⟨x, hrun, ⟨-, hr⟩ | hrow⟩
            · exact absurd rfl hr
            · exact absurd rfl hr
            · exact .inr ⟨x, hrun, .inr hrow⟩
      · have hne : panel.name ≠ first.name := by
          intro heq
          exact hnodup.1 (heq ▸ List.mem_map_of_mem hrest)
        rcases h.bind_cases with ⟨_, -, round, ho⟩ | ⟨_, mid, round, others⟩
        · obtain ⟨hd, hrows⟩ := measureStep_other round hne
          rw [hd, hrows]
          exact .refused (ho ())
        · obtain ⟨hd, hrows⟩ := measureStep_other round hne
          rw [← hd, ← hrows]
          exact ih others hnodup.2 hrest

/-- An invocation treats every panel of its comparison. -/
theorem measureCosts_panel {files files' : CostFiles N} {o : Option (Except Exn Unit)}
    (h : Exec (measureCosts setting run) files o files') (hp : PanelOf setting run panel s t) :
    Treated s t (run.prefix_ ++ "5/" ++ panel.name) (files.bundles panel.name)
      (files'.bundles panel.name) (panelRows (run.prefix_ ++ "5/" ++ panel.name) files.evidence)
      (panelRows (run.prefix_ ++ "5/" ++ panel.name) files'.evidence) o := by
  obtain ⟨scope, guarded, panels, hscope, hguarded, hpanels, hpanel, rfl⟩ := hp.listed
  unfold measureCosts at h
  rw [hscope] at h
  simp only [hguarded, hpanels] at h
  exact measureSteps_panel h (costPanels_nodup hpanels) hpanel hp.subject

section Body
variable {platform : Platform N H} {w w' : World N H}

/-- `cost_body`, up to what becomes of the outcome of the measuring. -/
def costBodyWith (platform : Platform N H) (view : Run N)
    (handler : Except Exn Unit → Prog (World N H) Exn Unit) : Prog (World N H) Exn Unit := do
  resetEvidence.zoom (stageLens .cost)
  let _ ← costDue platform view
  let measured ← ((measureCosts platform.toSetting view).zoom costFilesLens
    |>.zoom (stageLens .cost)).attempt
  handler measured

theorem costBody_eq :
    costBody platform view = costBodyWith platform view (incompleteCosts view) := rfl

variable {handler : Except Exn Unit → Prog (World N H) Exn Unit} {interrupted : Prop}

/-- What an invocation of the cost stage leaves: it ended before it measured, or it
measured with no record yet, and its outcome was handled at the end. -/
theorem costBodyWith_cases {o : Option (Except Exn Unit)}
    (h : Exec (costBodyWith platform view handler) w o w')
    (handles : ∀ {x o w w'}, Exec (handler x) w o w' → Handled interrupted view x o w w') :
    ((w'.stages .cost).bundles = (w.stages .cost).bundles ∧
        ((w'.stages .cost).evidence = (w.stages .cost).evidence ∨ (w'.stages .cost).evidence = []) ∧
        o ≠ some (.ok ())) ∨
      ∃ r files, Exec (measureCosts platform.toSetting view)
        ⟨(w.stages .cost).bundles, []⟩ r files ∧
        (w'.stages .cost).bundles = files.bundles ∧
        (((w'.stages .cost).evidence = files.evidence ∧ (o = some (.ok ()) → r = some (.ok ()))) ∨
          interrupted ∧
            ∃ text, (w'.stages .cost).evidence = putRecord files.evidence
              (incompleteRow view text)) := by
  unfold costBodyWith at h
  rcases h.bind_cases with ⟨_, -, reset, ho⟩ | ⟨_, w₁, reset, h⟩
  · obtain ⟨f, hf, rfl⟩ := reset.zoom_cases
    refine .inl ?_
    rcases hf.fallible_cases with ⟨rfl, -⟩ | ⟨_, rfl, -⟩
    · exact ⟨by simp [stageLens], .inl (by simp [stageLens]), ho ()⟩
    · exact ⟨by simp [stageLens], .inr (by simp [stageLens]), ho ()⟩
  obtain ⟨f, hf, rfl⟩ := reset.zoom_cases
  rcases hf.fallible_cases with ⟨-, hok⟩ | ⟨_, rfl, -⟩
  · exact absurd rfl (hok _)
  set w₁ := (stageLens .cost).set w { (stageLens .cost).get w with evidence := [] } with hw₁
  have hbundles : (w₁.stages .cost).bundles = (w.stages .cost).bundles := by simp [hw₁, stageLens]
  have hempty : (w₁.stages .cost).evidence = [] := by simp [hw₁, stageLens]
  rcases h.bind_cases with ⟨_, -, due, ho⟩ | ⟨_, w₂, due, h⟩
  · rw [costDue_frame due]
    exact .inl ⟨hbundles, .inr hempty, ho ()⟩
  rw [costDue_frame due] at h
  right
  have zoomed : ∀ {r : Option (Except Exn Unit)} {w₃ : World N H},
      Exec (((measureCosts platform.toSetting view).zoom costFilesLens).zoom (stageLens .cost)) w₁ r
        w₃ → ∃ files,
        Exec (measureCosts platform.toSetting view) ⟨(w.stages .cost).bundles, []⟩ r files ∧
          (w₃.stages .cost).bundles = files.bundles ∧ (w₃.stages .cost).evidence
            = files.evidence := by
    intro r w₃ hrun
    obtain ⟨f, hf, rfl⟩ := hrun.zoom_cases
    obtain ⟨files, hfiles, rfl⟩ := hf.zoom_cases
    rw [← hbundles, ← hempty]
    exact ⟨files, hfiles, by simp [stageLens, costFilesLens], by simp [stageLens, costFilesLens]⟩
  rcases h.bind_cases with ⟨_, -, first, ho⟩ | ⟨x, w₃, first, last⟩
  · obtain ⟨r, hrun, -⟩ := first.attempt_cases
    obtain ⟨files, hfiles, hb, he⟩ := zoomed hrun
    exact ⟨r, files, hfiles, hb, .inl ⟨he, fun hok => absurd hok (ho ())⟩⟩
  obtain ⟨r, hrun, hr⟩ := first.attempt_cases
  obtain ⟨files, hfiles, hb, he⟩ := zoomed hrun
  rcases hr with hr | ⟨y, rfl, hy⟩
  · cases hr
  obtain rfl := Except.ok.inj (Option.some.inj hy)
  refine ⟨some x, files, hfiles, ?_⟩
  rw [← hb, ← he]
  exact handles last

/-- What one invocation does to a panel and its records. -/
structure PanelStep (interrupted : Prop) (run : Run N) (s : Subject N) (t : Terms N)
    (id : String) (d d' : Directory N)
    (rows rows' : List (Record N)) (o : Option (Except Exn Unit)) : Prop where
  bundles : d' = d ∨ ∃ r, Exec (measurePanel s t) d r d'
  records : rows' = rows ∨ ∀ row ∈ rows', row.id = id →
    (interrupted ∧ ∃ text, row = incompleteRow run text) ∨
      ∃ x, Exec (measurePanel s t) d (some x) d' ∧ measuredRecord id t.guarded x = .ok row
  completed : o = some (.ok ()) → (interrupted ∧ ∃ text, incompleteRow run text ∈ rows') ∨
    ∃ x row, Exec (measurePanel s t) d (some x) d' ∧ measuredRecord id t.guarded x = .ok row ∧
      row ∈ rows'

theorem costBodyWith_panel {o : Option (Except Exn Unit)}
    (h : Exec (costBodyWith platform run handler) w o w')
    (handles : ∀ {x o w w'}, Exec (handler x) w o w' → Handled interrupted run x o w w')
    (hp : PanelOf platform.toSetting run panel s t) :
    PanelStep interrupted run s t (run.prefix_ ++ "5/" ++ panel.name)
      ((w.stages .cost).bundles panel.name)
      ((w'.stages .cost).bundles panel.name) (w.stages .cost).evidence (w'.stages .cost).evidence
      o := by
  rcases costBodyWith_cases h handles with ⟨hb, he, ho⟩ | ⟨r, files, hrun, hb, he⟩
  · rw [hb]
    refine ⟨.inl rfl, ?_, fun hok => absurd hok ho⟩
    rcases he with he | he
    · exact .inl he
    · exact .inr (by simp [he])
  have treated := measureCosts_panel hrun hp
  rw [hb]
  refine ⟨?_, .inr fun row hrow hid => ?_, fun hok => ?_⟩
  · rcases treated with ⟨hd, -⟩ | ⟨r, hr, -⟩
    · exact .inl hd
    · exact .inr ⟨r, hr⟩
  · have measured : row ∈ files.evidence → ∃ x,
        Exec (measurePanel s t) ((w.stages .cost).bundles panel.name) (some x)
          (files.bundles panel.name) ∧
        measuredRecord (run.prefix_ ++ "5/" ++ panel.name) t.guarded x = .ok row := by
      intro hmem
      have hrows := mem_panelRows.mpr ⟨hmem, hid⟩
      rcases treated with ⟨-, hnone, -⟩ | ⟨r, hr, ⟨hnone, -⟩ | ⟨x, row', rfl, hx, hone⟩⟩
      · rw [hnone] at hrows
        cases hrows
      · rw [hnone] at hrows
        cases hrows
      · rw [hone, List.mem_singleton] at hrows
        exact ⟨x, hr, hrows ▸ hx⟩
    rcases he with ⟨he, -⟩ | ⟨cut, text, he⟩
    · exact .inr (measured (he ▸ hrow))
    · rw [he, mem_putRecord] at hrow
      rcases hrow with ⟨hrow, -⟩ | rfl
      · exact .inr (measured hrow)
      · exact .inl ⟨cut, text, rfl⟩
  · rcases he with ⟨he, hr⟩ | ⟨cut, text, he⟩
    · rcases treated with ⟨-, -, hne⟩ | ⟨r, hrun, ⟨-, hne⟩ | ⟨x, row, rfl, hx, hone⟩⟩
      · exact absurd (hr hok) hne
      · exact absurd (hr hok) hne
      · have hmem : row ∈ panelRows (run.prefix_ ++ "5/" ++ panel.name) files.evidence := by
          simp [hone]
        exact .inr ⟨x, row, hrun, hx, he ▸ (mem_panelRows.mp hmem).1⟩
    · exact .inl ⟨cut, text, by simp [he, mem_putRecord]⟩

end Body

/-- The worlds a session goes through while its cost stage is invoked, for one comparison,
any number of times; in between nothing else writes its bundles, and of its records only
that of a crash. -/
inductive CostHistory (platform : Platform N H) (run : Run N) : World N H → World N H → Prop
  | refl (w : World N H) : CostHistory platform run w w
  | invoked {w w₁ w₂ : World N H} {view : Run N} {o : Option (Except Exn Unit)}
      (before : CostHistory platform run w w₁) (same : SameComparison run view)
      (body : Exec (costBody platform view) w₁ o w₂) : CostHistory platform run w w₂
  | between {w w₁ w₂ : World N H} (before : CostHistory platform run w w₁)
      (bundles : (w₂.stages .cost).bundles = (w₁.stages .cost).bundles)
      (records : ∀ row ∈ (w₂.stages .cost).evidence,
        row ∈ (w₁.stages .cost).evidence ∨ row.id = Stage.cost.errorId) :
      CostHistory platform run w w₂

section History
variable {platform : Platform N H} {w w' : World N H}

theorem costBodyWith_same {handler : Except Exn Unit → Prog (World N H) Exn Unit}
    {interrupted : Prop} {o : Option (Except Exn Unit)}
    (h : Exec (costBodyWith platform view handler) w o w')
    (handles : ∀ {x o w w'}, Exec (handler x) w o w' → Handled interrupted view x o w w')
    (same : SameComparison run view) (hp : PanelOf platform.toSetting run panel s t) :
    PanelStep interrupted run s t (run.prefix_ ++ "5/" ++ panel.name)
      ((w.stages .cost).bundles panel.name)
      ((w'.stages .cost).bundles panel.name) (w.stages .cost).evidence (w'.stages .cost).evidence
      o := by
  have hrow : ∀ text, incompleteRow view text = incompleteRow run text := fun text => by
    unfold incompleteRow
    rw [same.prefix_]
  have hstep := costBodyWith_panel h handles (hp.same same)
  constructor
  · exact hstep.bundles
  · simpa only [same.prefix_, hrow] using hstep.records
  · simpa only [same.prefix_, hrow] using hstep.completed

/-- Induction over a history, seen from one of its panels. -/
theorem CostHistory.panel_induction (h : CostHistory platform run w w')
    (hp : PanelOf platform.toSetting run panel s t)
    {P : Directory N → List (Record N) → Prop}
    (start : P ((w.stages .cost).bundles panel.name) (w.stages .cost).evidence)
    (step : ∀ {d d' rows rows' o}, P d rows →
      PanelStep True run s t (run.prefix_ ++ "5/" ++ panel.name) d d' rows rows' o → P d' rows')
    (crash : ∀ {d rows rows'}, P d rows →
      (∀ row ∈ rows', row.id = run.prefix_ ++ "5/" ++ panel.name → row ∈ rows) → P d rows') :
    P ((w'.stages .cost).bundles panel.name) (w'.stages .cost).evidence := by
  induction h with
  | refl => exact start
  | invoked before same body ih => exact step ih (costBodyWith_same body
      incompleteCosts_handled same hp)
  | between before bundles records ih =>
      rw [bundles]
      refine crash ih fun row hrow hid => (records row hrow).resolve_right fun herror => ?_
      exact panelId_ne_error (hid.symm.trans herror)

theorem TwiceBreached.mono {d d' : Directory N} (h : TwiceBreached s t d)
    (keeps : ∀ r b, d r = some b → Admissible s t b → d' r = some b) : TwiceBreached s t d' := by
  obtain ⟨first, again, r₁, r₂, h₁, h₂, hne, hj₁, hb₁, hj₂, hb₂⟩ := h
  exact ⟨first, again, r₁, r₂, keeps _ _ h₁ (costGuard_validates hj₁),
    keeps _ _ h₂ (costGuard_validates hj₂), hne, hj₁, hb₁, hj₂, hb₂⟩

theorem PanelStep.keeps {interrupted : Prop} {d d' : Directory N} {rows rows' : List (Record N)}
    {o : Option (Except Exn Unit)} (h : PanelStep interrupted run s t id d d' rows rows' o) :
    ∀ r b, d r = some b → Admissible s t b → d' r = some b := by
  intro r b hb ha
  rcases h.bundles with rfl | ⟨r', hrun⟩
  · exact hb
  · exact measurePanel_keeps hrun hb ha

theorem PanelStep.coherent {interrupted : Prop} {d d' : Directory N} {rows rows' : List (Record N)}
    {o : Option (Except Exn Unit)} (h : PanelStep interrupted run s t id d d' rows rows' o)
    (hd : Coherent s d) : Coherent s d' := by
  rcases h.bundles with rfl | ⟨r, hrun⟩
  · exact hd
  · exact (hrun.sound hd (wp_measurePanel hd)).1

/-- A record that an invocation makes of a panel fails it only on two breaches. -/
theorem measuredRecord_failed {d d' : Directory N} {x : Except Exn (CostResult N)} {row : Record N}
    (hd : Coherent s d) (hrun : Exec (measurePanel s t) d (some x) d')
    (hrow : measuredRecord id t.guarded x = .ok row) (failed : row.result = .failed) :
    TwiceBreached s t d' := by
  unfold measuredRecord at hrow
  split at hrow
  · rename_i result
    obtain ⟨-, hcoherent, counts, -, settled⟩ := hrun.sound hd (wp_measurePanel hd)
    cases hrow
    refine settled.twiceBreached hcoherent ?_
    cases hguarded : t.guarded with
    | true => simpa [hguarded] using failed
    | false => simp [hguarded] at failed
  · split at hrow <;> cases hrow
    cases failed
  · cases hrow

/-- The record of a decision fails a panel only on two breaches. -/
theorem replayPanel_failed {d : Directory N} {row : Record N}
    (h : replayPanel s t id d = .ok row) (failed : row.result = .failed) : TwiceBreached s t d := by
  unfold replayPanel at h
  obtain ⟨counts, -, h⟩ := bind_eq_ok.mp h
  split at h
  · rename_i result hresult
    split at h <;> cases h
    · exact replayRegimes_failed hresult failed
    · cases failed
  · cases h
    simp only at failed
    split at failed <;> cases failed
  · cases h

theorem CostHistory.keeps (h : CostHistory platform run w w')
    (hp : PanelOf platform.toSetting run panel s t) :
    ∀ r b, (w.stages .cost).bundles panel.name r = some b → Admissible s t b →
      (w'.stages .cost).bundles panel.name r = some b := by
  intro r b hb ha
  exact h.panel_induction hp (P := fun d _ => d r = some b) hb
    (fun hd step => step.keeps r b hd ha) fun hd _ => hd

theorem CostHistory.coherent (h : CostHistory platform run w w')
    (hp : PanelOf platform.toSetting run panel s t)
    (start : Coherent s ((w.stages .cost).bundles panel.name)) :
    Coherent s ((w'.stages .cost).bundles panel.name) :=
  h.panel_induction hp (P := fun d _ => Coherent s d) start (fun hd step => step.coherent hd)
    fun hd _ => hd

/-- Every record that fails a panel has its two breaches in the directory. -/
theorem CostHistory.failed (h : CostHistory platform run w w')
    (hp : PanelOf platform.toSetting run panel s t) (start : w.stages .cost = {}) :
    ∀ row ∈ (w'.stages .cost).evidence, row.id = run.prefix_ ++ "5/" ++ panel.name →
      row.result = .failed → TwiceBreached s t ((w'.stages .cost).bundles panel.name) := by
  refine (h.panel_induction hp (P := fun d rows => Coherent s d ∧ ∀ row ∈ rows,
    row.id = run.prefix_ ++ "5/" ++ panel.name → row.result = .failed → TwiceBreached s t d)
    ?_ ?_ ?_).2
  · rw [start]
    exact ⟨.empty s, fun row hrow => absurd hrow List.not_mem_nil⟩
  · rintro d d' rows rows' o ⟨hd, ih⟩ step
    refine ⟨step.coherent hd, fun row hrow hid failed => ?_⟩
    rcases step.records with rfl | hrecords
    · exact (ih row hrow hid failed).mono step.keeps
    · rcases hrecords row hrow hid with ⟨-, text, rfl⟩ | ⟨x, hrun, hx⟩
      · cases failed
      · exact measuredRecord_failed hd hrun hx failed
  · rintro d rows rows' ⟨hd, ih⟩ old
    exact ⟨hd, fun row hrow hid => ih row (old row hrow hid) hid⟩

end History
end Panels
end TranspileBench.Coordinator
