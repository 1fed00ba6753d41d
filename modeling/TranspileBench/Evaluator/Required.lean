import TranspileBench.Evaluator.Frame

/-!
The ids a `PASS` asks for. The manifest and the policy fix all of them but the confirm
profile's family and optimization-level panels, which grading names only when it could
compute the panel of the objective.
-/
namespace TranspileBench.Evaluator
open Fallible

variable {N : Type}

def Manifest.scored (m : Manifest N) : List (Case N) := m.cases.filter (·.role == .scored)

/-- The ids of the confirm profile's panels over each family and each optimization level. -/
def breadthIds (scored : List (Case N)) : List String :=
  (dimensions (N := N)).flatMap fun (dimension, field) =>
    if dimension = "family" ∨ dimension = "optimization_level" then
      (sortedSet (scored.map field)).flatMap fun value =>
        [Metric.D2, Metric.N2].map fun metric =>
          "CA4/" ++ dimension ++ "/" ++ value ++ "/" ++ metric.name
    else []

def basisIds (cases : List (Case N)) (pre basis : String) : List String :=
  if cases.filter (fun c => c.panel == some ("basis-" ++ basis)) = [] then []
  else [Metric.D2, Metric.N2].map fun metric => pre ++ "3/" ++ basis ++ "/" ++ metric.name

/-- The ids a manifest asks for, whatever was observed. -/
def Manifest.fixedIds (m : Manifest N) : List String :=
  [m.prefix_ ++ "2/improvement", m.prefix_ ++ "3/primary/N2"]
    ++ (if m.confirm then [] else ["IA3/primary/D2"])
    ++ ["cx", "ecr"].flatMap (basisIds m.cases m.prefix_)
    ++ (m.cases.filter fun c => c.role == .scored || c.role == .guard).flatMap (fun case =>
        [Metric.D2, Metric.N2].map fun metric =>
          m.prefix_ ++ "4/cap/" ++ case.case_id ++ "/" ++ metric.name)
    ++ (m.cases.filter fun c =>
        c.role == .canary || c.role == .deterministic || c.role == .zero_baseline).map (fun case =>
          m.prefix_ ++ "4/exact/" ++ case.case_id)

section Required
variable [Arith N] {manifest : Manifest N} {policy : Policy N} {observations : Observations N}
  {valid : Bool}

theorem panelRecord_required {id : String} {subset : List (Case N)} {metric : Metric}
    {improvement : Bool} {weights : Option (List (String × N))}
    {out : Graded N × Option (PanelResult N)}
    (h : panelRecord policy valid observations id subset metric improvement weights = .ok out) :
    out.1.required = [id] := by
  obtain ⟨r, -, hreq, -⟩ := panelRecord_records h
  exact hreq

/-- A panel record has a result exactly when the panel could be computed. -/
theorem panelRecord_isSome {id : String} {subset : List (Case N)} {metric : Metric}
    {improvement : Bool} {weights : Option (List (String × N))}
    {out : Graded N × Option (PanelResult N)}
    (h : panelRecord policy valid observations id subset metric improvement weights = .ok out) :
    out.2.isSome = (panelResult valid observations subset metric weights).isOk := by
  unfold panelRecord at h
  cases hpanel : panelResult valid observations subset metric weights with
  | ok result =>
      rw [hpanel] at h
      cases h
      rfl
  | error e =>
      rw [hpanel] at h
      cases e <;> cases h
      all_goals rfl

theorem capRecord_required {pre : String} {case : Case N} {metric : Metric} {out : Graded N}
    (h : capRecord policy valid observations pre case metric = .ok out) :
    out.required = [pre ++ "4/cap/" ++ case.case_id ++ "/" ++ metric.name] := by
  unfold capRecord at h
  simp only at h
  split at h
  · cases h
    rfl
  · cases h
    rfl
  · cases h

theorem exactRecord_required {pre : String} {case : Case N} :
    (exactRecord valid observations pre case).required = [pre ++ "4/exact/" ++ case.case_id] := by
  unfold exactRecord
  cases valid <;> rfl

theorem reportSummary_required {name : String} {subset : List (Case N)} {metric : Metric}
    {out : Graded N × Option (PanelResult N)}
    (h : reportSummary observations name subset metric = .ok out) : out.1.required = [] := by
  unfold reportSummary at h
  split at h <;> cases h <;> rfl

theorem basisPanels_required {cases : List (Case N)} {pre basis : String} {out : List (Graded N)}
    (h : basisPanels policy valid observations cases pre basis = .ok out) :
    out.flatMap (·.required) = basisIds cases pre basis := by
  unfold basisPanels at h
  unfold basisIds
  simp only at h
  split at h
  · rename_i hempty
    cases h
    rw [if_pos hempty]
    rfl
  · rename_i hsome
    rw [if_neg hsome, List.map_eq_flatMap]
    refine mapM_flatMap ?_ h
    intro metric g hg
    obtain ⟨o, ho, hg⟩ := bind_eq_ok.mp hg
    cases hg
    exact panelRecord_required ho

theorem depthRecords_required {scored : List (Case N)} {out : List (Graded N)}
    (h : depthRecords manifest policy valid observations scored = .ok out) :
    out.flatMap (·.required) = if manifest.confirm then [] else ["IA3/primary/D2"] := by
  unfold depthRecords at h
  split at h
  · rename_i hconfirm
    cases h
    rw [if_pos hconfirm]
    rfl
  · rename_i hconfirm
    rw [if_neg hconfirm]
    cases hp : panelRecord policy valid observations "IA3/primary/D2" scored .D2 with
    | error e => simp [hp, Except.map] at h
    | ok o =>
        rw [hp] at h
        cases h
        simpa using panelRecord_required hp

theorem sliceRecords_required {scored : List (Case N)} {dimension : String}
    {field : Case N → String} {value : String} {out : Slice N}
    (h : sliceRecords policy valid observations scored dimension field value = .ok out) :
    out.graded.required =
      if dimension = "family" ∨ dimension = "optimization_level" then
        [Metric.D2, Metric.N2].map fun metric =>
          "CA4/" ++ dimension ++ "/" ++ value ++ "/" ++ metric.name
      else [] := by
  have grade : ∀ (metric : Metric) (o : Graded N × Option (PanelResult N)),
      (if dimension = "family" ∨ dimension = "optimization_level" then
        panelRecord policy valid observations ("CA4/" ++ dimension ++ "/" ++ value ++ "/"
          ++ metric.name) (scored.filter fun c => field c == value) metric
      else reportSummary observations ("CA4/" ++ dimension ++ "/" ++ value ++ "/" ++ metric.name)
        (scored.filter fun c => field c == value) metric) = .ok o →
      o.1.required = if dimension = "family" ∨ dimension = "optimization_level" then
        ["CA4/" ++ dimension ++ "/" ++ value ++ "/" ++ metric.name] else [] := by
    intro metric o ho
    split at ho
    · rename_i hpanel
      rw [if_pos hpanel]
      exact panelRecord_required ho
    · rename_i hreport
      rw [if_neg hreport]
      exact reportSummary_required ho
  unfold sliceRecords at h
  obtain ⟨d2, hd2, h⟩ := bind_eq_ok.mp h
  obtain ⟨n2, hn2, h⟩ := bind_eq_ok.mp h
  have hboth : (d2.1 ++ n2.1).required =
      if dimension = "family" ∨ dimension = "optimization_level" then
        [Metric.D2, Metric.N2].map fun metric =>
          "CA4/" ++ dimension ++ "/" ++ value ++ "/" ++ metric.name
      else [] := by
    rw [Graded.required_append, grade _ _ hd2, grade _ _ hn2]
    split <;> rfl
  split at h
  · obtain ⟨rest, hrest, h⟩ := bind_eq_ok.mp h
    cases h
    rw [Graded.required_append, hboth, reportSummary_required hrest, List.append_nil]
  · cases h
    exact hboth

theorem breadthRecords_required {scored : List (Case N)} {objective : PanelResult N}
    {out : Graded N}
    (h : breadthRecords policy valid observations scored objective = .ok out) :
    out.required = breadthIds scored ++ ["CA3/breadth"] := by
  unfold breadthRecords at h
  obtain ⟨slices, hslices, h⟩ := bind_eq_ok.mp h
  obtain ⟨bootstrap, -, h⟩ := bind_eq_ok.mp h
  obtain ⟨rest, hrest, h⟩ := bind_eq_ok.mp h
  cases h
  have hids : slices.flatMap (fun s => s.graded.required) = breadthIds scored := by
    refine flatMapM_flatMap ?_ hslices
    rintro ⟨dimension, field⟩ part hpart
    change _ = if dimension = "family" ∨ dimension = "optimization_level" then _ else _
    rw [mapM_flatMap (fun value slice hslice => sliceRecords_required hslice) hpart]
    split
    · rfl
    · simp
  simp only [Graded.required_append, Graded.required_concat, List.flatMap_map, hids,
    reportSummary_required hrest, List.append_nil]

/-- What grading requires: the manifest's ids, and the breadth panels once the objective
could be computed. -/
theorem gradePanels_required {out : Graded N}
    (h : gradePanels manifest policy valid observations = .ok out) :
    out.required = manifest.fixedIds ++
      if manifest.confirm then
        (if (panelResult valid observations manifest.scored .D2 none).isOk then
          breadthIds manifest.scored else []) ++ ["CA3/breadth"]
      else [] := by
  unfold gradePanels at h
  obtain ⟨objective, hobjective, h⟩ := bind_eq_ok.mp h
  obtain ⟨gates, hgates, h⟩ := bind_eq_ok.mp h
  obtain ⟨depth, hdepth, h⟩ := bind_eq_ok.mp h
  obtain ⟨bases, hbases, h⟩ := bind_eq_ok.mp h
  obtain ⟨caps, hcaps, h⟩ := bind_eq_ok.mp h
  obtain ⟨breadth, hbreadth, h⟩ := bind_eq_ok.mp h
  cases h
  have hcapIds : caps.flatMap (·.required) =
      (manifest.cases.filter fun c => c.role == .scored || c.role == .guard).flatMap fun case =>
        [Metric.D2, Metric.N2].map fun metric =>
          manifest.prefix_ ++ "4/cap/" ++ case.case_id ++ "/" ++ metric.name := by
    refine flatMapM_flatMap (fun case part hpart => ?_) hcaps
    rw [List.map_eq_flatMap]
    exact mapM_flatMap (fun metric g hg => capRecord_required hg) hpart
  have hbasisIds : bases.flatMap (·.required) =
      ["cx", "ecr"].flatMap (basisIds manifest.cases manifest.prefix_) :=
    flatMapM_flatMap (fun basis part hpart => basisPanels_required hpart) hbases
  have hpart : breadth.required = if manifest.confirm then
      (if (panelResult valid observations manifest.scored .D2 none).isOk then
        breadthIds manifest.scored else []) ++ ["CA3/breadth"] else [] := by
    rw [Manifest.scored, ← panelRecord_isSome hobjective]
    unfold breadthPart at hbreadth
    split at hbreadth
    · rename_i hconfirm hresult
      rw [hconfirm, hresult]
      exact breadthRecords_required hbreadth
    · rename_i hconfirm hresult
      cases hbreadth
      rw [hconfirm, hresult]
      rfl
    · rename_i hconfirm
      cases hbreadth
      rw [hconfirm]
      rfl
  rw [Graded.required_append, hpart, Graded.required_concat]
  congr 1
  have hprimary : [objective.1, gates.1].flatMap (·.required) =
      [manifest.prefix_ ++ "2/improvement", manifest.prefix_ ++ "3/primary/N2"] := by
    simp [panelRecord_required hobjective, panelRecord_required hgates]
  have hexactIds : ((manifest.cases.filter fun c => c.role == .canary || c.role == .deterministic
      || c.role == .zero_baseline).map (exactRecord valid observations manifest.prefix_)).flatMap
        (·.required) = (manifest.cases.filter fun c => c.role == .canary ||
          c.role == .deterministic || c.role == .zero_baseline).map fun case =>
            manifest.prefix_ ++ "4/exact/" ++ case.case_id := by
    rw [List.flatMap_map, List.map_eq_flatMap]
    exact congrArg (List.flatMap · _) (funext fun case => exactRecord_required)
  rw [List.flatMap_append, List.flatMap_append, List.flatMap_append, List.flatMap_append,
    hprimary, depthRecords_required hdepth, hbasisIds, hcapIds, hexactIds, Manifest.fixedIds]

/-- The panel of the objective can be computed: the prerequisites passed, the scored cases
share one seed count, and `pairedPanel` accepts their observed depths. -/
def ObjectiveComputable (manifest : Manifest N) (policy : Policy N) (rows : List (Observation N))
    (evidence : List (Record N)) : Prop :=
  (∀ id ∈ policy.quality_prerequisites, resultOf evidence id = some .passed) ∧
  ∃ observations first result, indexObservations [] rows = .ok observations ∧
    manifest.scored.head? = some first ∧
    (∀ c ∈ manifest.scored, c.seeds_per_block = first.seeds_per_block) ∧
    pairedPanel manifest.scored observations .D2 (List.range first.seeds_per_block) none
      = .ok result

/-- A panel can be computed from a valid measurement with one seed count. -/
theorem panelResult_isOk {subset : List (Case N)} {metric : Metric}
    {weights : Option (List (String × N))} :
    (panelResult valid observations subset metric weights).isOk = true ↔
      valid = true ∧ ∃ first result, subset.head? = some first ∧
        (∀ c ∈ subset, c.seeds_per_block = first.seeds_per_block) ∧
        pairedPanel subset observations metric (List.range first.seeds_per_block) weights
          = .ok result := by
  unfold panelResult
  cases valid with
  | false => simp [Except.isOk, Except.toBool]
  | true =>
      cases subset with
      | nil => simp [Except.isOk, Except.toBool]
      | cons first rest =>
          simp only [Bool.not_true, Bool.false_eq_true, if_false, List.head?_cons,
            Option.some.injEq, true_and, exists_and_left, exists_eq_left']
          split
          · rename_i hmixed
            obtain ⟨c, hc, hne⟩ := List.any_eq_true.mp hmixed
            constructor
            · intro h
              cases h
            · rintro ⟨heq, -⟩
              simp [heq c hc] at hne
          · rename_i hsame
            have heq : ∀ c ∈ first :: rest, c.seeds_per_block = first.seeds_per_block := by
              intro c hc
              by_contra hne
              exact hsame (List.any_eq_true.mpr ⟨c, hc, by simpa using hne⟩)
            cases pairedPanel (first :: rest) observations metric
              (List.range first.seeds_per_block) weights with
            | error e => simp [Except.isOk, Except.toBool]
            | ok result => simpa [Except.isOk, Except.toBool] using heq

theorem objectiveComputable_iff {rows : List (Observation N)} {evidence : List (Record N)}
    (h : indexObservations [] rows = .ok observations) :
    ObjectiveComputable manifest policy rows evidence ↔
      (panelResult (panelValid policy evidence) observations manifest.scored .D2 none).isOk := by
  rw [panelResult_isOk, panelValid_iff, ObjectiveComputable, h]
  refine and_congr_right fun _ => ?_
  simp only [Except.ok.injEq, exists_and_left, exists_eq_left']

end Required

/-- Sorted sets are equal when they have the same elements. -/
theorem sortedSet_eq_iff {ids ids' : List String} :
    sortedSet ids = sortedSet ids' ↔ ∀ id, id ∈ ids ↔ id ∈ ids' := by
  constructor
  · intro h id
    rw [← mem_sortedSet, h, mem_sortedSet]
  · intro h
    have hperm : (sortedSet ids).Perm (sortedSet ids') :=
      (List.perm_ext_iff_of_nodup (nodup_sortedSet ids) (nodup_sortedSet ids')).mpr fun id => by
        rw [mem_sortedSet, mem_sortedSet, h]
    exact hperm.eq_of_pairwise' (List.pairwise_insertionSort _ _)
      (List.pairwise_insertionSort _ _)

/-- The character that tells the sections of the ids apart. -/
def fifth (id : String) : Option Char := id.toList[4]?

theorem fifth_breadth {scored : List (Case N)} {id : String} (h : id ∈ breadthIds scored) :
    fifth id = some 'f' ∨ fifth id = some 'o' := by
  obtain ⟨⟨dimension, field⟩, -, h⟩ := List.mem_flatMap.mp h
  simp only at h
  split at h
  · rename_i hdimension
    obtain ⟨value, -, h⟩ := List.mem_flatMap.mp h
    obtain ⟨metric, -, rfl⟩ := List.mem_map.mp h
    rcases hdimension with rfl | rfl
    · left
      simp [fifth]
    · right
      simp [fifth]
  · cases h

theorem fifth_fixed {m : Manifest N} (hconfirm : m.confirm = true) {id : String}
    (h : id ∈ m.fixedIds ++ ["CA3/breadth"]) :
    fifth id ∈ [some 'i', some 'p', some 'c', some 'e', some 'b'] := by
  have hpre : m.prefix_ = "CA" := by simp [Manifest.prefix_, hconfirm]
  simp only [Manifest.fixedIds, hpre, hconfirm, if_true, List.mem_append, List.mem_cons,
    List.not_mem_nil, or_false, List.mem_flatMap, List.mem_map] at h
  rcases h with (((h | ⟨basis, hbasis, h⟩) | ⟨case, -, metric, -, rfl⟩) | ⟨case, -, rfl⟩) | rfl
  · rcases h with rfl | rfl <;> simp [fifth]
  · unfold basisIds at h
    split at h
    · cases h
    · obtain ⟨metric, -, rfl⟩ := List.mem_map.mp h
      rcases hbasis with rfl | rfl <;> simp [fifth]
  · simp [fifth]
  · simp [fifth]
  · simp [fifth]

/-- A breadth id is none of the confirm profile's fixed ids. -/
theorem breadthIds_fresh {m : Manifest N} (hconfirm : m.confirm = true) {id : String}
    (hid : id ∈ breadthIds m.scored) : id ∉ m.fixedIds ++ ["CA3/breadth"] := by
  intro hfixed
  have hfifth := fifth_fixed hconfirm hfixed
  rcases fifth_breadth hid with h | h <;> simp [h] at hfifth

/-- Ids that are not asked for otherwise change a set unless it names them already. -/
theorem mem_extra_iff {named fixed extra last : List String}
    (hfresh : ∀ id ∈ extra, id ∉ fixed ++ last) :
    (∀ id, id ∈ named ++ (fixed ++ (extra ++ last)) ↔ id ∈ named ++ (fixed ++ ([] ++ last))) ↔
      ∀ id ∈ extra, id ∈ named := by
  simp only [List.mem_append, List.not_mem_nil, false_or, not_or] at hfresh ⊢
  constructor
  · intro h id hid
    rcases (h id).mp (.inr (.inr (.inl hid))) with hnamed | hfixed | hlast
    · exact hnamed
    · exact absurd hfixed (hfresh id hid).1
    · exact absurd hlast (hfresh id hid).2
  · intro h id
    constructor
    · rintro (hnamed | hfixed | hextra | hlast)
      · exact .inl hnamed
      · exact .inr (.inl hfixed)
      · exact .inl (h id hextra)
      · exact .inr (.inr hlast)
    · rintro (hnamed | hfixed | hlast)
      · exact .inl hnamed
      · exact .inr (.inl hfixed)
      · exact .inr (.inr (.inr hlast))

/-- Two evaluations require the same ids exactly when both or neither could compute the
objective's panel, unless the profile has no breadth panels or the policy names them itself. -/
theorem required_eq_iff [Arith N] {manifest : Manifest N} {policy : Policy N}
    {rows rows' : List (Observation N)}
    {evidence evidence' records records' : List (Record N)} {required required' : List String}
    {summaries summaries' : List (String × Summary N)}
    (h : evaluateQuality manifest policy rows evidence = .ok (records, required, summaries))
    (h' : evaluateQuality manifest policy rows' evidence' = .ok (records', required', summaries')) :
    required = required' ↔
      manifest.confirm = false ∨
      (ObjectiveComputable manifest policy rows evidence ↔
        ObjectiveComputable manifest policy rows' evidence') ∨
      ∀ id ∈ breadthIds manifest.scored, id ∈ policy.required_ids := by
  obtain ⟨observations, graded, hobs, hgraded, -, rfl, -⟩ := evaluateQuality_eq_ok.mp h
  obtain ⟨observations', graded', hobs', hgraded', -, rfl, -⟩ := evaluateQuality_eq_ok.mp h'
  rw [sortedSet_eq_iff, gradePanels_required hgraded, gradePanels_required hgraded',
    objectiveComputable_iff hobs, objectiveComputable_iff hobs']
  cases hconfirm : manifest.confirm with
  | false => simp
  | true =>
      have hfresh := fun id hid => @breadthIds_fresh N manifest hconfirm id hid
      have hextra := @mem_extra_iff policy.required_ids _ _ _ hfresh
      generalize (panelResult (panelValid policy evidence) observations manifest.scored .D2
        none).isOk = computed
      generalize (panelResult (panelValid policy evidence') observations' manifest.scored .D2
        none).isOk = computed'
      cases computed <;> cases computed'
      · simp
      · simpa [iff_comm] using hextra
      · simpa using hextra
      · simp

section Sample
attribute [local instance] integerArith

/-- Without observations the breadth panels are not asked for, with all of them they are. -/
theorem required_follows_evidence :
    (evaluateQuality gradedManifest gradedPolicy [] [roundtrip .passed]).map (·.2.1) =
      .ok ["CA2/improvement", "CA3/breadth", "CA3/primary/N2", "CA4/cap/qft/1/D2",
        "CA4/cap/qft/1/N2"] ∧
    (evaluateQuality gradedManifest gradedPolicy gradedRows [roundtrip .passed]).map (·.2.1) =
      .ok ["CA2/improvement", "CA3/breadth", "CA3/primary/N2", "CA4/cap/qft/1/D2",
        "CA4/cap/qft/1/N2", "CA4/family/qft/D2", "CA4/family/qft/N2",
        "CA4/optimization_level/2/D2", "CA4/optimization_level/2/N2"] := by
  exact ⟨rfl, rfl⟩

theorem required_eq_iff_sample :
    ∃ out out' : List (Record Int) × List String × List (String × Summary Int),
      evaluateQuality gradedManifest gradedPolicy gradedRows [roundtrip .passed] = .ok out ∧
      evaluateQuality gradedManifest gradedPolicy [] [roundtrip .passed] = .ok out' ∧
      (out.2.1 = out'.2.1 ↔
        gradedManifest.confirm = false ∨
        (ObjectiveComputable gradedManifest gradedPolicy gradedRows [roundtrip .passed] ↔
          ObjectiveComputable gradedManifest gradedPolicy [] [roundtrip .passed]) ∨
        ∀ id ∈ breadthIds gradedManifest.scored, id ∈ gradedPolicy.required_ids) :=
  ⟨_, _, rfl, rfl, required_eq_iff rfl rfl⟩

end Sample
end TranspileBench.Evaluator
