import TranspileBench.Evaluator.Quality
import TranspileBench.Lib.Fallible

/-!
What grading adds to the evidence. Its records keep to their own ids and kinds, the
improvement record is always among them, and an invalid measurement leaves every
panel unresolved.
-/
namespace TranspileBench.Evaluator
open Fallible

variable {N : Type}

/-- `InSection pre k id`: `id` is in section `k` of the profile with prefix `pre`. -/
def InSection (pre k id : String) : Prop := ∃ rest, id = pre ++ (k ++ "/") ++ rest

theorem InSection.of_eq {pre k rest : String} : InSection pre k (pre ++ (k ++ "/") ++ rest) :=
  ⟨rest, rfl⟩

/-- Sections with different one-character names share no id. -/
theorem InSection.unique {pre k k' id : String} {a b : Char} (hk : k.toList = [a])
    (hk' : k'.toList = [b]) (h : InSection pre k id) (h' : InSection pre k' id) : a = b := by
  obtain ⟨rest, rfl⟩ := h
  obtain ⟨rest', heq⟩ := h'
  have hlist := congrArg String.toList heq
  simp only [String.toList_append, List.append_assoc, List.append_cancel_left_eq, hk, hk'] at hlist
  simpa using (List.cons.inj hlist).1

/-- A record that grading may add. -/
structure IsGraded (pre : String) (r : Record N) : Prop where
  kind : r.kind = .guard ∨ r.kind = .improvement
  id : InSection pre "2" r.id ∨ InSection pre "3" r.id ∨ InSection pre "4" r.id

def Graded.All (P : Record N → Prop) (g : Graded N) : Prop := ∀ r ∈ g.records, P r

@[simp]
theorem Graded.records_append (a b : Graded N) : (a ++ b).records = a.records ++ b.records := rfl

@[simp]
theorem Graded.required_append (a b : Graded N) :
    (a ++ b).required = a.required ++ b.required := rfl

theorem Graded.All.append {P : Record N → Prop} {a b : Graded N} (ha : a.All P) (hb : b.All P) :
    (a ++ b).All P := by
  intro r hr
  rw [Graded.records_append, List.mem_append] at hr
  exact hr.elim (ha r) (hb r)

theorem Graded.records_concat (parts : List (Graded N)) :
    (Graded.concat parts).records = parts.flatMap (·.records) := by
  have fold : ∀ (parts : List (Graded N)) (g : Graded N),
      (parts.foldl (· ++ ·) g).records = g.records ++ parts.flatMap (·.records) := by
    intro parts
    induction parts with
    | nil => simp
    | cons part rest ih => intro g; simp [ih]
  simpa [Graded.concat] using fold parts {}

theorem Graded.required_concat (parts : List (Graded N)) :
    (Graded.concat parts).required = parts.flatMap (·.required) := by
  have fold : ∀ (parts : List (Graded N)) (g : Graded N),
      (parts.foldl (· ++ ·) g).required = g.required ++ parts.flatMap (·.required) := by
    intro parts
    induction parts with
    | nil => simp
    | cons part rest ih => intro g; simp [ih]
  simpa [Graded.concat] using fold parts {}

theorem Graded.All.concat {P : Record N → Prop} {parts : List (Graded N)}
    (h : ∀ part ∈ parts, part.All P) : (Graded.concat parts).All P := by
  intro r hr
  rw [Graded.records_concat, List.mem_flatMap] at hr
  obtain ⟨part, hpart, hmem⟩ := hr
  exact h part hpart r hmem

section Grading
variable [Arith N] {manifest : Manifest N} {policy : Policy N} {observations : Observations N}
  {valid : Bool}

theorem panelRecord_records {id : String} {subset : List (Case N)} {metric : Metric}
    {improvement : Bool} {weights : Option (List (String × N))}
    {out : Graded N × Option (PanelResult N)}
    (h : panelRecord policy valid observations id subset metric improvement weights = .ok out) :
    ∃ r : Record N, out.1.records = [r] ∧ out.1.required = [id] ∧ r.id = id ∧
      r.kind = (if improvement then .improvement else .guard) ∧
      (valid = false → r.result = .unresolved) := by
  unfold panelRecord at h
  cases hpanel : panelResult valid observations subset metric weights with
  | ok result =>
      rw [hpanel] at h
      cases h
      refine ⟨_, rfl, rfl, rfl, rfl, ?_⟩
      intro hvalid
      simp [panelResult, hvalid] at hpanel
  | error e =>
      rw [hpanel] at h
      cases e <;> cases h
      all_goals exact ⟨_, rfl, rfl, rfl, rfl, fun _ => rfl⟩

theorem panelRecord_all {id : String} {subset : List (Case N)} {metric : Metric}
    {improvement : Bool} {weights : Option (List (String × N))} {pre : String}
    {out : Graded N × Option (PanelResult N)}
    (h : panelRecord policy valid observations id subset metric improvement weights = .ok out)
    (hid : InSection pre "2" id ∨ InSection pre "3" id ∨ InSection pre "4" id) :
    out.1.All (IsGraded pre) := by
  obtain ⟨r, hr, -, rfl, hkind, -⟩ := panelRecord_records h
  intro x hx
  rw [hr, List.mem_singleton] at hx
  subst hx
  refine ⟨?_, hid⟩
  cases improvement with
  | true => exact .inr hkind
  | false => exact .inl hkind

theorem capRecord_all {pre : String} {case : Case N} {metric : Metric} {out : Graded N}
    (h : capRecord policy valid observations pre case metric = .ok out) :
    out.All (IsGraded pre) := by
  have hid : InSection pre "4" (pre ++ "4/cap/" ++ case.case_id ++ "/" ++ metric.name) :=
    ⟨"cap/" ++ case.case_id ++ "/" ++ metric.name, by simp [String.ext_iff]⟩
  unfold capRecord at h
  simp only at h
  split at h
  · cases h
    intro r hr
    rw [List.mem_singleton] at hr
    subst hr
    exact ⟨.inl rfl, .inr (.inr hid)⟩
  · cases h
    intro r hr
    rw [List.mem_singleton] at hr
    subst hr
    exact ⟨.inl rfl, .inr (.inr hid)⟩
  · cases h

theorem exactChecks_all {pre : String} {case : Case N} {id : String} (hid : InSection pre "4" id) :
    ∀ (checks : List (Nat × Metric)) (status : Result),
      ∀ r ∈ (exactChecks observations case id checks status).2.1, IsGraded pre r := by
  intro checks
  induction checks with
  | nil => simp [exactChecks]
  | cons check rest ih =>
      obtain ⟨seed, metric⟩ := check
      intro status r hr
      have href : InSection pre "4"
          (id ++ "/reference/" ++ toString seed ++ "/" ++ metric.name) := by
        obtain ⟨tail, rfl⟩ := hid
        exact ⟨tail ++ "/reference/" ++ toString seed ++ "/" ++ metric.name,
          by simp [String.ext_iff]⟩
      unfold exactChecks at hr
      split at hr
      · simp only [List.mem_append] at hr
        rcases hr with (hr | hr) | hr
        · split at hr
          · rw [List.mem_singleton] at hr
            subst hr
            exact ⟨.inl rfl, .inr (.inr href)⟩
          · cases hr
        · split at hr
          · rw [List.mem_singleton] at hr
            subst hr
            exact ⟨.inl rfl, .inr (.inr href)⟩
          · cases hr
        · exact ih _ r hr
      · cases hr

theorem exactRecord_all {pre : String} {case : Case N} :
    (exactRecord valid observations pre case).All (IsGraded pre) := by
  have hid : InSection pre "4" (pre ++ "4/exact/" ++ case.case_id) :=
    ⟨"exact/" ++ case.case_id, by simp [String.ext_iff]⟩
  intro r hr
  unfold exactRecord at hr
  simp only at hr
  split at hr
  · rw [List.mem_singleton] at hr
    subst hr
    exact ⟨.inl rfl, .inr (.inr hid)⟩
  · simp only [List.mem_append, List.mem_singleton] at hr
    rcases hr with hr | rfl
    · exact exactChecks_all hid _ _ r hr
    · exact ⟨.inl rfl, .inr (.inr hid)⟩

theorem reportSummary_records {name : String} {subset : List (Case N)} {metric : Metric}
    {out : Graded N × Option (PanelResult N)}
    (h : reportSummary observations name subset metric = .ok out) : out.1.records = [] := by
  unfold reportSummary at h
  split at h <;> cases h <;> rfl

theorem sliceRecords_all {scored : List (Case N)} {dimension : String}
    {field : Case N → String} {value : String} {out : Slice N}
    (h : sliceRecords policy valid observations scored dimension field value = .ok out) :
    out.graded.All (IsGraded "CA") := by
  have grade : ∀ (metric : Metric) (o : Graded N × Option (PanelResult N)),
      (if dimension = "family" ∨ dimension = "optimization_level" then
        panelRecord policy valid observations ("CA4/" ++ dimension ++ "/" ++ value ++ "/"
          ++ metric.name) (scored.filter fun c => field c == value) metric
      else reportSummary observations ("CA4/" ++ dimension ++ "/" ++ value ++ "/" ++ metric.name)
        (scored.filter fun c => field c == value) metric) = .ok o → o.1.All (IsGraded "CA") := by
    intro metric o ho
    split at ho
    · refine panelRecord_all ho (.inr (.inr ?_))
      exact ⟨dimension ++ "/" ++ value ++ "/" ++ metric.name, by simp [String.ext_iff]⟩
    · intro r hr
      rw [reportSummary_records ho] at hr
      cases hr
  unfold sliceRecords at h
  obtain ⟨d2, hd2, h⟩ := bind_eq_ok.mp h
  obtain ⟨n2, hn2, h⟩ := bind_eq_ok.mp h
  split at h
  · obtain ⟨rest, hrest, h⟩ := bind_eq_ok.mp h
    cases h
    refine ((grade _ _ hd2).append (grade _ _ hn2)).append ?_
    intro r hr
    rw [reportSummary_records hrest] at hr
    cases hr
  · cases h
    exact (grade _ _ hd2).append (grade _ _ hn2)

theorem breadthRecords_all {scored : List (Case N)} {objective : PanelResult N} {out : Graded N}
    (h : breadthRecords policy valid observations scored objective = .ok out) :
    out.All (IsGraded "CA") := by
  unfold breadthRecords at h
  obtain ⟨slices, hslices, h⟩ := bind_eq_ok.mp h
  obtain ⟨bootstrap, -, h⟩ := bind_eq_ok.mp h
  obtain ⟨rest, hrest, h⟩ := bind_eq_ok.mp h
  cases h
  refine (Graded.All.append ?_ ?_).append ?_
  · refine Graded.All.concat fun part hpart => ?_
    obtain ⟨slice, hslice, rfl⟩ := List.mem_map.mp hpart
    exact flatMapM_all (fun d ss hss => mapM_all (fun v s hs => sliceRecords_all hs) hss)
      hslices slice hslice
  · intro r hr
    rw [List.mem_singleton] at hr
    subst hr
    exact ⟨.inr rfl, .inr (.inl ⟨"breadth", by simp⟩)⟩
  · intro r hr
    rw [reportSummary_records hrest] at hr
    cases hr

theorem basisPanels_all {cases : List (Case N)} {pre basis : String} {out : List (Graded N)}
    (h : basisPanels policy valid observations cases pre basis = .ok out) :
    ∀ g ∈ out, g.All (IsGraded pre) := by
  unfold basisPanels at h
  simp only at h
  split at h
  · cases h
    simp
  · refine mapM_all ?_ h
    intro metric g hg
    obtain ⟨o, ho, hg⟩ := bind_eq_ok.mp hg
    cases hg
    exact panelRecord_all ho
      (.inr (.inl ⟨basis ++ "/" ++ metric.name, by simp [String.ext_iff]⟩))

theorem depthRecords_all {scored : List (Case N)} {out : List (Graded N)}
    (h : depthRecords manifest policy valid observations scored = .ok out) :
    ∀ g ∈ out, g.All (IsGraded manifest.prefix_) := by
  unfold depthRecords at h
  split at h
  · cases h
    simp
  · rename_i hconfirm
    cases hp : panelRecord policy valid observations "IA3/primary/D2" scored .D2 with
    | error e => simp [hp, Except.map] at h
    | ok o =>
        rw [hp] at h
        cases h
        have hpre : manifest.prefix_ = "IA" := by simp [Manifest.prefix_, hconfirm]
        rw [hpre]
        intro g hg
        rw [List.mem_singleton] at hg
        subst hg
        exact panelRecord_all hp (.inr (.inl ⟨"primary/D2", by simp⟩))

theorem breadthPart_all {scored : List (Case N)} {objective : Option (PanelResult N)}
    {out : Graded N}
    (h : breadthPart manifest policy valid observations scored objective = .ok out) :
    out.All (IsGraded manifest.prefix_) := by
  unfold breadthPart at h
  split at h
  · rename_i hconfirm
    have hpre : manifest.prefix_ = "CA" := by simp [Manifest.prefix_, hconfirm]
    rw [hpre]
    exact breadthRecords_all h
  · cases h
    intro r hr
    cases hr
  · cases h
    intro r hr
    cases hr

/-- The parts of a grading, in the order they are made. -/
theorem gradePanels_parts {out : Graded N}
    (h : gradePanels manifest policy valid observations = .ok out) :
    ∃ (objective gates : Graded N × Option (PanelResult N)) (others : Graded N),
      panelRecord policy valid observations (manifest.prefix_ ++ "2/improvement")
        (manifest.cases.filter (·.role == .scored)) .D2 true = .ok objective ∧
      panelRecord policy valid observations (manifest.prefix_ ++ "3/primary/N2")
        (manifest.cases.filter (·.role == .scored)) .N2 = .ok gates ∧
      out.records = objective.1.records ++ gates.1.records ++ others.records ∧
      out.required = objective.1.required ++ gates.1.required ++ others.required ∧
      others.All (IsGraded manifest.prefix_) := by
  unfold gradePanels at h
  obtain ⟨objective, hobjective, h⟩ := bind_eq_ok.mp h
  obtain ⟨gates, hgates, h⟩ := bind_eq_ok.mp h
  obtain ⟨depth, hdepth, h⟩ := bind_eq_ok.mp h
  obtain ⟨bases, hbases, h⟩ := bind_eq_ok.mp h
  obtain ⟨caps, hcaps, h⟩ := bind_eq_ok.mp h
  obtain ⟨breadth, hbreadth, h⟩ := bind_eq_ok.mp h
  cases h
  refine ⟨objective, gates, Graded.concat (depth ++ bases ++ caps ++
    (manifest.cases.filter fun c => c.role == .canary || c.role == .deterministic
      || c.role == .zero_baseline).map (exactRecord valid observations manifest.prefix_))
      ++ breadth, hobjective, hgates, ?_, ?_, ?_⟩
  · simp [Graded.records_concat]
  · simp [Graded.required_concat]
  · refine Graded.All.append (Graded.All.concat fun part hpart => ?_) ?_
    · simp only [List.mem_append] at hpart
      rcases hpart with ((hpart | hpart) | hpart) | hpart
      · exact depthRecords_all hdepth part hpart
      · exact flatMapM_all (fun _ _ hb => basisPanels_all hb) hbases part hpart
      · exact flatMapM_all (fun _ _ hc => mapM_all (fun _ _ => capRecord_all) hc) hcaps part hpart
      · obtain ⟨case, _, rfl⟩ := List.mem_map.mp hpart
        exact exactRecord_all
    · exact breadthPart_all hbreadth

/-- Grading adds only its own records. -/
theorem gradePanels_all {out : Graded N}
    (h : gradePanels manifest policy valid observations = .ok out) :
    out.All (IsGraded manifest.prefix_) := by
  obtain ⟨objective, gates, others, hobjective, hgates, hrec, -, hothers⟩ := gradePanels_parts h
  intro r hr
  rw [hrec, List.mem_append, List.mem_append] at hr
  rcases hr with (hr | hr) | hr
  · exact panelRecord_all hobjective (.inl ⟨"improvement", by simp [String.ext_iff]⟩) r hr
  · exact panelRecord_all hgates (.inr (.inl ⟨"primary/N2", by simp [String.ext_iff]⟩)) r hr
  · exact hothers r hr

/-- The improvement is always graded and always required; without a valid measurement
it stays unresolved. -/
theorem gradePanels_improvement {out : Graded N}
    (h : gradePanels manifest policy valid observations = .ok out) :
    ∃ r ∈ out.records, r.id = manifest.prefix_ ++ "2/improvement" ∧ r.kind = .improvement ∧
      r.id ∈ out.required ∧ (valid = false → r.result = .unresolved) := by
  obtain ⟨objective, gates, others, hobjective, -, hrec, hreq, -⟩ := gradePanels_parts h
  obtain ⟨r, hr, hreqid, hid, hkind, hvalid⟩ := panelRecord_records hobjective
  exact ⟨r, by simp [hrec, hr], hid, hkind, by simp [hreq, hreqid, hid], hvalid⟩

/-- The gate count is always guarded; without a valid measurement it stays unresolved. -/
theorem gradePanels_guard {out : Graded N}
    (h : gradePanels manifest policy valid observations = .ok out) :
    ∃ r ∈ out.records, r.kind = .guard ∧ (valid = false → r.result = .unresolved) := by
  obtain ⟨objective, gates, others, -, hgates, hrec, -, -⟩ := gradePanels_parts h
  obtain ⟨r, hr, -, -, hkind, hvalid⟩ := panelRecord_records hgates
  exact ⟨r, by simp [hrec, hr], hkind, hvalid⟩

end Grading

theorem mem_sorted {ids : List String} {id : String} : id ∈ sorted ids ↔ id ∈ ids :=
  (List.perm_insertionSort _ ids).mem_iff

theorem mem_sortedSet {ids : List String} {id : String} : id ∈ sortedSet ids ↔ id ∈ ids := by
  rw [sortedSet, mem_sorted, List.mem_dedup]

theorem nodup_sortedSet (ids : List String) : (sortedSet ids).Nodup :=
  (List.perm_insertionSort _ _).nodup_iff.mpr ids.nodup_dedup

/-- An evaluation is the evidence followed by what grading adds. -/
theorem evaluateQuality_eq_ok [Arith N] {manifest : Manifest N} {policy : Policy N}
    {rows : List (Observation N)} {evidence records : List (Record N)} {required : List String}
    {summaries : List (String × Summary N)} :
    evaluateQuality manifest policy rows evidence = .ok (records, required, summaries) ↔
      ∃ observations graded, indexObservations [] rows = .ok observations ∧
        gradePanels manifest policy (panelValid policy evidence) observations = .ok graded ∧
        records = evidence ++ graded.records ∧
        required = sortedSet (policy.required_ids ++ graded.required) ∧
        summaries = graded.summaries := by
  unfold evaluateQuality
  constructor
  · intro h
    obtain ⟨observations, hobs, h⟩ := bind_eq_ok.mp h
    obtain ⟨graded, hgraded, h⟩ := bind_eq_ok.mp h
    cases h
    exact ⟨observations, graded, hobs, hgraded, rfl, rfl, rfl⟩
  · rintro ⟨observations, graded, hobs, hgraded, rfl, rfl, rfl⟩
    rw [hobs]
    simp only [bind, Except.bind, hgraded]
    rfl

theorem indexObservations_keys : ∀ {rows : List (Observation N)} {seen out : Observations N},
    (seen.map Prod.fst).Nodup → indexObservations seen rows = .ok out →
      (out.map Prod.fst).Nodup ∧
        out.map Prod.fst = seen.map Prod.fst ++ (rows.filter (·.inBlock)).map (·.key) := by
  intro rows
  induction rows with
  | nil =>
      intro seen out hseen h
      cases h
      exact ⟨hseen, by simp⟩
  | cons row rest ih =>
      intro seen out hseen h
      unfold indexObservations at h
      cases hblock : row.inBlock with
      | false => simpa [hblock] using ih hseen (by simpa [hblock] using h)
      | true =>
          rw [hblock, if_neg (by simp)] at h
          split_ifs at h with hany
          have hfresh : row.key ∉ seen.map Prod.fst := by
            intro hmem
            obtain ⟨entry, hentry, heq⟩ := List.mem_map.mp hmem
            exact hany (List.any_eq_true.mpr ⟨entry, hentry, by simp [heq]⟩)
          have hnodup : ((seen ++ [(row.key, row)]).map Prod.fst).Nodup := by
            rw [List.map_append, List.nodup_append]
            refine ⟨hseen, by simp, ?_⟩
            intro a ha b hb heq
            simp only [List.map_cons, List.map_nil, List.mem_singleton] at hb
            exact hfresh (hb ▸ heq ▸ ha)
          simpa [hblock] using ih hnodup h

/-- An evaluation succeeds only on observations with distinct keys. -/
theorem indexObservations_nodup {rows : List (Observation N)} {out : Observations N}
    (h : indexObservations [] rows = .ok out) :
    ((rows.filter (·.inBlock)).map (·.key)).Nodup := by
  obtain ⟨hnodup, hkeys⟩ := indexObservations_keys (by simp) h
  simpa [hkeys] using hnodup

end TranspileBench.Evaluator
