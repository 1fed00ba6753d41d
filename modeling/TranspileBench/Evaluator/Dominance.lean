import TranspileBench.Evaluator.Panels
import TranspileBench.Lib.Assoc

/-!
Dominance and the control of two equal arms, over the real numbers. When no evolved value is
above its baseline, no guard fails the evolved revision; when the two revisions have the same
values and the panels are complete, every guard passes and nothing is an improvement.
-/
namespace TranspileBench.Evaluator
open Fallible
attribute [local instance] realArith realArith_exact

/-! ## Observations -/

section Observations
variable {N : Type} {rows : List (Observation N)}

/-- The observations of the block, by key. -/
def observationsOf (rows : List (Observation N)) : Observations N :=
  (rows.filter (·.inBlock)).map fun row => (row.key, row)

/-- The block's value of a metric. -/
def valueAt (rows : List (Observation N)) (case_id : String) (revision : Revision) (seed : Nat)
    (metric : Metric) : Option N :=
  lookupMetric (observationsOf rows) case_id revision seed metric

theorem valueAt_mem {case_id : String} {revision : Revision} {seed : Nat} {metric : Metric}
    {v : N} (h : valueAt rows case_id revision seed metric = some v) :
    ∃ row ∈ rows, row.case_id = case_id ∧ row.metric metric = some v := by
  obtain ⟨row, hrow, hv⟩ := Option.bind_eq_some_iff.mp h
  obtain ⟨row', hrow', heq⟩ := List.mem_map.mp (Assoc.mem_of_lookup hrow)
  obtain ⟨hkey, rfl⟩ := Prod.mk.inj heq
  exact ⟨row', (List.mem_filter.mp hrow').1, (Prod.mk.inj hkey).1, hv⟩

theorem indexObservations_distinct {seen : Observations N}
    (h : (seen.map (·.1) ++ (rows.filter (·.inBlock)).map (·.key)).Nodup) :
    indexObservations seen rows = .ok (seen ++ observationsOf rows) := by
  induction rows generalizing seen with
  | nil => exact congrArg Except.ok (List.append_nil seen).symm
  | cons row rest ih =>
      unfold indexObservations observationsOf
      cases hblock : row.inBlock with
      | false =>
          rw [List.filter_cons_of_neg (by simp [hblock])] at h ⊢
          exact ih h
      | true =>
          rw [List.filter_cons_of_pos hblock, List.map_cons] at h
          have hfresh : (seen.any fun entry => entry.1 == row.key) = false := by
            rw [List.any_eq_false]
            intro entry hentry heq
            rw [beq_iff_eq] at heq
            refine (List.nodup_append.mp h).2.2 entry.1 (List.mem_map_of_mem hentry) row.key
              (List.mem_cons_self ..) heq
          rw [hfresh, List.filter_cons_of_pos hblock, List.map_cons]
          have hnext := @ih (seen ++ [(row.key, row)]) (by
            rw [List.map_append, List.append_assoc]
            exact h)
          rw [List.append_assoc] at hnext
          exact hnext

theorem indexObservations_eq {out : Observations N} (h : indexObservations [] rows = .ok out) :
    out = observationsOf rows := by
  have hkeys : (([] : Observations N).map (·.1) ++
      (rows.filter (·.inBlock)).map (·.key)).Nodup := by
    simpa using indexObservations_nodup h
  rw [indexObservations_distinct hkeys] at h
  exact (Except.ok.inj h).symm

end Observations

/-! ## Exact guards -/

section Exact
variable {observations : Observations ℝ} {case : Case ℝ}

def checksOf (case : Case ℝ) : List (Nat × Metric) :=
  (List.range case.seeds_per_block).flatMap fun seed => [(seed, Metric.D2), (seed, Metric.N2)]

/-- Without a value above its baseline the guard does not fail, and what else is recorded is
about the reference. -/
theorem exactChecks_blameless (id : String) {checks : List (Nat × Metric)} {status : Result}
    (h : ∀ check ∈ checks, ∀ a b,
      lookupMetric observations case.case_id .baseline check.1 check.2 = some a →
      lookupMetric observations case.case_id .evolved check.1 check.2 = some b → b ≤ a)
    (hstatus : status ≠ .failed) :
    (exactChecks observations case id checks status).1 ≠ .failed ∧
      ∀ r ∈ (exactChecks observations case id checks status).2.1, r.subject = .reference := by
  induction checks generalizing status with
  | nil => exact ⟨hstatus, fun r hr => (nomatch hr)⟩
  | cons check rest ih =>
      have ih := fun status => @ih status
        fun other hother => h other (List.mem_cons_of_mem _ hother)
      have reference : ∀ {c c' : Prop} [Decidable c] [Decidable c'] {x : Record ℝ},
          x.subject = .reference →
          ∀ r ∈ (if c then [x] else []) ++ (if c' then [x] else []), r.subject = .reference := by
        intro c c' _ _ x hx r hr
        have single : ∀ {d : Prop} [Decidable d], r ∈ (if d then [x] else []) → r = x := by
          intro d _ hr
          split at hr
          · exact List.mem_singleton.mp hr
          · cases hr
        rw [(List.mem_append.mp hr).elim single single, hx]
      unfold exactChecks
      split
      · rename_i a b expected ha hb hexpected
        have hle := h check (List.mem_cons_self ..) a b ha hb
        cases expected with
        | none =>
            have hnew : (if Arith.lt a b = true then Result.failed else status) ≠ .failed := by
              rw [Exact.lt, decide_eq_false (not_lt.mpr hle)]
              exact hstatus
            exact ⟨(ih _ hnew).1, fun r hr => (List.mem_append.mp hr).elim (reference rfl r)
              ((ih _ hnew).2 r)⟩
        | some value =>
            have hnew : (if Arith.eq b value = true then status else Result.unresolved) ≠
                .failed := by
              split
              · exact hstatus
              · nofun
            exact ⟨(ih _ hnew).1, fun r hr => (List.mem_append.mp hr).elim (reference rfl r)
              ((ih _ hnew).2 r)⟩
      · refine ⟨?_, fun r hr => (nomatch hr)⟩
        simp [hstatus]

/-- Equal values, at the expected value of a canary and zero where they must be, leave the
status as it is. -/
theorem exactChecks_level (id : String) {checks : List (Nat × Metric)} {status : Result}
    (h : ∀ check ∈ checks, ∃ v,
      lookupMetric observations case.case_id .baseline check.1 check.2 = some v ∧
      lookupMetric observations case.case_id .evolved check.1 check.2 = some v ∧
      (case.role = .canary → case.expected check.2 = some v) ∧
      (case.role = .zero_baseline → v = 0)) :
    exactChecks observations case id checks status = (status, [], false) := by
  induction checks with
  | nil => rfl
  | cons check rest ih =>
      obtain ⟨v, hbaseline, hevolved, hcanary, hzero⟩ := h check (List.mem_cons_self ..)
      have ih := ih fun other hother => h other (List.mem_cons_of_mem _ hother)
      unfold exactChecks
      rw [hbaseline, hevolved]
      by_cases hrole : case.role = .canary
      · simp [hrole, hcanary hrole, ih]
      · by_cases hz : case.role = .zero_baseline
        · simp [hz, hzero hz, ih]
        · simp [hrole, hz, ih]

end Exact

/-! ## Manifests -/

/-- The cases of the basis panels. -/
def Case.Basis (c : Case ℝ) : Prop := ∃ basis ∈ ["cx", "ecr"], c.panel = some ("basis-" ++ basis)

/-- The cases whose values enter a panel. -/
def Case.Paired (c : Case ℝ) : Prop := c.role = .scored ∨ c.role = .guard ∨ c.Basis

/-- The cases that are compared exactly. -/
def Case.Exact (c : Case ℝ) : Prop :=
  c.role = .canary ∨ c.role = .deterministic ∨ c.role = .zero_baseline

/-- No evolved value of a case is above the baseline's. -/
def Dominated (manifest : Manifest ℝ) (rows : List (Observation ℝ)) : Prop :=
  ∀ c ∈ manifest.cases, ∀ seed metric a b,
    valueAt rows c.case_id .baseline seed metric = some a →
    valueAt rows c.case_id .evolved seed metric = some b → b ≤ a

/-- The two revisions have the same positive values in some of the cases. -/
def Alike (manifest : Manifest ℝ) (rows : List (Observation ℝ)) (p : Case ℝ → Prop) : Prop :=
  ∀ c ∈ manifest.cases, p c → ∀ seed < c.seeds_per_block, ∀ metric, ∃ v,
    valueAt rows c.case_id .baseline seed metric = some v ∧
    valueAt rows c.case_id .evolved seed metric = some v ∧ 0 < v

/-- Complete observations of two revisions with the same values: positive in the scored and
the guard cases, at the expected value of a canary, and zero where the baseline is. -/
structure Control (manifest : Manifest ℝ) (rows : List (Observation ℝ)) : Prop where
  distinct : ((rows.filter (·.inBlock)).map (·.key)).Nodup
  positive : Alike manifest rows fun c => c.role = .scored ∨ c.role = .guard
  exact : ∀ c ∈ manifest.cases, c.Exact → ∀ seed < c.seeds_per_block, ∀ metric, ∃ v,
    valueAt rows c.case_id .baseline seed metric = some v ∧
    valueAt rows c.case_id .evolved seed metric = some v ∧ 0 ≤ v ∧
    (c.role = .canary → c.expected metric = some v) ∧ (c.role = .zero_baseline → v = 0)

/-- Panels that are not empty, each with one seed count of at least two. -/
structure Balanced (manifest : Manifest ℝ) : Prop where
  scored : manifest.scored ≠ []
  scored_seeds : ∀ c ∈ manifest.scored, ∀ c' ∈ manifest.scored,
    c.seeds_per_block = c'.seeds_per_block
  basis_seeds : ∀ basis ∈ ["cx", "ecr"], ∀ c ∈ manifest.cases, ∀ c' ∈ manifest.cases,
    c.panel = some ("basis-" ++ basis) → c'.panel = some ("basis-" ++ basis) →
      c.seeds_per_block = c'.seeds_per_block
  two : ∀ c ∈ manifest.cases, c.Paired → 2 ≤ c.seeds_per_block

section Manifests
variable {manifest : Manifest ℝ} {subset : List (Case ℝ)} {weights : Option (List (String × ℝ))}

theorem mem_scored {c : Case ℝ} (h : c ∈ manifest.scored) :
    c ∈ manifest.cases ∧ c.role = .scored :=
  (List.mem_filter.mp h).imp_right beq_iff_eq.mp

theorem IsPanel.mem (h : IsPanel manifest subset weights) {c : Case ℝ} (hc : c ∈ subset) :
    c ∈ manifest.cases ∧ c.Paired := by
  cases h with
  | scored => exact (mem_scored hc).imp_right .inl
  | basis basis hbasis _ =>
      obtain ⟨hmem, hpanel⟩ := List.mem_filter.mp hc
      exact ⟨hmem, .inr (.inr ⟨basis, hbasis, beq_iff_eq.mp hpanel⟩)⟩
  | slice field value _ => exact (mem_scored (List.mem_filter.mp hc).1).imp_right .inl

theorem IsPanel.nonempty (hscored : manifest.scored ≠ []) (h : IsPanel manifest subset weights) :
    subset ≠ [] := by
  cases h with
  | scored => exact hscored
  | basis _ _ hne => exact hne
  | slice field value hvalue =>
      obtain ⟨c, hc, rfl⟩ := List.mem_map.mp hvalue
      exact List.ne_nil_of_mem (List.mem_filter.mpr ⟨hc, beq_self_eq_true _⟩)

theorem IsPanel.seeds (hbalanced : Balanced manifest) (h : IsPanel manifest subset weights) :
    ∀ c ∈ subset, ∀ c' ∈ subset, c.seeds_per_block = c'.seeds_per_block := by
  cases h with
  | scored => exact hbalanced.scored_seeds
  | basis basis hbasis _ =>
      intro c hc c' hc'
      obtain ⟨hmem, hpanel⟩ := List.mem_filter.mp hc
      obtain ⟨hmem', hpanel'⟩ := List.mem_filter.mp hc'
      exact hbalanced.basis_seeds basis hbasis c hmem c' hmem' (beq_iff_eq.mp hpanel)
        (beq_iff_eq.mp hpanel')
  | slice field value _ =>
      exact fun c hc c' hc' => hbalanced.scored_seeds c (List.mem_filter.mp hc).1 c'
        (List.mem_filter.mp hc').1

/-- The weights of a panel are positive when those of the scored cases are. -/
theorem IsPanel.weights_pos (hweights : ∀ c ∈ manifest.scored, 0 < c.weight)
    (h : IsPanel manifest subset weights) :
    ∀ c ∈ subset, 0 < weightOf (panelWeights subset weights) c.case_id := by
  -- an id among the cases finds the weight of one of them
  have found : ∀ (f : Case ℝ → ℝ) (cases : List (Case ℝ)), (∀ c ∈ cases, 0 < f c) →
      ∀ c ∈ cases, 0 < weightOf (cases.map fun c => (c.case_id, f c)) c.case_id := by
    intro f cases hpos c hc
    have hkey : c.case_id ∈ (cases.map fun c => (c.case_id, f c)).map (·.1) := by
      rw [List.map_map]
      exact List.mem_map_of_mem hc
    obtain ⟨w, hw⟩ := Assoc.exists_lookup_of_key hkey
    obtain ⟨c', hc', heq⟩ := List.mem_map.mp (Assoc.mem_of_lookup hw)
    obtain ⟨-, rfl⟩ := Prod.mk.inj heq
    rw [weightOf, hw]
    exact hpos c' hc'
  cases h with
  | scored => exact found (·.weight) _ hweights
  | basis basis _ hne =>
      refine found (fun _ => _) _ fun c hc => ?_
      have hlen := List.length_pos_of_mem hc
      rw [Exact.div, Exact.ofInt, Exact.ofInt, Int.cast_one]
      exact div_pos one_pos (by exact_mod_cast hlen)
  | slice field value _ =>
      exact found (·.weight) _ fun c hc => hweights c (List.mem_filter.mp hc).1

variable {rows : List (Observation ℝ)}

theorem Alike.paired (hpositive : Alike manifest rows fun c => c.role = .scored ∨ c.role = .guard)
    (hbasis : Alike manifest rows Case.Basis) : Alike manifest rows Case.Paired := by
  intro c hc hpaired
  rcases hpaired with hscored | hguard | hpanel
  · exact hpositive c hc (.inl hscored)
  · exact hpositive c hc (.inr hguard)
  · exact hbasis c hc hpanel

theorem Alike.measured (h : Alike manifest rows Case.Paired) {c : Case ℝ}
    (hc : c ∈ manifest.cases) (hpaired : c.Paired) {seed : Nat} (hseed : seed < c.seeds_per_block)
    (metric : Metric) : Measured₂ (observationsOf rows) metric c.case_id seed := by
  obtain ⟨v, hbaseline, hevolved, hpos⟩ := h c hc hpaired seed hseed metric
  exact ⟨v, v, hbaseline, hevolved, hpos, hpos⟩

theorem IsPanel.fine (hbalanced : Balanced manifest) (halike : Alike manifest rows Case.Paired)
    (h : IsPanel manifest subset weights) (metric : Metric) :
    Fine (observationsOf rows) subset metric where
  nonempty := h.nonempty hbalanced.scored
  seeds := h.seeds hbalanced
  two c hc := hbalanced.two c (h.mem hc).1 (h.mem hc).2
  values _ hc _ hseed := halike.measured (h.mem hc).1 (h.mem hc).2 hseed metric

/-- Dominated values have no positive difference. -/
theorem Dominated.differ (h : Dominated manifest rows) (metric : Metric)
    (hmem : ∀ c ∈ subset, c ∈ manifest.cases) :
    Differ (· ≤ 0) (observationsOf rows) subset metric := by
  intro c hc seed _ a b ha hb hposa hposb
  exact sub_nonpos.mpr (Real.log_le_log hposb (h c (hmem c hc) seed metric a b ha hb))

/-- The same values have no difference. -/
theorem Alike.differ (h : Alike manifest rows Case.Paired) (metric : Metric)
    (hmem : ∀ c ∈ subset, c ∈ manifest.cases ∧ c.Paired) :
    Differ (· = 0) (observationsOf rows) subset metric := by
  intro c hc seed hseed a b ha hb _ _
  obtain ⟨v, hbaseline, hevolved, -⟩ := h c (hmem c hc).1 (hmem c hc).2 seed hseed metric
  rw [show a = v from Option.some.inj (ha.symm.trans hbaseline),
    show b = v from Option.some.inj (hb.symm.trans hevolved), sub_self]

end Manifests

/-! ## Whole gradings -/

section Whole
variable {manifest : Manifest ℝ} {policy : Policy ℝ} {rows : List (Observation ℝ)} {valid : Bool}

/-- Not a failed guard of the evolved revision. -/
def Blameless (r : Record ℝ) : Prop :=
  r.subject = .evolved → r.kind = .guard → r.result ≠ .failed

/-- A passed guard, or an improvement that did not pass. -/
def Level (r : Record ℝ) : Prop :=
  (r.kind = .guard → r.result = .passed) ∧ (r.kind = .improvement → r.result ≠ .passed)

theorem refused_blameless (id : String) (kind : Kind) (text : String) :
    Blameless (refused id kind text) := fun _ _ => nofun

theorem checks_mem {case : Case ℝ} {check : Nat × Metric} (h : check ∈ checksOf case) :
    check.1 < case.seeds_per_block := by
  obtain ⟨seed, hseed, hcheck⟩ := List.mem_flatMap.mp h
  rw [List.mem_range] at hseed
  simp only [List.mem_cons, List.not_mem_nil, or_false] at hcheck
  rcases hcheck with rfl | rfl <;> exact hseed

/-- A panel with weights is refused with an unresolved record alone. -/
def Refused (e : Exn) : Prop := ∃ text, e = .incomplete text ∨ e = .lookup text

theorem refused_unresolving : Unresolving Refused :=
  ⟨fun text => ⟨text, .inl rfl⟩, fun text => ⟨text, .inr rfl⟩⟩

/-- Dominated values are graded unless the bootstrap is refused, and no guard fails. -/
theorem gradePanels_dominated {E : Exn → Prop} (htolerant : Tolerant policy)
    (hbootstrap : ∀ objective, Gives E (fun _ => True)
      (clusterBootstrap manifest.scored objective policy.bootstrap_replicates policy.rng_seed))
    (hweights : ∀ c ∈ manifest.scored, 0 < c.weight) (h : Dominated manifest rows) :
    Gives E (fun out => out.All Blameless)
      (gradePanels manifest policy valid (observationsOf rows)) := by
  have herror : ∀ e, Refused e → ¬ ∀ text, e ≠ .incomplete text ∧ e ≠ .lookup text := by
    intro e ⟨text, he⟩ hne
    exact he.elim (hne text).1 (hne text).2
  refine gradePanels_gives (S := fun _ => True) ?_ hbootstrap ?_ ?_ ?_
  · intro id subset metric improvement weights hpanel
    have hgives : Gives Refused _
        (panelResult valid (observationsOf rows) subset metric weights) :=
      panelResult_gives cone_nonpos (h.differ metric fun c hc => (hpanel.mem hc).1)
        (.inl refused_unresolving) (.inr (hpanel.weights_pos hweights))
    refine (panelRecord_gives hgives (fun result hresult => ?_)
      (fun text _ => refused_blameless _ _ _) fun e he hne => (herror e he hne).elim).imp
        fun out hout => ⟨hout.1, fun _ _ => trivial⟩
    obtain ⟨ds, hds, hnonpos⟩ := hresult
    intro _ hguard
    cases improvement with
    | true => cases hguard
    | false =>
        rw [panelJudged_guard htolerant hds hnonpos]
        nofun
  · exact fun result text _ _ => nofun
  · intro c hc _ metric
    refine capRecord_gives (F := fun e => ∃ text, e = .incomplete text) htolerant
      (h.differ metric fun c' hc' => List.mem_singleton.mp hc' ▸ hc) (.inl fun _ => ⟨_, rfl⟩)
      (fun r _ hpassed _ _ => by rw [hpassed]; nofun)
      (fun _ _ _ => refused_blameless _ _ _) fun e he hne => ?_
    obtain ⟨text, he⟩ := he
    exact (hne text he).elim
  · intro c hc _ r hr
    unfold exactRecord at hr
    dsimp only at hr
    split at hr
    · rw [List.mem_singleton.mp hr]
      exact fun _ _ => nofun
    · obtain ⟨hstatus, hreference⟩ := exactChecks_blameless
        (manifest.prefix_ ++ "4/exact/" ++ c.case_id)
        (fun check (_ : check ∈ checksOf c) a b ha hb => h c hc check.1 check.2 a b ha hb)
        (show Result.passed ≠ .failed by nofun)
      rcases List.mem_append.mp hr with hr | hr
      · intro hsubject
        rw [hreference r hr] at hsubject
        cases hsubject
      · rw [List.mem_singleton.mp hr]
        exact fun _ _ => hstatus

/-- Equal arms are graded, every guard passes, and nothing is an improvement. -/
theorem gradePanels_level (htolerant : Tolerant policy) (hratio : 0 < policy.practical_ratio)
    (hone : policy.practical_ratio ≤ 1) (hreplicates : 0 < policy.bootstrap_replicates)
    (hweights : ∀ c ∈ manifest.scored, 0 < c.weight) (hcontrol : Control manifest rows)
    (hbasis : Alike manifest rows Case.Basis)
    (hbalanced : Balanced manifest) :
    Gives (fun _ => False) (fun out => out.All Level)
      (gradePanels manifest policy true (observationsOf rows)) := by
  have hnonpos : ∀ {ds : List ℝ}, (∀ d ∈ ds, d = 0) → ∀ d ∈ ds, d ≤ 0 :=
    fun hzero d hd => (hzero d hd).le
  have halike := hcontrol.positive.paired hbasis
  refine gradePanels_gives (S := fun r => ∃ ds, r.toEstimate = estimateOf ds ∧ ∀ d ∈ ds, d = 0)
    ?_ (fun _ => clusterBootstrap_gives _ _ _ hreplicates) ?_ ?_ ?_
  · intro id subset metric improvement weights hpanel
    have hgives : Gives (fun _ => False) _
        (panelResult true (observationsOf rows) subset metric weights) :=
      panelResult_gives cone_zero (halike.differ metric fun c hc => hpanel.mem hc)
        (.inr ⟨rfl, hpanel.fine hbalanced halike metric⟩) (.inr (hpanel.weights_pos hweights))
    refine panelRecord_gives hgives (fun result hresult => ?_) (fun _ h => h.elim (·.elim) (·.elim))
      fun _ h _ => h
    obtain ⟨ds, hds, hzero⟩ := hresult
    cases improvement with
    | true => exact ⟨nofun, fun _ => panelJudged_improvement hratio hone hds hzero⟩
    | false => exact ⟨fun _ => panelJudged_guard htolerant hds (hnonpos hzero), nofun⟩
  · intro result text hpassed
    refine ⟨nofun, fun _ hresult => ?_⟩
    obtain ⟨r, ⟨ds, hds, hzero⟩, hlt⟩ := hpassed hresult
    rw [estimateOf_zero hzero] at hds
    have hsum : r.ln_score_plus_2SE = 0 := by rw [hds]
    rw [hsum, Exact.lt, Exact.ofInt, Int.cast_zero, decide_eq_true_iff] at hlt
    exact lt_irrefl _ hlt
  · intro c hc hrole metric
    have hpaired : c.Paired := hrole.elim .inl fun h => .inr (.inl h)
    refine capRecord_gives (F := fun _ => False) htolerant ?_ (.inr ⟨rfl, ?_⟩)
      (fun r hguard hpassed => ⟨fun _ => hpassed, fun h => nomatch hguard.symm.trans h⟩)
      (fun _ _ h => h.elim) fun _ h _ => h
    · intro c' hc' seed hseed a b ha hb hposa hposb
      rw [List.mem_singleton.mp hc'] at hseed ha hb
      have hsingle : Differ (· = 0) (observationsOf rows) [c] metric :=
        halike.differ metric fun c' hc' => List.mem_singleton.mp hc' ▸ ⟨hc, hpaired⟩
      exact (hsingle c (List.mem_singleton_self _) seed hseed a b ha hb hposa hposb).le
    · refine ⟨nofun, fun a ha b hb => ?_, fun a ha => ?_, fun a ha seed hseed => ?_⟩
      · rw [List.mem_singleton.mp ha, List.mem_singleton.mp hb]
      · exact List.mem_singleton.mp ha ▸ hbalanced.two c hc hpaired
      · rw [List.mem_singleton.mp ha] at hseed ⊢
        exact halike.measured hc hpaired hseed metric
  · intro c hc hrole r hr
    unfold exactRecord at hr
    dsimp only at hr
    have hchecks : exactChecks (observationsOf rows) c (manifest.prefix_ ++ "4/exact/" ++ c.case_id)
        (checksOf c) .passed = (.passed, [], false) := by
      refine exactChecks_level _ fun check hcheck => ?_
      obtain ⟨v, hbaseline, hevolved, -, hexpected⟩ :=
        hcontrol.exact c hc hrole check.1 (checks_mem hcheck) check.2
      exact ⟨v, hbaseline, hevolved, hexpected⟩
    unfold checksOf at hchecks
    rw [if_neg (by simp), hchecks] at hr
    rw [List.mem_singleton.mp hr]
    exact ⟨fun _ => rfl, nofun⟩

theorem evaluateQuality_of_grading {evidence : List (Record ℝ)} {graded : Graded ℝ}
    (hdistinct : ((rows.filter (·.inBlock)).map (·.key)).Nodup)
    (h : gradePanels manifest policy (panelValid policy evidence) (observationsOf rows) =
      .ok graded) :
    evaluateQuality manifest policy rows evidence =
      .ok (evidence ++ graded.records, sortedSet (policy.required_ids ++ graded.required),
        graded.summaries) := by
  have hkeys : (([] : Observations ℝ).map (·.1) ++
      (rows.filter (·.inBlock)).map (·.key)).Nodup := by simpa using hdistinct
  exact evaluateQuality_eq_ok.mpr ⟨observationsOf rows, graded,
    indexObservations_distinct hkeys, h, rfl, rfl, rfl⟩

variable (manifest policy rows) in
/-- No evolved value above its baseline fails a guard of the evolved revision; and when the
values are the same and every panel can be computed, each guard passes, while neither the
improvement nor the breadth does. -/
theorem dominance_and_control (htolerant : Tolerant policy) (hratio : 0 < policy.practical_ratio)
    (hone : policy.practical_ratio ≤ 1) (hweights : ∀ c ∈ manifest.scored, 0 < c.weight)
    (evidence : List (Record ℝ)) :
    (Dominated manifest rows → ∀ records required summaries,
      evaluateQuality manifest policy rows evidence = .ok (records, required, summaries) →
      ∃ added, records = evidence ++ added ∧
        ∀ r ∈ added, r.subject = .evolved → r.kind = .guard → r.result ≠ .failed) ∧
    (Control manifest rows → Alike manifest rows Case.Basis → Balanced manifest →
      0 < policy.bootstrap_replicates →
      (∀ id ∈ policy.quality_prerequisites, resultOf evidence id = some .passed) →
      ∃ added required summaries,
        evaluateQuality manifest policy rows evidence =
          .ok (evidence ++ added, required, summaries) ∧
        (∀ r ∈ added, r.kind = .guard → r.result = .passed) ∧
        ∀ r ∈ added, r.kind = .improvement → r.result ≠ .passed) := by
  constructor
  · intro hdominated records required summaries h
    obtain ⟨observations, graded, hindex, hgraded, hrecords, -, -⟩ := evaluateQuality_eq_ok.mp h
    rw [indexObservations_eq hindex] at hgraded
    exact ⟨graded.records, hrecords,
      (gradePanels_dominated htolerant (fun _ => gives_of_ok fun _ _ => trivial) hweights
        hdominated).result hgraded⟩
  · intro hcontrol hbasis hbalanced hreplicates hprerequisites
    have hgives := gradePanels_level htolerant hratio hone hreplicates hweights hcontrol
        hbasis hbalanced
    rw [← panelValid_iff.mpr hprerequisites] at hgives
    obtain ⟨graded, hgraded, hlevel⟩ := hgives.exists_ok
    exact ⟨graded.records, _, _, evaluateQuality_of_grading hcontrol.distinct hgraded,
      fun r hr => (hlevel r hr).1, fun r hr => (hlevel r hr).2⟩

end Whole

section Sample

/-- A case measured at two seeds. -/
def levelCase (case_id : String) (role : Role) (panel : Option String) : Case ℝ where
  case_id := case_id
  role := role
  panel := panel
  seeds_per_block := 2
  weight := 1
  family := "qft"
  optimization_level := 2
  size_band := "small"
  topology := "line"
  native_basis := "cz"
  input_group := "qft"
  modes := ["quality"]
  expected _ := none
  circuit_sha256 := "c"
  target_sha256 := "t"
  reference_sha256 := none
  clifford_sha256 := none
  input_domain := "all_inputs"
  logical_qubits := 4

def levelRow (case_id : String) (value : ℝ) (revision : Revision) (seed : Nat) :
    Observation ℝ where
  case_id := case_id
  case_hash := "h"
  revision := revision
  build_id := "b"
  seed := seed
  seed_block := "B0"
  mode := "quality"
  id := "o"
  status := "ok"
  not_attempted := false
  error := none
  metric _ := some value
  output_hash := none
  checks := []
  cached_from := none

/-- The rows of a case, with one value everywhere. -/
def levelRows (case_id : String) (value : ℝ) : List (Observation ℝ) :=
  [levelRow case_id value .baseline 0, levelRow case_id value .baseline 1,
    levelRow case_id value .evolved 0, levelRow case_id value .evolved 1]

def levelPolicy : Policy ℝ where
  required_ids := ["IA2/improvement"]
  quality_prerequisites := []
  practical_ratio := 1
  improvement_multiplier := 1
  guard_multiplier := 1
  quality_cap := 1
  iterations_groups := []
  bootstrap_replicates := 1
  rng_seed := 20260924
  measurement_protocol := ⟨25, none, none, none, none, none⟩
  cost_thresholds := none

theorem levelPolicy_tolerant : Tolerant levelPolicy :=
  ⟨by norm_num [levelPolicy], le_of_eq rfl⟩

theorem valueAt_level (revision : Revision) {seed : Nat} (hseed : seed < 2) (metric : Metric) :
    valueAt (levelRows "qft/1" 1) "qft/1" revision seed metric = some 1 := by
  have hcases : seed = 0 ∨ seed = 1 := by omega
  rcases hcases with rfl | rfl <;> cases revision <;> rfl

def levelManifest : Manifest ℝ := ⟨false, [levelCase "qft/1" .scored none]⟩

theorem level_control : Control levelManifest (levelRows "qft/1" 1) where
  distinct := by decide
  positive c hc _ seed hseed metric := by
    rw [List.mem_singleton.mp hc] at hseed ⊢
    exact ⟨1, valueAt_level _ hseed _, valueAt_level _ hseed _, one_pos⟩
  exact c hc hexact := by
    rw [List.mem_singleton.mp hc] at hexact
    rcases hexact with h | h | h <;> cases h

theorem level_balanced : Balanced levelManifest where
  scored := by decide
  scored_seeds := by decide
  basis_seeds := by decide
  two c hc _ := by
    rw [List.mem_singleton.mp hc]
    decide

theorem levelRows_value {case_id : String} {value v : ℝ} {row : Observation ℝ}
    (hrow : row ∈ levelRows case_id value) {metric : Metric} (hv : row.metric metric = some v) :
    row.case_id = case_id ∧ v = value := by
  simp only [levelRows, List.mem_cons, List.not_mem_nil, or_false] at hrow
  rcases hrow with rfl | rfl | rfl | rfl <;> exact ⟨rfl, (Option.some.inj hv).symm⟩

theorem level_dominated : Dominated levelManifest (levelRows "qft/1" 1) := by
  intro c _ seed metric a b ha hb
  obtain ⟨row, hrow, -, hv⟩ := valueAt_mem ha
  obtain ⟨row', hrow', -, hv'⟩ := valueAt_mem hb
  rw [(levelRows_value hrow hv).2, (levelRows_value hrow' hv').2]

/-- A single case with the value one everywhere: the guards pass, the improvement does not. -/
theorem dominance_and_control_level :
    ∃ added required summaries,
      evaluateQuality levelManifest levelPolicy (levelRows "qft/1" 1) [] =
        .ok ([] ++ added, required, summaries) ∧
      (∀ r ∈ added, r.subject = .evolved → r.kind = .guard → r.result ≠ .failed) ∧
      (∀ r ∈ added, r.kind = .guard → r.result = .passed) ∧
      ∀ r ∈ added, r.kind = .improvement → r.result ≠ .passed := by
  obtain ⟨hdominance, hcontrol⟩ := dominance_and_control levelManifest levelPolicy
    (levelRows "qft/1" 1) levelPolicy_tolerant one_pos (le_refl (1 : ℝ))
    (by simp [levelManifest, Manifest.scored, levelCase]) []
  obtain ⟨added, required, summaries, h, hguards, himprovement⟩ := hcontrol level_control
    (by simp [Alike, levelManifest, levelCase, Case.Basis]) level_balanced (by decide)
    (by simp [levelPolicy])
  obtain ⟨added', heq, hblameless⟩ := hdominance level_dominated _ _ _ h
  rw [List.nil_append, List.nil_append] at heq
  exact ⟨added, required, summaries, h, heq ▸ hblameless, hguards, himprovement⟩

/-- A zero baseline that is also in a basis panel. -/
def zeroManifest : Manifest ℝ :=
  ⟨false, [levelCase "qft/1" .scored none, levelCase "ghz/1" .zero_baseline (some "basis-cx")]⟩

def zeroRows : List (Observation ℝ) := levelRows "qft/1" 1 ++ levelRows "ghz/1" 0

/-- The panel of that basis cannot be computed, though the arms are equal. -/
theorem zero_basis_unresolved :
    Tolerant levelPolicy ∧ 0 < levelPolicy.practical_ratio ∧ levelPolicy.practical_ratio ≤ 1 ∧
    (∀ c ∈ zeroManifest.cases, 0 < c.weight) ∧ Control zeroManifest zeroRows ∧
    Balanced zeroManifest ∧
    (∀ id ∈ levelPolicy.quality_prerequisites, resultOf ([] : List (Record ℝ)) id = some .passed) ∧
    ∃ added required summaries,
      evaluateQuality zeroManifest levelPolicy zeroRows [] =
        .ok ([] ++ added, required, summaries) ∧
      ∃ r ∈ added, r.kind = .guard ∧ r.result = .unresolved := by
  have hweights : ∀ c ∈ zeroManifest.cases, 0 < c.weight := by simp [zeroManifest, levelCase]
  have hvalues : ∀ revision metric seed, seed < 2 →
      valueAt zeroRows "qft/1" revision seed metric = some 1 ∧
        valueAt zeroRows "ghz/1" revision seed metric = some 0 := by
    intro revision metric seed hseed
    have hcases : seed = 0 ∨ seed = 1 := by omega
    rcases hcases with rfl | rfl <;> cases revision <;> exact ⟨rfl, rfl⟩
  have hcontrol : Control zeroManifest zeroRows := by
    refine ⟨by decide, fun c hc hrole seed hseed metric => ?_,
      fun c hc hexact seed hseed metric => ?_⟩
    · rcases List.mem_pair.mp hc with rfl | rfl
      · exact ⟨1, (hvalues _ _ _ hseed).1, (hvalues _ _ _ hseed).1, one_pos⟩
      · rcases hrole with h | h <;> cases h
    · rcases List.mem_pair.mp hc with rfl | rfl
      · rcases hexact with h | h | h <;> cases h
      · exact ⟨0, (hvalues _ _ _ hseed).2, (hvalues _ _ _ hseed).2, le_refl 0, nofun, fun _ => rfl⟩
  have hbalanced : Balanced zeroManifest := by
    refine ⟨by decide, by decide, by decide, fun c hc _ => ?_⟩
    rcases List.mem_pair.mp hc with rfl | rfl <;> decide
  have hdominated : Dominated zeroManifest zeroRows := by
    intro c _ seed metric a b ha hb
    obtain ⟨row, hrow, hid, hv⟩ := valueAt_mem ha
    obtain ⟨row', hrow', hid', hv'⟩ := valueAt_mem hb
    rcases List.mem_append.mp hrow with h | h <;> rcases List.mem_append.mp hrow' with h' | h' <;>
      obtain ⟨hname, rfl⟩ := levelRows_value h hv <;>
      obtain ⟨hname', rfl⟩ := levelRows_value h' hv'
    · exact le_refl _
    · exact zero_le_one
    · rw [← hid', hname'] at hid
      exact absurd (hname.symm.trans hid) (by decide)
    · exact le_refl _
  obtain ⟨graded, hgraded, -⟩ : ∃ graded, gradePanels zeroManifest levelPolicy
      (panelValid levelPolicy []) (observationsOf zeroRows) = .ok graded ∧ graded.All Blameless :=
    (gradePanels_dominated levelPolicy_tolerant
      (fun _ => clusterBootstrap_gives _ _ _ (by decide)) (fun c hc => hweights c (mem_scored hc).1)
      hdominated).exists_ok
  obtain ⟨id, panel, weights, hpanel, hrecords⟩ := gradePanels_basis hgraded
    (List.mem_cons_self ..) (by decide) .D2
  -- its only case has a zero, so the panel has no result
  have hnone : Gives (fun _ => True) (fun _ => False)
      (panelResult (panelValid levelPolicy []) (observationsOf zeroRows)
        (zeroManifest.cases.filter fun c => c.panel == some ("basis-" ++ "cx")) .D2
        (some weights)) := by
    refine gives_of_ok fun result hresult => ?_
    obtain ⟨-, first, result, hfirst, -, hpaired⟩ := panelResult_isOk.mp
      (show (panelResult _ _ _ _ _).isOk = true by rw [hresult]; rfl)
    cases hfirst
    obtain ⟨a, b, ha, -, hpos, -⟩ := pairedPanel_measured hpaired _ (List.mem_cons_self ..) 0
      (by decide)
    rw [show a = 0 from Option.some.inj (ha.symm.trans (hvalues _ _ 0 two_pos).2)] at hpos
    exact lt_irrefl _ hpos
  have hunresolved : panel.1.All fun r => r.kind = .guard ∧ r.result = .unresolved :=
    ((panelRecord_gives (Q := fun r => r.kind = .guard ∧ r.result = .unresolved) hnone
      (fun _ h => h.elim) (fun text _ => ⟨rfl, rfl⟩) fun _ h _ => h).result hpanel).1
  obtain ⟨r, hr, -⟩ := panelRecord_records hpanel
  have hmem : r ∈ panel.1.records := by simp [hr]
  exact ⟨levelPolicy_tolerant, one_pos, le_refl (1 : ℝ), hweights, hcontrol, hbalanced,
    fun id hid => (nomatch hid), graded.records, _, _,
    evaluateQuality_of_grading hcontrol.distinct hgraded, r, hrecords r hmem,
    hunresolved r hmem⟩

end Sample
end TranspileBench.Evaluator
