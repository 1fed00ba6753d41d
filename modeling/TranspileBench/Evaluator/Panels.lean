import TranspileBench.Evaluator.Exact
import TranspileBench.Evaluator.Traversal

/-!
The panels of an evaluation over the real numbers. What holds of every log difference of a
panel's cases, and is kept by sums and nonnegative factors, holds of the panel's own
differences, and its estimate is the exact one of these.
-/
namespace TranspileBench.Evaluator
open Fallible
attribute [local instance] realArith realArith_exact

/-! ## Estimates -/

/-- A property of differences that weighted sums keep. -/
structure Cone (P : ℝ → Prop) : Prop where
  zero : P 0
  add : ∀ a b, P a → P b → P (a + b)
  scale : ∀ w a, 0 ≤ w → P a → P (w * a)

theorem cone_nonpos : Cone (· ≤ 0) :=
  ⟨le_refl 0, fun _ _ => add_nonpos, fun _ _ => mul_nonpos_of_nonneg_of_nonpos⟩

theorem cone_zero : Cone (· = 0) :=
  ⟨rfl, fun a b ha hb => by rw [ha, hb, add_zero], fun w a _ ha => by rw [ha, mul_zero]⟩

noncomputable def estimateOf (deltas : List ℝ) : Estimate ℝ :=
  let mean := Statistics.mean deltas
  let se := √(Statistics.variance deltas) / √deltas.length
  ⟨mean, Real.exp mean, se, mean + Arith.ofInt 2 * se, deltas⟩

theorem estimate_eq {deltas : List ℝ} (h : 2 ≤ deltas.length) :
    estimate deltas = .ok (estimateOf deltas) := by
  have hfinite : deltas.any (fun x => !Arith.isFinite x) = false := by
    rw [List.any_eq_false]
    intro x _ hx
    cases hx
  have hlong : ¬ (deltas.length < 2 ∨ false = true) := by
    rw [Bool.false_eq_true, or_false]
    omega
  unfold estimate
  rw [hfinite, if_neg hlong]
  simp [estimateOf, Arith.fmean, Arith.stdev, Arith.sqrt, Arith.div, Arith.exp, Arith.add,
    Arith.mul, Arith.ofInt]

section Nonpos
variable {deltas : List ℝ} (h : ∀ d ∈ deltas, d ≤ 0)
include h

theorem estimateOf_ln_nonpos : (estimateOf deltas).ln_score ≤ 0 := Statistics.mean_nonpos h

theorem estimateOf_score_le_one : (estimateOf deltas).score ≤ 1 :=
  Real.exp_le_one_iff.mpr (estimateOf_ln_nonpos h)

end Nonpos

theorem estimateOf_SE_nonneg (deltas : List ℝ) : 0 ≤ (estimateOf deltas).SE :=
  div_nonneg (Real.sqrt_nonneg _) (Real.sqrt_nonneg _)

/-- Without differences there is no score and no error. -/
theorem estimateOf_zero {deltas : List ℝ} (h : ∀ d ∈ deltas, d = 0) :
    estimateOf deltas = ⟨0, 1, 0, 0, deltas⟩ := by
  simp [estimateOf, Statistics.mean_zero h, Statistics.variance_zero h]

/-! ## Panels -/

section Panel
variable {cases : List (Case ℝ)} {observations : Observations ℝ} {metric : Metric}
  {seeds : List Nat} {weights : Option (List (String × ℝ))} {P : ℝ → Prop} {E : Exn → Prop}

def panelWeights (cases : List (Case ℝ)) (weights : Option (List (String × ℝ))) :
    List (String × ℝ) :=
  weights.getD (cases.map fun c => (c.case_id, c.weight))

/-- The weighted differences of the panel, seed by seed. -/
noncomputable def combine (weights : List (String × ℝ)) (total : ℝ) (sums : List ℝ)
    (perCase : List (String × Estimate ℝ)) : List ℝ :=
  perCase.foldl (fun sums entry => List.zipWith (fun sum difference =>
    sum + weightOf weights entry.1 / total * difference) sums entry.2.deltas) sums

/-- The differences of all cases have the property, and so do the panel's. -/
theorem combine_cone (cone : Cone P) {weights : List (String × ℝ)} {total : ℝ}
    (htotal : 0 ≤ total) {perCase : List (String × Estimate ℝ)} {n : Nat}
    (hcases : ∀ entry ∈ perCase, 0 ≤ weightOf weights entry.1 ∧ entry.2.deltas.length = n ∧
      ∀ d ∈ entry.2.deltas, P d) {sums : List ℝ} (hlen : sums.length = n)
    (hsums : ∀ d ∈ sums, P d) :
    (combine weights total sums perCase).length = n ∧
      ∀ d ∈ combine weights total sums perCase, P d := by
  induction perCase generalizing sums with
  | nil => exact ⟨hlen, hsums⟩
  | cons entry rest ih =>
      obtain ⟨hweight, hn, hdeltas⟩ := hcases entry (List.mem_cons_self ..)
      refine ih (fun other h => hcases other (List.mem_cons_of_mem _ h)) (by simp [hlen, hn]) ?_
      intro d hd
      obtain ⟨i, hi, rfl⟩ := List.mem_iff_getElem.mp hd
      rw [List.getElem_zipWith]
      exact cone.add _ _ (hsums _ (List.getElem_mem _))
        (cone.scale _ _ (div_nonneg hweight htotal) (hdeltas _ (List.getElem_mem _)))

/-- A panel's estimate is that of differences with the property, when those of its cases
have it; it is refused with the errors of its own checks and of its cases. -/
theorem pairedPanel_gives (cone : Cone P)
    (hempty : (cases = [] ∨ seeds.length < 2 ∨ ¬ seeds.Nodup) →
      E (.incomplete "Empty panel or invalid seed block"))
    (hweights : ¬ (∀ c ∈ cases, 0 < weightOf (panelWeights cases weights) c.case_id) →
      E (.harness "Positive panel weights required"))
    (hcases : ∀ c ∈ cases, Gives E (fun ds => ds.length = seeds.length ∧ ∀ d ∈ ds, P d)
      (differences observations metric c.case_id seeds)) :
    Gives E (fun result => ∃ ds, result.toEstimate = estimateOf ds ∧ ∀ d ∈ ds, P d)
      (pairedPanel cases observations metric seeds weights) := by
  let total := cases.foldl (fun sum c =>
    Arith.add sum (weightOf (panelWeights cases weights) c.case_id)) (Arith.ofInt 0)
  have htotal : total = (cases.map fun c =>
      weightOf (panelWeights cases weights) c.case_id).sum := by
    change cases.foldl _ _ = _
    rw [foldl_add (fun c : Case ℝ => weightOf (panelWeights cases weights) c.case_id)]
    simp
  unfold pairedPanel
  refine Gives.check hempty fun hsome => ?_
  refine Gives.check (fun hbad => hweights fun hall => ?_) fun hgood => ?_
  · have hne : cases.map (fun c => weightOf (panelWeights cases weights) c.case_id) ≠ [] :=
      fun hnil => hsome (.inl (List.map_eq_nil_iff.mp hnil))
    have hpos : 0 < total := by
      rw [htotal]
      exact List.sum_pos _ (List.forall_mem_map.mpr hall) hne
    cases Bool.or_eq_true_iff.mp hbad with
    | inl hle => simpa using hpos.trans_le (of_decide_eq_true hle)
    | inr hany =>
        obtain ⟨c, hc, hle⟩ := List.any_eq_true.mp hany
        simpa using (hall c hc).trans_le (of_decide_eq_true hle)
  · have hpositive : ∀ c ∈ cases, 0 < weightOf (panelWeights cases weights) c.case_id := by
      intro c hc
      by_contra hneg
      have hle : weightOf (panelWeights cases weights) c.case_id ≤ Arith.ofInt 0 := by
        rw [Exact.ofInt, Int.cast_zero]
        exact not_lt.mp hneg
      exact hgood (Bool.or_eq_true_iff.mpr (.inr (List.any_eq_true.mpr
        ⟨c, hc, decide_eq_true hle⟩)))
    have hnonneg : 0 ≤ total := by
      rw [htotal]
      exact List.sum_nonneg (List.forall_mem_map.mpr fun c hc => (hpositive c hc).le)
    have hlen : 2 ≤ seeds.length := by
      by_contra hshort
      exact hsome (.inr (.inl (by omega)))
    refine Gives.bind (P := fun perCase => ∀ entry ∈ perCase,
      0 ≤ weightOf (panelWeights cases weights) entry.1 ∧
        entry.2.deltas.length = seeds.length ∧ ∀ d ∈ entry.2.deltas, P d) ?_ fun perCase hper => ?_
    · refine Gives.mapM_all fun c hc => (hcases c hc).bind fun ds hds => ?_
      rw [estimate_eq (hds.1.symm ▸ hlen)]
      exact ⟨(hpositive c hc).le, hds.1, hds.2⟩
    · obtain ⟨hlength, hall⟩ := combine_cone cone hnonneg hper
        (show (seeds.map fun _ => (0 : ℝ)).length = seeds.length by simp)
        (fun d hd => by rw [List.eq_of_mem_map_const hd]; exact cone.zero)
      have hsums : perCase.foldl (fun sums (entry : String × Estimate ℝ) =>
          List.zipWith (fun sum difference => Arith.add sum (Arith.mul
            (Arith.div (weightOf (panelWeights cases weights) entry.1) total) difference))
            sums entry.2.deltas) (seeds.map fun _ => Arith.ofInt 0) =
          combine (panelWeights cases weights) total (seeds.map fun _ => 0) perCase := by
        simp [combine, Arith.ofInt]
      refine Gives.bind (P := fun e => ∃ ds, e = estimateOf ds ∧ ∀ d ∈ ds, P d) ?_
        fun e he => he
      have hgives : Gives E (fun e => ∃ ds, e = estimateOf ds ∧ ∀ d ∈ ds, P d)
          (estimate (combine (panelWeights cases weights) total (seeds.map fun _ => 0)
            perCase)) := by
        rw [estimate_eq (hlength.symm ▸ hlen)]
        exact ⟨_, rfl, hall⟩
      rw [← hsums] at hgives
      exact hgives

/-- Both values of a case at a seed, and positive. -/
def Measured₂ (observations : Observations ℝ) (metric : Metric) (case_id : String)
    (seed : Nat) : Prop :=
  ∃ a b, lookupMetric observations case_id .baseline seed metric = some a ∧
    lookupMetric observations case_id .evolved seed metric = some b ∧ 0 < a ∧ 0 < b

/-- The differences of a case have the property when every pair of positive values has it;
they are refused only where a pair is missing. -/
theorem differences_gives {case_id : String}
    (hrefused : (∀ text, E (.incomplete text)) ∨
      ∀ seed ∈ seeds, Measured₂ observations metric case_id seed)
    (hvalues : ∀ seed ∈ seeds, ∀ a b,
      lookupMetric observations case_id .baseline seed metric = some a →
      lookupMetric observations case_id .evolved seed metric = some b →
      0 < a → 0 < b → P (Real.log b - Real.log a)) :
    Gives E (fun ds => ds.length = seeds.length ∧ ∀ d ∈ ds, P d)
      (differences observations metric case_id seeds) := by
  induction seeds with
  | nil => exact ⟨rfl, fun d hd => (nomatch hd)⟩
  | cons seed rest ih =>
      have ih := ih (hrefused.imp_right fun h s hs => h s (List.mem_cons_of_mem _ hs))
        fun s hs => hvalues s (List.mem_cons_of_mem _ hs)
      have hvalues := hvalues seed (List.mem_cons_self ..)
      have hrefused := hrefused.imp_right fun h => h seed (List.mem_cons_self ..)
      unfold differences
      split
      · rename_i a b ha hb
        split
        · rename_i hbad
          cases hrefused with
          | inl hall => exact hall _
          | inr hmeasured =>
              obtain ⟨a', b', ha', hb', hposa, hposb⟩ := hmeasured
              rw [ha] at ha'
              rw [hb] at hb'
              cases ha'
              cases hb'
              simp [not_le.mpr hposa, not_le.mpr hposb] at hbad
        · rename_i hgood
          simp only [Exact.isFinite, Exact.le, Exact.ofInt, Int.cast_zero, Bool.not_true,
            Bool.false_or, Bool.or_eq_true, decide_eq_true_iff, not_or, not_le] at hgood
          refine ih.bind fun ds hds => ⟨by simp [hds.1], List.forall_mem_cons.mpr ⟨?_, hds.2⟩⟩
          exact hvalues a b ha hb hgood.1 hgood.2
      · rename_i hmissing
        cases hrefused with
        | inl hall => exact hall _
        | inr hmeasured =>
            obtain ⟨a, b, ha, hb, -, -⟩ := hmeasured
            exact absurd hb (hmissing a b ha)

/-- A panel that could be computed has both values of every case, and they are positive. -/
theorem differences_measured {case_id : String} {ds : List ℝ}
    (h : differences observations metric case_id seeds = .ok ds) :
    ∀ seed ∈ seeds, Measured₂ observations metric case_id seed := by
  induction seeds generalizing ds with
  | nil => exact fun seed hseed => (nomatch hseed)
  | cons seed rest ih =>
      unfold differences at h
      split at h
      · rename_i a b ha hb
        split at h
        · cases h
        · rename_i hgood
          simp only [Exact.isFinite, Exact.le, Exact.ofInt, Int.cast_zero, Bool.not_true,
            Bool.false_or, Bool.or_eq_true, decide_eq_true_iff, not_or, not_le] at hgood
          obtain ⟨others, hothers, -⟩ := bind_eq_ok.mp h
          exact List.forall_mem_cons.mpr ⟨⟨a, b, ha, hb, hgood.1, hgood.2⟩, ih hothers⟩
      · cases h

theorem pairedPanel_measured {result : PanelResult ℝ}
    (h : pairedPanel cases observations metric seeds weights = .ok result) :
    ∀ c ∈ cases, ∀ seed ∈ seeds, Measured₂ observations metric c.case_id seed := by
  unfold pairedPanel at h
  obtain ⟨-, h⟩ := check_eq_ok.mp h
  obtain ⟨-, h⟩ := check_eq_ok.mp h
  obtain ⟨perCase, hper, -⟩ := bind_eq_ok.mp h
  intro c hc
  obtain ⟨entry, -, hentry⟩ := mapM_mem hper hc
  obtain ⟨ds, hds, -⟩ := bind_eq_ok.mp hentry
  exact differences_measured hds

/-- What a panel asks of its cases. -/
structure Fine (observations : Observations ℝ) (subset : List (Case ℝ)) (metric : Metric) :
    Prop where
  nonempty : subset ≠ []
  seeds : ∀ c ∈ subset, ∀ c' ∈ subset, c.seeds_per_block = c'.seeds_per_block
  two : ∀ c ∈ subset, 2 ≤ c.seeds_per_block
  values : ∀ c ∈ subset, ∀ seed < c.seeds_per_block, Measured₂ observations metric c.case_id seed

/-- The property of the differences of a panel's cases. -/
def Differ (P : ℝ → Prop) (observations : Observations ℝ) (subset : List (Case ℝ))
    (metric : Metric) : Prop :=
  ∀ c ∈ subset, ∀ seed < c.seeds_per_block, ∀ a b,
    lookupMetric observations c.case_id .baseline seed metric = some a →
    lookupMetric observations c.case_id .evolved seed metric = some b →
    0 < a → 0 < b → P (Real.log b - Real.log a)

/-- The errors that end in an unresolved record. -/
def Unresolving (E : Exn → Prop) : Prop :=
  (∀ text, E (.incomplete text)) ∧ ∀ text, E (.lookup text)

variable {subset : List (Case ℝ)} {valid : Bool} {policy : Policy ℝ}

theorem panelResult_gives (cone : Cone P) (hdiffer : Differ P observations subset metric)
    (hrefused : Unresolving E ∨ valid = true ∧ Fine observations subset metric)
    (hweights : (∀ text, E (.harness text)) ∨
      ∀ c ∈ subset, 0 < weightOf (panelWeights subset weights) c.case_id) :
    Gives E (fun result => ∃ ds, result.toEstimate = estimateOf ds ∧ ∀ d ∈ ds, P d)
      (panelResult valid observations subset metric weights) := by
  unfold panelResult
  split
  · rename_i hvalid
    cases hrefused with
    | inl hall => exact hall.1 _
    | inr hfine => simp [hfine.1] at hvalid
  split
  · cases hrefused with
    | inl hall => exact hall.2 _
    | inr hfine => exact absurd rfl hfine.2.nonempty
  rename_i first rest
  split
  · rename_i hmixed
    cases hrefused with
    | inl hall => exact hall.1 _
    | inr hfine =>
        obtain ⟨c, hc, hne⟩ := List.any_eq_true.mp hmixed
        simp [hfine.2.seeds c hc first (List.mem_cons_self ..)] at hne
  · rename_i hsame
    have hseeds : ∀ c ∈ first :: rest, c.seeds_per_block = first.seeds_per_block := by
      intro c hc
      by_contra hne
      exact hsame (List.any_eq_true.mpr ⟨c, hc, by simpa using hne⟩)
    refine pairedPanel_gives cone ?_ (fun hneg => hweights.elim (· _) (absurd · hneg))
      fun c hc => differences_gives ?_ fun seed hseed => ?_
    · rw [List.length_range]
      intro hbad
      cases hrefused with
      | inl hall => exact hall.1 _
      | inr hfine =>
          have htwo := hfine.2.two first (List.mem_cons_self ..)
          rcases hbad with hnil | hshort | hdup
          · cases hnil
          · omega
          · exact absurd List.nodup_range hdup
    · refine hrefused.imp (·.1) fun hfine seed hseed => hfine.2.values c hc seed ?_
      rw [hseeds c hc]
      exact List.mem_range.mp hseed
    · refine hdiffer c hc seed ?_
      rw [hseeds c hc]
      exact List.mem_range.mp hseed

/-! ## Records -/

/-- The record of a panel that could be computed. -/
noncomputable def panelJudged (policy : Policy ℝ) (id : String) (improvement : Bool)
    (result : PanelResult ℝ) : Record ℝ :=
  let limit := if improvement then Real.log policy.practical_ratio else 0
  let ok :=
    if improvement then
      decide (result.ln_score + policy.improvement_multiplier * result.SE < limit)
    else decide (result.ln_score ≤ policy.guard_multiplier * result.SE)
  { id, kind := if improvement then .improvement else .guard,
    result := if ok then .passed else .failed,
    details := .graded result.ln_score result.SE (some limit) }

/-- The record of a panel or a cap that could not. -/
def refused (id : String) (kind : Kind) (text : String) : Record ℝ :=
  { id, kind, result := .unresolved, details := .detail text }

/-- A panel's record is judged by its estimate, or unresolved; other refusals are raised. -/
theorem panelRecord_gives {F : Exn → Prop} {Q : Record ℝ → Prop} {S : PanelResult ℝ → Prop}
    {id : String} {improvement : Bool}
    (h : Gives F S (panelResult valid observations subset metric weights))
    (hjudged : ∀ result, S result → Q (panelJudged policy id improvement result))
    (hrefused : ∀ text, F (.incomplete text) ∨ F (.lookup text) →
      Q (refused id (if improvement then .improvement else .guard) text))
    (herror : ∀ e, F e → (∀ text, e ≠ .incomplete text ∧ e ≠ .lookup text) → E e) :
    Gives E (fun out => out.1.All Q ∧ ∀ r, out.2 = some r → S r)
      (panelRecord policy valid observations id subset metric improvement weights) := by
  unfold panelRecord
  generalize panelResult valid observations subset metric weights = computed at h
  have unresolved : ∀ text, F (.incomplete text) ∨ F (.lookup text) →
      (Graded.All Q ⟨[refused id (if improvement then .improvement else .guard) text], [id], []⟩ ∧
        ∀ r : PanelResult ℝ, none = some r → S r) := by
    refine fun text htext => ⟨fun r hr => ?_, fun r hr => (nomatch hr)⟩
    rw [List.mem_singleton.mp hr]
    exact hrefused text htext
  cases computed with
  | ok result =>
      refine ⟨fun r hr => ?_, fun r hr => ?_⟩
      · rw [List.mem_singleton.mp hr]
        have hq := hjudged result h
        simp only [panelJudged] at hq
        cases improvement <;>
          simpa [Exact.lt, Exact.le, Exact.add, Exact.mul, Exact.ofInt, Arith.log] using hq
      · cases hr
        exact h
  | error e =>
      cases e with
      | incomplete text => exact unresolved text (.inl h)
      | lookup text => exact unresolved text (.inr h)
      | harness _ | precondition _ | usage _ | contaminated _ | other _ =>
          exact herror _ h fun _ => ⟨nofun, nofun⟩

/-- The tolerances of a policy leave room for no change. -/
structure Tolerant (policy : Policy ℝ) : Prop where
  guard : 0 ≤ policy.guard_multiplier
  cap : 1 ≤ policy.quality_cap

/-- A guard over differences that are not positive passes. -/
theorem panelJudged_guard {id : String} {result : PanelResult ℝ} (htolerant : Tolerant policy)
    {ds : List ℝ} (hds : result.toEstimate = estimateOf ds) (h : ∀ d ∈ ds, d ≤ 0) :
    (panelJudged policy id false result).result = .passed := by
  have hle : result.ln_score ≤ policy.guard_multiplier * result.SE := by
    rw [hds]
    exact (estimateOf_ln_nonpos h).trans (mul_nonneg htolerant.guard (estimateOf_SE_nonneg ds))
  simp [panelJudged, hle]

/-- The improvement does not pass over differences that are all zero. -/
theorem panelJudged_improvement {id : String} {result : PanelResult ℝ}
    (hratio : 0 < policy.practical_ratio) (hone : policy.practical_ratio ≤ 1) {ds : List ℝ}
    (hds : result.toEstimate = estimateOf ds) (h : ∀ d ∈ ds, d = 0) :
    (panelJudged policy id true result).result ≠ .passed := by
  have hlog : Real.log policy.practical_ratio ≤ 0 := Real.log_nonpos hratio.le hone
  rw [estimateOf_zero h] at hds
  have hln : result.ln_score = 0 := by rw [hds]
  have hse : result.SE = 0 := by rw [hds]
  simp [panelJudged, hln, hse, not_lt.mpr hlog]

theorem weightOf_single (case_id : String) :
    weightOf [(case_id, (Arith.ofInt 1 : ℝ))] case_id = 1 := by
  simp [weightOf]

/-- The cap of a case over differences that are not positive passes, or is unresolved. -/
theorem capRecord_gives {F : Exn → Prop} {Q : Record ℝ → Prop} {pre : String} {case : Case ℝ}
    (htolerant : Tolerant policy) (hdiffer : Differ (· ≤ 0) observations [case] metric)
    (hfine : (∀ text, F (.incomplete text)) ∨ valid = true ∧ Fine observations [case] metric)
    (hpassed : ∀ r : Record ℝ, r.kind = .guard → r.result = .passed → Q r)
    (hrefused : ∀ id text, F (.incomplete text) → Q (refused id .guard text))
    (herror : ∀ e, F e → (∀ text, e ≠ .incomplete text) → E e) :
    Gives E (fun out => out.All Q) (capRecord policy valid observations pre case metric) := by
  have hpanel : Gives F (fun result => ∃ ds, result.toEstimate = estimateOf ds ∧ ∀ d ∈ ds, d ≤ 0)
      (if !valid then .error invalidPanel
        else pairedPanel [case] observations metric (List.range case.seeds_per_block)
          (some [(case.case_id, Arith.ofInt 1)])) := by
    split
    · rename_i hvalid
      cases hfine with
      | inl hall => exact hall _
      | inr hfine => simp [hfine.1] at hvalid
    · refine pairedPanel_gives cone_nonpos ?_ (fun hneg => absurd ?_ hneg) fun c hc => ?_
      · rw [List.length_range]
        intro hbad
        cases hfine with
        | inl hall => exact hall _
        | inr hfine =>
            have htwo := hfine.2.two case (List.mem_singleton_self _)
            rcases hbad with hnil | hshort | hdup
            · cases hnil
            · omega
            · exact absurd List.nodup_range hdup
      · intro c hc
        rw [List.mem_singleton.mp hc]
        simp only [panelWeights, Option.getD_some, weightOf_single]
        exact one_pos
      · rw [List.mem_singleton.mp hc]
        refine differences_gives (hfine.imp_right fun h seed hseed => ?_) fun seed hseed => ?_
        · exact h.2.values case (List.mem_singleton_self _) seed (List.mem_range.mp hseed)
        · exact hdiffer case (List.mem_singleton_self _) seed (List.mem_range.mp hseed)
  unfold capRecord
  dsimp only
  generalize (if !valid then Except.error invalidPanel else pairedPanel [case] observations metric
    (List.range case.seeds_per_block) (some [(case.case_id, Arith.ofInt 1)])) = computed at hpanel
  cases computed with
  | ok result =>
      obtain ⟨ds, hds, hnonpos⟩ := hpanel
      have hscore : result.score ≤ policy.quality_cap := by
        rw [hds]
        exact (estimateOf_score_le_one hnonpos).trans htolerant.cap
      have hln : result.ln_score ≤ policy.guard_multiplier * result.SE := by
        rw [hds]
        exact (estimateOf_ln_nonpos hnonpos).trans
          (mul_nonneg htolerant.guard (estimateOf_SE_nonneg ds))
      intro r hr
      refine hpassed r ?_ ?_
      · rw [List.mem_singleton.mp hr]
      · rw [List.mem_singleton.mp hr]
        simp [hscore, hln]
  | error e =>
      cases e with
      | incomplete text =>
          intro r hr
          rw [List.mem_singleton.mp hr]
          exact hrefused _ text hpanel
      | harness _ | precondition _ | usage _ | contaminated _ | lookup _ | other _ =>
          exact herror _ hpanel nofun

end Panel
end TranspileBench.Evaluator
