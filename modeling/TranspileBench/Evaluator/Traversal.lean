import TranspileBench.Evaluator.Required

/-!
A whole grading from its parts: what every panel, cap, exact guard and breadth record gives,
the graded records give. Refusals of the panels end in records or summaries, so only other
errors are left to the parts.
-/
namespace TranspileBench.Evaluator
open Fallible
variable {N : Type}

/-- The panels that become records: the scored cases, a basis, one value of a dimension. -/
inductive IsPanel [Arith N] (m : Manifest N) :
    List (Case N) → Option (List (String × N)) → Prop
  | scored : IsPanel m m.scored none
  | basis (basis : String) (hbasis : basis ∈ ["cx", "ecr"])
      (hne : m.cases.filter (fun c => c.panel == some ("basis-" ++ basis)) ≠ []) :
      IsPanel m (m.cases.filter fun c => c.panel == some ("basis-" ++ basis))
        (some ((m.cases.filter fun c => c.panel == some ("basis-" ++ basis)).map fun c =>
          (c.case_id, Arith.div (Arith.ofInt 1) (Arith.ofInt
            (m.cases.filter fun c => c.panel == some ("basis-" ++ basis)).length))))
  | slice (field : Case N → String) (value : String) (hvalue : value ∈ m.scored.map field) :
      IsPanel m (m.scored.filter fun c => field c == value) none

/-- The errors a panel refuses with. -/
def Refusal (e : Exn) : Prop := ∃ text, e = .incomplete text ∨ e = .harness text

/-- A bootstrap with a replicate has a sample. -/
theorem clusterBootstrap_gives (cases : List (Case N)) (panel : PanelResult N)
    {replicates : Int} {E : Exn → Prop} (rng_seed : Int) (h : 0 < replicates) :
    Gives E (fun _ => True) (clusterBootstrap cases panel replicates rng_seed) := by
  simp only [clusterBootstrap, if_neg (not_le.mpr h)]
  split <;> trivial

section Panels
variable [Arith N] {manifest : Manifest N} {policy : Policy N} {observations : Observations N}
  {valid : Bool} {E : Exn → Prop} {Q : Record N → Prop} {S : PanelResult N → Prop}

theorem differences_refusal (metric : Metric) (case_id : String) (seeds : List Nat) :
    Gives Refusal (fun _ => True) (differences observations metric case_id seeds) := by
  induction seeds with
  | nil => trivial
  | cons seed rest ih =>
      unfold differences
      split
      · split
        · exact ⟨_, .inl rfl⟩
        · exact ih.bind fun _ _ => trivial
      · exact ⟨_, .inl rfl⟩

theorem estimate_refusal (deltas : List N) :
    Gives Refusal (fun _ => True) (estimate deltas) := by
  unfold estimate
  split
  · exact ⟨_, .inl rfl⟩
  · trivial

theorem pairedPanel_refusal (cases : List (Case N)) (metric : Metric) (seeds : List Nat)
    (weights : Option (List (String × N))) :
    Gives Refusal (fun _ => True) (pairedPanel cases observations metric seeds weights) := by
  unfold pairedPanel
  refine Gives.check (fun _ => ⟨_, .inl rfl⟩) fun _ => ?_
  refine Gives.check (fun _ => ⟨_, .inr rfl⟩) fun _ => ?_
  refine Gives.bind (P := fun _ => True) ?_ fun _ _ => ?_
  · refine (Gives.mapM_all (Q := fun _ => True) fun c _ => ?_).imp fun _ _ => trivial
    exact (differences_refusal metric c.case_id seeds).bind fun ds _ =>
      (estimate_refusal ds).bind fun _ _ => trivial
  · exact (estimate_refusal _).bind fun _ _ => trivial

/-- A summary adds no record, whatever its panel is refused for. -/
theorem reportSummary_gives (name : String) (subset : List (Case N)) (metric : Metric) :
    Gives E (fun out => out.1.All Q) (reportSummary observations name subset metric) := by
  have hpanel := @pairedPanel_refusal N _ observations subset metric (List.range 100) none
  unfold reportSummary
  generalize pairedPanel subset observations metric (List.range 100) none = panel at hpanel
  cases panel with
  | ok result => exact fun r hr => (nomatch hr)
  | error e =>
      obtain ⟨text, he⟩ := hpanel
      cases he with
      | inl he => rw [he]; exact fun r hr => (nomatch hr)
      | inr he => rw [he]; exact fun r hr => (nomatch hr)

section Parts
variable (hpanel : ∀ id subset metric improvement weights, IsPanel manifest subset weights →
  Gives E (fun out => out.1.All Q ∧ ∀ r, out.2 = some r → S r)
    (panelRecord policy valid observations id subset metric improvement weights))
include hpanel

theorem basisPanels_gives (pre : String) {basis : String} (hbasis : basis ∈ ["cx", "ecr"]) :
    Gives E (fun parts => ∀ part ∈ parts, part.All Q)
      (basisPanels policy valid observations manifest.cases pre basis) := by
  unfold basisPanels
  simp only
  split
  · exact fun part hpart => (nomatch hpart)
  · rename_i hne
    refine Gives.mapM_all fun metric _ => ?_
    exact (hpanel _ _ metric false _ (.basis basis hbasis hne)).bind fun out hout => hout.1

theorem depthRecords_gives :
    Gives E (fun parts => ∀ part ∈ parts, part.All Q)
      (depthRecords manifest policy valid observations manifest.scored) := by
  unfold depthRecords
  split
  · exact fun part hpart => (nomatch hpart)
  · have hpanel := hpanel "IA3/primary/D2" _ .D2 false none .scored
    generalize panelRecord policy valid observations "IA3/primary/D2" manifest.scored .D2 = out
      at hpanel ⊢
    cases out with
    | error e => exact hpanel
    | ok out =>
        intro part hpart
        rw [List.mem_singleton.mp hpart]
        exact hpanel.1

theorem sliceRecords_gives (dimension : String) (field : Case N → String) {value : String}
    (hvalue : value ∈ manifest.scored.map field) :
    Gives E (fun slice => slice.graded.All Q ∧
        ∀ score ∈ slice.family_score, ∀ r, score = some r → S r)
      (sliceRecords policy valid observations manifest.scored dimension field value) := by
  have grade : ∀ metric, Gives E (fun out => out.1.All Q ∧
      (dimension = "family" → ∀ r, out.2 = some r → S r))
      (if dimension = "family" ∨ dimension = "optimization_level" then
        panelRecord policy valid observations ("CA4/" ++ dimension ++ "/" ++ value ++ "/"
          ++ metric.name) (manifest.scored.filter fun c => field c == value) metric
      else reportSummary observations ("CA4/" ++ dimension ++ "/" ++ value ++ "/" ++ metric.name)
        (manifest.scored.filter fun c => field c == value) metric) := by
    intro metric
    split
    · exact (hpanel _ _ metric false none (.slice field value hvalue)).imp
        fun out hout => ⟨hout.1, fun _ => hout.2⟩
    · rename_i hother
      exact (reportSummary_gives _ _ metric).imp
        fun out hout => ⟨hout, fun hfamily => absurd (.inl hfamily) hother⟩
  unfold sliceRecords
  refine (grade .D2).bind fun d2 hd2 => (grade .N2).bind fun n2 hn2 => ?_
  have hboth := hd2.1.append hn2.1
  split
  · rename_i hfamily
    refine (reportSummary_gives (Q := Q) _ _ _).bind fun out hout => ⟨hboth.append hout, ?_⟩
    intro score hscore
    rw [List.mem_singleton.mp hscore]
    exact hd2.2 hfamily
  · exact ⟨hboth, fun score hscore => (nomatch hscore)⟩

variable (hbootstrap : ∀ objective, Gives E (fun _ => True)
  (clusterBootstrap manifest.scored objective policy.bootstrap_replicates policy.rng_seed))
variable (hbreadth : ∀ result text, (result = .passed →
  ∃ r, S r ∧ Arith.lt r.ln_score_plus_2SE (Arith.ofInt 0) = true) →
  Q { id := "CA3/breadth", kind := .improvement, result, details := .detail text })
include hbootstrap hbreadth

theorem breadthRecords_gives (objective : PanelResult N) :
    Gives E (fun out => out.All Q)
      (breadthRecords policy valid observations manifest.scored objective) := by
  unfold breadthRecords
  refine Gives.bind (P := fun slices => ∀ slice ∈ slices, slice.graded.All Q ∧
      ∀ score ∈ slice.family_score, ∀ r, score = some r → S r) ?_ fun slices hslices => ?_
  · refine Gives.flatMapM_all fun dimension _ => Gives.mapM_all fun value hvalue => ?_
    exact sliceRecords_gives hpanel _ _ (mem_sortedSet.mp hvalue)
  · refine (hbootstrap objective).bind fun bootstrap _ => ?_
    refine (reportSummary_gives (Q := Q) _ _ _).bind fun out hout => ?_
    refine Graded.All.append (Graded.All.append (Graded.All.concat ?_) ?_) hout
    · intro part hpart
      obtain ⟨slice, hslice, rfl⟩ := List.mem_map.mp hpart
      exact (hslices slice hslice).1
    · intro r hr
      rw [List.mem_singleton.mp hr]
      refine hbreadth _ _ fun hpassed => ?_
      split at hpassed
      · rename_i hwide
        simp only [Bool.and_eq_true, decide_eq_true_eq] at hwide
        have hsome := lt_of_lt_of_le (show 0 < 4 by decide) hwide.1.2
        obtain ⟨score, hscore, himproving⟩ := List.countP_pos_iff.mp hsome
        obtain ⟨slice, hslice, hscore⟩ := List.mem_flatMap.mp hscore
        cases score with
        | none => cases himproving
        | some r => exact ⟨r, (hslices slice hslice).2 _ hscore r rfl, himproving⟩
      · split at hpassed <;> cases hpassed

theorem breadthPart_gives (objective : Option (PanelResult N)) :
    Gives E (fun out => out.All Q)
      (breadthPart manifest policy valid observations manifest.scored objective) := by
  unfold breadthPart
  split
  · exact breadthRecords_gives hpanel hbootstrap hbreadth _
  · exact fun r hr => (nomatch hr)
  · exact fun r hr => (nomatch hr)

/-- A grading gives what all of its parts give. -/
theorem gradePanels_gives
    (hcap : ∀ c ∈ manifest.cases, c.role = .scored ∨ c.role = .guard → ∀ metric,
      Gives E (fun out => out.All Q)
        (capRecord policy valid observations manifest.prefix_ c metric))
    (hexact : ∀ c ∈ manifest.cases,
      c.role = .canary ∨ c.role = .deterministic ∨ c.role = .zero_baseline →
      (exactRecord valid observations manifest.prefix_ c).All Q) :
    Gives E (fun out => out.All Q) (gradePanels manifest policy valid observations) := by
  unfold gradePanels
  refine (hpanel _ _ .D2 true none .scored).bind fun objective hobjective => ?_
  refine (hpanel _ _ .N2 false none .scored).bind fun gates hgates => ?_
  refine (depthRecords_gives hpanel).bind fun depth hdepth => ?_
  refine Gives.bind (P := fun bases => ∀ part ∈ bases, part.All Q)
    (Gives.flatMapM_all fun basis hbasis => basisPanels_gives hpanel _ hbasis)
      fun bases hbases => ?_
  refine Gives.bind (P := fun caps => ∀ part ∈ caps, part.All Q)
    (Gives.flatMapM_all fun case hcase => Gives.mapM_all fun metric _ => ?_) fun caps hcaps => ?_
  · obtain ⟨hmem, hrole⟩ := List.mem_filter.mp hcase
    rw [Bool.or_eq_true, beq_iff_eq, beq_iff_eq] at hrole
    exact hcap case hmem hrole metric
  · refine (breadthPart_gives hpanel hbootstrap hbreadth objective.2).bind
      fun breadth hbreadth => ?_
    refine Graded.All.append (Graded.All.concat fun part hpart => ?_) hbreadth
    simp only [List.mem_append, List.mem_cons, List.not_mem_nil, or_false] at hpart
    rcases hpart with ((((rfl | rfl) | hpart) | hpart) | hpart) | hpart
    · exact hobjective.1
    · exact hgates.1
    · exact hdepth part hpart
    · exact hbases part hpart
    · exact hcaps part hpart
    · obtain ⟨case, hcase, rfl⟩ := List.mem_map.mp hpart
      obtain ⟨hmem, hrole⟩ := List.mem_filter.mp hcase
      simp only [Bool.or_eq_true, beq_iff_eq, or_assoc] at hrole
      exact hexact case hmem hrole

end Parts

/-- The records of a basis panel are among the graded ones. -/
theorem gradePanels_basis {out : Graded N}
    (h : gradePanels manifest policy valid observations = .ok out) {basis : String}
    (hbasis : basis ∈ ["cx", "ecr"])
    (hne : manifest.cases.filter (fun c => c.panel == some ("basis-" ++ basis)) ≠ [])
    (metric : Metric) :
    ∃ id graded weights, panelRecord policy valid observations id
        (manifest.cases.filter fun c => c.panel == some ("basis-" ++ basis)) metric false
        (some weights) = .ok graded ∧ ∀ r ∈ graded.1.records, r ∈ out.records := by
  unfold gradePanels at h
  obtain ⟨objective, -, h⟩ := bind_eq_ok.mp h
  obtain ⟨gates, -, h⟩ := bind_eq_ok.mp h
  obtain ⟨depth, -, h⟩ := bind_eq_ok.mp h
  obtain ⟨bases, hbases, h⟩ := bind_eq_ok.mp h
  obtain ⟨caps, -, h⟩ := bind_eq_ok.mp h
  obtain ⟨breadth, -, h⟩ := bind_eq_ok.mp h
  cases h
  obtain ⟨parts, hparts, rfl⟩ := flatMapM_eq_ok.mp hbases
  obtain ⟨part, hpart, hpanels⟩ := mapM_mem hparts hbasis
  unfold basisPanels at hpanels
  simp only [if_neg hne] at hpanels
  have hmetric : metric ∈ [Metric.D2, Metric.N2] := by cases metric <;> simp
  obtain ⟨g, hg, hgraded⟩ := mapM_mem hpanels hmetric
  obtain ⟨graded, hrecord, hgraded⟩ := bind_eq_ok.mp hgraded
  cases hgraded
  refine ⟨_, graded, _, hrecord, fun r hr => ?_⟩
  rw [Graded.records_append, Graded.records_concat]
  refine List.mem_append_left _ (List.mem_flatMap.mpr ⟨graded.1, ?_, hr⟩)
  simp only [List.mem_append]
  exact .inl (.inl (.inr (List.mem_flatten.mpr ⟨part, hpart, hg⟩)))

end Panels
end TranspileBench.Evaluator
