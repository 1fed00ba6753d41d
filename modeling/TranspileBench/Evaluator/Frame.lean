import TranspileBench.Evaluator.Grading

/-!
What an evaluation depends on. Evidence reaches the grading only through the results of
the quality prerequisites, and without them nothing is graded; the required ids depend on
the manifest and the policy, and for the confirm profile on whether depth can be graded.
-/
namespace TranspileBench.Evaluator
open Fallible

variable {N : Type}

/-- The result the evidence has for an id; a later row replaces an earlier one. -/
def resultOf (evidence : List (Record N)) (id : String) : Option Result :=
  (byId evidence.reverse id).map (·.result)

/-- An evaluation with its evidence in front. -/
def withEvidence (evidence : List (Record N))
    (added : List (Record N) × List String × List (String × Summary N)) :
    List (Record N) × List String × List (String × Summary N) :=
  (evidence ++ added.1, added.2)

/-! ## Evidence -/

theorem panelValid_iff {policy : Policy N} {evidence : List (Record N)} :
    panelValid policy evidence = true ↔
      ∀ id ∈ policy.quality_prerequisites, resultOf evidence id = some .passed := by
  simp only [panelValid, List.all_eq_true, Option.any_eq_true, beq_iff_eq, resultOf,
    Option.map_eq_some_iff]

theorem panelValid_congr {policy : Policy N} {evidence evidence' : List (Record N)}
    (agree : ∀ id ∈ policy.quality_prerequisites, resultOf evidence id = resultOf evidence' id) :
    panelValid policy evidence = panelValid policy evidence' := by
  rw [Bool.eq_iff_iff, panelValid_iff, panelValid_iff]
  exact forall₂_congr fun id hid => by rw [agree id hid]

section Invalid
variable [Arith N] {manifest : Manifest N} {policy : Policy N} {observations : Observations N}

/-- Nothing is passed or failed. -/
def Graded.Unresolved (g : Graded N) : Prop := g.All fun r => r.result = .unresolved

theorem panelRecord_invalid {id : String} {subset : List (Case N)} {metric : Metric}
    {improvement : Bool} {weights : Option (List (String × N))}
    {out : Graded N × Option (PanelResult N)}
    (h : panelRecord policy false observations id subset metric improvement weights = .ok out) :
    out.1.Unresolved ∧ out.2 = none := by
  cases h
  refine ⟨?_, rfl⟩
  intro r hr
  rw [List.mem_singleton.mp hr]

theorem capRecord_invalid {pre : String} {case : Case N} {metric : Metric} {out : Graded N}
    (h : capRecord policy false observations pre case metric = .ok out) : out.Unresolved := by
  cases h
  intro r hr
  rw [List.mem_singleton.mp hr]

theorem exactRecord_invalid {pre : String} {case : Case N} :
    (exactRecord false observations pre case).Unresolved := by
  intro r hr
  rw [List.mem_singleton.mp hr]

theorem basisPanels_invalid {cases : List (Case N)} {pre basis : String} {out : List (Graded N)}
    (h : basisPanels policy false observations cases pre basis = .ok out) :
    ∀ g ∈ out, g.Unresolved := by
  unfold basisPanels at h
  simp only at h
  split at h
  · cases h
    simp
  · refine mapM_all ?_ h
    intro metric g hg
    obtain ⟨o, ho, hg⟩ := bind_eq_ok.mp hg
    cases hg
    exact (panelRecord_invalid ho).1

theorem depthRecords_invalid {scored : List (Case N)} {out : List (Graded N)}
    (h : depthRecords manifest policy false observations scored = .ok out) :
    ∀ g ∈ out, g.Unresolved := by
  unfold depthRecords at h
  split at h
  · cases h
    simp
  · cases h
    intro g hg r hr
    rw [List.mem_singleton.mp hg] at hr
    rw [List.mem_singleton.mp hr]

/-- Without the prerequisites the objective is unknown, and breadth is not looked at. -/
theorem breadthPart_invalid {scored : List (Case N)} {out : Graded N}
    (h : breadthPart manifest policy false observations scored none = .ok out) :
    out.Unresolved := by
  unfold breadthPart at h
  split at h
  · rename_i heq
    cases heq
  · cases h
    intro r hr
    cases hr
  · cases h
    intro r hr
    cases hr

/-- An invalid measurement leaves every record of the grading unresolved. -/
theorem gradePanels_invalid {out : Graded N}
    (h : gradePanels manifest policy false observations = .ok out) : out.Unresolved := by
  unfold gradePanels at h
  obtain ⟨objective, hobjective, h⟩ := bind_eq_ok.mp h
  obtain ⟨gates, hgates, h⟩ := bind_eq_ok.mp h
  obtain ⟨depth, hdepth, h⟩ := bind_eq_ok.mp h
  obtain ⟨bases, hbases, h⟩ := bind_eq_ok.mp h
  obtain ⟨caps, hcaps, h⟩ := bind_eq_ok.mp h
  obtain ⟨breadth, hbreadth, h⟩ := bind_eq_ok.mp h
  cases h
  obtain ⟨hobjective, hnone⟩ := panelRecord_invalid hobjective
  rw [hnone] at hbreadth
  refine Graded.All.append (Graded.All.concat fun part hpart => ?_) (breadthPart_invalid hbreadth)
  simp only [List.mem_append, List.mem_cons, List.not_mem_nil, or_false] at hpart
  rcases hpart with ((((rfl | rfl) | hpart) | hpart) | hpart) | hpart
  · exact hobjective
  · exact (panelRecord_invalid hgates).1
  · exact depthRecords_invalid hdepth part hpart
  · exact flatMapM_all (fun _ _ hb => basisPanels_invalid hb) hbases part hpart
  · exact flatMapM_all (fun _ _ hc => mapM_all (fun _ _ => capRecord_invalid) hc) hcaps part hpart
  · obtain ⟨case, _, rfl⟩ := List.mem_map.mp hpart
    exact exactRecord_invalid

/-- Evidence that agrees on the prerequisites' results gets the same grading, and a
prerequisite that is absent or did not pass leaves all of it unresolved. -/
theorem evaluateQuality_frame (manifest : Manifest N) (policy : Policy N)
    (rows : List (Observation N)) {evidence evidence' : List (Record N)}
    (agree : ∀ id ∈ policy.quality_prerequisites, resultOf evidence id = resultOf evidence' id) :
    ∃ outcome : Except Exn (List (Record N) × List String × List (String × Summary N)),
      evaluateQuality manifest policy rows evidence = outcome.map (withEvidence evidence) ∧
      evaluateQuality manifest policy rows evidence' = outcome.map (withEvidence evidence') ∧
      ((∃ id ∈ policy.quality_prerequisites, resultOf evidence id ≠ some .passed) →
        ∀ added, outcome = .ok added → ∀ r ∈ added.1, r.result = .unresolved) := by
  refine ⟨do
    let observations ← indexObservations [] rows
    let graded ← gradePanels manifest policy (panelValid policy evidence) observations
    pure (graded.records, sortedSet (policy.required_ids ++ graded.required), graded.summaries),
    ?_, ?_, ?_⟩
  · unfold evaluateQuality
    cases indexObservations [] rows with
    | error e => rfl
    | ok observations =>
        simp only [bind, Except.bind]
        cases gradePanels manifest policy (panelValid policy evidence) observations <;> rfl
  · unfold evaluateQuality
    rw [← panelValid_congr agree]
    cases indexObservations [] rows with
    | error e => rfl
    | ok observations =>
        simp only [bind, Except.bind]
        cases gradePanels manifest policy (panelValid policy evidence) observations <;> rfl
  · rintro ⟨id, hid, hfailed⟩ added hadded
    have hinvalid : panelValid policy evidence = false := by
      rw [Bool.eq_false_iff]
      exact fun hvalid => hfailed (panelValid_iff.mp hvalid id hid)
    rw [hinvalid] at hadded
    obtain ⟨observations, -, hadded⟩ := bind_eq_ok.mp hadded
    obtain ⟨graded, hgraded, hadded⟩ := bind_eq_ok.mp hadded
    cases hadded
    exact gradePanels_invalid hgraded

end Invalid

section Sample
attribute [local instance] integerArith

/-- One scored case of the confirm profile, measured at two seeds. -/
def gradedCase : Case Int where
  case_id := "qft/1"
  role := .scored
  panel := none
  seeds_per_block := 2
  weight := 1
  family := "qft"
  optimization_level := 2
  size_band := "small"
  topology := "line"
  native_basis := "cz"
  input_group := "qft"
  modes := ["quality"]
  expected _ := none
  circuit_sha256 := "c"
  target_sha256 := "t"
  reference_sha256 := none
  clifford_sha256 := none
  input_domain := "all_inputs"
  logical_qubits := 4

def gradedManifest : Manifest Int := ⟨true, [gradedCase]⟩

theorem gradedManifest_distinct : (gradedManifest.cases.map (·.case_id)).Nodup := by decide

def gradedPolicy : Policy Int where
  required_ids := ["CA2/improvement"]
  quality_prerequisites := ["harness/roundtrip"]
  practical_ratio := 1
  improvement_multiplier := 2
  guard_multiplier := 3
  quality_cap := 1
  iterations_groups := []
  bootstrap_replicates := 1
  rng_seed := 20260924
  measurement_protocol := ⟨25, none, none, none, none, none⟩
  cost_thresholds := none

def gradedRow (revision : Revision) (seed : Nat) : Observation Int where
  case_id := "qft/1"
  case_hash := "h"
  revision := revision
  build_id := "b"
  seed := seed
  seed_block := "B0"
  mode := "quality"
  id := "o"
  status := "ok"
  not_attempted := false
  error := none
  metric _ := some 1
  output_hash := none
  checks := []
  cached_from := none

def gradedRows : List (Observation Int) :=
  [gradedRow .baseline 0, gradedRow .baseline 1, gradedRow .evolved 0, gradedRow .evolved 1]

def roundtrip (result : Result) : Record Int :=
  { id := "harness/roundtrip", kind := .harness, result }

theorem evaluateQuality_frame_roundtrip :
    ∃ outcome : Except Exn (List (Record Int) × List String × List (String × Summary Int)),
      evaluateQuality gradedManifest gradedPolicy gradedRows [roundtrip .failed]
        = outcome.map (withEvidence [roundtrip .failed]) ∧
      evaluateQuality gradedManifest gradedPolicy gradedRows
          [roundtrip .passed, roundtrip .failed]
        = outcome.map (withEvidence [roundtrip .passed, roundtrip .failed]) ∧
      ((∃ id ∈ gradedPolicy.quality_prerequisites,
          resultOf [roundtrip .failed] id ≠ some .passed) →
        ∀ added, outcome = .ok added → ∀ r ∈ added.1, r.result = .unresolved) :=
  evaluateQuality_frame gradedManifest gradedPolicy gradedRows (by decide)

end Sample
end TranspileBench.Evaluator
