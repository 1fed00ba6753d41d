import Mathlib.Data.List.Nodup
import Mathlib.Data.List.Basic

/-!
Constraint records and the fail-closed verdict over them: a proven violation is
looked for in a fixed order, and `PASS` asks for every required record.
-/
namespace TranspileBench

/-- The exceptions of the harness that its code tells apart. -/
inductive Exn
  | harness (message : String)
  | incomplete (message : String)
  | precondition (message : String)
  | usage (message : String)
  | contaminated (message : String)
  /-- A missing key, index or attribute of the data. -/
  | lookup (message : String)
  /-- Anything else: the file system, the network, a bug. -/
  | other (message : String)
  deriving DecidableEq

/-- Python's `str.endswith`. -/
def endsWith (s suffix : String) : Bool := suffix.toList.isSuffixOf s.toList

/-- Python's `str.startswith`. -/
def startsWith (s pre : String) : Bool := pre.toList.isPrefixOf s.toList

namespace Evaluator

inductive Kind
  | harness | correctness | guard | cost | improvement | completeness
  deriving DecidableEq

inductive Result
  | passed | failed | passed_on_rerun | unresolved | not_evaluated
  deriving DecidableEq

inductive Subject
  | evolved | reference
  deriving DecidableEq

inductive Regime
  | screen | normal | rerun
  deriving DecidableEq

def Regime.name : Regime → String
  | .screen => "screen"
  | .normal => "normal"
  | .rerun => "rerun"

/-- The fixed guard of one estimator at one regime. -/
structure Threshold (N : Type) where
  count : Nat
  noise_panel : N
  case_ratio : N
  floor : N

/-- What a panel's estimates say against a threshold. -/
structure Candidate (N : Type) where
  ln_panel : N
  ratios : List (String × N)
  cap_breaches : List String
  breached : Bool

/-- The fields of a judged cost bundle besides its result. -/
structure CostDetails (N : Type) where
  regime : Regime
  count : Nat
  threshold : Threshold N
  candidate : Candidate N
  needs_full : Bool
  needs_rerun : Bool

/-- The further fields a record may carry. -/
inductive Details (N : Type)
  | none
  | detail (text : String)
  | graded (value SE : N) (threshold : Option N)
  | value (value : N)
  | observations (ids : List String)
  | eligible_observations (count : Nat)
  | cases (ids : List String)
  | cost (details : CostDetails N) (observed_result : Option Result)
  | observed (observed_result : Result) (detail : String)

structure Record (N : Type) where
  id : String
  kind : Kind
  result : Result
  subject : Subject := .evolved
  details : Details N := .none

variable {N : Type}

inductive Status
  | PASS | NO_IMPROVEMENT | CONSTRAINT_VIOLATION | INCONCLUSIVE | ERROR
  deriving DecidableEq

def isImprovement (id : String) : Bool := endsWith id "/improvement"

/-- `by_id[id]`. -/
def byId (records : List (Record N)) (id : String) : Option (Record N) :=
  records.find? (·.id == id)

def Record.isPassed (r : Record N) : Bool :=
  r.result == .passed || r.result == .passed_on_rerun

/-- The order in which the verdict looks at the records. -/
def grade (records : List (Record N)) (required_ids : List String) : Status :=
  let failed := records.filter (·.result == .failed)
  if failed.any (·.kind == .harness) then .ERROR
  else if failed.any (fun r => r.subject == .evolved && r.kind != .improvement) then
    .CONSTRAINT_VIOLATION
  else if failed.any (·.subject == .reference) then .INCONCLUSIVE
  else if failed.any (·.kind == .improvement) then .NO_IMPROVEMENT
  else if required_ids.all fun id => (byId records id).any (·.isPassed) then .PASS
  else .INCONCLUSIVE

def verdict (records : List (Record N)) (required_ids : List String) : Except Exn Status :=
  if required_ids = [] ∨ ¬ required_ids.Nodup then
    .error (.harness "Required record IDs must be nonempty and unique")
  else if ¬ (records.map (·.id)).Nodup then
    .error (.harness "Duplicate constraint record ID")
  else if ¬ required_ids.any isImprovement then
    .error (.harness "Required IDs must include an improvement record")
  else if required_ids.any fun id =>
      isImprovement id && (byId records id).any (·.kind != .improvement) then
    .error (.harness "An improvement ID must contain an improvement record")
  else if records.any fun r => r.result == .passed_on_rerun && r.kind != .cost then
    .error (.harness "Only cost checks may pass on rerun")
  else .ok (grade records required_ids)

/-- The records and required ids that a verdict accepts. -/
structure Gradable (records : List (Record N)) (required_ids : List String) : Prop where
  nonempty : required_ids ≠ []
  required_nodup : required_ids.Nodup
  nodup : (records.map (·.id)).Nodup
  improvement : ∃ id ∈ required_ids, isImprovement id = true
  improvement_kind : ∀ id ∈ required_ids, isImprovement id = true →
    ∀ r, byId records id = some r → r.kind = .improvement
  rerun : ∀ r ∈ records, r.result = .passed_on_rerun → r.kind = .cost

theorem verdict_eq_ok {records : List (Record N)} {required_ids : List String} {s : Status} :
    verdict records required_ids = .ok s ↔
      Gradable records required_ids ∧ grade records required_ids = s := by
  constructor
  · intro h
    unfold verdict at h
    split_ifs at h with h₁ h₂ h₃ h₄ h₅
    refine ⟨⟨?_, ?_, ?_, ?_, ?_, ?_⟩, Except.ok.inj h⟩
    · exact fun h => h₁ (.inl h)
    · exact not_not.mp fun h => h₁ (.inr h)
    · exact h₂
    · simpa using h₃
    · intro id hid himp r hr
      by_contra hk
      exact h₄ (List.any_eq_true.mpr ⟨id, hid, by simp [himp, hr, hk]⟩)
    · intro r hr hres
      by_contra hk
      exact h₅ (List.any_eq_true.mpr ⟨r, hr, by simp [hres, hk]⟩)
  · rintro ⟨h, rfl⟩
    unfold verdict
    have h₃ : required_ids.any isImprovement = true := by simpa using h.improvement
    rw [if_neg (by simp [h.nonempty, h.required_nodup]), if_neg (by simp [h.nodup]),
      if_neg (by simp [h₃]), if_neg, if_neg]
    · rw [Bool.not_eq_true, List.any_eq_false]
      intro r hr hbad
      simp only [Bool.and_eq_true, beq_iff_eq, bne_iff_ne] at hbad
      exact hbad.2 (h.rerun r hr hbad.1)
    · rw [Bool.not_eq_true, List.any_eq_false]
      intro id hid hbad
      rw [Bool.and_eq_true, Option.any_eq_true] at hbad
      obtain ⟨himp, r, hr, hk⟩ := hbad
      exact (bne_iff_ne.mp hk) (h.improvement_kind id hid himp r hr)

theorem byId_mem {records : List (Record N)} {id : String} {r : Record N}
    (h : byId records id = some r) : r ∈ records ∧ r.id = id := by
  refine ⟨List.mem_of_find?_eq_some h, ?_⟩
  simpa using List.find?_some h

/-- A verdict of `PASS`: nothing failed and every required record passed. -/
theorem grade_pass {records : List (Record N)} {required_ids : List String} :
    grade records required_ids = .PASS ↔
      (∀ r ∈ records, r.result ≠ .failed) ∧
        ∀ id ∈ required_ids, ∃ r, byId records id = some r ∧ r.isPassed = true := by
  have cover : ∀ r : Record N, r.kind = .harness ∨
      (r.subject = .evolved ∧ r.kind ≠ .improvement) ∨ r.subject = .reference ∨
        r.kind = .improvement := by
    intro r
    by_cases hk : r.kind = .improvement
    · exact .inr (.inr (.inr hk))
    · cases hs : r.subject with
      | evolved => exact .inr (.inl ⟨rfl, hk⟩)
      | reference => exact .inr (.inr (.inl rfl))
  unfold grade
  simp only
  constructor
  · intro h
    split_ifs at h with h₁ h₂ h₃ h₄ h₅
    constructor
    · intro r hr hres
      have hmem : r ∈ records.filter (·.result == .failed) := by simp [hr, hres]
      rcases cover r with hk | hk | hk | hk
      · exact h₁ (List.any_eq_true.mpr ⟨r, hmem, by simp [hk]⟩)
      · exact h₂ (List.any_eq_true.mpr ⟨r, hmem, by simp [hk.1, hk.2]⟩)
      · exact h₃ (List.any_eq_true.mpr ⟨r, hmem, by simp [hk]⟩)
      · exact h₄ (List.any_eq_true.mpr ⟨r, hmem, by simp [hk]⟩)
    · intro id hid
      exact (Option.any_eq_true _ _).mp (List.all_eq_true.mp h₅ id hid)
  · rintro ⟨hnone, hall⟩
    have hfailed : records.filter (·.result == .failed) = [] := by simpa using hnone
    have hreq : (required_ids.all fun id => (byId records id).any (·.isPassed)) = true :=
      List.all_eq_true.mpr fun id hid => (Option.any_eq_true _ _).mpr (hall id hid)
    simp [hfailed, hreq]

/-- A failed record of the candidate outweighs everything but a harness failure. -/
theorem grade_violation {records : List (Record N)} {required_ids : List String}
    (harness : ∀ r ∈ records, r.result = .failed → r.kind ≠ .harness) {r : Record N}
    (hr : r ∈ records) (failed : r.result = .failed) (subject : r.subject = .evolved)
    (kind : r.kind ≠ .improvement) : grade records required_ids = .CONSTRAINT_VIOLATION := by
  unfold grade
  simp only
  rw [if_neg, if_pos]
  · exact List.any_eq_true.mpr ⟨r, by simp [hr, failed], by simp [subject, kind]⟩
  · rw [Bool.not_eq_true, List.any_eq_false]
    intro x hx hk
    rw [List.mem_filter] at hx
    exact harness x hx.1 (by simpa using hx.2) (by simpa using hk)

/-- The status of a decision: what the stages impose, if anything, over the verdict,
except over an error. -/
def decisionStatus (status : Status) (session : Option Status) : Status :=
  match session with
  | some imposed => if status = .ERROR then status else imposed
  | none => status

end Evaluator
end TranspileBench
