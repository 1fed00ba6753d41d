import TranspileBench.Coordinator.Costs
import TranspileBench.Lib.RecordLog
import TranspileBench.Lib.Interleaving
import Mathlib.Logic.Equiv.List
import Mathlib.Data.Countable.Basic

/-!
The session directory: what every stage owns, the locks that stages, `clean`,
`amend` and `decide` take, and the readings of it that the stages share.
-/
namespace TranspileBench.Coordinator
open Evaluator

inductive Stage
  | compile | quality | correctness | unit_tests | cost
  deriving DecidableEq

def Stage.name : Stage → String
  | .compile => "compile"
  | .quality => "quality"
  | .correctness => "correctness"
  | .unit_tests => "unit-tests"
  | .cost => "cost"

def STAGE_ORDER : List Stage := [.compile, .quality, .correctness, .unit_tests, .cost]

def PREREQUISITES : Stage → List Stage
  | .compile => []
  | .quality => [.compile]
  | .correctness => [.quality]
  | .unit_tests => [.quality]
  | .cost => [.correctness]

def GATED : List Stage := [.correctness, .unit_tests, .cost]

inductive StageStatus
  | running | complete | failed | noisy | skipped
  deriving DecidableEq

def StageStatus.name : StageStatus → String
  | .running => "running"
  | .complete => "complete"
  | .failed => "failed"
  | .noisy => "noisy"
  | .skipped => "skipped"

def FINAL : List StageStatus := [.complete, .skipped]

/-- Started and not finished: a killed invocation or a contaminated one. -/
def UNFINISHED : List StageStatus := [.running, .noisy]

/-- `state.json` of a stage. -/
structure StageState where
  status : StageStatus
  attempts : Nat
  gate : Option (GateState × String) := none
  reason : Option String := none
  deriving DecidableEq

/-- `_status`. -/
def statusText : Option StageState → String
  | none => "not started"
  | some state => state.status.name

/-- The id of a stage's crash record. -/
def Stage.errorId (s : Stage) : String := "harness/error/" ++ s.name

/-- What a stage owns: its state and evidence, and its own output files. Only quality
writes observations, only correctness Clifford rows, only cost bundles. -/
structure StageFiles (N : Type) where
  state : Option StageState := none
  evidence : List (Record N) := []
  observations : List UInt8 := []
  clifford : List CliffordRow := []
  bundles : String → Directory N := fun _ _ => none

inductive CleanStatus
  | cleaning | complete
  deriving DecidableEq

/-- Where a process is: in no stage, between a stage's locks, or in its body with the
`run.json` it opened. -/
inductive Phase (N : Type)
  | outside
  | inside (s : Stage)
  | body (s : Stage) (view : Run N)

/-- What an observation's id is the digest of. -/
structure ObservationKey where
  case_id : String
  case_hash : String
  build_id : String
  revision : Revision
  seed : Nat
  seed_block : String
  deriving DecidableEq

/-- The fixed functions a session relies on: the evidence extension, the encoding of
rows, and the digests, which are taken to be free of collisions. -/
structure Platform (N H : Type) extends Setting N where
  codec : RecordLog.LineCodec (Observation N)
  caseHash : Case N → String
  observationId : ObservationKey → String
  observationId_injective : Function.Injective observationId
  sha256 : StageState → H
  sha256_injective : Function.Injective sha256

/-- A session directory with its locks. `phase` and `torn` are history: where each
process is, and whether a quality invocation has ended with a failure record whose
observation it had not committed. -/
structure World (N H : Type) where
  run : Option (Run N)
  stages : Stage → StageFiles N
  clean : Option CleanStatus
  /-- The stage state hashes of `decision.json`. -/
  decision : Option (Stage → Option H)
  shared : Nat → Bool
  exclusive : Option Nat
  stageLock : Stage → Option Nat
  phase : Nat → Phase N
  torn : Prop

variable {N H : Type}

def World.empty : World N H where
  run := none
  stages _ := {}
  clean := none
  decision := none
  shared _ := false
  exclusive := none
  stageLock _ := none
  phase _ := .outside
  torn := False

def World.setStage (w : World N H) (s : Stage) (f : StageFiles N) : World N H :=
  { w with stages := Function.update w.stages s f }

@[simp]
theorem World.setStage_same (w : World N H) (s : Stage) (f : StageFiles N) :
    (w.setStage s f).stages s = f := by simp [World.setStage]

@[simp]
theorem World.setStage_other (w : World N H) {s t : Stage} (f : StageFiles N) (h : t ≠ s) :
    (w.setStage s f).stages t = w.stages t := by simp [World.setStage, h]

def stageLens (s : Stage) : Lens (World N H) (StageFiles N) where
  get w := w.stages s
  set w f := w.setStage s f
  get_set _ _ := by simp
  set_get w := by simp [World.setStage]
  set_set _ _ _ := by simp [World.setStage]

/-- `clean` and `amend` take the lifecycle lock exclusively, everyone else shared. -/
def World.takeShared (w : World N H) (p : Nat) : World N H :=
  { w with shared := Function.update w.shared p true }

def World.dropShared (w : World N H) (p : Nat) : World N H :=
  { w with shared := Function.update w.shared p false }

def World.takeExclusive (w : World N H) (p : Nat) : World N H := { w with exclusive := some p }

def World.dropExclusive (w : World N H) : World N H := { w with exclusive := none }

def World.mark (w : World N H) (p : Nat) (phase : Phase N) : World N H :=
  { w with phase := Function.update w.phase p phase }

@[simp]
theorem World.mark_same (w : World N H) (p : Nat) (phase : Phase N) :
    (w.mark p phase).phase p = phase := by simp [World.mark]

@[simp]
theorem World.mark_other (w : World N H) {p q : Nat} (phase : Phase N) (h : q ≠ p) :
    (w.mark p phase).phase q = w.phase q := by simp [World.mark, h]

def World.takeStage (w : World N H) (p : Nat) (s : Stage) : World N H :=
  { w with stageLock := Function.update w.stageLock s (some p) }.mark p (.inside s)

/-- A failure record whose observation is not in the file. -/
def Unanswered (platform : Platform N H) (f : StageFiles N) : Prop :=
  ∃ rows, RecordLog.readRecords platform.codec f.observations = some rows ∧
    ∃ r ∈ f.evidence, ∃ id, r.id = "failure/" ++ id ∧ ∀ row ∈ rows, row.id ≠ id

def World.dropStage (platform : Platform N H) (w : World N H) (p : Nat) (s : Stage) : World N H :=
  { w with
    stageLock := Function.update w.stageLock s none
    torn := w.torn ∨ (s = Stage.quality ∧ Unanswered platform (w.stages .quality)) }.mark p .outside

/-- A process ends or is killed: it lets go of all its locks. -/
def World.release (platform : Platform N H) (w : World N H) (p : Nat) : World N H :=
  { w with
    shared := Function.update w.shared p false
    exclusive := if w.exclusive = some p then none else w.exclusive
    stageLock := fun s => if w.stageLock s = some p then none else w.stageLock s
    torn := w.torn ∨ (w.stageLock .quality = some p ∧
      Unanswered platform (w.stages .quality)) }.mark p .outside

def World.status (w : World N H) (s : Stage) : Option StageStatus :=
  (w.stages s).state.map (·.status)

/-- A stage that never runs again. -/
def World.Final (w : World N H) (s : Stage) : Prop := ∃ status ∈ FINAL, w.status s = some status

/-- The evidence of a complete stage, the crash record of a failed one, else nothing. -/
def committedRows (s : Stage) (state : Option StageState) (evidence : List (Record N)) :
    List (Record N) :=
  match state with
  | none => []
  | some st =>
      if st.status = .complete then evidence
      else if st.status = .failed then evidence.filter (·.id == s.errorId)
      else []

/-- `committed_evidence`. -/
def World.committed (w : World N H) (s : Stage) : List (Record N) :=
  committedRows s (w.stages s).state (w.stages s).evidence

/-- `read_records` of the observations. -/
def readRows (platform : Platform N H) (file : List UInt8) : Except Exn (List (Observation N)) :=
  match RecordLog.readRecords platform.codec file with
  | some rows => .ok rows
  | none => .error (.harness "Corrupt completed record in observations.jsonl")

/-- `cost_due` over the rows and the committed compile, quality and correctness evidence. -/
def gradeCostDue [Arith N] (run : Run N) (rows : List (Observation N))
    (evidence : List (Record N)) : Except Exn (Option CostDue) := do
  let (records, _, _) ← evaluateQuality run.profile.manifest run.profile.policy rows evidence
  pure (costStageDue run.builds records)

def World.costDue [Arith N] (platform : Platform N H) (w : World N H) (run : Run N) :
    Except Exn (Option CostDue) := do
  let rows ← readRows platform (w.stages .quality).observations
  gradeCostDue run rows
    (w.committed .compile ++ w.committed .quality ++ w.committed .correctness)

/-- `effective(run, stage)`: the requirements of the amendments always, their harness
identities only for the stage they name, which is cost. -/
def effectiveFor (run : Run N) (s : Stage) : Run N :=
  if s = .cost then
    match run.amendments.getLast? with
    | none => effective run
    | some last =>
        { effective run with coordinator := last.hashes.coordinator,
                             implementation := some last.hashes.implementation }
  else effective run

@[simp]
theorem effective_profile (run : Run N) : (effective run).profile = run.profile := rfl

@[simp]
theorem effectiveFor_profile (run : Run N) (s : Stage) :
    (effectiveFor run s).profile = run.profile := by
  unfold effectiveFor
  split
  · split <;> rfl
  · rfl

/-! ## The platforms exist: rows and digests can be told apart by numbers -/

section Unary
variable {N : Type}

theorem countable_string : Countable String :=
  have : Countable Char := (Function.LeftInverse.injective Char.ofNat_toNat).countable
  (Function.Injective.countable (f := String.toList) fun _ _ => String.toList_inj.mp)

theorem countable_check : Countable Check := by
  have := countable_string
  refine Function.Injective.countable (f := fun c : Check => (c.oracle, c.status, c.reference_hash,
    c.input_domain, c.mode, c.covers, c.substituted, c.union_width)) ?_
  rintro ⟨⟩ ⟨⟩ h
  simpa using h

theorem isBaseline_injective : Function.Injective fun r : Revision => decide (r = .baseline) := by
  intro a b h
  cases a <;> cases b <;> simp_all

theorem countable_observation [Countable N] : Countable (Observation N) := by
  have := countable_string
  have := countable_check
  refine Function.Injective.countable (f := fun o : Observation N => (o.case_id, o.case_hash,
    decide (o.revision = .baseline), o.build_id, o.seed, o.seed_block, o.mode, o.id, o.status,
    o.not_attempted, o.error, o.metric .D2, o.metric .N2, o.output_hash, o.checks,
    o.cached_from)) ?_
  rintro ⟨⟩ ⟨⟩ h
  simp only [Prod.mk.injEq] at h
  obtain ⟨rfl, rfl, hrevision, rfl, rfl, rfl, rfl, rfl, rfl, rfl, rfl, hD2, hN2, rfl, rfl, rfl⟩ := h
  obtain rfl := isBaseline_injective hrevision
  congr
  funext m
  cases m
  · exact hD2
  · exact hN2

theorem countable_key : Countable ObservationKey := by
  have := countable_string
  refine Function.Injective.countable (f := fun k : ObservationKey => (k.case_id, k.case_hash,
    k.build_id, decide (k.revision = .baseline), k.seed, k.seed_block)) ?_
  rintro ⟨⟩ ⟨⟩ h
  simp only [Prod.mk.injEq] at h
  obtain ⟨rfl, rfl, rfl, hrevision, rfl, rfl⟩ := h
  obtain rfl := isBaseline_injective hrevision
  rfl

noncomputable def unary (α : Type) [Countable α] (a : α) : Nat :=
  (exists_injective_nat α).choose a

theorem unary_injective (α : Type) [Countable α] : Function.Injective (unary α) :=
  (exists_injective_nat α).choose_spec

section Codec
variable [Countable N]

attribute [local instance] countable_observation countable_key

/-- A platform that writes its rows and digests in unary. -/
noncomputable def Platform.unary (setting : Setting N) : Platform N StageState where
  toSetting := setting
  codec :=
    { encode := fun row => List.replicate (Coordinator.unary _ row) 0
      decode := fun line => open Classical in
        if h : ∃ row : Observation N, Coordinator.unary _ row = line.length then some h.choose
        else none
      newline_free := fun row h => by simpa [RecordLog.newline] using List.eq_of_mem_replicate h
      decode_encode := fun row => by
        have h : ∃ row' : Observation N, Coordinator.unary _ row'
            = (List.replicate (Coordinator.unary _ row) (0 : UInt8)).length := ⟨row, by simp⟩
        rw [dif_pos h]
        exact congrArg some (unary_injective _ (by simpa using h.choose_spec)) }
  caseHash := fun c => c.case_id
  observationId := fun key => String.ofList (List.replicate (Coordinator.unary _ key) 'x')
  observationId_injective := by
    intro a b h
    have hlist := congrArg (fun s : String => s.toList.length) h
    exact unary_injective _ (by simpa using hlist)
  sha256 := id
  sha256_injective := Function.injective_id

end Codec
end Unary
end TranspileBench.Coordinator
