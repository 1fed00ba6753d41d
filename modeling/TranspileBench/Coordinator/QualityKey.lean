import TranspileBench.Coordinator.Gate

/-!
The key under which the store keeps a baseline quality row, against what a fresh batch
would put in the row. The workers, the structural checker, the replay and the verifier are
functions of what they read.
-/
namespace TranspileBench.Coordinator
open Evaluator (Role)

/-- A value as its canonical JSON text. -/
abbrev Json := String

/-- An archived file of the fixtures. -/
structure Fixture where
  file : String
  sha256 : String
  deriving DecidableEq

/-- The fields of a case that stay in its key. -/
structure CaseDefinition where
  role : Role
  circuit : Fixture
  target : Fixture
  semantic_reference : Json
  input_domain : String
  logical_qubits : Nat
  optimization_level : Option Nat
  constraint_form : String
  options : Json
  basis_gates : Option Json
  coupling_map : Option Json
  bindings : Option Json
  expected : Option Json
  timing : Option Json
  deriving DecidableEq

/-- A case; the key drops every field but its definition. -/
structure KeyedCase extends CaseDefinition where
  case_id : String
  weight : Json
  panel : Option String
  family : String
  size_band : String
  provenance : Json
  seeds_per_block : Nat
  timeout_s : Nat
  topology : String
  input_group : String
  modes : List String
  clifford_variant : Option Json
  native_basis : String
  variant : String
  active_qubits : Nat

/-- Settings that only shape cost sessions. -/
def COST_PROTOCOL_KEYS : List String :=
  ["warmups", "minimum_calls", "minimum_ns", "screen_rounds", "timing_rounds",
    "companion_rounds", "companion_seeds", "memory_processes", "rerun_multiplier"]

def WORKER_PROTOCOL : String := "qtb-worker/1"

/-- The serial environment of every worker, but for the hash seed. -/
def SERIAL : List (String × String) :=
  [("QISKIT_PARALLEL", "FALSE"), ("QISKIT_IGNORE_USER_SETTINGS", "TRUE"),
    ("RAYON_NUM_THREADS", "1"), ("OMP_NUM_THREADS", "1"), ("OPENBLAS_NUM_THREADS", "1"),
    ("MKL_NUM_THREADS", "1"), ("VECLIB_MAXIMUM_THREADS", "1"), ("PYTHONNOUSERSITE", "1"),
    ("PYTHONSAFEPATH", "1")]

/-- What `quality_cache_key` digests. -/
structure QualityKey (D : Type) where
  build : String
  case : D
  machine_cpu : Option String
  protocol : String
  harness : String
  block : String
  mode : String
  measurement_protocol : List (String × Json)
  worker_environment : List (String × String)
  deriving DecidableEq

/-- The two digests of the key, of a case definition and of the whole. -/
structure Digests (D K : Type) where
  case : CaseDefinition → D
  key : QualityKey D → K

/-- No two contents have one digest. -/
structure Digests.CollisionFree {D K : Type} (d : Digests D K) : Prop where
  case : ∀ a b, d.case a = d.case b → a = b
  key : ∀ a b, d.key a = d.key b → a = b

def qualityCacheKey {D K : Type} (d : Digests D K) (build : String) (case : KeyedCase)
    (machine_cpu : Option String) (measurement_protocol : List (String × Json))
    (harness_hash block mode hash_seed : String) : Except Exn K :=
  if ["quality", "prefix", "roundtrip"].contains mode then
    .ok (d.key {
      build := build
      case := d.case case.toCaseDefinition
      machine_cpu := machine_cpu
      protocol := WORKER_PROTOCOL
      harness := harness_hash
      block := block
      mode := mode
      measurement_protocol := measurement_protocol.filter fun entry =>
        !COST_PROTOCOL_KEYS.contains entry.1
      worker_environment := SERIAL ++ [("PYTHONHASHSEED", hash_seed)] })
  else .error (.harness "Cost observations cannot enter the revision cache")

/-- What a quality stage is run under: its profile, the baseline build, its host and the
measurement protocol of its policy. -/
structure QualitySetting where
  profile : String
  baseline : String
  machine_cpu : Option String
  measurement_protocol : List (String × Json)
  implementation : String

def baselineQualityKey {D K : Type} (d : Digests D K) (s : QualitySetting) (case : KeyedCase) :
    Except Exn K :=
  qualityCacheKey d s.baseline case s.machine_cpu s.measurement_protocol s.implementation "B0"
    "quality" "0"

/-! ## A fresh row -/

/-- A worker's row, with the exported output by its content. -/
structure Compiled where
  status : String
  output : String
  output_hash : String
  layout : Json
  free_parameters : List String
  deriving DecidableEq

/-- `structural_result`. -/
structure Structural where
  status : String
  output_hash : String
  D2 : Option Nat
  N2 : Option Nat
  union_width : Nat

/-- The deterministic programs that a batch runs. A worker compiles the circuit for the
target under the options of its case and never reads another field of it. -/
structure Tools where
  /-- A build's worker on a case and seed, with its pipeline edits. -/
  compile : String → CaseDefinition → List String → Nat → Compiled
  structural : (output : String) → (target : Fixture) → (layout : Json) →
    (logical_qubits : Nat) → (options : Json) → (constraint_form : String) → Structural
  /-- The replay of the routed prefix over the initial one. -/
  replay : Compiled → Compiled → String
  /-- The verifier on the input, the output and the layout. -/
  verify : CaseDefinition → Compiled → String

structure RowCheck where
  oracle : String
  status : String
  union_width : Option Nat := none
  deriving DecidableEq

/-- The committed part of a fresh row. -/
structure FreshRow where
  D2 : Option Nat
  N2 : Option Nat
  checks : List RowCheck

/-- `routing_replay_seeds` for one seed: scored and basis cases in full, static case guards
on ten seeds. -/
def replayed (case : KeyedCase) (seed : Nat) : Bool :=
  if case.role = .scored
      ∨ (case.role = .guard ∧ (case.panel = some "basis-cx" ∨ case.panel = some "basis-ecr")) then
    true
  else if case.role = .guard ∧ (case.panel = none ∨ case.panel = some "") then seed < 10
  else false

/-- Whether the confirm profile verifies an output's unitary. -/
def lite (s : QualitySetting) (case : KeyedCase) (seed : Nat) (result : Compiled) : Bool :=
  s.profile == "confirm-profile" && case.role == .scored && case.logical_qubits ≤ 25
    && seed < 10 && result.free_parameters.isEmpty

def dropStages (stages : List String) : List String := stages.map ("drop_stage:" ++ ·)

/-- `check_routing`: the check that C6 adds to a row. -/
def checkRouting (t : Tools) (s : QualitySetting) (case : KeyedCase) (seed : Nat)
    (result : Compiled) : RowCheck :=
  let initial := t.compile s.baseline case.toCaseDefinition (dropStages (STAGES.drop 1)) seed
  let routed := t.compile s.baseline case.toCaseDefinition (dropStages (STAGES.drop 3)) seed
  if initial.status ≠ "ok" ∨ routed.status ≠ "ok" then ⟨"C6", "unverified", none⟩
  else if result.layout = routed.layout ∨ case.optimization_level = some 3 then
    ⟨"C6", t.replay initial routed, none⟩
  else ⟨"C6", "mismatch", none⟩

/-- The C1-lite check of an eligible row; a wide one is not verified. -/
def checkLite (t : Tools) (case : KeyedCase) (result : Compiled) (union_width : Nat) : RowCheck :=
  if union_width ≤ 25 then ⟨"C1-lite", t.verify case.toCaseDefinition result, some union_width⟩
  else ⟨"C1-lite", "unverified", some union_width⟩

/-- The row that a fresh `quality_batch` commits for the baseline under one seed. -/
def freshRow (t : Tools) (s : QualitySetting) (case : KeyedCase) (seed : Nat) :
    Except Exn FreshRow :=
  let result := t.compile s.baseline case.toCaseDefinition [] seed
  if result.status ≠ "ok" then .ok ⟨none, none, []⟩
  else
    let structural := t.structural result.output case.target result.layout case.logical_qubits
      case.options case.constraint_form
    if structural.output_hash ≠ result.output_hash then
      .error (.harness "Exported output hash mismatch")
    else
      .ok {
        D2 := structural.D2
        N2 := structural.N2
        checks := [⟨"C0", structural.status, none⟩]
          ++ if structural.status ≠ "verified" then []
            else
              (if replayed case seed then [checkRouting t s case seed result] else [])
                ++ if lite s case seed result then
                    [checkLite t case result structural.union_width] else [] }

/-! ## What the key leaves open -/

/-- Two rows with the same metrics and checks of the same oracles. -/
def FreshRow.Same (a b : FreshRow) : Prop :=
  a.D2 = b.D2 ∧ a.N2 = b.N2
    ∧ ∀ oracle, oracle ∈ a.checks.map (·.oracle) ↔ oracle ∈ b.checks.map (·.oracle)

/-- Two batches commit the same row, or neither commits one. -/
def SameRow : Except Exn FreshRow → Except Exn FreshRow → Prop
  | .ok a, .ok b => a.Same b
  | .error _, .error _ => True
  | _, _ => False

/-- A row whose output compiles, is read back as it was exported and verifies. -/
def Checked (t : Tools) (s : QualitySetting) (case : KeyedCase) (seed : Nat) : Prop :=
  let result := t.compile s.baseline case.toCaseDefinition [] seed
  let structural := t.structural result.output case.target result.layout case.logical_qubits
    case.options case.constraint_form
  result.status = "ok" ∧ structural.output_hash = result.output_hash
    ∧ structural.status = "verified"

/-- The metrics of a case's compiled output. -/
def Tools.metrics (t : Tools) (build : String) (case : CaseDefinition) (seed : Nat) :
    Option Nat × Option Nat :=
  let result := t.compile build case [] seed
  let structural := t.structural result.output case.target result.layout case.logical_qubits
    case.options case.constraint_form
  (structural.D2, structural.N2)

theorem qualityCacheKey_inj {D K : Type} {d : Digests D K} (hd : d.CollisionFree)
    {s s' : QualitySetting} {case case' : KeyedCase}
    (h : baselineQualityKey d s case = baselineQualityKey d s' case') :
    s.baseline = s'.baseline ∧ case.toCaseDefinition = case'.toCaseDefinition := by
  have hkey := hd.key _ _ (Except.ok.inj h)
  exact ⟨congrArg QualityKey.build hkey, hd.case _ _ (congrArg QualityKey.case hkey)⟩

theorem freshRow_checked {t : Tools} {s : QualitySetting} {case : KeyedCase} {seed : Nat}
    (h : Checked t s case seed) :
    ∃ row, freshRow t s case seed = .ok row
      ∧ (row.D2, row.N2) = t.metrics s.baseline case.toCaseDefinition seed
      ∧ ∀ oracle, oracle ∈ row.checks.map (·.oracle) ↔
        oracle = "C0" ∨ (oracle = "C6" ∧ replayed case seed = true)
          ∨ (oracle = "C1-lite"
            ∧ lite s case seed (t.compile s.baseline case.toCaseDefinition [] seed) = true) := by
  obtain ⟨hok, hhash, hverified⟩ := h
  unfold freshRow
  simp only [hok, hhash, hverified, ne_eq, not_true_eq_false, if_false]
  refine ⟨_, rfl, rfl, fun oracle => ?_⟩
  have hc6 : (checkRouting t s case seed
      (t.compile s.baseline case.toCaseDefinition [] seed)).oracle = "C6" := by
    unfold checkRouting
    simp only
    split_ifs <;> rfl
  have hlite : ∀ width, (checkLite t case
      (t.compile s.baseline case.toCaseDefinition [] seed) width).oracle = "C1-lite" := by
    intro width
    unfold checkLite
    split_ifs <;> rfl
  cases hr : replayed case seed <;>
    cases hl : lite s case seed (t.compile s.baseline case.toCaseDefinition [] seed) <;>
    simp [hc6, hlite]

/-- Rows that are not checked depend on the key alone. -/
theorem freshRow_unchecked {t : Tools} {s s' : QualitySetting} {case case' : KeyedCase}
    {seed : Nat} (hbuild : s.baseline = s'.baseline)
    (hcase : case.toCaseDefinition = case'.toCaseDefinition) (h : ¬ Checked t s case seed) :
    freshRow t s case seed = freshRow t s' case' seed := by
  obtain ⟨definition⟩ := case
  obtain ⟨definition'⟩ := case'
  cases hcase
  unfold freshRow
  rw [← hbuild]
  simp only
  by_cases hstatus : (t.compile s.baseline definition [] seed).status = "ok"
  · rw [if_neg (not_not.mpr hstatus), if_neg (not_not.mpr hstatus)]
    by_cases hhash : (t.structural (t.compile s.baseline definition [] seed).output
        definition.target (t.compile s.baseline definition [] seed).layout
        definition.logical_qubits definition.options definition.constraint_form).output_hash
        = (t.compile s.baseline definition [] seed).output_hash
    · rw [if_neg (not_not.mpr hhash), if_neg (not_not.mpr hhash)]
      have hunverified : (t.structural (t.compile s.baseline definition [] seed).output
          definition.target (t.compile s.baseline definition [] seed).layout
          definition.logical_qubits definition.options definition.constraint_form).status
          ≠ "verified" :=
        fun hverified => h ⟨hstatus, hhash, hverified⟩
      rw [if_pos hunverified, if_pos hunverified]
    · rw [if_pos hhash, if_pos hhash]
  · rw [if_pos hstatus, if_pos hstatus]

theorem SameRow.of_eq {a b : Except Exn FreshRow} (h : a = b) : SameRow a b := by
  subst h
  cases a with
  | error e => trivial
  | ok row => exact ⟨rfl, rfl, fun _ => Iff.rfl⟩

/-- What chooses C6 for a guard: its panel, which the key drops. -/
def guardReplayed (panel : Option String) (seed : Nat) : Bool :=
  if panel = some "basis-cx" ∨ panel = some "basis-ecr" then true
  else if panel = none ∨ panel = some "" then seed < 10
  else false

theorem replayed_eq_iff {case case' : KeyedCase} {seed : Nat} (hrole : case.role = case'.role) :
    replayed case seed = replayed case' seed ↔
      (case.role = .guard → guardReplayed case.panel seed = guardReplayed case'.panel seed) := by
  unfold replayed guardReplayed
  rw [← hrole]
  cases case.role <;> simp

/-- C1-lite is chosen by the profile, which the key drops too. -/
theorem lite_eq_iff {s s' : QualitySetting} {case case' : KeyedCase} {seed : Nat}
    {result : Compiled} (hcase : case.toCaseDefinition = case'.toCaseDefinition) :
    lite s case seed result = lite s' case' seed result ↔
      (case.role = .scored → case.logical_qubits ≤ 25 → seed < 10 →
        result.free_parameters = [] →
        (s.profile = "confirm-profile" ↔ s'.profile = "confirm-profile")) := by
  unfold lite
  rw [show case'.role = case.role from congrArg CaseDefinition.role hcase.symm,
    show case'.logical_qubits = case.logical_qubits from
      congrArg CaseDefinition.logical_qubits hcase.symm, Bool.eq_iff_iff]
  simp only [Bool.and_eq_true, beq_iff_eq, decide_eq_true_eq, List.isEmpty_iff]
  tauto

/-- The rows of two requests under one key agree exactly when no check of theirs hangs on
what the key drops: a guard's panel chooses C6, the session's profile C1-lite. -/
theorem quality_key_sound_iff {D K : Type} (d : Digests D K) (hd : d.CollisionFree) (t : Tools)
    (s s' : QualitySetting) (case case' : KeyedCase) (seed : Nat)
    (hkey : baselineQualityKey d s case = baselineQualityKey d s' case') :
    SameRow (freshRow t s case seed) (freshRow t s' case' seed) ↔
      (Checked t s case seed →
        (case.role = .guard → guardReplayed case.panel seed = guardReplayed case'.panel seed)
          ∧ (case.role = .scored → case.logical_qubits ≤ 25 → seed < 10 →
            (t.compile s.baseline case.toCaseDefinition [] seed).free_parameters = [] →
            (s.profile = "confirm-profile" ↔ s'.profile = "confirm-profile"))) := by
  obtain ⟨hbuild, hcase⟩ := qualityCacheKey_inj hd hkey
  by_cases hchecked : Checked t s case seed
  · have hchecked' : Checked t s' case' seed := by
      unfold Checked at hchecked ⊢
      rw [← hbuild, ← hcase]
      exact hchecked
    obtain ⟨row, hrow, hmetrics, horacles⟩ := freshRow_checked hchecked
    obtain ⟨row', hrow', hmetrics', horacles'⟩ := freshRow_checked hchecked'
    rw [← hbuild, ← hcase] at hmetrics' horacles'
    obtain ⟨hd2, hn2⟩ := Prod.mk.inj (hmetrics.trans hmetrics'.symm)
    have hlite_iff : lite s case seed (t.compile s.baseline case.toCaseDefinition [] seed)
        = lite s' case' seed (t.compile s.baseline case.toCaseDefinition [] seed) ↔ _ :=
      lite_eq_iff hcase
    rw [hrow, hrow', ← replayed_eq_iff (congrArg CaseDefinition.role hcase), ← hlite_iff]
    constructor
    · rintro ⟨-, -, hsame⟩ -
      constructor
      · have hc6 := hsame "C6"
        rw [horacles, horacles'] at hc6
        exact Bool.eq_iff_iff.mpr (by simpa using hc6)
      · have hlite := hsame "C1-lite"
        rw [horacles, horacles'] at hlite
        exact Bool.eq_iff_iff.mpr (by simpa using hlite)
    · intro hscope
      obtain ⟨hreplayed, hlite⟩ := hscope hchecked
      refine ⟨hd2, hn2, fun oracle => ?_⟩
      rw [horacles, horacles', hreplayed, hlite]
  · exact iff_of_true (.of_eq (freshRow_unchecked hbuild hcase hchecked))
      fun h => absurd h hchecked

/-! ## A scored case of fourteen qubits, in a session of either profile -/

def sampleDefinition : CaseDefinition where
  role := .scored
  circuit := ⟨"circuits/qft_cp_n14.ops.jsonl.gz", "c1"⟩
  target := ⟨"targets/melbourne_14_u.target.json", "t1"⟩
  semantic_reference := "\x7b\"kind\":\"input\"\x7d"
  input_domain := "all_zero"
  logical_qubits := 14
  optimization_level := some 2
  constraint_form := "target"
  options := "\x7b\x7d"
  basis_gates := none
  coupling_map := none
  bindings := none
  expected := none
  timing := none

def keyedCase (case_id : String) : KeyedCase where
  toCaseDefinition := sampleDefinition
  case_id := case_id
  weight := "1.0"
  panel := none
  family := "G1"
  size_band := "small"
  provenance := "null"
  seeds_per_block := 20
  timeout_s := 120
  topology := "melbourne"
  input_group := "qft_cp_n14"
  modes := ["quality", "prefix"]
  clifford_variant := none
  native_basis := "u"
  variant := "numeric"
  active_qubits := 14

def qualitySetting (profile : String) : QualitySetting where
  profile := profile
  baseline := "build"
  machine_cpu := some "cpu"
  measurement_protocol := [("quality_batch_size", "25")]
  implementation := "harness"

def contents : Digests CaseDefinition (QualityKey CaseDefinition) := ⟨id, id⟩

theorem contents_collisionFree : contents.CollisionFree := ⟨fun _ _ h => h, fun _ _ h => h⟩

/-- Every output compiles, verifies and replays. -/
def sampleTools : Tools where
  compile _ _ _ _ := ⟨"ok", "output", "hash", "null", []⟩
  structural _ _ _ _ _ _ := ⟨"verified", "hash", some 7, some 3, 14⟩
  replay _ _ := "verified"
  verify _ _ := "verified"

theorem quality_key_sound_iff_sample :
    SameRow (freshRow sampleTools (qualitySetting "confirm-profile") (keyedCase "a") 0)
      (freshRow sampleTools (qualitySetting "confirm-profile") (keyedCase "b") 0) :=
  (quality_key_sound_iff contents contents_collisionFree sampleTools
    (qualitySetting "confirm-profile") (qualitySetting "confirm-profile") (keyedCase "a")
    (keyedCase "b") 0 rfl).mpr fun _ => ⟨fun _ => rfl, fun _ _ _ _ => Iff.rfl⟩

/-- The two profiles share a key under which only the confirm profile's row has a C1-lite
check. -/
theorem quality_key_misses_profile :
    baselineQualityKey contents (qualitySetting "iterations-profile") (keyedCase "a")
        = baselineQualityKey contents (qualitySetting "confirm-profile") (keyedCase "a")
      ∧ ¬ SameRow (freshRow sampleTools (qualitySetting "iterations-profile") (keyedCase "a") 0)
        (freshRow sampleTools (qualitySetting "confirm-profile") (keyedCase "a") 0) := by
  refine ⟨rfl, ?_⟩
  rintro ⟨-, -, h⟩
  have hlite := (h "C1-lite").mpr (by decide)
  revert hlite
  decide

end TranspileBench.Coordinator
