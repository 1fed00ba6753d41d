import TranspileBench.Coordinator.Playback
import TranspileBench.Coordinator.GateAgreement
import Mathlib

/-!
The failure records of a complete quality stage against its rows. The record and the row are two
writes; an invocation that ends between them leaves a record nobody answers, and when the seed
then compiles the record stays.
-/
namespace TranspileBench.Coordinator
open Evaluator

variable {N H : Type}

/-- An invocation of quality ends, or is killed, between a failure record and its row. -/
def EndsTorn (platform : Platform N H) (w w' : World N H) : Prop :=
  w.stageLock .quality ≠ none ∧ w'.stageLock .quality = none
    ∧ Unanswered platform (w.stages .quality)

section Torn
variable {platform : Platform N H} {p : Nat} {w w' : World N H}

/-- A step that ends no quality invocation tears nothing. -/
theorem torn_iff_of (torn : w'.torn = w.torn)
    (lock : w'.stageLock .quality = none → w.stageLock .quality = none) :
    w'.torn ↔ w.torn ∨ EndsTorn platform w w' := by
  rw [torn]
  exact ⟨.inl, Or.rec id fun h => absurd (lock h.2.1) h.1⟩

/-- A session is torn by an invocation that ends so, and by nothing else. -/
theorem Effect.torn_iff [Arith N] (h : Effect platform p w w') (hinv : Inv platform w) :
    w'.torn ↔ w.torn ∨ EndsTorn platform w w' := by
  cases h with
  | takeStage s shared free outside =>
      refine torn_iff_of rfl fun hnone => ?_
      by_cases hs : s = .quality
      · simp [World.takeStage, World.mark, hs] at hnone
      · simpa [World.takeStage, World.mark, Ne.symm hs] using hnone
  | dropStage s inside =>
      have hlock := hinv.inside p s inside
      by_cases hs : s = .quality
      · subst hs
        simp [EndsTorn, World.dropStage, World.mark, hlock]
      · refine torn_iff_of ?_ ?_
        · simp [World.dropStage, World.mark, hs]
        · simp [World.dropStage, World.mark, Ne.symm hs]
  | idle | takeShared | dropShared | enter | leave | takeExclusive | dropExclusive | write | save
  | amend | clean | decide => exact torn_iff_of rfl id

theorem release_torn_iff : (w.release platform p).torn ↔
    w.torn ∨ EndsTorn platform w (w.release platform p) := by
  by_cases hlock : w.stageLock .quality = some p
  · simp [EndsTorn, World.release, World.mark, hlock]
  · refine torn_iff_of ?_ ?_
    · simp [World.release, World.mark, hlock]
    · simp [World.release, World.mark, hlock]

end Torn

section Runs
variable [Arith N] [DecidableEq N] [DecidableEq H] {platform : Platform N H}

/-- A session is torn once an invocation of its run has ended so. -/
theorem torn_iff_ends (r : (sessionSystem platform).Run) (i : ℕ) :
    (r.config i).world.torn ↔
      ∃ j < i, EndsTorn platform (r.config j).world (r.config (j + 1)).world := by
  induction i with
  | zero =>
      have hempty : (r.config 0).world = World.empty := r.initial.1
      simp [hempty, World.empty]
  | succ i ih =>
      have step : (r.config (i + 1)).world.torn ↔ (r.config i).world.torn ∨
          EndsTorn platform (r.config i).world (r.config (i + 1)).world := by
        have hholds := (sessionOutline platform).holds (r.reachable _ i)
        cases r.step i with
        | inr same =>
            rw [same]
            exact torn_iff_of rfl id
        | inl next =>
            rcases (hholds.step _ next).2 with heq | ⟨p, heffect⟩ | ⟨p, hrelease⟩ | henv
            · rw [heq]
              exact torn_iff_of rfl id
            · exact Effect.torn_iff heffect hholds.1
            · rw [hrelease]
              exact release_torn_iff
            · exact henv.elim
      rw [step, ih, Nat.exists_lt_succ_right]

end Runs

/-- The evidence of a complete quality stage has a failure record for the rows that did not end
`ok`, each as its row implies, and for no others. -/
def World.FailuresMatch (platform : Platform N H) (w : World N H) : Prop :=
  w.status .quality = some .complete → ∃ rows,
    readRows platform (w.stages .quality).observations = .ok rows
      ∧ (∀ row ∈ rows, row.status ≠ "ok" → failureRecord row ∈ w.committed .quality)
      ∧ ∀ r ∈ w.committed .quality, ∀ id, r.id = "failure/" ++ id →
          ∃ row ∈ rows, row.id = id ∧ row.status ≠ "ok" ∧ r = failureRecord row

theorem Inv.failuresMatch [Arith N] {platform : Platform N H} {w : World N H}
    (h : Inv platform w) (whole : ¬ w.torn) : w.FailuresMatch platform := by
  intro hcomplete
  obtain ⟨st, hst, hstatus⟩ := Option.map_eq_some_iff.mp hcomplete
  obtain ⟨run, _, rows, _, hrun, _, hread, _, _, _, htorn⟩ :=
    (h.stage .quality).complete st hst hstatus
  obtain ⟨rows', hobserved⟩ := h.observed run hrun
  obtain rfl : rows' = rows := by
    rw [readRows, hobserved.file.readRecords] at hread
    exact Except.ok.inj hread
  have tidy := (hobserved.agree.resolve_left whole).tidy hobserved.file (htorn.resolve_left whole)
  rw [committed_of_complete hcomplete]
  refine ⟨rows', hread, tidy.recorded, fun r hr id hid => ?_⟩
  obtain ⟨row, hrow, hbad, heq⟩ := tidy.answered r hr id hid
  exact ⟨row, hrow, failure_id_inj ((congrArg (·.id) heq).symm.trans hid), hbad, heq⟩

/-- While no invocation of quality ends between a failure record and its row, the failure records
of a complete stage are those of its rows. -/
theorem failures_match [Arith N] [DecidableEq N] [DecidableEq H] (platform : Platform N H)
    (r : (sessionSystem platform).Run) (i : ℕ)
    (whole : ∀ j < i, ¬ EndsTorn platform (r.config j).world (r.config (j + 1)).world) :
    (r.config i).world.FailuresMatch platform := by
  refine (session_inv platform (r.reachable _ i)).failuresMatch fun htorn => ?_
  obtain ⟨j, hj, hends⟩ := (torn_iff_ends r i).mp htorn
  exact whole j hj hends

/-! ## A session of one canary with identical builds -/

section Sample
attribute [local instance] integerArith

def canaryCase : Case Int :=
  { sampleCase with case_id := "canary", role := .canary, panel := none, seeds_per_block := 1 }

def canaryInputs : CompileInputs Int where
  baseline := "main"
  evolved := "candidate"
  profile := ⟨⟨false, [canaryCase]⟩, samplePolicy, by decide⟩
  store := "store"
  session := none
  harness := ⟨"coordinator", "harness"⟩
  run_id := "run"

def canaryRun : Run Int := canaryInputs.compiled [] [] ⟨"a", some "k"⟩ ⟨"a", none⟩

/-- A measurement whose baseline worker fails. -/
def canaryMeasurement : Measurement canaryRun where
  case := canaryCase
  baseline := ⟨"a", some "k"⟩
  evolved := ⟨"a", none⟩
  report
    | .baseline => [⟨0, "failed", false, none, fun _ => some 1, some "o", []⟩]
    | .evolved => [⟨0, "ok", false, none, fun _ => some 1, some "o", []⟩]
  cases := rfl
  builds := rfl
  batched := rfl
  sized := by decide
  reported revision := by cases revision <;> exact .refl _

variable {platform : Platform Int StageState}

variable (platform) in
theorem canary_graded (evidence : List (Record Int)) :
    ∃ gate, qualityGate canaryRun (canaryMeasurement.observations platform) evidence
      = .ok gate := by
  have indexed : ∃ observations,
      indexObservations [] (canaryMeasurement.observations platform) = .ok observations := ⟨_, rfl⟩
  obtain ⟨observations, hindexed⟩ := indexed
  have graded : ∃ out, gradePanels canaryRun.profile.manifest canaryRun.profile.policy
      (panelValid canaryRun.profile.policy evidence) observations = .ok out := by
    cases panelValid canaryRun.profile.policy evidence with
    | false => exact ⟨_, rfl⟩
    | true => exact ⟨_, rfl⟩
  obtain ⟨out, hout⟩ := graded
  exact ⟨_, Fallible.bind_eq_ok.mpr
    ⟨_, evaluateQuality_eq_ok.mpr ⟨observations, out, hindexed, hout, rfl, rfl, rfl⟩, rfl⟩⟩

theorem canary_startable :
    Startable platform compiledFiles .quality canaryRun canaryInputs.harness where
  later := by decide
  live := rfl
  finals t ht := by
    rw [List.mem_singleton.mp ht]
    rfl
  pinned := rfl
  stored := by decide
  baseline := rfl
  ungated v _ := .ret none v

/-- The quality files of the measured session. -/
def canaryFiles (platform : Platform Int StageState) (gate : GateState × String) :
    StageFiles Int :=
  (canaryMeasurement.written platform {}).settled 1 (some gate)

variable (platform) in
theorem reachable_canary : ∃ (gate : GateState × String) (w : World Int StageState),
    (sessionSystem platform).Reachable ⟨w, fun _ => none⟩
      ∧ w.stages .quality = canaryFiles platform gate
      ∧ (w.torn ↔ Unanswered platform (canaryFiles platform gate)) := by
  obtain ⟨w, reached, hrest, hwhole⟩ :=
    reachable_compile platform canaryInputs [] [] ⟨"a", some "k"⟩ ⟨"a", none⟩
  obtain ⟨gate, hgate⟩ := canary_graded platform
    (committedOf compiledFiles .compile ++ (canaryMeasurement.written platform {}).evidence)
  obtain ⟨w', ended, hmeasured, htorn⟩ := reachable_stage reached hrest canary_startable
    fun v stages => canaryMeasurement.exec_body rfl hgate stages
  have hfiles : w'.stages .quality = canaryFiles platform gate := by
    rw [hmeasured.stages]
    rfl
  refine ⟨gate, w', ended, hfiles, htorn.trans ?_⟩
  rw [← hmeasured.stages, hfiles]
  simp [hwhole]

/-- A session whose baseline worker fails and that is not interrupted. -/
theorem failures_match_canary : ∃ (r : (sessionSystem (Platform.unary sampleSetting)).Run) (i : ℕ),
    (r.config i).world.status .quality = some .complete
      ∧ (r.config i).world.FailuresMatch (Platform.unary sampleSetting) := by
  obtain ⟨gate, w, reached, hfiles, htorn⟩ := reachable_canary (Platform.unary sampleSetting)
  set rows := canaryMeasurement.observations (Platform.unary sampleSetting) with hrows
  have holds : RecordLog.Holds (Platform.unary sampleSetting).codec rows
      (canaryFiles (Platform.unary sampleSetting) gate).observations := .of_frame _
  have answered : ¬ Unanswered (Platform.unary sampleSetting)
      (canaryFiles (Platform.unary sampleSetting) gate) := by
    rintro ⟨rows', hread, record, hrecord, id, hid, hnone⟩
    obtain rfl : rows = rows' := Option.some.inj (holds.readRecords.symm.trans hread)
    have hcommit : record ∈ commitAll rows [] :=
      (mem_foldl_putRecord fun _ hx heq =>
        (closingRecords_aggregate hx).id id (heq.trans hid)).mp hrecord
    have hne : rows ≠ [] := List.cons_ne_nil _ _
    have committed : commitAll rows [] = [failureRecord (rows.head hne)] := rfl
    rw [committed, List.mem_singleton] at hcommit
    rw [hcommit] at hid
    exact hnone _ (List.head_mem _) (failure_id_inj hid)
  obtain ⟨r, i, hi⟩ := reached.exists_run
  have whole : ∀ j < i, ¬ EndsTorn (Platform.unary sampleSetting) (r.config j).world
      (r.config (j + 1)).world := by
    intro j hj hends
    have hi' : (r.config i).world.torn := (torn_iff_ends r i).mpr ⟨j, hj, hends⟩
    rw [hi] at hi'
    exact answered (htorn.mp hi')
  refine ⟨r, i, ?_, failures_match _ r i whole⟩
  rw [hi, World.status, hfiles]
  rfl

end Sample

end TranspileBench.Coordinator
