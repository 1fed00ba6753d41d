import TranspileBench.Coordinator.Maintenance
import TranspileBench.Coordinator.Bodies
import TranspileBench.Evaluator.Frame

/-!
An invocation that is refused. Every refusal comes before the first write of the invocation,
and after it nothing is refused any more: what the body raises fails the stage.
-/
namespace TranspileBench.Coordinator
open Evaluator

variable {N H α β : Type}

/-- `Precondition` and `Usage`. -/
def Refusal (e : Exn) : Prop := (∃ text, e = .precondition text) ∨ ∃ text, e = .usage text

theorem osError.not_refusal {e : Exn} (h : osError e) : ¬ Refusal e := by
  obtain ⟨text, rfl⟩ := h
  simp [Refusal]

/-- The files of the session are as they were; only locks may differ. -/
structure Untouched (w w' : World N H) : Prop where
  run : w'.run = w.run
  stages : w'.stages = w.stages
  clean : w'.clean = w.clean
  decision : w'.decision = w.decision

/-- What an invocation may raise once it has written. -/
def Late (e : Exn) : Prop := ¬ Refusal e

/-- A program that is refused only with the files as they were in `w₀`. -/
def RefusedUntouched (w₀ : World N H) (p : Prog (World N H) Exn α) : Prop :=
  ∀ w, Untouched w₀ w →
    p.wp .free (fun _ _ => True) (fun e w' => Refusal e → Untouched w₀ w') w

section Rules
variable {w₀ w : World N H} {A : World N H → Prop} {p : Prog (World N H) Exn α}
  {f : α → Prog (World N H) Exn β}

theorem keeps_fallible_free {errors : Exn → Prop} {R : World N H → β → World N H → Prop}
    (act : ∀ w b w', A w → R w b w' → A w') :
    Prog.Keeps .free A (Prog.fallible errors R : Prog (World N H) Exn β) :=
  fun w hw => Prog.wp_fallible_free (fun b w' => act w b w' hw) fun _ _ => hw

theorem keeps_read_free (g : World N H → β) : Prog.Keeps .free A (readFile g) := by
  refine keeps_fallible_free ?_
  rintro w _ _ hw ⟨-, rfl⟩
  exact hw

theorem keeps_request_free {errors : Exn → Prop} {P : β → Prop} :
    Prog.Keeps .free A (Prog.request errors P : Prog (World N H) Exn β) := by
  refine keeps_fallible_free ?_
  rintro w _ _ hw ⟨-, rfl⟩
  exact hw

/-- What only reads is refused with the files as they are. -/
theorem RefusedUntouched.of_keeps (h : Prog.Keeps .free (Untouched w₀) p) :
    RefusedUntouched w₀ p :=
  fun w hw => Prog.wp_mono (h w hw) (fun _ _ _ => trivial) fun _ _ h _ => h

theorem RefusedUntouched.of_late (h : Prog.Safe .free Late p) : RefusedUntouched w₀ p :=
  fun w _ => Prog.wp_mono (h w) (fun _ _ _ => trivial) fun _ _ hlate href => absurd href hlate

theorem RefusedUntouched.bind (hp : Prog.Keeps .free (Untouched w₀) p)
    (hf : ∀ a, RefusedUntouched w₀ (f a)) : RefusedUntouched w₀ (p >>= f) := by
  intro w hw
  rw [Prog.wp_bind]
  exact Prog.wp_mono (hp w hw) (fun a w' h => hf a w' h) fun _ _ h _ => h

/-- A lock around a program; taking it and letting it go touches no file. -/
theorem RefusedUntouched.around {lock unlock : Prog (World N H) Exn Unit}
    (hlock : Prog.Keeps .free (Untouched w₀) lock)
    (hunlock : Prog.Keeps .free (Untouched w₀) unlock)
    (late : Prog.Safe .free (fun _ => False) unlock) (h : RefusedUntouched w₀ p) :
    RefusedUntouched w₀ (do
      lock
      let result ← p.attempt
      unlock
      Prog.ofExcept result) := by
  refine .bind hlock fun _ w hw => ?_
  rw [Prog.wp_bind, Prog.wp_attempt]
  refine Prog.wp_mono (h w hw) (fun a w₁ _ => ?_) fun e w₁ he => ?_
  · rw [Prog.wp_bind]
    exact Prog.wp_mono (late w₁) (fun _ _ _ => trivial) fun _ _ h => h.elim
  · rw [Prog.wp_bind]
    by_cases href : Refusal e
    · exact Prog.wp_mono (hunlock w₁ (he href)) (fun _ _ h _ => h) fun _ _ h _ => h
    · exact Prog.wp_mono (late w₁) (fun _ _ _ h => absurd h href) fun _ _ h => h.elim

end Rules

section Reading
variable {A : World N H → Prop} {s : Stage} {view : Run N} {previous : Option StageState}

theorem keeps_refuseCleaned_free :
    Prog.Keeps .free A (refuseCleaned : Prog (World N H) Exn Unit) := by
  refine .bind (keeps_read_free _) fun status => ?_
  cases status with
  | none => exact .pure _
  | some status => cases status <;> exact .throw _

theorem keeps_requireFinals_free (needed : List Stage) :
    Prog.Keeps .free A (Prog.each (requireFinal s) needed : Prog (World N H) Exn Unit) := by
  refine .each fun t => .bind (keeps_read_free _) fun state => ?_
  split
  · exact .pure _
  · exact .throw _

theorem keeps_requireStore_free :
    Prog.Keeps .free A (requireStore s view : Prog (World N H) Exn Unit) := by
  unfold requireStore
  split_ifs
  · exact .pure _
  · exact .throw _
  · split
    · exact .throw _
    · exact keeps_request_free

theorem keeps_checkHost_free : Prog.Keeps .free A (checkHost s : Prog (World N H) Exn Unit) := by
  unfold checkHost
  split_ifs
  · exact .pure _
  · exact keeps_request_free

theorem keeps_prepare_free :
    Prog.Keeps .free A (prepare s : Prog (World N H) Exn (Option Exn)) := by
  unfold prepare
  split_ifs
  · exact keeps_request_free
  · exact .pure _

theorem keeps_openSession_free (harness : Harness) :
    Prog.Keeps .free A (openSession s harness : Prog (World N H) Exn (Run N)) := by
  refine .bind (keeps_read_free _) fun run => ?_
  cases run with
  | none => exact .throw _
  | some run =>
      exact .bind (keeps_ofExcept _) fun _ => .bind keeps_request_free fun _ => .pure _

theorem keeps_committedEvidence_free (t : Stage) :
    Prog.Keeps .free A (committedEvidence t : Prog (World N H) Exn (List (Record N))) := by
  refine .bind (keeps_read_free _) fun state => ?_
  split
  · exact .bind (keeps_read_free _) fun _ => .pure _
  · exact .pure _

variable [Arith N] {platform : Platform N H}

theorem keeps_costDue_free : Prog.Keeps .free A (costDue platform view) :=
  .bind (keeps_read_free _) fun _ => .bind (keeps_ofExcept _) fun _ =>
    .bind (keeps_committedEvidence_free _) fun _ => .bind (keeps_committedEvidence_free _) fun _ =>
      .bind (keeps_committedEvidence_free _) fun _ => keeps_ofExcept _

theorem keeps_costSkipReason_free : Prog.Keeps .free A (costSkipReason platform view) := by
  refine .bind (keeps_read_free _) fun state => ?_
  split
  · exact .bind keeps_costDue_free fun _ => .pure _
  · exact .pure _

theorem keeps_skipReason_free : Prog.Keeps .free A (skipReason platform s view) := by
  refine .bind (keeps_read_free _) fun state => ?_
  split
  · split
    · exact .pure _
    · split
      · exact keeps_costSkipReason_free
      · exact .pure _
  · exact .pure _

theorem keeps_gatedReason_free : Prog.Keeps .free A (gatedReason platform s view) := by
  unfold gatedReason
  split
  · exact keeps_skipReason_free
  · exact .pure _

end Reading

section Writing
variable {s : Stage} {view : Run N} {previous : Option StageState}

theorem late_fallible {R : World N H → β → World N H → Prop} :
    Prog.Safe .free Late (Prog.fallible osError R : Prog (World N H) Exn β) :=
  .fallible (fun _ => trivial) (fun _ _ _ _ _ => ⟨trivial, trivial⟩) fun _ => osError.not_refusal

theorem late_skip (reason : String) :
    Prog.Safe .free Late (skip s previous reason : Prog (World N H) Exn Unit) :=
  .bind late_fallible fun _ => late_fallible

theorem late_commitState (state : StageState) (code : Nat) :
    Prog.Safe .free Late (commitState s state code : Prog (World N H) Exn Nat) :=
  .bind late_fallible fun _ => .bind late_fallible fun _ => .bind late_fallible fun _ => .pure _

theorem late_putEvidence (row : Record N) :
    Prog.Safe .free Late ((putEvidence row).zoom (stageLens s) : Prog (World N H) Exn Unit) := by
  have put : Prog.Safe .free Late (putEvidence row : Prog (StageFiles N) Exn Unit) :=
    .bind (.fallible (fun _ => trivial) (fun _ _ _ _ _ => ⟨trivial, trivial⟩) fun _ =>
      osError.not_refusal) fun _ =>
      .fallible (fun _ => trivial) (fun _ _ _ _ _ => ⟨trivial, trivial⟩) fun _ =>
        osError.not_refusal
  exact .zoom (stageLens s) (fun _ _ => trivial) (fun _ _ _ _ _ => ⟨trivial, trivial⟩) put

/-- Whatever the body ended with, the invocation records it and is refused no more. -/
theorem late_finish (attempts : Nat) (result : Except Exn (Option (GateState × String))) :
    Prog.Safe .free Late (finish s attempts result : Prog (World N H) Exn Nat) := by
  cases result with
  | ok gate => exact late_commitState _ _
  | error e =>
      cases e with
      | contaminated text => exact late_commitState _ _
      | harness | incomplete | precondition | usage | lookup | other =>
          exact .bind (late_putEvidence _) fun _ => late_commitState _ _

theorem safe_modify_free {g : World N H → World N H} {E : Exn → Prop} :
    Prog.Safe .free E (Prog.modify g : Prog (World N H) Exn Unit) :=
  fun _ => Prog.wp_modify_free trivial

end Writing

section StageCall
variable {platform : Platform N H} {w₀ : World N H} {p : Nat} {s : Stage} {view : Run N}
  {previous : Option StageState}

theorem refused_sessionLocks {body : Prog (World N H) Exn α} (h : RefusedUntouched w₀ body) :
    RefusedUntouched w₀ (sessionLocks platform p s body) := by
  have locks : Prog.Keeps .free (Untouched w₀) (lockShared p : Prog (World N H) Exn Unit) := by
    refine keeps_fallible_free ?_
    rintro w _ _ hw ⟨-, rfl⟩
    exact ⟨hw.run, hw.stages, hw.clean, hw.decision⟩
  have locksStage : Prog.Keeps .free (Untouched w₀)
      (lockStage p s : Prog (World N H) Exn Unit) := by
    refine keeps_fallible_free ?_
    rintro w _ _ hw ⟨-, rfl⟩
    exact ⟨hw.run, hw.stages, hw.clean, hw.decision⟩
  have unlocks : Prog.Keeps .free (Untouched w₀) (unlockShared p : Prog (World N H) Exn Unit) :=
    fun w hw => Prog.wp_modify_free ⟨hw.run, hw.stages, hw.clean, hw.decision⟩
  have unlocksStage : Prog.Keeps .free (Untouched w₀)
      (unlockStage platform p s : Prog (World N H) Exn Unit) :=
    fun w hw => Prog.wp_modify_free ⟨hw.run, hw.stages, hw.clean, hw.decision⟩
  exact .around locks unlocks safe_modify_free (.around locksStage unlocksStage safe_modify_free h)

/-- On a session that exists `compile` opens `run.json` and does not write it. -/
theorem refused_createSession {inputs : CompileInputs N} {run : Run N} (created : w₀.run = some run)
    {f : Run N → Prog (World N H) Exn α} (hf : ∀ view, RefusedUntouched w₀ (f view)) :
    RefusedUntouched w₀ (createSession inputs >>= f) := by
  intro w hw
  have hrun : w.run = some run := hw.run.trans created
  unfold createSession
  rw [Prog.wp_bind, Prog.wp_bind]
  refine Prog.wp_fallible_free ?_ fun _ _ _ => hw
  rintro found _ ⟨rfl, rfl⟩
  simp only [hrun]
  split
  · refine Prog.Keeps.andThen (keeps_ofExcept _) hw (fun _ w₁ h₁ => ?_) fun _ _ h _ => h
    exact keeps_request_free.andThen h₁ (fun _ w₂ h₂ => hf run w₂ h₂) fun _ _ h _ => h
  · exact fun _ => hw

variable [Arith N]

/-- The preconditions write only to skip the stage, and then it ends. -/
theorem wp_preconditions_free {w : World N H} (h : Untouched w₀ w) :
    (preconditions platform s view previous).wp .free
      (fun ended w' => ended = false → Untouched w₀ w')
      (fun e w' => Refusal e → Untouched w₀ w') w := by
  have fails : ∀ e w', Untouched w₀ w' → Refusal e → Untouched w₀ w' := fun _ _ h _ => h
  refine (keeps_requireFinals_free _).andThen h (fun _ w₁ h₁ => ?_) fails
  refine keeps_requireStore_free.andThen h₁ (fun _ w₂ h₂ => ?_) fails
  refine keeps_gatedReason_free.andThen h₂ (fun reason w₃ h₃ => ?_) fails
  cases reason with
  | some reason =>
      change (skip s previous reason >>= _).wp _ _ _ _
      rw [Prog.wp_bind]
      exact Prog.wp_mono (late_skip reason w₃) (fun _ _ _ h => nomatch h)
        fun _ _ hlate href => absurd href hlate
  | none => exact keeps_checkHost_free.andThen h₃ (fun _ _ h₄ _ => h₄) fails

variable [DecidableEq N]

/-- An attempt writes its first file once the monitor is prepared. -/
theorem refused_runAttempt (attempts : Nat) :
    RefusedUntouched w₀ (runAttempt platform p s view attempts) := by
  refine .bind keeps_prepare_free fun prepared => .of_late ?_
  refine .bind late_fallible fun _ => .bind late_fallible fun _ =>
    .bind safe_modify_free fun _ => ?_
  exact .bind (.attempt (.trivially _)) fun result => .bind safe_modify_free fun _ =>
    late_finish _ _

theorem refused_execute : RefusedUntouched w₀ (execute platform p s view previous) := by
  intro w hw
  unfold execute
  rw [Prog.wp_bind]
  refine Prog.wp_mono (wp_preconditions_free hw) (fun ended w₁ h₁ => ?_) fun _ _ h => h
  cases ended with
  | true => exact trivial
  | false => exact refused_runAttempt _ w₁ (h₁ rfl)

theorem refused_runStage (harness : Harness) :
    RefusedUntouched w₀ (runStage platform p s harness) := by
  unfold runStage
  split_ifs
  · exact .of_keeps (.throw _)
  · refine .bind (keeps_read_free _) fun created => ?_
    split
    · refine refused_sessionLocks (.bind keeps_refuseCleaned_free fun _ =>
        .bind (keeps_read_free _) fun previous => ?_)
      split
      · exact .of_keeps (.pure _)
      · exact .bind (keeps_openSession_free harness) fun view => refused_execute
    · exact .of_keeps (.throw _)

theorem refused_runCompile {inputs : CompileInputs N} {run : Run N} (created : w₀.run = some run) :
    RefusedUntouched w₀ (runCompile platform p inputs) := by
  refine refused_sessionLocks (.bind keeps_refuseCleaned_free fun _ =>
    .bind (keeps_read_free _) fun previous => .bind (.bind (keeps_read_free _) fun found => ?_)
      fun _ => ?_)
  · split
    · exact .pure _
    · exact .throw _
  · split
    · exact .of_keeps (.pure _)
    · exact refused_createSession created fun view => refused_execute

/-- The entry points of the stages. -/
inductive StageCall (N : Type)
  | stage (s : Stage) (harness : Harness)
  | compile (inputs : CompileInputs N)

def StageCall.program (platform : Platform N H) (p : Nat) :
    StageCall N → Prog (World N H) Exn Nat
  | .stage s harness => runStage platform p s harness
  | .compile inputs => runCompile platform p inputs

/-- An invocation on an existing session that raises a refusal has changed no stage's
files, nor `run.json`, whatever the harness, the host and the context are. -/
theorem refused_untouched (platform : Platform N H) (p : Nat) (call : StageCall N)
    {w w' : World N H} {e : Exn} (existing : w.run.isSome = true)
    (run : Exec (call.program platform p) w (some (.error e)) w') (refusal : Refusal e) :
    Untouched w w' := by
  obtain ⟨created, hcreated⟩ := Option.isSome_iff_exists.mp existing
  have refused : RefusedUntouched w (call.program platform p) := by
    cases call with
    | stage s harness => exact refused_runStage harness
    | compile inputs => exact refused_runCompile hcreated
  exact (run.sound trivial (refused w ⟨rfl, rfl, rfl, rfl⟩)).2 refusal

end StageCall

section Sample

attribute [local instance] integerArith

/-- A session whose quality stage was killed while it wrote a row. -/
noncomputable def interruptedWorld : World Int StageState :=
  { World.empty with
    run := some { sampleRun with
      profile := ⟨gradedManifest, gradedPolicy, gradedManifest_distinct⟩ }
    stages := fun s => match s with
      | .compile => { state := some ⟨.complete, 1, none, none⟩, evidence := [roundtrip .passed] }
      | .quality =>
          { state := some ⟨.running, 1, none, none⟩
            observations :=
              RecordLog.frame (Platform.unary sampleSetting).codec gradedRows ++ [123] }
      | _ => {} }

/-- Another harness may not resume it, and its files stay as they are. -/
theorem refused_untouched_interrupted :
    ∃ w', Exec ((StageCall.stage .quality ⟨"newer", "harness"⟩ : StageCall Int).program
        (Platform.unary sampleSetting) 0) interruptedWorld
        (some (.error (.precondition "Harness code changed since compile"))) w' ∧
      Untouched interruptedWorld w' := by
  have refused : ∀ (w : World Int StageState)
      (body : Run Int → Prog (World Int StageState) Exn Nat),
      w.run = interruptedWorld.run →
      Exec (openSession .quality ⟨"newer", "harness"⟩ >>= body) w
        (some (.error (.precondition "Harness code changed since compile"))) w := by
    intro w body hw
    refine Exec.raised (Exec.bind (a := interruptedWorld.run) (.fallible ⟨hw.symm, rfl⟩) ?_)
    exact Exec.raised (exec_ofExcept_error rfl)
  have run : ∃ w', Exec ((StageCall.stage .quality ⟨"newer", "harness"⟩ :
      StageCall Int).program (Platform.unary sampleSetting) 0) interruptedWorld
      (some (.error (.precondition "Harness code changed since compile"))) w' := by
    refine ⟨(((interruptedWorld.takeShared 0).takeStage 0 .quality).dropStage
      (Platform.unary sampleSetting) 0 .quality).dropShared 0, ?_⟩
    refine Exec.bind (a := true) (.fallible ⟨rfl, rfl⟩) ?_
    refine Exec.bind (a := ()) (.fallible ⟨rfl, rfl⟩) ?_
    refine Exec.bind (.attempt ?_) (Exec.bind (.modify _) (exec_ofExcept_error rfl))
    refine Exec.bind (a := ()) (.fallible ⟨rfl, rfl⟩) ?_
    refine Exec.bind (.attempt ?_) (Exec.bind (.modify _) (exec_ofExcept_error rfl))
    -- the session is not cleaned, and its stage has not ended
    refine Exec.bind (a := ()) (Exec.bind (a := none) (.fallible ⟨rfl, rfl⟩) (.ret _ _)) ?_
    refine Exec.bind (a := some ⟨.running, 1, none, none⟩) (.fallible ⟨rfl, rfl⟩) ?_
    exact refused _ _ rfl
  obtain ⟨w', run⟩ := run
  exact ⟨w', run, refused_untouched (Platform.unary sampleSetting) 0
    (.stage .quality ⟨"newer", "harness"⟩) rfl run (.inl ⟨_, rfl⟩)⟩

end Sample
end TranspileBench.Coordinator
