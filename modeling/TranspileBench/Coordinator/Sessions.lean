import TranspileBench.Coordinator.Attempts

/-!
A session as a system of processes: the five stages, `clean`, `amend` and `decide`, each
invoked any number of times, at the same time, and killed anywhere.
-/
namespace TranspileBench.Coordinator
open Evaluator

variable {N H : Type}

/-- What a process of a session may be started as. -/
inductive Invocation (N : Type)
  | stage (s : Stage) (harness : Harness)
  | compile (inputs : CompileInputs N)
  | clean
  | amend (inputs : AmendInputs)
  | decide (passes : Nat)

section System
variable [Arith N] [DecidableEq N] [DecidableEq H]

def Invocation.program (platform : Platform N H) (p : Nat) :
    Invocation N → Prog (World N H) Exn Unit
  | .stage s harness => do let _ ← runStage platform p s harness
  | .compile inputs => do let _ ← runCompile platform p inputs
  | .clean => do let _ ← Coordinator.clean platform p
  | .amend inputs => amendCost p inputs
  | .decide passes => do let _ ← runDecide platform p passes

/-- The runs of a session, from an empty directory. -/
def sessionSystem (platform : Platform N H) : System (World N H) Exn where
  init w := w = World.empty
  entry p prog := ∃ invocation : Invocation N, prog = invocation.program platform p
  release p w := w.release platform p
  env _ _ := False

end System

theorem Idle.stable (p : Nat) : Stable (N := N) (H := H) p (Idle p) :=
  fun _ _ h hrely => h.undisturbed hrely

theorem Exclusive.stable (p : Nat) : Stable (N := N) (H := H) p fun w => w.exclusive = some p :=
  fun _ _ h hrely => hrely.exclusive.mpr h

section Locks
variable [Arith N] {platform : Platform N H} {p : Nat} {s : Stage} {w : World N H} {α : Type}

/-- The stage lock around a body that gives it back. -/
theorem wp_withStage {body : Prog (World N H) Exn α} (h : Sharing p w)
    (hbody : ∀ w, Inv platform w → Holding p s w → w.Answered platform s →
      body.wp (sessionContract platform p) (fun _ => Holding p s) (fun _ => Holding p s) w) :
    (withStage platform p s body).wp (sessionContract platform p) (fun _ => Sharing p)
      (fun _ => Sharing p) w := by
  unfold withStage lockStage
  rw [Prog.wp_bind]
  refine Prog.wp_fallible .idle ?_ fun w₁ hrely _ _ _ => Sharing.stable p w w₁ h hrely
  rintro w₁ hrely hinv _ _ ⟨hfree, rfl⟩
  have h₁ := Sharing.stable p w w₁ h hrely
  have step : Effect platform p w₁ (w₁.takeStage p s) := .takeStage w₁ s h₁.shared hfree h₁.phase
  refine ⟨step, step.inv hinv, ?_⟩
  have hold : Holding p s (w₁.takeStage p s) := by
    refine ⟨⟨h₁.shared, by simp [World.takeStage, World.mark], fun t ht => ?_⟩,
      by simp [World.takeStage]⟩
    simpa [World.takeStage, World.mark, ht] using h₁.none t
  have answered : (w₁.takeStage p s).Answered platform s := by
    rintro rfl
    exact hinv.free hfree
  rw [Prog.wp_bind, Prog.wp_attempt]
  have unlocked : ∀ (result : Except Exn α) w, Holding p s w →
      (unlockStage platform p s >>= fun _ => Prog.ofExcept result).wp (sessionContract platform p)
        (fun _ => Sharing p) (fun _ => Sharing p) w := by
    intro result w₂ h₂
    unfold unlockStage
    rw [Prog.wp_bind]
    refine wp_change (Holding.stable p s) h₂ (fun w₃ _ h₃ => .dropStage w₃ s h₃.phase)
      fun w₃ _ h₃ => ?_
    refine keeps_ofExcept result _ ⟨h₃.shared, by simp [World.dropStage], fun t => ?_⟩
    by_cases ht : t = s
    · simp [World.dropStage, World.mark, ht]
    · simpa [World.dropStage, World.mark, ht] using h₃.only t ht
  exact Prog.wp_mono (hbody _ (step.inv hinv) hold answered) (fun _ w₂ h₂ => unlocked _ w₂ h₂)
    fun _ w₂ h₂ => unlocked _ w₂ h₂

theorem wp_lockShared (h : Idle p w) :
    (lockShared p).wp (sessionContract platform p) (fun _ => Sharing p) (fun _ _ => True) w := by
  refine Prog.wp_fallible .idle ?_ fun _ _ _ _ _ => trivial
  rintro w₁ hrely hinv _ _ ⟨hfree, rfl⟩
  have h₁ := h.undisturbed hrely
  have step : Effect platform p w₁ (w₁.takeShared p) := .takeShared w₁ hfree
  exact ⟨step, step.inv hinv, ⟨by simp [World.takeShared], h₁.phase, h₁.stageLock⟩⟩

/-- The shared lock around a program that keeps it. -/
theorem wp_unlockShared {result : Except Exn α} (h : Sharing p w) :
    (unlockShared p >>= fun _ => Prog.ofExcept result).wp (sessionContract platform p)
      (fun _ _ => True) (fun _ _ => True) w := by
  unfold unlockShared
  rw [Prog.wp_bind]
  refine wp_change (Sharing.stable p) h (fun w₁ _ h₁ => .dropShared w₁ h₁.none) fun _ _ _ => ?_
  exact wp_ofExcept.mpr ⟨fun _ _ => trivial, fun _ _ => trivial⟩

theorem wp_sessionLocks {body : Prog (World N H) Exn α} (h : Idle p w)
    (hbody : ∀ w, Inv platform w → Holding p s w → w.Answered platform s →
      body.wp (sessionContract platform p) (fun _ => Holding p s) (fun _ => Holding p s) w) :
    (sessionLocks platform p s body).wp (sessionContract platform p) (fun _ _ => True)
      (fun _ _ => True) w := by
  unfold sessionLocks
  rw [Prog.wp_bind]
  refine Prog.wp_mono (wp_lockShared h) (fun _ w₁ h₁ => ?_) fun _ _ he => he
  rw [Prog.wp_bind, Prog.wp_attempt]
  exact Prog.wp_mono (wp_withStage h₁ hbody) (fun _ _ h₂ => wp_unlockShared h₂)
    fun _ _ h₂ => wp_unlockShared h₂

/-- The exclusive lock around a program that keeps it. -/
theorem wp_holdingSession {body : Prog (World N H) Exn α} (h : Idle p w)
    (hbody : Prog.Keeps (sessionContract platform p) (fun w => w.exclusive = some p) body) :
    (holdingSession p body).wp (sessionContract platform p) (fun _ _ => True)
      (fun _ _ => True) w := by
  have stable := Exclusive.stable (N := N) (H := H) p
  unfold holdingSession
  rw [Prog.wp_bind]
  refine wp_readFile (Idle.stable p) h (fun w₁ _ h₁ => ?_) fun _ _ _ _ => trivial
  split_ifs
  · unfold lockExclusive
    rw [Prog.wp_bind]
    refine Prog.wp_fallible .idle ?_ fun _ _ _ _ _ => trivial
    rintro w₂ hrely hinv _ _ ⟨hfree, halone, rfl⟩
    have step : Effect platform p w₂ (w₂.takeExclusive p) := .takeExclusive w₂ hfree halone
    refine ⟨step, step.inv hinv, ?_⟩
    have unlocked : ∀ (result : Except Exn α) (w : World N H), w.exclusive = some p →
        (unlockExclusive >>= fun _ => Prog.ofExcept result).wp (sessionContract platform p)
          (fun _ _ => True) (fun _ _ => True) w := by
      intro result w₃ h₃
      unfold unlockExclusive
      rw [Prog.wp_bind]
      refine wp_change stable h₃ (fun w₄ _ h₄ => .dropExclusive w₄ h₄) fun _ _ _ => ?_
      exact wp_ofExcept.mpr ⟨fun _ _ => trivial, fun _ _ => trivial⟩
    rw [Prog.wp_bind, Prog.wp_attempt]
    exact Prog.wp_mono (hbody _ rfl) (fun _ w₃ h₃ => unlocked _ w₃ h₃)
      fun _ w₃ h₃ => unlocked _ w₃ h₃
  · trivial

end Locks

section Stages
variable [Arith N] {platform : Platform N H} {p : Nat} {s : Stage} {w : World N H}
  {view : Run N} {previous : Option StageState}

/-- A process in an uncleaned session, before it has read the stage's state. -/
theorem wp_refuseCleaned (h : Holding p s w) (answered : w.Answered platform s) :
    refuseCleaned.wp (sessionContract platform p)
      (fun _ w => Holding p s w ∧ w.Answered platform s ∧ w.clean = none)
      (fun _ => Holding p s) w := by
  have stable : Stable p fun w => Holding p s w ∧ w.Answered platform s := fun w w' hw hrely =>
    ⟨Holding.stable p s w w' hw.1 hrely, hw.2.undisturbed hw.1.toLocked hrely⟩
  unfold refuseCleaned
  rw [Prog.wp_bind]
  refine wp_readFile stable ⟨h, answered⟩ (fun w₁ _ h₁ => ?_) fun _ _ _ h₁ => h₁.1
  cases hclean : w₁.clean with
  | none => exact ⟨h₁.1, h₁.2, hclean⟩
  | some status => cases status <;> exact h₁.1

theorem wp_enter (h : Holding p s w) (answered : w.Answered platform s) :
    (do refuseCleaned; readState s : Prog (World N H) Exn (Option StageState)).wp
      (sessionContract platform p) (fun previous => Entered platform p s previous)
      (fun _ => Holding p s) w := by
  rw [Prog.wp_bind]
  refine Prog.wp_mono (wp_refuseCleaned h answered) ?_ fun _ _ he => he
  rintro _ w₁ ⟨hhold, hanswered, hclean⟩
  have stable : Stable p fun w => Holding p s w ∧ w.Answered platform s ∧ w.clean = none :=
    fun w w' hw hrely => ⟨Holding.stable p s w w' hw.1 hrely,
      hw.2.1.undisturbed hw.1.toLocked hrely, (hrely.clean hw.1.shared).trans hw.2.2⟩
  exact wp_readFile stable ⟨hhold, hanswered, hclean⟩
    (fun w₂ _ h₂ => ⟨h₂.1, h₂.2.2, h₂.2.1, rfl⟩) fun _ _ _ h₂ => h₂.1

theorem wp_openSession {harness : Harness} (hs : s ≠ .compile)
    (h : Entered platform p s previous w) :
    (openSession s harness).wp (sessionContract platform p)
      (fun view => Opened platform p s view previous []) (fun _ => Holding p s) w := by
  unfold openSession
  rw [Prog.wp_bind]
  refine wp_readFile (Entered.stable platform p s previous) h (fun w₁ _ h₁ => ?_)
    fun _ _ _ h₁ => h₁.toHolding
  cases hrun : w₁.run with
  | none => exact h₁.toHolding
  | some run =>
      have opened : Opened platform p s (effectiveFor run s) previous [] w₁ :=
        ⟨h₁, ⟨run, hrun, (effectiveFor_profile run s).symm, fun heq => absurd heq hs⟩, by simp⟩
      change (Prog.ofExcept _ >>= _).wp _ _ _ _
      rw [Prog.wp_bind, wp_ofExcept]
      refine ⟨fun _ _ => ?_, fun _ _ => h₁.toHolding⟩
      rw [Prog.wp_bind]
      exact wp_ask (Opened.stable platform p s _ previous []) opened (fun _ _ _ h₂ => h₂)
        fun _ _ _ h₂ => h₂.toHolding

/-- `compile` creates `run.json`, or resumes with the one that is there. -/
theorem wp_createSession {inputs : CompileInputs N} (live : isFinal previous = false)
    (h : Entered platform p .compile previous w) :
    (createSession inputs).wp (sessionContract platform p)
      (fun view => Opened platform p .compile view previous [])
        (fun _ => Holding p .compile) w := by
  unfold createSession
  rw [Prog.wp_bind]
  refine wp_readFile (Entered.stable platform p .compile previous) h (fun w₁ _ h₁ => ?_)
    fun _ _ _ h₁ => h₁.toHolding
  cases hrun : w₁.run with
  | some run =>
      have opened : Opened platform p .compile run previous [] w₁ :=
        ⟨h₁, ⟨run, hrun, rfl, fun _ => rfl⟩, by simp⟩
      change (if _ then _ else _ : Prog _ _ _).wp _ _ _ _
      split_ifs
      · rw [Prog.wp_bind, wp_ofExcept]
        refine ⟨fun _ _ => ?_, fun _ _ => h₁.toHolding⟩
        rw [Prog.wp_bind]
        exact wp_ask (Opened.stable platform p .compile run previous []) opened
          (fun _ _ _ h₂ => h₂) fun _ _ _ h₂ => h₂.toHolding
      · exact h₁.toHolding
  | none =>
      have stable : Stable p fun w => Entered platform p .compile previous w ∧ w.run = none :=
        fun w w' hw hrely => ⟨Entered.stable platform p .compile previous w w' hw.1 hrely,
          (hrely.run (.inl hw.1.lock)).trans hw.2⟩
      change (Prog.request _ _ >>= _).wp _ _ _ _
      rw [Prog.wp_bind]
      refine wp_ask stable ⟨h₁, hrun⟩ (fun w₂ _ _ h₂ => ?_) fun _ _ _ h₂ => h₂.1.toHolding
      unfold saveRun
      rw [Prog.wp_bind]
      refine wp_write stable h₂ (fun w₃ _ h₃ => ?_) (fun w₃ _ h₃ => ?_)
        fun _ _ _ h₃ => h₃.1.toHolding
      · refine .save w₃ _ h₃.1.lock ?_ fun old hold => ?_
        · rw [World.final_iff, h₃.1.state, live]
          decide
        · rw [h₃.2] at hold
          cases hold
      · have h₄ := h₃.1
        exact ⟨⟨⟨⟨h₄.shared, h₄.lock, h₄.only⟩, h₄.phase⟩, h₄.clean, h₄.answered, h₄.state⟩,
          ⟨_, rfl, rfl, fun _ => rfl⟩, by simp⟩

variable [DecidableEq N]

theorem wp_runStage {harness : Harness} (h : Idle p w) :
    (runStage platform p s harness).wp (sessionContract platform p) (fun _ _ => True)
      (fun _ _ => True) w := by
  unfold runStage
  split_ifs with hs
  · trivial
  rw [Prog.wp_bind]
  refine wp_readFile (Idle.stable p) h (fun w₁ _ h₁ => ?_) fun _ _ _ _ => trivial
  split_ifs
  · refine wp_sessionLocks h₁ fun w₂ _ h₂ answered => ?_
    have entered := wp_enter h₂ answered
    rw [Prog.wp_bind] at entered ⊢
    refine Prog.wp_mono entered (fun _ w₃ h₃ => ?_) fun _ _ he => he
    rw [Prog.wp_bind]
    refine Prog.wp_mono h₃ (fun previous w₄ h₄ => ?_) fun _ _ he => he
    split_ifs with hfinal
    · exact h₄.toHolding
    · rw [Prog.wp_bind]
      exact Prog.wp_mono (wp_openSession hs h₄)
        (fun _ _ h₅ => wp_execute (by simpa using hfinal) h₅)
        fun _ _ he => he
  · trivial

theorem wp_runCompile {inputs : CompileInputs N} (h : Idle p w) :
    (runCompile platform p inputs).wp (sessionContract platform p) (fun _ _ => True)
      (fun _ _ => True) w := by
  unfold runCompile
  refine wp_sessionLocks h fun w₂ _ h₂ answered => ?_
  have entered := wp_enter h₂ answered
  rw [Prog.wp_bind] at entered ⊢
  refine Prog.wp_mono entered (fun _ w₃ h₃ => ?_) fun _ _ he => he
  rw [Prog.wp_bind]
  refine Prog.wp_mono h₃ (fun previous w₄ h₄ => ?_) fun _ _ he => he
  rw [Prog.wp_bind]
  have checked : (checkInputs inputs).wp (sessionContract platform p)
      (fun _ => Entered platform p .compile previous) (fun _ => Holding p .compile) w₄ := by
    unfold checkInputs
    rw [Prog.wp_bind]
    refine wp_readFile (Entered.stable platform p .compile previous) h₄ (fun w₅ _ h₅ => ?_)
      fun _ _ _ h₅ => h₅.toHolding
    split_ifs
    · exact h₅
    · exact h₅.toHolding
  refine Prog.wp_mono checked (fun _ w₅ h₅ => ?_) fun _ _ he => he
  split_ifs with hfinal
  · exact h₅.toHolding
  · have live : isFinal previous = false := by simpa using hfinal
    rw [Prog.wp_bind]
    exact Prog.wp_mono (wp_createSession live h₅) (fun _ _ h₆ => wp_execute live h₆)
      fun _ _ he => he

end Stages

/-! ## Processes that hold the whole session, or only look at it -/

section Maintenance
variable [Arith N] {platform : Platform N H} {p : Nat} {w : World N H}

theorem keeps_writeClean {status : CleanStatus} :
    Prog.Keeps (sessionContract platform p) (fun w => w.exclusive = some p) (writeClean status) :=
  fun _ hw => wp_write (Exclusive.stable p) hw (fun w₁ _ h₁ => .clean w₁ status h₁)
    (fun _ _ h₁ => h₁)
    fun _ _ _ h₁ => h₁

theorem keeps_deletePlanned :
    Prog.Keeps (sessionContract platform p) (fun w => w.exclusive = some p) deletePlanned :=
  .bind (keeps_ask (Exclusive.stable p)) fun _ => .bind keeps_writeClean fun _ => .pure _

theorem keeps_cleanSession [DecidableEq H] (status : Option CleanStatus) :
    Prog.Keeps (sessionContract platform p) (fun w => w.exclusive = some p)
      (cleanSession platform status) := by
  have stable := Exclusive.stable (N := N) (H := H) p
  unfold cleanSession
  split
  · exact .pure _
  · exact keeps_deletePlanned
  · refine .bind (keeps_eachStage fun s => keeps_readFile stable) fun states => ?_
    dsimp only
    split_ifs
    · refine .bind (keeps_readFile stable) fun decision => ?_
      cases decision with
      | none => exact .throw _
      | some recorded =>
          refine .bind (keeps_eachStage fun s => keeps_readFile stable) fun current => ?_
          split_ifs
          · exact .bind (keeps_ask stable) fun _ => .bind keeps_writeClean fun _ =>
              keeps_deletePlanned
          · exact .throw _
    · exact .throw _

theorem keeps_refuseCleaned {A : World N H → Prop} (stable : Stable p A) :
    Prog.Keeps (sessionContract platform p) A refuseCleaned := by
  refine .bind (keeps_readFile stable) fun status => ?_
  split
  · exact .pure _
  · exact .throw _
  · exact .throw _

theorem keeps_refuseUnless {A : World N H → Prop} (c : Bool) (text : String) :
    Prog.Keeps (sessionContract platform p) A (refuseUnless c text) := by
  unfold refuseUnless
  split_ifs
  · exact .pure _
  · exact .throw _

/-- An amendment is appended to the `run.json` that was read under the same lock. -/
theorem keeps_amendSession (inputs : AmendInputs) :
    Prog.Keeps (sessionContract platform p) (fun w : World N H => w.exclusive = some p)
      (amendSession inputs) := by
  have stable := Exclusive.stable (N := N) (H := H) p
  refine .bind (keeps_refuseCleaned stable) fun _ => fun w hw => ?_
  rw [Prog.wp_bind]
  refine wp_readFile stable hw (fun w₁ _ h₁ => ?_) fun _ _ _ h₁ => h₁
  have held : Stable p fun w : World N H => w.exclusive = some p ∧ w.run = w₁.run :=
    fun w w' h hrely => ⟨stable w w' h.1 hrely, (hrely.run (.inr h.1)).trans h.2⟩
  have drop : ∀ (_ : Exn) (w : World N H), w.exclusive = some p ∧ w.run = w₁.run →
      w.exclusive = some p := fun _ _ h => h.1
  refine Prog.Keeps.andThen (.each fun s => .bind (keeps_readFile held) fun _ =>
    keeps_refuseUnless _ _) ⟨h₁, rfl⟩ (fun _ w₂ h₂ => ?_) drop
  refine Prog.Keeps.andThen (keeps_readFile held) h₂ (fun tests w₃ h₃ => ?_) drop
  refine Prog.Keeps.andThen (keeps_refuseUnless _ _) h₃ (fun _ w₄ h₄ => ?_) drop
  refine Prog.Keeps.andThen (keeps_readFile held) h₄ (fun cost w₅ h₅ => ?_) drop
  refine Prog.Keeps.andThen (keeps_refuseUnless _ _) h₅ (fun _ w₆ h₆ => ?_) drop
  cases hrun : w₁.run with
  | none => exact h₆.1
  | some run =>
      refine Prog.Keeps.andThen (keeps_ofExcept _) h₆ (fun _ w₇ h₇ => ?_) drop
      refine Prog.Keeps.andThen (keeps_refuseUnless _ _) h₇ (fun _ w₈ h₈ => ?_) drop
      refine Prog.Keeps.andThen (keeps_ask held) h₈ (fun wheel w₉ h₉ => ?_) drop
      unfold saveRun
      rw [Prog.wp_bind]
      exact wp_write held h₉ (fun w _ h => .amend w run _ h.1 (h.2.trans hrun))
        (fun _ _ h => keeps_ask stable _ h.1) fun w e _ h => drop e w h

theorem keeps_snapshot [DecidableEq H] {A : World N H → Prop} (stable : Stable p A) (passes : Nat) :
    Prog.Keeps (sessionContract platform p) A (snapshot platform passes) := by
  have pass : Prog.Keeps (sessionContract platform p) A (snapshotPass platform) := by
    refine .bind (keeps_eachStage fun s => keeps_readFile stable) fun states =>
      .bind (keeps_eachStage fun s => ?_) fun evidence =>
        .bind (keeps_eachStage fun s => keeps_readFile stable) fun current => .pure _
    unfold snapshotEvidence
    split_ifs
    · exact (keeps_readFile stable).map
    · exact .pure _
  induction passes with
  | zero => exact .throw _
  | succ passes ih =>
      refine .bind pass fun found => ?_
      cases found with
      | some view => exact .pure _
      | none => exact ih

variable [DecidableEq N]

theorem keeps_decideView {A : World N H → Prop} (stable : Stable p A) (run : Run N)
    (view : Snapshot N H) :
    Prog.Keeps (sessionContract platform p) A (decideView platform run view) := by
  have gated : Prog.Keeps (sessionContract platform p) A (readGated platform run view) := by
    unfold readGated readCost
    split_ifs
    · exact .bind (.bind (keeps_costDue stable) fun _ => .pure _) fun _ => .pure _
    · exact .bind (.pure _) fun _ => .pure _
    · exact .pure _
  exact .bind gated fun _ => .bind (keeps_ofExcept _) fun _ =>
    .bind (keeps_readFile stable) fun _ => .bind (keeps_ofExcept _) fun _ =>
    .bind (keeps_readFile stable) fun _ => .bind (keeps_ofExcept _) fun _ =>
    .bind (keeps_readFile stable) fun _ => .bind (keeps_ofExcept _) fun _ => keeps_ofExcept _

theorem keeps_decideSession [DecidableEq H] (passes : Nat) :
    Prog.Keeps (sessionContract platform p) (Sharing p) (decideSession platform passes) := by
  have stable := Sharing.stable (N := N) (H := H) p
  refine .bind (keeps_readFile stable) fun found => ?_
  cases found with
  | none => exact .throw _
  | some run =>
      refine .bind (keeps_snapshot stable passes) fun view =>
        .bind (keeps_decideView stable _ view) fun decision =>
          .bind (fun w hw => ?_) fun _ => .pure _
      exact wp_write stable hw (fun w₁ _ _ => .decide w₁ _)
        (fun w₁ _ h₁ => ⟨h₁.shared, h₁.phase, h₁.none⟩) fun _ _ _ h₁ => h₁

theorem wp_runDecide [DecidableEq H] {passes : Nat} (h : Idle p w) :
    (runDecide platform p passes).wp (sessionContract platform p) (fun _ _ => True)
      (fun _ _ => True) w := by
  unfold runDecide
  rw [Prog.wp_bind]
  refine Prog.wp_mono (wp_lockShared h) (fun _ w₁ h₁ => ?_) fun _ _ he => he
  rw [Prog.wp_bind, Prog.wp_attempt]
  exact Prog.wp_mono (keeps_decideSession passes w₁ h₁) (fun _ _ h₂ => wp_unlockShared h₂)
    fun _ _ h₂ => wp_unlockShared h₂

end Maintenance

section Outline
variable [Arith N] [DecidableEq N] [DecidableEq H] (platform : Platform N H)

/-- Every invocation keeps the contract of its process. -/
theorem wp_program {p : Nat} {w : World N H} (invocation : Invocation N) (h : Idle p w) :
    (invocation.program platform p).wp (sessionContract platform p) (fun _ _ => True)
      (fun _ _ => True) w := by
  cases invocation with
  | stage s harness => exact Prog.wp_bind.mpr (wp_runStage h)
  | compile inputs => exact Prog.wp_bind.mpr (wp_runCompile h)
  | clean =>
      refine Prog.wp_bind.mpr (wp_holdingSession h (.bind (keeps_readFile (Exclusive.stable p))
        fun status => keeps_cleanSession status))
  | amend inputs =>
      change (amendCost p inputs).wp _ _ _ _
      unfold amendCost
      split_ifs
      · trivial
      · exact wp_holdingSession h (keeps_amendSession inputs)
  | decide passes => exact Prog.wp_bind.mpr (wp_runDecide h)

/-- The proof outline of a session. -/
def sessionOutline : (sessionSystem platform).Outline where
  inv := Inv platform
  guar := Effect platform
  rely := Undisturbed
  idle := Idle
  rely_refl := Undisturbed.refl
  rely_trans _ := Undisturbed.trans
  init w hw := by
    subst hw
    exact ⟨Inv.empty platform, fun p => ⟨rfl, by simp [World.empty], rfl, by simp [World.empty]⟩⟩
  compatible _ _ _ _ hpq hinv step := step.undisturbed hinv hpq
  release p w hinv :=
    ⟨hinv.release p, Idle.release platform w, fun _ hq => release_undisturbed platform w hq.symm⟩
  env _ _ _ h := h.elim
  idle_rely _ _ _ h hrely := h.undisturbed hrely
  safe p prog w := by
    rintro ⟨invocation, rfl⟩ _ hidle
    exact wp_program platform invocation hidle

/-- The invariant holds in every reachable configuration. -/
theorem session_inv {c : Config (World N H) Exn} (h : (sessionSystem platform).Reachable c) :
    Inv platform c.world :=
  ((sessionOutline platform).holds h).1

end Outline

end TranspileBench.Coordinator
