import TranspileBench.Coordinator.QualityRun

/-!
What a process knows of its session while it holds a stage: assertions that the others
cannot break, and how reads, writes and the bodies of stages carry them along.
-/
namespace TranspileBench.Coordinator
open Evaluator

variable {N H β : Type}

/-- The contract of a process of a session. -/
def sessionContract [Arith N] (platform : Platform N H) (p : Nat) : Contract (World N H) where
  rely := Undisturbed p
  guar := Effect platform p
  inv := Inv platform
  rely_refl := Undisturbed.refl p
  rely_trans := Undisturbed.trans

/-- What the others cannot take from `p`. -/
def Stable (p : Nat) (A : World N H → Prop) : Prop := ∀ w w', A w → Undisturbed p w w' → A w'

section Actions
variable [Arith N] {platform : Platform N H} {p : Nat} {A : World N H → Prop} {w : World N H}

theorem wp_readFile {f : World N H → β} {Q : β → World N H → Prop} {E : Exn → World N H → Prop}
    (stable : Stable p A) (h : A w) (ok : ∀ w₁, Inv platform w₁ → A w₁ → Q (f w₁) w₁)
    (fails : ∀ w₁ e, crash e → A w₁ → E e w₁) :
    (readFile f).wp (sessionContract platform p) Q E w := by
  refine Prog.wp_fallible .idle ?_ fun w₁ hrely _ e he => fails w₁ e he (stable w w₁ h hrely)
  rintro w₁ hrely hinv b _ ⟨rfl, rfl⟩
  exact ⟨.idle _, hinv, ok _ hinv (stable w _ h hrely)⟩

theorem wp_ask {P : β → Prop} {errors : Exn → Prop} {Q : β → World N H → Prop}
    {E : Exn → World N H → Prop} (stable : Stable p A) (h : A w)
    (ok : ∀ w₁ b, P b → A w₁ → Q b w₁) (fails : ∀ w₁ e, errors e → A w₁ → E e w₁) :
    (Prog.request errors P).wp (sessionContract platform p) Q E w :=
  Prog.wp_request .idle (fun w₁ hrely _ b hb => ok w₁ b hb (stable w w₁ h hrely))
    fun w₁ hrely _ e he => fails w₁ e he (stable w w₁ h hrely)

/-- A write that is a step of the process. -/
theorem wp_write {g : World N H → World N H} {errors : Exn → Prop} {Q : Unit → World N H → Prop}
    {E : Exn → World N H → Prop} (stable : Stable p A) (h : A w)
    (step : ∀ w₁, Inv platform w₁ → A w₁ → Effect platform p w₁ (g w₁))
    (ok : ∀ w₁, Inv platform w₁ → A w₁ → Q () (g w₁)) (fails : ∀ w₁ e, errors e → A w₁ → E e w₁) :
    (Prog.fallible errors fun w (_ : Unit) w' => w' = g w).wp
      (sessionContract platform p) Q E w := by
  refine Prog.wp_fallible .idle ?_ fun w₁ hrely _ e he => fails w₁ e he (stable w w₁ h hrely)
  rintro w₁ hrely hinv _ _ rfl
  have hA := stable w w₁ h hrely
  exact ⟨step w₁ hinv hA, (step w₁ hinv hA).inv hinv, ok w₁ hinv hA⟩

theorem wp_change {g : World N H → World N H} {Q : Unit → World N H → Prop}
    {E : Exn → World N H → Prop} (stable : Stable p A) (h : A w)
    (step : ∀ w₁, Inv platform w₁ → A w₁ → Effect platform p w₁ (g w₁))
    (ok : ∀ w₁, Inv platform w₁ → A w₁ → Q () (g w₁)) :
    (Prog.modify g : Prog (World N H) Exn Unit).wp (sessionContract platform p) Q E w := by
  refine Prog.wp_modify fun w₁ hrely hinv => ?_
  have hA := stable w w₁ h hrely
  exact ⟨step w₁ hinv hA, (step w₁ hinv hA).inv hinv, ok w₁ hinv hA⟩

/-- Reading keeps what the others keep. -/
theorem keeps_readFile {f : World N H → β} (stable : Stable p A) :
    Prog.Keeps (sessionContract platform p) A (readFile f) :=
  fun _ hw => wp_readFile stable hw (fun _ _ h => h) fun _ _ _ h => h

theorem keeps_ask {P : β → Prop} {errors : Exn → Prop} (stable : Stable p A) :
    Prog.Keeps (sessionContract platform p) A
      (Prog.request errors P : Prog (World N H) Exn β) :=
  fun _ hw => wp_ask stable hw (fun _ _ _ h => h) fun _ _ _ h => h

theorem keeps_eachStage {start : β} {read : Stage → Prog (World N H) Exn β}
    (h : ∀ s, Prog.Keeps (sessionContract platform p) A (read s)) :
    Prog.Keeps (sessionContract platform p) A (eachStage start read) :=
  .fold (fun _ s => (h s).map) _

end Actions

/-- The process is at none of its stages' locks. -/
structure Sharing (p : Nat) (w : World N H) : Prop where
  shared : w.shared p = true
  phase : w.phase p = .outside
  none : ∀ s, w.stageLock s ≠ some p

/-- The process holds the lock of stage `s`, and of no other. -/
structure Locked (p : Nat) (s : Stage) (w : World N H) : Prop where
  shared : w.shared p = true
  lock : w.stageLock s = some p
  only : ∀ t, t ≠ s → w.stageLock t ≠ some p

/-- The process holds stage `s` and is not in its body. -/
structure Holding (p : Nat) (s : Stage) (w : World N H) : Prop extends Locked p s w where
  phase : w.phase p = .inside s

/-- `run.json` as stage `s` opened it: nobody but `compile` changes what it reads of it. -/
def World.Shows (w : World N H) (s : Stage) (view : Run N) : Prop :=
  ∃ run, w.run = some run ∧ run.profile = view.profile ∧ (s = .compile → run = view)

/-- The quality files of a process that found the stage free. -/
def World.Answered (platform : Platform N H) (w : World N H) (s : Stage) : Prop :=
  s = .quality → w.torn ∨ ¬ Unanswered platform (w.stages .quality)

/-- The process holds stage `s`, which has state `previous`, in an uncleaned session. -/
structure Entered (platform : Platform N H) (p : Nat) (s : Stage) (previous : Option StageState)
    (w : World N H) : Prop extends Holding p s w where
  clean : w.clean = none
  answered : w.Answered platform s
  state : (w.stages s).state = previous

/-- It has opened the session, and its prerequisites are final as far as it has looked. -/
structure Opened (platform : Platform N H) (p : Nat) (s : Stage) (view : Run N)
    (previous : Option StageState) (checked : List Stage) (w : World N H) : Prop
    extends Entered platform p s previous w where
  shows : w.Shows s view
  checked : ∀ q ∈ checked, w.Final q

/-- The preconditions of stage `s` are met. -/
structure Admitted [Arith N] (platform : Platform N H) (p : Nat) (s : Stage) (view : Run N)
    (previous : Option StageState) (w : World N H) : Prop
    extends Entered platform p s previous w where
  shows : w.Shows s view
  startable : w.Startable s
  before : s = .cost → w.Final .compile ∧ w.Final .quality
  due : s = .cost → ∃ due, w.costDue platform view = .ok (some due)

/-- The process works on the files of stage `s`, whose attempt is running. -/
structure Working (platform : Platform N H) (p : Nat) (s : Stage) (view : Run N) (torn : Prop)
    (st : StageState) (phase : Phase N) (w : World N H) : Prop extends Locked p s w where
  phase_eq : w.phase p = phase
  clean : w.clean = none
  shows : w.Shows s view
  startable : w.Startable s
  running : st.status = .running
  files : BodyInv platform view.profile torn s st (w.stages s)
  torn_iff : s = .quality → (w.torn ↔ torn)

section Stable
variable {platform : Platform N H} {p : Nat} {s : Stage} {w w' : World N H}

theorem Sharing.stable (p : Nat) : Stable (N := N) (H := H) p (Sharing p) := fun _ _ h hrely =>
  ⟨hrely.shared.trans h.shared, hrely.phase.trans h.phase,
    fun s => mt (hrely.stageLock s).mp (h.none s)⟩

theorem Locked.undisturbed (h : Locked p s w) (hrely : Undisturbed p w w') : Locked p s w' :=
  ⟨hrely.shared.trans h.shared, (hrely.stageLock s).mpr h.lock,
    fun t ht => mt (hrely.stageLock t).mp (h.only t ht)⟩

theorem Holding.stable (p : Nat) (s : Stage) : Stable (N := N) (H := H) p (Holding p s) :=
  fun _ _ h hrely => ⟨h.toLocked.undisturbed hrely, hrely.phase.trans h.phase⟩

theorem World.Shows.undisturbed {view : Run N} (h : w.Shows s view) (hlock : Locked p s w)
    (hrely : Undisturbed p w w') : w'.Shows s view := by
  obtain ⟨run, hrun, hprofile, hsame⟩ := h
  obtain ⟨run', hrun', hprofile', -⟩ := hrely.extend.run run hrun
  refine ⟨run', hrun', hprofile'.trans hprofile, fun hs => ?_⟩
  subst hs
  rw [hrely.run (.inl hlock.lock), hrun] at hrun'
  exact Option.some.inj hrun' ▸ hsame rfl

theorem World.Answered.undisturbed (h : w.Answered platform s) (hlock : Locked p s w)
    (hrely : Undisturbed p w w') : w'.Answered platform s := by
  rintro rfl
  rw [hrely.files _ hlock.lock, hrely.torn hlock.lock]
  exact h rfl

theorem Entered.stable (platform : Platform N H) (p : Nat) (s : Stage)
    (previous : Option StageState) : Stable p (Entered platform p s previous) :=
  fun _ _ h hrely =>
    ⟨Holding.stable p s _ _ h.toHolding hrely, (hrely.clean h.shared).trans h.clean,
      h.answered.undisturbed h.toLocked hrely, by rw [hrely.files s h.lock]; exact h.state⟩

theorem Opened.stable (platform : Platform N H) (p : Nat) (s : Stage) (view : Run N)
    (previous : Option StageState) (checked : List Stage) :
    Stable p (Opened platform p s view previous checked) :=
  fun _ _ h hrely => ⟨Entered.stable platform p s previous _ _ h.toEntered hrely,
    h.shows.undisturbed h.toLocked hrely, fun q hq => hrely.extend.keeps (h.checked q hq)⟩

theorem Admitted.stable [Arith N] (platform : Platform N H) (p : Nat) (s : Stage) (view : Run N)
    (previous : Option StageState) : Stable p (Admitted platform p s view previous) := by
  intro w w' h hrely
  refine ⟨Entered.stable platform p s previous _ _ h.toEntered hrely,
    h.shows.undisturbed h.toLocked hrely, hrely.extend.startable h.startable, fun hs =>
    ⟨hrely.extend.keeps (h.before hs).1, hrely.extend.keeps (h.before hs).2⟩, fun hs => ?_⟩
  obtain ⟨due, hdue⟩ := h.due hs
  have hcorrect := World.final_of_status (h.startable.cost hs)
  rw [hrely.extend.costDue (h.before hs).1 (h.before hs).2 hcorrect]
  exact ⟨due, hdue⟩

theorem Working.stable (platform : Platform N H) (p : Nat) (s : Stage) (view : Run N) (torn : Prop)
    (st : StageState) (phase : Phase N) : Stable p (Working platform p s view torn st phase) :=
  fun _ _ h hrely =>
    ⟨h.toLocked.undisturbed hrely, hrely.phase.trans h.phase_eq,
      (hrely.clean h.shared).trans h.clean,
      h.shows.undisturbed h.toLocked hrely, hrely.extend.startable h.startable, h.running,
      by rw [hrely.files s h.lock]; exact h.files,
      fun hs => (hrely.torn (hs ▸ h.lock)).trans (h.torn_iff hs)⟩

end Stable

section Writes
variable {p : Nat} {s : Stage} {w : World N H} {view : Run N} {st : StageState}
  {f : StageFiles N}

theorem World.not_final {status : StageStatus} (h : w.status s = some status)
    (live : status ∉ FINAL) : ¬ w.Final s := by
  rintro ⟨found, hfinal, hfound⟩
  obtain rfl : found = status := Option.some.inj (hfound.symm.trans h)
  exact live hfinal

theorem World.final_iff : w.Final s ↔ isFinal (w.stages s).state = true := by
  cases hst : (w.stages s).state with
  | none => simp [World.Final, World.status, isFinal, hst]
  | some st => simp [World.Final, World.status, isFinal, hst]

theorem World.Shows.created (h : w.Shows s view) : w.run ≠ none := by
  obtain ⟨run, hrun, -⟩ := h
  simp [hrun]

theorem World.Shows.profile (h : w.Shows s view) {run : Run N} (hrun : w.run = some run) :
    run.profile = view.profile := by
  obtain ⟨found, hfound, hprofile, -⟩ := h
  obtain rfl : found = run := Option.some.inj (hfound.symm.trans hrun)
  exact hprofile

theorem Unanswered.of_subset {platform : Platform N H} {f g : StageFiles N}
    (h : Unanswered platform g) (observations : g.observations = f.observations)
    (evidence : ∀ r ∈ g.evidence, r ∈ f.evidence) : Unanswered platform f := by
  obtain ⟨rows, hrows, r, hr, hun⟩ := h
  exact ⟨rows, observations ▸ hrows, r, evidence r hr, hun⟩

theorem Working.setStage {platform : Platform N H} {torn : Prop} {phase : Phase N}
    (h : Working platform p s view torn st phase w) (live : ¬ w.Final s)
    (hf : BodyInv platform view.profile torn s st f) :
    Working platform p s view torn st phase (w.setStage s f) where
  shared := h.shared
  lock := h.lock
  only := h.only
  phase_eq := h.phase_eq
  clean := h.clean
  shows := h.shows
  startable := (Extends.setStage f live).startable h.startable
  running := h.running
  files := by rw [World.setStage_same]; exact hf
  torn_iff := h.torn_iff

theorem Holding.setStage (h : Holding p s w) : Holding p s (w.setStage s f) :=
  ⟨⟨h.shared, h.lock, h.only⟩, h.phase⟩

variable [Arith N] {platform : Platform N H}

/-- What a written stage file must meet, by the state it then has. -/
theorem Inv.stageInv_write (h : Inv platform w) (live : ¬ w.Final s) (hstate : f.state = some st)
    (records : ∀ run, w.run = some run → ∀ r ∈ f.evidence, StageRecord run.prefix_ s r)
    (started : st.status ≠ .skipped → w.Startable s)
    (skipped : st.status = .skipped →
      s ∈ GATED ∧ (∀ q ∈ PREREQUISITES s, w.Final q) ∧ w.Skippable platform s)
    (failed : st.status = .failed → ∃ e, errorRecord s e ∈ f.evidence)
    (complete : st.status = .complete → (w.setStage s f).Completed platform st s)
    (noisy : st.status = .noisy → s = .cost ∨ s = .quality) :
    StageInv platform (w.setStage s f) s := by
  have hext : Extends w (w.setStage s f) := .setStage f live
  have found : ∀ {st'}, ((w.setStage s f).stages s).state = some st' → st = st' := by
    intro st' hst'
    rw [World.setStage_same, hstate] at hst'
    exact Option.some.inj hst'
  constructor
  · intro hnone
    rw [World.setStage_same, hstate] at hnone
    cases hnone
  · intro run hrun r hr
    rw [World.setStage_same] at hr
    exact records run hrun r hr
  · intro st' hst' hskip
    obtain rfl := found hst'
    exact hext.startable (started hskip)
  · intro st' hst' hskip
    obtain rfl := found hst'
    obtain ⟨hgated, hpre, hwhy⟩ := skipped hskip
    exact ⟨hgated, fun q hq => hext.keeps (hpre q hq), hext.skippable h.stage hwhy⟩
  · intro st' hst' hfailed
    obtain rfl := found hst'
    rw [World.setStage_same]
    exact failed hfailed
  · intro st' hst' hcomplete
    obtain rfl := found hst'
    exact complete hcomplete
  · intro st' hst' hnoisy
    obtain rfl := found hst'
    exact noisy hnoisy

/-- The final observations and evidence are those of the attempt. -/
theorem World.Completed.written (h : w.Completed platform st s) :
    (w.setStage s { w.stages s with state := some st }).Completed platform st s := by
  cases s with
  | compile => exact h
  | quality =>
      obtain ⟨run, view, rows, gate, hrun, hview, hrows, hwanted, hgate, hst, htorn⟩ := h
      refine ⟨run, view, rows, gate, hrun, hview, ?_, hwanted, ?_, hst, ?_⟩
      · rw [World.setStage_same]; exact hrows
      · rw [World.setStage_same, World.committed, World.setStage_other _ _ (by decide)]
        exact hgate
      · rw [World.setStage_same]
        exact htorn.imp_right fun hun h => hun (h.of_subset rfl fun _ => id)
  | correctness | unit_tests | cost => trivial

/-- Writing a state that may follow is a step of the process that holds the stage. -/
theorem Inv.stateStep (h : Inv platform w) (hold : Holding p s w) (clean : w.clean = none)
    (created : w.run ≠ none) (live : ¬ w.Final s) (succeeds : Succeeds (w.stages s).state st)
    (started : st.status ≠ .skipped → w.Startable s)
    (skipped : st.status = .skipped →
      s ∈ GATED ∧ (∀ q ∈ PREREQUISITES s, w.Final q) ∧ w.Skippable platform s)
    (failed : st.status = .failed → ∃ e, errorRecord s e ∈ (w.stages s).evidence)
    (complete : st.status = .complete → w.Completed platform st s)
    (noisy : st.status = .noisy → s = .cost ∨ s = .quality) :
    StageStep platform w p s { w.stages s with state := some st } where
  held := hold.lock
  clean := clean
  created := created
  live := live
  next := .inr ⟨hold.phase, rfl, st, rfl, succeeds⟩
  stage := h.stageInv_write live rfl (h.stage s).records started skipped failed
    (fun hc => (complete hc).written) noisy
  observed := by
    rintro rfl run hrun
    obtain ⟨rows, hrows⟩ := h.observed run hrun
    exact ⟨rows, hrows.file, hrows.row, hrows.nodup, hrows.agree⟩

/-- So is any change of the other files that keeps what the body keeps. -/
theorem Working.stageStep {torn : Prop} {phase : Phase N} (hinv : Inv platform w)
    (h : Working platform p s view torn st phase w)
    (hf : BodyInv platform view.profile torn s st f) : StageStep platform w p s f := by
  have hstatus : w.status s = some .running := by
    rw [World.status, h.files.state, Option.map_some, h.running]
  have live := World.not_final hstatus (by decide)
  have other : ∀ {status}, status ≠ .running → st.status ≠ status := fun hne heq =>
    hne (heq.symm.trans h.running)
  refine ⟨h.lock, h.clean, h.shows.created, live, .inl ⟨hf.state.trans h.files.state.symm, hstatus⟩,
    hinv.stageInv_write live hf.state ?_ (fun _ => h.startable) ?_ ?_ ?_ ?_, ?_⟩
  · intro run hrun r hr
    rw [Run.prefix_, h.shows.profile hrun]
    exact hf.records r hr
  · exact fun heq => absurd heq (other (by decide))
  · exact fun heq => absurd heq (other (by decide))
  · exact fun heq => absurd heq (other (by decide))
  · exact fun heq => absurd heq (other (by decide))
  · rintro hs run hrun
    obtain ⟨rows, hrows⟩ := hf.observed hs
    rw [h.shows.profile hrun]
    exact ⟨rows, hrows.file, hrows.row, hrows.nodup, hrows.agree.imp_left (h.torn_iff hs).mpr⟩

/-- A body that runs alone on its files runs among the other processes. -/
theorem Working.zoom {α : Type} {torn : Prop} {phase : Phase N}
    {prog : Prog (StageFiles N) Exn α} {Q : α → StageFiles N → Prop} {E : Exn → StageFiles N → Prop}
    (h : Working platform p s view torn st phase w)
    (hp : prog.wp (bodyContract platform view.profile torn s st) Q E (w.stages s)) :
    (prog.zoom (stageLens s)).wp (sessionContract platform p)
      (fun a w => Working platform p s view torn st phase w ∧ Q a (w.stages s))
      (fun e w => Working platform p s view torn st phase w ∧ E e (w.stages s)) w := by
  refine Prog.wp_zoom (stageLens s) (Working platform p s view torn st phase) ?_ ?_ h h.files hp
  · intro w w' hw hrely _
    exact ⟨Working.stable platform p s view torn st phase w w' hw hrely, hrely.files s hw.lock⟩
  · intro w f hw hinv _ _ hf
    have step := hw.stageStep hinv hf
    exact ⟨.write w s f step, hinv.write step, hw.setStage step.live hf⟩

end Writes

end TranspileBench.Coordinator
