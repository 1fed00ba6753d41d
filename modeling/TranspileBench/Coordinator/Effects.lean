import TranspileBench.Coordinator.Invariant

/-!
Every step, and the end of every process, keeps the invariant of a session and does
not disturb the other processes.
-/
namespace TranspileBench.Coordinator
open Evaluator

variable {N H : Type}

/-- What a process relies on: the others leave its locks, its phase and its files alone,
and do not clean the session under its shared lock. -/
structure Undisturbed (p : Nat) (w w' : World N H) : Prop where
  extend : Extends w w'
  shared : w'.shared p = w.shared p
  exclusive : w'.exclusive = some p ↔ w.exclusive = some p
  stageLock : ∀ s, w'.stageLock s = some p ↔ w.stageLock s = some p
  phase : w'.phase p = w.phase p
  files : ∀ s, w.stageLock s = some p → w'.stages s = w.stages s
  clean : w.shared p = true → w'.clean = w.clean
  run : w.stageLock .compile = some p ∨ w.exclusive = some p → w'.run = w.run
  torn : w.stageLock .quality = some p → (w'.torn ↔ w.torn)

theorem Undisturbed.refl (p : Nat) (w : World N H) : Undisturbed p w w :=
  ⟨.refl w, rfl, Iff.rfl, fun _ => Iff.rfl, rfl, fun _ _ => rfl, fun _ => rfl, fun _ => rfl,
    fun _ => Iff.rfl⟩

theorem Undisturbed.trans {p : Nat} {w w' w'' : World N H} (h : Undisturbed p w w')
    (h' : Undisturbed p w' w'') : Undisturbed p w w'' where
  extend := h.extend.trans h'.extend
  shared := h'.shared.trans h.shared
  exclusive := h'.exclusive.trans h.exclusive
  stageLock s := (h'.stageLock s).trans (h.stageLock s)
  phase := h'.phase.trans h.phase
  files s hs := (h'.files s ((h.stageLock s).mpr hs)).trans (h.files s hs)
  clean hs := (h'.clean (h.shared.trans hs)).trans (h.clean hs)
  run hs := (h'.run (hs.imp (h.stageLock _).mpr h.exclusive.mpr)).trans (h.run hs)
  torn hs := (h'.torn ((h.stageLock _).mpr hs)).trans (h.torn hs)

theorem Extends.of_files {w w' : World N H} (stages : w'.stages = w.stages) (run : w'.run = w.run)
    (torn : w.torn → w'.torn) (clean : w.clean ≠ none → w'.clean ≠ none) : Extends w w' where
  final s _ := by rw [stages]
  run r hr := ⟨r, run ▸ hr, rfl, fun _ => ⟨r.amendments, rfl⟩⟩
  torn := torn
  cleaned := clean

theorem Extends.release (platform : Platform N H) (w : World N H) (p : Nat) :
    Extends w (w.release platform p) :=
  .of_files rfl rfl .inl id

theorem Extends.mark (w : World N H) (p : Nat) (phase : Phase N) : Extends w (w.mark p phase) :=
  .of_files rfl rfl id id

theorem Extends.setStage {w : World N H} {s : Stage} (f : StageFiles N) (live : ¬ w.Final s) :
    Extends w (w.setStage s f) where
  final _ ht := World.setStage_other w f fun heq => live (heq ▸ ht)
  run r hr := ⟨r, hr, rfl, fun _ => ⟨_, rfl⟩⟩
  torn := id
  cleaned := id

theorem Observed.empty (platform : Platform N H) (profile : Profile N) (torn : Prop) :
    Observed platform profile torn {} [] where
  file := RecordLog.Holds.nil
  row := by simp
  nodup := by simp
  agree := .inr ⟨by simp, by simp⟩

section Steps
variable [Arith N] {platform : Platform N H} {w w' : World N H} {p q : Nat}

/-- No step takes anything back. -/
theorem Effect.extends (h : Effect platform p w w') : Extends w w' := by
  cases h with
  | idle => exact .refl w
  | takeShared | dropShared | takeStage | enter | leave | takeExclusive | dropExclusive | decide =>
      exact .of_files rfl rfl id id
  | dropStage => exact .of_files rfl rfl .inl id
  | clean => exact .of_files rfl rfl id fun _ => by simp
  | write s f step => exact .setStage f step.live
  | save run held live same =>
      exact ⟨fun _ _ => rfl, fun old hold => ⟨run, rfl, same old hold, fun hf => absurd hf live⟩,
        id, id⟩
  | amend run a held found =>
      refine ⟨fun _ _ => rfl, fun old hold => ?_, id, id⟩
      obtain rfl : run = old := Option.some.inj (found.symm.trans hold)
      exact ⟨_, rfl, rfl, fun _ => ⟨a, rfl⟩⟩

/-- The invariant's part about files and history, for a step that leaves them alone. -/
theorem Inv.frame_files (h : Inv platform w) (w' : World N H) (stages : w'.stages = w.stages)
    (run : w'.run = w.run) (torn : w.torn → w'.torn) (clean : w.clean ≠ none → w'.clean ≠ none) :
    (w'.run = none → ∀ s, w'.stages s = {}) ∧ (∀ s, StageInv platform w' s) ∧
      ∀ run, w'.run = some run →
        ∃ rows, Observed platform run.profile w'.torn (w'.stages .quality) rows := by
  have hext := Extends.of_files stages run torn clean
  refine ⟨fun hr s => ?_, fun s => ?_, fun r hr => ?_⟩
  · rw [stages]; exact h.created (run ▸ hr) s
  · exact (h.stage s).frame h.stage h.created hext (by rw [stages])
  · obtain ⟨rows, hrows⟩ := h.observed r (run ▸ hr)
    rw [stages]
    exact ⟨rows, hrows.file, hrows.row, hrows.nodup, hrows.agree.imp_left torn⟩

/-- A body goes on through a step of another stage. -/
theorem Inv.body_frame (h : Inv platform w) (w' : World N H) (hext : Extends w w')
    (hclean : ∀ s, w.stageLock s = some p → w'.clean = w.clean) {s : Stage} {view : Run N}
    (same : (w'.stages s).state = (w.stages s).state) (lock : w'.stageLock s = some p)
    (hbody : w.phase p = .body s view) : w'.stageLock s = some p ∧ w'.InBody platform s view := by
  obtain ⟨hlock, hin⟩ := h.body p s view hbody
  exact ⟨lock, hext.inBody h.stage hin (hclean s hlock) same⟩

theorem Inv.takeShared (h : Inv platform w) (free : w.exclusive = none) :
    Inv platform (w.takeShared p) := by
  obtain ⟨hcreated, hstage, hobserved⟩ :=
    h.frame_files (w.takeShared p) rfl rfl id id
  refine ⟨fun q hq => ?_, fun s q hq => ?_, h.inside, fun q s view hbody => ?_, hcreated, hstage,
    hobserved, h.free⟩
  · exact absurd (free.symm.trans hq) (by simp)
  · by_cases hqp : q = p
    · subst hqp; simp [World.takeShared]
    · simpa [World.takeShared, hqp] using h.stageLock s q hq
  · exact h.body_frame (w.takeShared p) (.of_files rfl rfl id id) (fun _ _ => rfl) rfl
      (h.body q s view hbody).1 hbody

theorem Inv.dropShared (h : Inv platform w) (free : ∀ s, w.stageLock s ≠ some p) :
    Inv platform (w.dropShared p) := by
  obtain ⟨hcreated, hstage, hobserved⟩ :=
    h.frame_files (w.dropShared p) rfl rfl id id
  refine ⟨fun q hq r => ?_, fun s q hq => ?_, h.inside, fun q s view hbody => ?_, hcreated,
    hstage, hobserved, h.free⟩
  · by_cases hr : r = p
    · subst hr; simp [World.dropShared]
    · simpa [World.dropShared, hr] using h.exclusive q hq r
  · by_cases hqp : q = p
    · subst hqp; exact absurd hq (free s)
    · simpa [World.dropShared, hqp] using h.stageLock s q hq
  · exact h.body_frame (w.dropShared p) (.of_files rfl rfl id id) (fun _ _ => rfl) rfl
      (h.body q s view hbody).1 hbody

theorem Inv.takeStage (h : Inv platform w) {s : Stage} (shared : w.shared p = true)
    (free : w.stageLock s = none) (outside : w.phase p = .outside) :
    Inv platform (w.takeStage p s) := by
  obtain ⟨hcreated, hstage, hobserved⟩ :=
    h.frame_files (w.takeStage p s) rfl rfl id id
  have keep : ∀ t q, w.stageLock t = some q → (w.takeStage p s).stageLock t = some q := by
    intro t q ht
    have hts : t ≠ s := fun heq => by rw [heq, free] at ht; cases ht
    simpa [World.takeStage, World.mark, hts] using ht
  have moved : ∀ q, q ≠ p → (w.takeStage p s).phase q = w.phase q := by
    intro q hq
    simp [World.takeStage, World.mark, hq]
  refine ⟨h.exclusive, fun t q ht => ?_, fun q t ht => ?_, fun q t view hbody => ?_, hcreated,
    hstage, hobserved, fun hfree => ?_⟩
  · by_cases hts : t = s
    · subst hts
      obtain rfl : p = q := by simpa [World.takeStage, World.mark] using ht
      exact shared
    · exact h.stageLock t q (by simpa [World.takeStage, World.mark, hts] using ht)
  · by_cases hq : q = p
    · subst hq
      obtain rfl : s = t := by simpa [World.takeStage, World.mark] using ht
      simp [World.takeStage, World.mark]
    · exact keep t q (h.inside q t ((moved q hq).symm.trans ht))
  · have hq : q ≠ p := by
      rintro rfl
      simp [World.takeStage, World.mark] at hbody
    have hbody' := (moved q hq).symm.trans hbody
    exact h.body_frame (w.takeStage p s) (.of_files rfl rfl id id) (fun _ _ => rfl) rfl
      (keep t q (h.body q t view hbody').1) hbody'
  · by_cases hs : s = .quality
    · subst hs
      simp [World.takeStage, World.mark] at hfree
    · exact h.free (by simpa [World.takeStage, World.mark, Ne.symm hs] using hfree)

theorem Inv.dropStage (h : Inv platform w) {s : Stage} (inside : w.phase p = .inside s) :
    Inv platform (w.dropStage platform p s) := by
  have held := h.inside p s inside
  obtain ⟨hcreated, hstage, hobserved⟩ :=
    h.frame_files (w.dropStage platform p s) rfl rfl .inl id
  have keep : ∀ t q, q ≠ p → w.stageLock t = some q →
      (w.dropStage platform p s).stageLock t = some q := by
    intro t q hq ht
    have hts : t ≠ s := fun heq => by
      rw [heq, held] at ht
      exact hq (Option.some.inj ht).symm
    simpa [World.dropStage, World.mark, hts] using ht
  have moved : ∀ q, q ≠ p → (w.dropStage platform p s).phase q = w.phase q := by
    intro q hq
    simp [World.dropStage, World.mark, hq]
  have mine : (w.dropStage platform p s).phase p = .outside := by
    simp [World.dropStage, World.mark]
  refine ⟨h.exclusive, fun t q ht => ?_, fun q t ht => ?_, fun q t view hbody => ?_, hcreated,
    hstage, hobserved, fun hfree => ?_⟩
  · by_cases hts : t = s
    · subst hts
      simp [World.dropStage, World.mark] at ht
    · exact h.stageLock t q (by simpa [World.dropStage, World.mark, hts] using ht)
  · have hq : q ≠ p := by
      rintro rfl
      rw [mine] at ht
      cases ht
    exact keep t q hq (h.inside q t ((moved q hq).symm.trans ht))
  · have hq : q ≠ p := by
      rintro rfl
      rw [mine] at hbody
      cases hbody
    have hbody' := (moved q hq).symm.trans hbody
    exact h.body_frame (w.dropStage platform p s) (.of_files rfl rfl .inl id) (fun _ _ => rfl) rfl
      (keep t q hq (h.body q t view hbody').1) hbody'
  · by_cases hun : Unanswered platform (w.stages .quality)
    · by_cases hs : s = .quality
      · exact .inl (.inr ⟨hs, hun⟩)
      · have hlock : w.stageLock .quality = none := by
          simpa [World.dropStage, World.mark, Ne.symm hs] using hfree
        exact (h.free hlock).imp_left .inl
    · exact .inr hun

theorem Inv.enter (h : Inv platform w) {s : Stage} {view : Run N} (inside : w.phase p = .inside s)
    (body : w.InBody platform s view) : Inv platform (w.mark p (.body s view)) := by
  obtain ⟨hcreated, hstage, hobserved⟩ :=
    h.frame_files (w.mark p (.body s view)) rfl rfl id id
  have hext : Extends w (w.mark p (.body s view)) := .of_files rfl rfl id id
  refine ⟨h.exclusive, h.stageLock, fun q t ht => ?_, fun q t v hbody => ?_, hcreated, hstage,
    hobserved, h.free⟩
  · by_cases hq : q = p
    · subst hq; simp at ht
    · exact h.inside q t (by simpa [hq] using ht)
  · by_cases hq : q = p
    · subst hq
      obtain ⟨rfl, rfl⟩ : s = t ∧ view = v := by simpa using hbody
      exact ⟨h.inside q s inside, hext.inBody h.stage body rfl rfl⟩
    · have hbody' : w.phase q = .body t v := by simpa [hq] using hbody
      exact h.body_frame _ hext (fun _ _ => rfl) rfl (h.body q t v hbody').1 hbody'

theorem Inv.leave (h : Inv platform w) {s : Stage} {view : Run N}
    (body : w.phase p = .body s view) :
    Inv platform (w.mark p (.inside s)) := by
  obtain ⟨hcreated, hstage, hobserved⟩ := h.frame_files (w.mark p (.inside s)) rfl rfl id id
  refine ⟨h.exclusive, h.stageLock, fun q t ht => ?_, fun q t v hbody => ?_, hcreated, hstage,
    hobserved, h.free⟩
  · by_cases hq : q = p
    · subst hq
      obtain rfl : s = t := by simpa using ht
      exact (h.body q s view body).1
    · exact h.inside q t (by simpa [hq] using ht)
  · have hq : q ≠ p := by rintro rfl; simp at hbody
    have hbody' : w.phase q = .body t v := by simpa [hq] using hbody
    exact h.body_frame (w.mark p (.inside s)) (.of_files rfl rfl id id) (fun _ _ => rfl) rfl
      (h.body q t v hbody').1 hbody'

theorem Inv.takeExclusive (h : Inv platform w) (alone : ∀ q, w.shared q = false) :
    Inv platform (w.takeExclusive p) := by
  obtain ⟨hcreated, hstage, hobserved⟩ := h.frame_files (w.takeExclusive p) rfl rfl id id
  refine ⟨fun _ _ => alone, h.stageLock, h.inside, fun q s view hbody => ?_, hcreated, hstage,
    hobserved, h.free⟩
  exact h.body_frame (w.takeExclusive p) (.of_files rfl rfl id id) (fun _ _ => rfl) rfl
    (h.body q s view hbody).1 hbody

theorem Inv.dropExclusive (h : Inv platform w) : Inv platform w.dropExclusive := by
  obtain ⟨hcreated, hstage, hobserved⟩ := h.frame_files w.dropExclusive rfl rfl id id
  refine ⟨fun q hq => absurd hq (by simp [World.dropExclusive]), h.stageLock, h.inside,
    fun q s view hbody => ?_,
    hcreated, hstage, hobserved, h.free⟩
  exact h.body_frame w.dropExclusive (.of_files rfl rfl id id) (fun _ _ => rfl) rfl
    (h.body q s view hbody).1 hbody

theorem Inv.write (h : Inv platform w) {s : Stage} {f : StageFiles N}
    (step : StageStep platform w p s f) : Inv platform (w.setStage s f) := by
  have hext := (Effect.write (p := p) w s f step).extends
  refine ⟨h.exclusive, h.stageLock, h.inside, fun q t view hbody => ?_,
    fun hr => absurd hr step.created, fun t => ?_, fun run hrun => ?_, fun hfree => ?_⟩
  · obtain ⟨hlock, hin⟩ := h.body q t view hbody
    refine ⟨hlock, hext.inBody h.stage hin rfl ?_⟩
    by_cases hts : t = s
    · subst hts
      obtain rfl : p = q := Option.some.inj (step.held.symm.trans hlock)
      rcases step.next with ⟨hsame, -⟩ | ⟨hinside, -⟩
      · rw [World.setStage_same, hsame]
      · exact absurd (hbody.symm.trans hinside) (by simp)
    · rw [World.setStage_other w f hts]
  · by_cases hts : t = s
    · subst hts; exact step.stage
    · exact (h.stage t).frame h.stage h.created hext (World.setStage_other w f hts)
  · by_cases hs : s = .quality
    · subst hs
      rw [World.setStage_same]
      exact step.observed rfl run hrun
    · rw [World.setStage_other w f (Ne.symm hs)]
      exact h.observed run hrun
  · by_cases hs : s = .quality
    · subst hs
      exact absurd (step.held.symm.trans hfree) (by simp)
    · rw [World.setStage_other w f (Ne.symm hs)]
      exact h.free hfree

theorem Inv.save (h : Inv platform w) {run : Run N} (hext : Extends w { w with run := some run }) :
    Inv platform { w with run := some run } := by
  refine ⟨h.exclusive, h.stageLock, h.inside, fun q t view hbody => ?_, by simp, fun t => ?_,
    fun run' hrun' => ?_, h.free⟩
  · exact h.body_frame _ hext (fun _ _ => rfl) rfl (h.body q t view hbody).1 hbody
  · exact (h.stage t).frame h.stage h.created hext rfl
  · obtain rfl : run = run' := Option.some.inj hrun'
    cases hold : w.run with
    | none =>
        rw [show ({ w with run := some run } : World N H).stages .quality = {} from
          h.created hold .quality]
        exact ⟨[], Observed.empty platform _ _⟩
    | some old =>
        obtain ⟨found, hfound, hprofile, -⟩ := hext.run old hold
        obtain rfl : run = found := Option.some.inj hfound
        rw [hprofile]
        exact h.observed old hold

theorem Inv.clean (h : Inv platform w) {status : CleanStatus} (held : w.exclusive = some p) :
    Inv platform { w with clean := some status } := by
  obtain ⟨hcreated, hstage, hobserved⟩ :=
    h.frame_files { w with clean := some status } rfl rfl id (by simp)
  refine ⟨h.exclusive, h.stageLock, h.inside, fun q t view hbody => ?_, hcreated, hstage,
    hobserved, h.free⟩
  -- nobody is in a body under the exclusive lock
  have hshared := h.stageLock t q (h.body q t view hbody).1
  rw [h.exclusive p held q] at hshared
  cases hshared

theorem Inv.decide (h : Inv platform w) {hashes : Stage → Option H} :
    Inv platform { w with decision := some hashes } := by
  obtain ⟨hcreated, hstage, hobserved⟩ :=
    h.frame_files { w with decision := some hashes } rfl rfl id id
  refine ⟨h.exclusive, h.stageLock, h.inside, fun q t view hbody => ?_, hcreated, hstage,
    hobserved, h.free⟩
  exact h.body_frame { w with decision := some hashes } (.of_files rfl rfl id id) (fun _ _ => rfl)
    rfl (h.body q t view hbody).1 hbody

/-- Every step keeps the invariant. -/
theorem Effect.inv (step : Effect platform p w w') (h : Inv platform w) : Inv platform w' := by
  have hext := step.extends
  cases step with
  | idle => exact h
  | takeShared free => exact h.takeShared free
  | dropShared free => exact h.dropShared free
  | takeStage s shared free outside => exact h.takeStage shared free outside
  | dropStage s inside => exact h.dropStage inside
  | enter s view inside body => exact h.enter inside body
  | leave s view body => exact h.leave body
  | takeExclusive free alone => exact h.takeExclusive alone
  | dropExclusive held => exact h.dropExclusive
  | write s f step => exact h.write step
  | save run held live same => exact h.save hext
  | amend run a held found => exact h.save hext
  | clean status held => exact h.clean held
  | decide hashes => exact h.decide

/-- The end of a process keeps the invariant. -/
theorem Inv.release (h : Inv platform w) (p : Nat) : Inv platform (w.release platform p) := by
  obtain ⟨hcreated, hstage, hobserved⟩ :=
    h.frame_files (w.release platform p) rfl rfl .inl id
  have keep : ∀ t q, q ≠ p → w.stageLock t = some q →
      (w.release platform p).stageLock t = some q := by
    intro t q hq ht
    simp [World.release, World.mark, ht, hq]
  have locked : ∀ t q, (w.release platform p).stageLock t = some q →
      w.stageLock t = some q ∧ q ≠ p := by
    intro t q ht
    simp only [World.release, World.mark] at ht
    split_ifs at ht with hp
    exact ⟨ht, fun heq => hp (heq ▸ ht)⟩
  have moved : ∀ q, q ≠ p → (w.release platform p).phase q = w.phase q := by
    intro q hq
    simp [World.release, hq]
  have mine : (w.release platform p).phase p = .outside := by simp [World.release]
  refine ⟨fun q hq r => ?_, fun t q ht => ?_, fun q t ht => ?_, fun q t view hbody => ?_, hcreated,
    hstage, hobserved, fun hfree => ?_⟩
  · have hq' : w.exclusive = some q := by
      simp only [World.release, World.mark] at hq
      split_ifs at hq
      exact hq
    by_cases hr : r = p
    · subst hr; simp [World.release, World.mark]
    · simpa [World.release, World.mark, hr] using h.exclusive q hq' r
  · obtain ⟨hlock, hq⟩ := locked t q ht
    simpa [World.release, World.mark, hq] using h.stageLock t q hlock
  · have hq : q ≠ p := by
      rintro rfl
      rw [mine] at ht
      cases ht
    exact keep t q hq (h.inside q t ((moved q hq).symm.trans ht))
  · have hq : q ≠ p := by
      rintro rfl
      rw [mine] at hbody
      cases hbody
    have hbody' := (moved q hq).symm.trans hbody
    exact h.body_frame (w.release platform p) (.of_files rfl rfl .inl id) (fun _ _ => rfl) rfl
      (keep t q hq (h.body q t view hbody').1) hbody'
  · by_cases hun : Unanswered platform (w.stages .quality)
    · by_cases hlock : w.stageLock .quality = some p
      · exact .inl (.inr ⟨hlock, hun⟩)
      · have hnone : w.stageLock .quality = none := by
          simpa [World.release, World.mark, hlock] using hfree
        exact (h.free hnone).imp_left .inl
    · exact .inr hun

/-- A step of one process is no disturbance of another. -/
theorem Effect.undisturbed (step : Effect platform p w w') (h : Inv platform w) (hpq : p ≠ q) :
    Undisturbed q w w' := by
  have hext := step.extends
  cases step with
  | idle => exact .refl q w
  | takeShared free | dropShared free =>
      exact ⟨hext, by simp [World.takeShared, World.dropShared, Ne.symm hpq], Iff.rfl,
        fun _ => Iff.rfl, rfl, fun _ _ => rfl, fun _ => rfl, fun _ => rfl, fun _ => Iff.rfl⟩
  | takeStage s shared free outside =>
      refine ⟨hext, rfl, Iff.rfl, fun t => ?_, by simp [World.takeStage, Ne.symm hpq],
        fun _ _ => rfl, fun _ => rfl, fun _ => rfl, fun _ => Iff.rfl⟩
      by_cases hts : t = s
      · subst hts; simp [World.takeStage, World.mark, free, hpq]
      · simp [World.takeStage, World.mark, hts]
  | dropStage s inside =>
      have held := h.inside p s inside
      refine ⟨hext, rfl, Iff.rfl, fun t => ?_, by simp [World.dropStage, Ne.symm hpq],
        fun _ _ => rfl, fun _ => rfl, fun _ => rfl, fun hlock => ?_⟩
      · by_cases hts : t = s
        · subst hts; simp [World.dropStage, World.mark, held, hpq]
        · simp [World.dropStage, World.mark, hts]
      · refine ⟨fun ht => ht.elim id fun hun => ?_, .inl⟩
        rw [hun.1, hlock] at held
        exact absurd (Option.some.inj held).symm hpq
  | enter s view inside body | leave s view body =>
      exact ⟨hext, rfl, Iff.rfl, fun _ => Iff.rfl, by simp [Ne.symm hpq], fun _ _ => rfl,
        fun _ => rfl, fun _ => rfl, fun _ => Iff.rfl⟩
  | takeExclusive free alone =>
      exact ⟨hext, rfl, by simp [World.takeExclusive, free, hpq], fun _ => Iff.rfl, rfl,
        fun _ _ => rfl, fun _ => rfl, fun _ => rfl, fun _ => Iff.rfl⟩
  | dropExclusive held =>
      exact ⟨hext, rfl, by simp [World.dropExclusive, held, hpq], fun _ => Iff.rfl, rfl,
        fun _ _ => rfl, fun _ => rfl, fun _ => rfl, fun _ => Iff.rfl⟩
  | write s f step =>
      refine ⟨hext, rfl, Iff.rfl, fun _ => Iff.rfl, rfl, fun t ht => World.setStage_other w f ?_,
        fun _ => rfl, fun _ => rfl, fun _ => Iff.rfl⟩
      rintro rfl
      exact hpq (Option.some.inj (step.held.symm.trans ht))
  | save run held live same =>
      refine ⟨hext, rfl, Iff.rfl, fun _ => Iff.rfl, rfl, fun _ _ => rfl, fun _ => rfl,
        fun hheld => ?_, fun _ => Iff.rfl⟩
      rcases hheld with hlock | hexclusive
      · exact absurd (Option.some.inj (held.symm.trans hlock)) hpq
      · have hshared := h.stageLock .compile p held
        rw [h.exclusive q hexclusive p] at hshared
        cases hshared
  | amend run a held found =>
      refine ⟨hext, rfl, Iff.rfl, fun _ => Iff.rfl, rfl, fun _ _ => rfl, fun _ => rfl,
        fun hheld => ?_, fun _ => Iff.rfl⟩
      rcases hheld with hlock | hexclusive
      · have hshared := h.stageLock .compile q hlock
        rw [h.exclusive p held q] at hshared
        cases hshared
      · exact absurd (Option.some.inj (held.symm.trans hexclusive)) hpq
  | clean status held =>
      refine ⟨hext, rfl, Iff.rfl, fun _ => Iff.rfl, rfl, fun _ _ => rfl, fun hshared => ?_,
        fun _ => rfl, fun _ => Iff.rfl⟩
      rw [h.exclusive p held q] at hshared
      cases hshared
  | decide hashes =>
      exact ⟨hext, rfl, Iff.rfl, fun _ => Iff.rfl, rfl, fun _ _ => rfl, fun _ => rfl,
        fun _ => rfl, fun _ => Iff.rfl⟩

theorem Inv.empty (platform : Platform N H) : Inv platform (World.empty : World N H) where
  exclusive _ hp := by cases hp
  stageLock _ _ hp := by cases hp
  inside _ _ hp := by cases hp
  body _ _ _ hp := by cases hp
  created _ _ := rfl
  stage s :=
    { fresh := fun _ => rfl
      records := fun _ hrun => by cases hrun
      started := fun _ hst => by cases hst
      skipped := fun _ hst => by cases hst
      failed := fun _ hst => by cases hst
      complete := fun _ hst => by cases hst
      noisy := fun _ hst => by cases hst }
  observed _ hrun := by cases hrun
  free _ := .inr (by rintro ⟨_, _, r, hr, -⟩; cases hr)

end Steps

section Ends
variable {w w' : World N H} {p q : Nat}

/-- Neither is its end. -/
theorem release_undisturbed (platform : Platform N H) (w : World N H) (hpq : p ≠ q) :
    Undisturbed q w (w.release platform p) where
  extend := .release platform w p
  shared := by simp [World.release, World.mark, Ne.symm hpq]
  exclusive := by
    by_cases he : w.exclusive = some p
    · simp [World.release, World.mark, he, hpq]
    · simp [World.release, World.mark, he]
  stageLock s := by
    by_cases he : w.stageLock s = some p
    · simp [World.release, World.mark, he, hpq]
    · simp [World.release, World.mark, he]
  phase := by simp [World.release, Ne.symm hpq]
  files _ _ := rfl
  clean _ := rfl
  run _ := rfl
  torn hlock := by
    refine ⟨fun ht => ht.elim id fun hun => ?_, .inl⟩
    exact absurd (Option.some.inj (hun.1.symm.trans hlock)) hpq

/-- What holds of a process that is not running. -/
structure Idle (p : Nat) (w : World N H) : Prop where
  shared : w.shared p = false
  exclusive : w.exclusive ≠ some p
  phase : w.phase p = .outside
  stageLock : ∀ s, w.stageLock s ≠ some p

theorem Idle.release (platform : Platform N H) (w : World N H) : Idle p (w.release platform p) where
  shared := by simp [World.release, World.mark]
  exclusive := by
    by_cases he : w.exclusive = some p <;> simp [World.release, World.mark, he]
  phase := by simp [World.release]
  stageLock s := by
    by_cases he : w.stageLock s = some p <;> simp [World.release, World.mark, he]

theorem Idle.undisturbed (h : Idle p w) (hrely : Undisturbed p w w') : Idle p w' where
  shared := hrely.shared.trans h.shared
  exclusive := mt hrely.exclusive.mp h.exclusive
  phase := hrely.phase.trans h.phase
  stageLock s := mt (hrely.stageLock s).mp (h.stageLock s)

end Ends

end TranspileBench.Coordinator
