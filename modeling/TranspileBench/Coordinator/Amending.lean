import TranspileBench.Coordinator.Amend
import TranspileBench.Coordinator.Holding

/-!
Any number of amendments of one session, each call killed anywhere. `run.json` only grows by
numbered entries; an entry's wheel is its harness's as long as no call finds the wheel of
another in the directory it is about to fill, or a build that could still put it there.
-/
namespace TranspileBench.Coordinator

variable {J : Type}

/-- `run'` is `run` with more amendments, and nothing else but the format tag changed. -/
structure RunJson.Amended (run run' : RunJson J) : Prop where
  amendments : run.amendments <+: run'.amendments
  rest : run' = { run with amendments := run'.amendments, format := run'.format }
  format : run'.format = run.format ∨ run'.format = some AMEND_FORMAT

theorem RunJson.Amended.refl (run : RunJson J) : run.Amended run :=
  ⟨List.prefix_rfl, rfl, .inl rfl⟩

theorem RunJson.Amended.trans {a b c : RunJson J} (h : a.Amended b) (h' : b.Amended c) :
    a.Amended c := by
  refine ⟨h.amendments.trans h'.amendments, ?_, ?_⟩
  · rw [h'.rest, h.rest]
  · rcases h'.format with hf | hf
    · rw [hf]
      exact h.format
    · exact .inr hf

theorem RunJson.amended_amend (run : RunJson J) (entry : AmendmentEntry J) :
    run.Amended (run.amend entry) :=
  ⟨List.prefix_append _ _, rfl, .inr rfl⟩

/-- What was recorded in `s` is still so in `s'`. -/
def AmendedSession.Extends (s s' : AmendedSession J) : Prop :=
  ∀ run, s.run = some run → ∃ run', s'.run = some run' ∧ run.Amended run'

def AmendedSession.Numbered (s : AmendedSession J) : Prop :=
  ∀ run, s.run = some run → ∀ i entry, run.amendments[i]? = some entry → entry.index = i + 1

/-- Every amendment names a wheel that was built from the harness it records. -/
def AmendedSession.Archived (s : AmendedSession J) : Prop :=
  ∀ run, s.run = some run → ∀ i entry, run.amendments[i]? = some entry →
    entry.wheel.1 = i + 1 ∧
      ∃ wheel ∈ s.wheels (i + 1), wheel.name = entry.wheel.2 ∧ wheel.built = some entry.hashes

/-- The builds that run fill the directory of the next amendment. -/
def AmendedSession.Filling (s : AmendedSession J) : Prop :=
  ∀ run, s.run = some run → ∀ build ∈ s.builds, build.1 = run.amendments.length + 1

/-- What was archived is in place, and no build that runs can reach it. -/
structure AmendedSession.Sound (s : AmendedSession J) : Prop where
  archived : s.Archived
  filling : s.Filling

/-- No build of an earlier call runs, and the directory of the next amendment holds no wheel but
this harness's. -/
structure AmendCall.Begins (call : AmendCall J) (s : AmendedSession J) : Prop where
  idle : s.builds = []
  fresh : ∀ run, s.run = some run → ∀ wheel ∈ s.wheels (run.amendments.length + 1),
    wheel.built = some call.harness

/-- What holds throughout a call that starts in `s`. -/
structure Amending (call : AmendCall J) (s w : AmendedSession J) : Prop where
  extend : s.Extends w
  numbered : s.Numbered → w.Numbered
  sound : call.Begins s → s.Archived → w.Sound

theorem Amending.refl (call : AmendCall J) (s : AmendedSession J) : Amending call s s := by
  refine ⟨fun run h => ⟨run, h, .refl run⟩, id, fun begun harchived => ⟨harchived, ?_⟩⟩
  intro run _ build hbuild
  rw [begun.idle] at hbuild
  cases hbuild

section Steps
variable {call : AmendCall J} {s w w' : AmendedSession J} {run : RunJson J}

/-- The directory of the next amendment is nobody's yet. -/
theorem AmendedSession.Sound.archive (h : w.Sound) {n : Nat} (found : List Wheel)
    (next : ∀ run, w.run = some run → n = run.amendments.length + 1) :
    (w.archive n found).Sound := by
  refine ⟨fun run hrun i entry hentry => ?_, h.filling⟩
  have hi : i < run.amendments.length := (List.getElem?_eq_some_iff.mp hentry).1
  have hn := next run hrun
  have hne : i + 1 ≠ n := by omega
  simpa [AmendedSession.archive, Function.update_of_ne hne] using h.archived run hrun i entry hentry

theorem AmendedSession.Sound.endBuild (h : w.Sound) (build : Nat × Harness) :
    (w.endBuild build).Sound :=
  ⟨h.archived, fun run hrun b hb => h.filling run hrun b (List.mem_of_mem_erase hb)⟩

theorem AmendedSession.endBuild_idle (h : w.builds = []) (build : Nat × Harness) :
    w.endBuild build = w := by
  cases w
  cases h
  rfl

theorem Building.run_eq (step : Building w w') : w'.run = w.run := by
  cases step with
  | write => rfl
  | ends => rfl

theorem Building.sound (step : Building w w') (h : w.Sound) : w'.Sound := by
  cases step with
  | write build wheel running _ =>
      exact h.archive _ fun run hrun => h.filling run hrun build running
  | ends build => exact h.endBuild build

/-- A step that leaves `run.json` alone. -/
theorem Amending.of_run (h : Amending call s w) (hrun : w'.run = w.run)
    (sound : w.Sound → w'.Sound) : Amending call s w' := by
  refine ⟨fun run₀ h₀ => ?_, fun hnumbered run' hrun' => ?_, fun begun harchived => ?_⟩
  · rw [hrun]
    exact h.extend run₀ h₀
  · exact h.numbered hnumbered run' (hrun ▸ hrun')
  · exact sound (h.sound begun harchived)

theorem Building.amending (step : Building w w') (h : Amending call s w) : Amending call s w' :=
  h.of_run step.run_eq step.sound

/-- The entry of the next amendment, with its wheel in place and no build running. -/
theorem Amending.amend (h : Amending call s w) (hrun : w.run = some run) {entry : AmendmentEntry J}
    {wheel : Wheel} (hindex : entry.index = run.amendments.length + 1)
    (hwheel : entry.wheel = (entry.index, wheel.name)) (hashes : entry.hashes = call.harness)
    (built : call.Begins s → w.builds = [] ∧ wheel ∈ w.wheels (run.amendments.length + 1) ∧
      wheel.built = some call.harness) :
    Amending call s { w with run := some (run.amend entry) } := by
  have cases : ∀ i e, (run.amend entry).amendments[i]? = some e →
      run.amendments[i]? = some e ∨ (i = run.amendments.length ∧ e = entry) := by
    intro i e he
    rcases lt_trichotomy i run.amendments.length with hi | hi | hi
    · exact .inl (by simpa [RunJson.amend, List.getElem?_append_left hi] using he)
    · subst hi
      exact .inr ⟨rfl, by simpa [RunJson.amend, eq_comm] using he⟩
    · have hlt := (List.getElem?_eq_some_iff.mp he).1
      simp only [RunJson.amend, List.length_append, List.length_singleton] at hlt
      omega
  refine ⟨fun run₀ h₀ => ?_, fun hnumbered => ?_, fun begun harchived => ⟨?_, ?_⟩⟩
  · obtain ⟨run₁, h₁, hamended⟩ := h.extend run₀ h₀
    obtain rfl : run₁ = run := Option.some.inj (h₁.symm.trans hrun)
    exact ⟨_, rfl, hamended.trans (run₁.amended_amend entry)⟩
  · intro run' hrun' i e he
    obtain rfl := Option.some.inj hrun'
    rcases cases i e he with hold | ⟨rfl, rfl⟩
    · exact h.numbered hnumbered run hrun i e hold
    · exact hindex
  · obtain ⟨-, hin, hbuilt⟩ := built begun
    intro run' hrun' i e he
    obtain rfl := Option.some.inj hrun'
    rcases cases i e he with hold | ⟨rfl, rfl⟩
    · exact (h.sound begun harchived).archived run hrun i e hold
    · exact ⟨by rw [hwheel, hindex], wheel, hin, by rw [hwheel], by rw [hashes, hbuilt]⟩
  · intro _ _ build hbuild
    rw [(built begun).1] at hbuild
    cases hbuild

end Steps

section Call
variable {call : AmendCall J} {s w w' : AmendedSession J} {B : AmendedSession J → Prop}

/-- The contract of a call that starts in `s`, beside the builds that run. -/
def amendContract (call : AmendCall J) (s : AmendedSession J) : Contract (AmendedSession J) :=
  Contract.amid Building (Amending call s)

/-- Before it writes its entry, a call that began so finds nothing but what it did itself. -/
structure Calm (call : AmendCall J) (s : AmendedSession J) (B : AmendedSession J → Prop)
    (w : AmendedSession J) : Prop where
  run : w.run = s.run
  quiet : call.Begins s → w.builds = [] ∧ B w

theorem Calm.rely (h : Calm call s B w) (steps : Relation.ReflTransGen Building w w') :
    Calm call s B w' := by
  induction steps with
  | refl => exact h
  | tail _ step ih =>
      refine ⟨step.run_eq.trans ih.run, fun begun => ?_⟩
      obtain ⟨hidle, hB⟩ := ih.quiet begun
      cases step with
      | write build _ running _ =>
          rw [hidle] at running
          cases running
      | ends build =>
          rw [AmendedSession.endBuild_idle hidle]
          exact ⟨hidle, hB⟩

theorem wp_readSession {β : Type} {f : AmendedSession J → β} {Q : β → AmendedSession J → Prop}
    (h : Calm call s B w) (ok : ∀ w₁, Calm call s B w₁ → Q (f w₁) w₁) :
    (readSession f).wp (amendContract call s) Q (fun _ _ => True) w := by
  refine Prog.wp_fallible (fun _ => trivial) ?_ fun _ _ _ _ _ => trivial
  rintro w₁ hrely hinv b _ ⟨rfl, rfl⟩
  exact ⟨trivial, hinv, ok _ (h.rely hrely)⟩

theorem wp_refuseIf {c : Bool} {text : String} {Q : Unit → AmendedSession J → Prop}
    (h : Q () w) : (refuseIf c text).wp (amendContract call s) Q (fun _ _ => True) w := by
  unfold refuseIf
  split
  · trivial
  · exact h

variable {run : RunJson J}

/-- While its build runs, no other does. -/
structure Started (call : AmendCall J) (s : AmendedSession J) (n : Nat) (w : AmendedSession J) :
    Prop where
  run : w.run = s.run
  quiet : call.Begins s → w.builds.Sublist [(n, call.harness)]

theorem Started.rely {n : Nat} (h : Started call s n w)
    (steps : Relation.ReflTransGen Building w w') : Started call s n w' := by
  induction steps with
  | refl => exact h
  | tail _ step ih =>
      refine ⟨step.run_eq.trans ih.run, fun begun => ?_⟩
      cases step with
      | write => exact ih.quiet begun
      | ends build => exact List.erase_sublist.trans (ih.quiet begun)

/-- The build leaves a wheel of the harness, which is in place if no other build has run. -/
theorem wp_buildWheel (hrun : s.run = some run) (h : Calm call s B w) :
    (buildWheel call.harness (run.amendments.length + 1)).wp (amendContract call s)
      (fun _ w' => ∃ name, Calm call s (fun w => ∃ others, w.wheels (run.amendments.length + 1) =
        others ++ [⟨name, some call.harness⟩]) w') (fun _ _ => True) w := by
  unfold buildWheel
  rw [Prog.wp_bind]
  refine Prog.wp_fallible (fun _ => trivial) ?_ fun _ _ _ _ _ => trivial
  rintro w₁ hrely hinv _ _ rfl
  have h₁ := h.rely hrely
  have hrun₁ : w₁.run = some run := h₁.run.trans hrun
  have next : ∀ run', w₁.run = some run' →
      run.amendments.length + 1 = run'.amendments.length + 1 := by
    intro run' hrun'
    rw [Option.some.inj (hrun₁.symm.trans hrun')]
  refine ⟨trivial, hinv.of_run rfl fun hsound => ⟨hsound.archived, ?_⟩, ?_⟩
  · intro run' hrun' build hbuild
    cases List.mem_append.mp hbuild with
    | inl hbuild => exact hsound.filling run' hrun' build hbuild
    | inr hbuild =>
        rw [List.mem_singleton.mp hbuild]
        exact next run' hrun'
  have started : Started call s (run.amendments.length + 1)
      { w₁ with builds := w₁.builds ++ [(run.amendments.length + 1, call.harness)] } := by
    refine ⟨h₁.run, fun begun => ?_⟩
    simp [(h₁.quiet begun).1]
  rw [Prog.wp_bind]
  intro w₂ hrely' hinv' ended w₃ hawait
  have h₂ := started.rely hrely'
  cases ended with
  | error e =>
      obtain ⟨-, rfl⟩ := hawait
      exact ⟨trivial, hinv'.of_run rfl fun hsound => hsound.endBuild _, trivial⟩
  | ok _ =>
      obtain ⟨-, name, rfl⟩ := hawait
      refine ⟨trivial, hinv'.of_run rfl fun hsound => ?_, name, h₂.run, fun begun => ⟨?_, ?_⟩⟩
      · refine AmendedSession.Sound.endBuild (hsound.archive _ fun run' hrun' => ?_) _
        rw [Option.some.inj ((h₂.run.trans hrun).symm.trans hrun')]
      · have hnone := (h₂.quiet begun).erase (run.amendments.length + 1, call.harness)
        rw [List.erase_cons_head] at hnone
        exact List.sublist_nil.mp hnone
      · exact ⟨_, Function.update_self ..⟩

/-- A call that began so gets its own harness's wheel. -/
theorem wp_buildHarnessWheel (hrun : s.run = some run)
    (h : Calm call s (fun w => w.wheels = s.wheels) w) :
    (buildHarnessWheel call.harness (run.amendments.length + 1)).wp (amendContract call s)
      (fun wheel => Calm call s fun w => wheel ∈ w.wheels (run.amendments.length + 1) ∧
        wheel.built = some call.harness) (fun _ _ => True) w := by
  have one : ∀ {w₁ : AmendedSession J}, w₁.run = s.run → (∀ wheel, call.Begins s →
      w₁.wheels (run.amendments.length + 1) = [wheel] → w₁.builds = [] ∧
        wheel.built = some call.harness) →
      (oneWheel (w₁.wheels (run.amendments.length + 1)) : Prog (AmendedSession J) Exn Wheel).wp
        (amendContract call s) (fun wheel => Calm call s fun w =>
          wheel ∈ w.wheels (run.amendments.length + 1) ∧ wheel.built = some call.harness)
        (fun _ _ => True) w₁ := by
    intro w₁ hrun₁ built
    unfold oneWheel
    split
    · rename_i wheel hfound
      refine ⟨hrun₁, fun begun => ?_⟩
      obtain ⟨hidle, hbuilt⟩ := built wheel begun hfound
      exact ⟨hidle, by simp [hfound], hbuilt⟩
    · trivial
  unfold buildHarnessWheel
  rw [Prog.wp_bind]
  refine wp_readSession h fun w₁ h₁ => ?_
  split
  · rw [Prog.wp_bind]
    refine Prog.wp_mono (wp_buildWheel hrun h₁) ?_ fun _ _ h => h
    rintro _ w₂ ⟨name, h₂⟩
    rw [Prog.wp_bind]
    refine wp_readSession h₂ fun w₃ h₃ => one h₃.run fun wheel begun hfound => ?_
    obtain ⟨hidle, others, hwheels⟩ := h₃.quiet begun
    rw [hwheels] at hfound
    obtain ⟨rfl, hwheel⟩ := List.append_eq_singleton_iff.mp hfound |>.resolve_right (by simp)
    obtain rfl := List.singleton_inj.mp hwheel
    exact ⟨hidle, rfl⟩
  · refine one h₁.run fun wheel begun hfound => ?_
    obtain ⟨hidle, hsame⟩ := h₁.quiet begun
    refine ⟨hidle, begun.fresh run hrun wheel ?_⟩
    rw [← hsame, hfound]
    exact List.mem_singleton_self wheel

variable [DecidableEq J]

theorem wp_archiveAmendment {cost : Option StageState} (hrun : s.run = some run)
    (h : Calm call s (fun w => w.wheels = s.wheels) w) :
    (archiveAmendment call run cost).wp (amendContract call s) (fun _ _ => True)
      (fun _ _ => True) w := by
  unfold archiveAmendment
  rw [Prog.wp_bind]
  refine Prog.wp_mono (wp_buildHarnessWheel hrun h) ?_ fun _ _ h => h
  intro wheel w₁ h₁
  rw [Prog.wp_bind]
  refine Prog.wp_request (fun _ => trivial) ?_ fun _ _ _ _ _ => trivial
  intro w₂ hrely _ stamp _
  have h₂ := h₁.rely hrely
  rw [Prog.wp_bind]
  refine Prog.wp_fallible (fun _ => trivial) ?_ fun _ _ _ _ _ => trivial
  rintro w₃ hrely' hinv _ _ rfl
  have h₃ := h₂.rely hrely'
  refine ⟨trivial, hinv.amend (h₃.run.trans hrun) rfl rfl rfl h₃.quiet, ?_⟩
  rw [Prog.wp_bind]
  refine Prog.wp_fallible (fun _ => trivial) ?_ fun _ _ _ _ _ => trivial
  rintro w₄ _ hinv' _ _ rfl
  exact ⟨trivial, hinv'.of_run rfl fun hsound => ⟨hsound.archived, hsound.filling⟩, trivial⟩

/-- A call does nothing to the session before its checks have passed. -/
theorem wp_amendCall :
    (amendCall call).wp (amendContract call s) (fun _ _ => True) (fun _ _ => True) s := by
  have start : Calm call s (fun w => w.wheels = s.wheels) s :=
    ⟨rfl, fun begun => ⟨begun.idle, rfl⟩⟩
  unfold amendCall amendLocked
  split
  · trivial
  rw [Prog.wp_bind]
  refine wp_readSession start fun w₁ h₁ => ?_
  rw [Prog.wp_bind]
  refine wp_refuseIf ?_
  rw [Prog.wp_bind]
  refine Prog.wp_request (fun _ => trivial) ?_ fun _ _ _ _ _ => trivial
  intro w₂ hrely _ _ _
  rw [Prog.wp_bind]
  refine wp_readSession (h₁.rely hrely) fun w₃ h₃ => ?_
  rw [Prog.wp_bind]
  refine wp_refuseIf ?_
  rw [Prog.wp_bind]
  refine wp_refuseIf ?_
  rw [Prog.wp_bind]
  refine wp_readSession h₃ fun w₄ h₄ => ?_
  cases hrun : w₄.run with
  | none => trivial
  | some run =>
      rw [Prog.wp_bind]
      refine Prog.wp_mono (Prog.wp_each (fun _ => Calm call s fun w => w.wheels = s.wheels) ?_ h₄)
        ?_ fun _ _ h => h
      · intro stage rest w h
        rw [Prog.wp_bind]
        exact wp_readSession h fun _ h => wp_refuseIf h
      intro _ w₅ h₅
      rw [Prog.wp_bind]
      refine wp_readSession h₅ fun w₆ h₆ => ?_
      rw [Prog.wp_bind]
      refine wp_refuseIf ?_
      rw [Prog.wp_bind]
      refine wp_readSession h₆ fun w₇ h₇ => ?_
      rw [Prog.wp_bind]
      refine wp_refuseIf ?_
      rw [Prog.wp_bind, wp_ofExcept]
      refine ⟨fun _ _ => ?_, fun _ _ => trivial⟩
      rw [Prog.wp_bind]
      exact wp_refuseIf (wp_archiveAmendment (h₄.run.symm.trans hrun) h₇)

/-- Whatever becomes of a call, beside whatever builds, it keeps what it must. -/
theorem exec_amendCall {o : Option (Except Exn (AmendmentEntry J))}
    (h : Exec ((amendCall call).disturbed Building) s o w) : Amending call s w :=
  (h.sound (.refl call s) (Prog.wp_disturbed wp_amendCall fun _ _ step => step.amending)).1

end Call

section Calls
variable [DecidableEq J] {C : AmendCall J → AmendedSession J → Prop} {s s₁ s₂ : AmendedSession J}

/-- Calls of `amend_cost` on one session, each begun where `C` holds, and each completed,
refused or killed anywhere. The builds that killed calls leave behind run on, during later
calls and between them; nothing else writes `run.json` or the archive. -/
inductive Calls (C : AmendCall J → AmendedSession J → Prop) :
    AmendedSession J → AmendedSession J → Prop
  | refl (s : AmendedSession J) : Calls C s s
  | call {s s₁ s₂ : AmendedSession J} {o : Option (Except Exn (AmendmentEntry J))}
      (call : AmendCall J) (before : Calls C s s₁) (begun : C call s₁)
      (run : Exec ((amendCall call).disturbed Building) s₁ o s₂) : Calls C s s₂
  | left {s s₁ s₂ : AmendedSession J} (before : Calls C s s₁) (step : Building s₁ s₂) : Calls C s s₂
  | between {s s₁ s₂ : AmendedSession J} (before : Calls C s s₁) (run : s₂.run = s₁.run)
      (wheels : s₂.wheels = s₁.wheels) (builds : s₂.builds = s₁.builds) : Calls C s s₂

theorem Calls.extends (h : Calls C s s₁) : s.Extends s₁ := by
  induction h with
  | refl => exact fun run hrun => ⟨run, hrun, .refl run⟩
  | call call _ _ run ih =>
      intro run₀ h₀
      obtain ⟨run₁, h₁, hamended⟩ := ih run₀ h₀
      obtain ⟨run₂, h₂, hamended'⟩ := (exec_amendCall run).extend run₁ h₁
      exact ⟨run₂, h₂, hamended.trans hamended'⟩
  | left _ step ih =>
      intro run₀ h₀
      rw [step.run_eq]
      exact ih run₀ h₀
  | between _ run _ _ ih =>
      intro run₀ h₀
      rw [run]
      exact ih run₀ h₀

theorem Calls.numbered (h : Calls C s s₁) (start : s.Numbered) : s₁.Numbered := by
  induction h with
  | refl => exact start
  | call call _ _ run ih => exact (exec_amendCall run).numbered ih
  | left _ step ih =>
      intro r hr
      exact ih r (step.run_eq ▸ hr)
  | between _ run _ _ ih =>
      intro r hr
      exact ih r (run ▸ hr)

theorem Calls.sound (h : Calls AmendCall.Begins s s₁) (start : s.Sound) : s₁.Sound := by
  induction h with
  | refl => exact start
  | call call _ begun run ih => exact (exec_amendCall run).sound begun ih.archived
  | left _ step ih => exact step.sound ih
  | between _ run wheels builds ih =>
      refine ⟨fun r hr => ?_, fun r hr => ?_⟩
      · rw [wheels]
        exact ih.archived r (run ▸ hr)
      · rw [builds]
        exact ih.filling r (run ▸ hr)

/-- The law of amendments between two moments of a session. -/
structure AmendmentLaw (s₁ s₂ : AmendedSession J) : Prop where
  archived : s₁.Archived
  numbered : s₁.Numbered
  extend : s₁.Extends s₂

/-- From a session that was not amended yet: the entries are numbered and never changed,
and nothing else of `run.json` is but its format tag; and if every call begins when no build of
an earlier one runs and finds the next directory without another harness's wheel, every entry
names its own harness's wheel. -/
theorem amendments_archived (s : AmendedSession J)
    (start : ∀ run, s.run = some run → run.amendments = []) (idle : s.builds = []) :
    (∀ s₁ s₂, Calls (fun _ _ => True) s s₁ → Calls (fun _ _ => True) s₁ s₂ →
      s₁.Numbered ∧ s₁.Extends s₂) ∧
    ∀ s₁ s₂, Calls AmendCall.Begins s s₁ → Calls AmendCall.Begins s₁ s₂ → AmendmentLaw s₁ s₂ := by
  have numbered : s.Numbered := by
    intro run hrun i entry hentry
    simp [start run hrun] at hentry
  have sound : s.Sound := by
    refine ⟨fun run hrun i entry hentry => ?_, fun run _ build hbuild => ?_⟩
    · simp [start run hrun] at hentry
    · simp [idle] at hbuild
  constructor
  · exact fun s₁ s₂ h h' => ⟨h.numbered numbered, h'.extends⟩
  · exact fun s₁ s₂ h h' => ⟨(h.sound sound).archived, h.numbered numbered, h'.extends⟩

end Calls

/-! A cost stage that its harness cannot finish, re-pinned to a first later harness by a call
that is killed, and then to a second one. -/

section Sample

def compiledRun : RunJson String where
  format := some "qtb-run/3"
  profile := "iterations-profile"
  manifest := "m"
  policy := "p"
  coordinator := some "old"
  implementation := some "old"
  fields _ := none
  amendments := []

def finished : StageState := { status := .complete, attempts := 1 }

def unfinished : AmendedSession String where
  cleaned := none
  states s := if s = .compile ∨ s = .quality ∨ s = .correctness then some finished
    else none
  run := some compiledRun
  wheels _ := []
  copies _ := none
  builds := []

/-- Its amendments obey the law. -/
theorem amendments_archived_unfinished :
    (∀ s₁ s₂, Calls (fun _ _ => True) unfinished s₁ → Calls (fun _ _ => True) s₁ s₂ →
      s₁.Numbered ∧ s₁.Extends s₂) ∧
    ∀ s₁ s₂, Calls AmendCall.Begins unfinished s₁ → Calls AmendCall.Begins s₁ s₂ →
      AmendmentLaw s₁ s₂ := by
  refine amendments_archived unfinished (fun run hrun => ?_) rfl
  obtain rfl : compiledRun = run := Option.some.inj hrun
  rfl

def repin (identity : String) : AmendCall String where
  harness := ⟨identity, identity⟩
  installed _ := .ok ("m", "p")
  session := []
  reason := "the monitor aborted on setup noise"

def archivedWheel (identity : String) : Wheel :=
  ⟨"qtb-1-py3-none-any.whl", some ⟨identity, identity⟩⟩

/-- The checks pass on the unfinished session, whatever its archive holds. -/
theorem exec_repin (wheels : Nat → List Wheel) {identity : String} (later : identity ≠ "old")
    {w w' : AmendedSession String} (hw : w = { unfinished with wheels })
    {o : Option (Except Exn (AmendmentEntry String))}
    (h : Exec (archiveAmendment (repin identity) compiledRun none) w o w') :
    Exec (amendCall (repin identity)) w o w' := by
  subst hw
  have inForce : (repin identity).inForce compiledRun = false := by
    simp [AmendCall.inForce, repin, compiledRun, RunJson.effective, Ne.symm later]
  unfold amendCall amendLocked
  refine Exec.bind (a := true) (.fallible ⟨rfl, rfl⟩) ?_
  refine Exec.bind (.ret () _) (Exec.bind (a := ()) (.request trivial) ?_)
  refine Exec.bind (a := none) (.fallible ⟨rfl, rfl⟩) (Exec.bind (.ret () _)
    (Exec.bind (.ret () _) ?_))
  refine Exec.bind (a := some compiledRun) (.fallible ⟨rfl, rfl⟩) ?_
  have before : Exec (Prog.each (fun s => do
      let state ← readSession (·.states s)
      refuseIf (!isFinal state) ("Only cost can be re-pinned: " ++ s.name ++ " is "
        ++ statusText state ++ ", not final")) BEFORE_COST)
      { unfinished with wheels } (some (Except.ok (ε := Exn) ())) { unfinished with wheels } := by
    have one : ∀ s ∈ BEFORE_COST, Exec (do
        let state ← readSession (·.states s)
        refuseIf (!isFinal state) ("Only cost can be re-pinned: " ++ s.name ++ " is "
          ++ statusText state ++ ", not final"))
        { unfinished with wheels } (some (Except.ok (ε := Exn) ())) { unfinished with wheels } := by
      intro s hs
      refine Exec.bind (a := some finished) (.fallible ⟨?_, rfl⟩) (.ret () _)
      have hcase : s = .compile ∨ s = .quality ∨ s = .correctness := by
        simpa [BEFORE_COST] using hs
      simp [unfinished, hcase]
    refine (one .compile (by decide)).bind ((one .quality (by decide)).bind ?_)
    exact (one .correctness (by decide)).bind (.ret () _)
  refine before.bind ?_
  refine Exec.bind (a := none) (.fallible ⟨rfl, rfl⟩) (Exec.bind (.ret () _) ?_)
  refine Exec.bind (a := none) (.fallible ⟨rfl, rfl⟩) (Exec.bind (.ret () _) ?_)
  refine Exec.bind (a := ()) (.ret () _) ?_
  rw [inForce]
  exact Exec.bind (.ret () _) h

/-- The wheel of the call that was killed is recorded as that of the next harness. -/
theorem amendment_names_other_wheel : ∃ s, Calls (fun _ _ => True) unfinished s ∧
    ∃ run entry, s.run = some run ∧ run.amendments = [entry] ∧ entry.hashes = ⟨"c", "c"⟩ ∧
      s.wheels 1 = [archivedWheel "b"] := by
  let built : AmendedSession String := unfinished.archive 1 [archivedWheel "b"]
  have killed : Exec (amendCall (repin "b")) unfinished none built := by
    refine exec_repin (fun _ => []) (by decide) rfl (.stopped ?_)
    refine Exec.bind (a := []) (.fallible ⟨rfl, rfl⟩) (.stopped ?_)
    refine Exec.bind (a := ()) (.fallible rfl) (.stopped ?_)
    refine Exec.act (b := Except.ok ()) ⟨by simp [repin], "qtb-1-py3-none-any.whl", ?_⟩ (.stop _ _)
    simp [built, AmendedSession.archive, AmendedSession.putWheel, AmendedSession.endBuild,
      archivedWheel, repin, unfinished, compiledRun]
  let entry := (repin "c").entry compiledRun none "now" "hash" (archivedWheel "b")
  let amended : AmendedSession String :=
    { built with
      run := some (compiledRun.amend entry), copies := Function.update built.copies 1 (some entry) }
  have recorded : Exec (amendCall (repin "c")) built (some (.ok entry)) amended := by
    refine exec_repin built.wheels (by decide) rfl ?_
    have found : Exec (buildHarnessWheel (repin "c").harness 1) built
        (some (.ok (archivedWheel "b"))) built :=
      Exec.bind (a := [archivedWheel "b"]) (.fallible ⟨rfl, rfl⟩) (.ret _ _)
    refine found.bind ?_
    refine Exec.bind (a := ("now", "hash")) (.request trivial) ?_
    refine Exec.bind (a := ()) (.fallible rfl) (Exec.bind (a := ()) (.fallible rfl) (.ret _ _))
  have calls := ((Calls.refl unfinished).call (C := fun _ _ => True) (repin "b") trivial
    killed.disturbed).call (repin "c") trivial recorded.disturbed
  exact ⟨amended, calls, _, entry, rfl, rfl, rfl, rfl⟩

end Sample
end TranspileBench.Coordinator
