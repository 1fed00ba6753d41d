import TranspileBench.Lsf.Resume
import TranspileBench.Coordinator.CostReplay

/-!
What a refused resume leaves behind. Every check before the amendment comes before any
durable write; of the checks after it, those of the unit tests' harness and of the log
level can still refuse.
-/
namespace TranspileBench.Lsf
open Coordinator Evaluator Prog

variable {N H : Type}

/-- The records a resume may write are as they were. -/
structure Unchanged (w w' : Site N H) : Prop where
  run : w'.session.run = w.session.run
  launch : w'.launch = w.launch
  epoch : w'.ledger.epoch = w.ledger.epoch

/-- What `amend_cost` checks of the session. -/
structure Repinnable (inputs : AmendInputs) (v : World N H) (run : Run N) : Prop where
  found : v.run = some run
  reason : inputs.reason ≠ ""
  free : v.exclusive = none ∧ ∀ q, v.shared q = false
  clean : v.clean = none
  before : ∀ s ∈ BEFORE_COST, isFinal (v.stages s).state = true
  tests : (v.stages .unit_tests).state = none ∨ isFinal (v.stages .unit_tests).state = true
  cost : isFinal (v.stages .cost).state = false
  profile : inputs.installed = .ok (true, true)
  inForce : inputs.inForce run = false

/-- `run.json` with one more amendment. -/
def amended (inputs : AmendInputs) (run : Run N) (wheel : String) : Run N :=
  { run with amendments := run.amendments ++
      [⟨inputs.harness, inputs.session, inputs.reason, wheel⟩] }

section Amend
variable {p : ℕ} {inputs : AmendInputs} {v : World N H} {α β : Type}

theorem wp_readFile_free {f : World N H → β} {Q : β → World N H → Prop}
    {E : Exn → World N H → Prop} (ok : Q (f v) v) (fails : ∀ e, E e v) :
    (readFile f).wp .free Q E v := by
  refine wp_fallible_free ?_ fun e _ => fails e
  rintro b _ ⟨rfl, rfl⟩
  exact ok

theorem wp_refuseUnless_free {c : Bool} {text : String} {Q : Unit → World N H → Prop}
    {E : Exn → World N H → Prop} (ok : c = true → Q () v) (fails : ∀ e, E e v) :
    (refuseUnless c text).wp .free Q E v := by
  unfold refuseUnless
  split
  · rename_i hc
    exact ok hc
  · exact fails _

theorem wp_refuseCleaned_free {Q : Unit → World N H → Prop} {E : Exn → World N H → Prop}
    (ok : v.clean = none → Q () v) (fails : ∀ e, E e v) : refuseCleaned.wp .free Q E v := by
  unfold refuseCleaned
  rw [wp_bind]
  refine wp_readFile_free ?_ fails
  cases hclean : v.clean with
  | none => exact ok hclean
  | some status =>
      cases status with
      | cleaning => exact fails _
      | complete => exact fails _

theorem checkInstalled_eq_ok {installed : Except Exn (Bool × Bool)} {u : Unit} :
    checkInstalled installed = .ok u ↔ installed = .ok (true, true) := by
  cases installed with
  | error e => exact ⟨nofun, nofun⟩
  | ok found =>
      obtain ⟨manifest, policy⟩ := found
      cases manifest with
      | false => exact ⟨nofun, nofun⟩
      | true =>
          cases policy with
          | false => exact ⟨nofun, nofun⟩
          | true => exact ⟨fun _ => rfl, fun _ => rfl⟩

theorem wp_requireFinal (stages : List Stage) :
    (Prog.each (fun s => do
      let state ← readState s
      refuseUnless (isFinal state) ("Only cost can be re-pinned: " ++ s.name ++ " is "
        ++ statusText state ++ ", not final")) stages : Prog (World N H) Exn Unit).wp .free
      (fun _ w => w = v ∧ ∀ s ∈ stages, isFinal (v.stages s).state = true)
      (fun e w => w.run = v.run ∨ osError e) v := by
  have fails : ∀ e : Exn, v.run = v.run ∨ osError e := fun _ => .inl rfl
  have loop : (Prog.each (fun s => do
      let state ← readState s
      refuseUnless (isFinal state) ("Only cost can be re-pinned: " ++ s.name ++ " is "
        ++ statusText state ++ ", not final")) stages : Prog (World N H) Exn Unit).wp .free
      (fun _ w => w = v ∧ ∃ done, stages = done ++ [] ∧
        ∀ s ∈ done, isFinal (v.stages s).state = true)
      (fun e w => w.run = v.run ∨ osError e) v := by
    refine wp_each (fun rest w => w = v ∧ ∃ done, stages = done ++ rest ∧
      ∀ s ∈ done, isFinal (v.stages s).state = true) ?_ ⟨rfl, [], rfl, by simp⟩
    rintro s rest _ ⟨rfl, done, hdone, hfinal⟩
    rw [wp_bind]
    refine wp_readFile_free (wp_refuseUnless_free (fun hs => ?_) fails) fails
    refine ⟨rfl, done ++ [s], by simpa using hdone, fun t ht => ?_⟩
    cases List.mem_append.mp ht with
    | inl ht => exact hfinal t ht
    | inr ht => exact List.mem_singleton.mp ht ▸ hs
  refine wp_mono loop ?_ fun _ _ => id
  rintro _ w ⟨rfl, done, hdone, hfinal⟩
  rw [List.append_nil] at hdone
  exact ⟨rfl, hdone ▸ hfinal⟩

/-- The body of an amendment writes only `run.json`, after every check. -/
theorem wp_amendSession :
    (amendSession inputs).wp .free
      (fun _ v' => ∃ run wheel, v.run = some run ∧ v.clean = none ∧
        (∀ s ∈ BEFORE_COST, isFinal (v.stages s).state = true) ∧
        ((v.stages .unit_tests).state = none ∨ isFinal (v.stages .unit_tests).state = true) ∧
        isFinal (v.stages .cost).state = false ∧ inputs.installed = .ok (true, true) ∧
        inputs.inForce run = false ∧ v' = { v with run := some (amended inputs run wheel) })
      (fun e v' => v'.run = v.run ∨ osError e) v := by
  have fails : ∀ e : Exn, v.run = v.run ∨ osError e := fun _ => .inl rfl
  unfold amendSession
  rw [wp_bind]
  refine wp_refuseCleaned_free (fun hclean => ?_) fails
  rw [wp_bind]
  refine wp_readFile_free (E := fun e w => w.run = v.run ∨ osError e) ?_ fails
  rw [wp_bind]
  refine wp_mono (wp_requireFinal BEFORE_COST) ?_ fun _ _ => id
  rintro _ w ⟨rfl, hfinal⟩
  rw [wp_bind]
  refine wp_readFile_free ?_ fails
  rw [wp_bind]
  refine wp_refuseUnless_free (fun htests => ?_) fails
  rw [wp_bind]
  refine wp_readFile_free ?_ fails
  rw [wp_bind]
  refine wp_refuseUnless_free (fun hcost => ?_) fails
  cases hrun : w.run with
  | none => exact .inl hrun
  | some run =>
      have found : ∀ e : Exn, w.run = some run ∨ osError e := fun _ => .inl hrun
      change (Prog.ofExcept _ >>= _).wp _ _ _ _
      rw [wp_bind, wp_ofExcept]
      refine ⟨fun _ hprofile => ?_, fun e _ => found e⟩
      rw [wp_bind]
      refine wp_refuseUnless_free (fun hforce => ?_) found
      rw [wp_bind]
      refine wp_request_free (fun wheel _ => ?_) fun e _ => found e
      rw [wp_bind]
      refine wp_fallible_free ?_ fun e _ => found e
      rintro _ _ rfl
      refine wp_request_free (fun _ _ => ?_) fun e he => .inr he
      refine ⟨run, wheel, rfl, hclean, hfinal, ?_, by simpa using hcost,
        checkInstalled_eq_ok.mp hprofile, by simpa using hforce, rfl⟩
      simpa using htests

theorem wp_amendCost :
    (amendCost p inputs).wp .free
      (fun _ v' => ∃ run wheel, Repinnable inputs v run ∧
        v' = { v with run := some (amended inputs run wheel) })
      (fun e v' => v'.run = v.run ∨ osError e) v := by
  unfold amendCost
  split
  · exact .inl rfl
  · rename_i hreason
    unfold holdingSession
    rw [wp_bind]
    refine wp_readFile_free ?_ fun _ => .inl rfl
    split
    · unfold lockExclusive unlockExclusive
      rw [wp_bind]
      refine wp_fallible_free ?_ fun _ _ => .inl rfl
      rintro _ _ ⟨hfree, hshared, rfl⟩
      rw [wp_bind, wp_attempt]
      refine wp_mono wp_amendSession ?_ ?_
      · rintro _ _ ⟨run, wheel, hrun, hclean, hbefore, htests, hcost, hprofile, hforce, rfl⟩
        rw [wp_bind]
        refine wp_modify_free ⟨run, wheel, ?_, ?_⟩
        · exact ⟨hrun, hreason, ⟨hfree, hshared⟩, hclean, hbefore, htests, hcost, hprofile, hforce⟩
        · simp [World.dropExclusive, World.takeExclusive, hfree]
      · intro e v' h
        rw [wp_bind]
        refine wp_modify_free ?_
        exact h
    · exact .inl rfl

end Amend

/-- An amendment that the checks before it allow. -/
structure Amendable (launcher : Launcher) (args : ResumeArgs) (w : Site N H) (run : Run N) :
    Prop where
  asked : args.upgrade_cost = true
  ended : ∀ e ∈ w.ledger.jobs, e.unsettled = true → e.stage = .manager
  repinnable : Repinnable (amendInputs launcher args w.launch) w.session run

/-- A check after the amendment refuses: the unit tests are still to run under another
harness, or the log level is none. -/
def LateRefusal (launcher : Launcher) (args : ResumeArgs) (w : Site N H) (run : Run N) : Prop :=
  (w.launch.unit_tests = true ∧ (w.session.stages .unit_tests).state = none ∧
    pinnedElsewhere launcher.harness run .unit_tests ≠ []) ∨
  ∃ fault, resolveLevel launcher args w.launch.log_level = .error fault

/-- The session, its launch and its epochs are as they were, and nothing was submitted. -/
structure Same (w w' : Site N H) : Prop where
  session : w'.session = w.session
  launch : w'.launch = w.launch
  resumes : w'.ledger.resumes = w.ledger.resumes
  submitted : w'.submitted = w.submitted

theorem Same.refl (w : Site N H) : Same w w := ⟨rfl, rfl, rfl, rfl⟩

theorem Same.trans {w w' w'' : Site N H} (h : Same w w') (h' : Same w' w'') : Same w w'' :=
  ⟨h'.session.trans h.session, h'.launch.trans h.launch, h'.resumes.trans h.resumes,
    h'.submitted.trans h.submitted⟩

theorem Same.unchanged {w w' : Site N H} (h : Same w w') : Unchanged w w' :=
  ⟨by rw [h.session], h.launch, by rw [Ledger.epoch, Ledger.epoch, h.resumes]⟩

theorem same_report (w : Site N H) (id : String) (status : Option JobStatus) :
    Same w (w.report id status) := ⟨rfl, rfl, rfl, rfl⟩

theorem same_updateJob (w : Site N H) (key : String) (f : Entry → Entry) :
    Same w (w.updateJob key f) := ⟨rfl, rfl, rfl, rfl⟩

section Checks
variable {α β : Type} {w : Site N H} {E : Fault → Site N H → Prop}

theorem wp_look_free {f : Site N H → β} {Q : β → Site N H → Prop} (ok : Q (f w) w)
    (fails : E .other w) : (look f).wp .free Q E w := by
  refine wp_fallible_free ?_ ?_
  · rintro b _ ⟨rfl, rfl⟩
    exact ok
  · rintro _ rfl
    exact fails

theorem wp_put_free {f : Site N H → Site N H} {Q : Unit → Site N H → Prop} (ok : Q () (f w))
    (fails : E .other w) : (put f).wp .free Q E w := by
  refine wp_fallible_free ?_ ?_
  · rintro _ _ rfl
    exact ok
  · rintro _ rfl
    exact fails

theorem wp_statusOf_free {id : String} :
    (statusOf id).wp .free (fun _ => Same w) E w := by
  unfold statusOf
  rw [wp_bind]
  refine wp_perform_free ?_
  rintro answer _ rfl
  cases answer with
  | error text => exact same_report ..
  | ok status =>
      change Prog.wp _ (ite _ _ _) _ _ _
      split
      · rw [wp_bind]
        refine wp_perform_free ?_
        rintro ended _ ⟨-, rfl⟩
        exact (same_report ..).trans (same_report ..)
      · exact same_report ..

theorem wp_findManager_free {e : Entry} :
    (findManager e).wp .free (fun _ => Same w) E w := by
  unfold findManager
  split
  · refine wp_perform_free ?_
    rintro _ _ ⟨-, rfl⟩
    exact .refl _
  · rw [wp_bind]
    exact wp_mono wp_statusOf_free (fun _ _ h => h) fun _ _ h => h

theorem wp_checkJobEnded_free {session : String} {e : Entry} :
    (checkJobEnded session e).wp .free
      (fun _ w' => Same w w' ∧ (e.unsettled = true → e.stage = .manager))
      (fun _ => Same w) w := by
  unfold checkJobEnded
  split
  · rename_i hsettled
    exact ⟨.refl w, by simp_all⟩
  · split
    · exact .refl w
    · rename_i hmanager
      rw [wp_bind]
      refine wp_mono wp_findManager_free (fun found w₁ h₁ => ?_) fun _ _ h => h
      cases found with
      | error text => exact h₁
      | ok found =>
          change (checkManagerEnded session e found).wp _ _ _ _
          unfold checkManagerEnded
          split
          · exact h₁
          · refine wp_put_free ⟨h₁.trans (same_updateJob ..), fun _ => ?_⟩ h₁
            simpa using hmanager

theorem wp_checkJobsEnded_free {session : String} :
    (checkJobsEnded session).wp .free
      (fun _ w' => Same w w' ∧ ∀ e ∈ w.ledger.jobs, e.unsettled = true → e.stage = .manager)
      (fun _ => Same w) w := by
  unfold checkJobsEnded
  rw [wp_bind]
  refine wp_look_free ?_ (.refl w)
  refine wp_mono (wp_each (E := fun _ => Same w)
    (fun rest w' => Same w w' ∧ ∃ done, w.ledger.jobs = done ++ rest ∧
      ∀ e ∈ done, e.unsettled = true → e.stage = .manager) ?_ ⟨.refl w, [], rfl, by simp⟩) ?_
    fun _ _ h => h
  · rintro e rest w₁ ⟨h₁, done, hdone, hended⟩
    refine wp_mono wp_checkJobEnded_free ?_ fun _ _ h => h₁.trans h
    rintro _ w₂ ⟨h₂, he⟩
    refine ⟨h₁.trans h₂, done ++ [e], by simpa using hdone, fun x hx => ?_⟩
    cases List.mem_append.mp hx with
    | inl hx => exact hended x hx
    | inr hx => exact List.mem_singleton.mp hx ▸ he
  · rintro _ w₁ ⟨h₁, done, hdone, hended⟩
    rw [List.append_nil] at hdone
    exact ⟨h₁, hdone ▸ hended⟩

/-- The stages a new manager would run. -/
def pendingStages (launch : Launch) (v : World N H) : List Stage :=
  if v.run.isSome then (launchStages launch).filter fun s => !isFinal (v.stages s).state
  else launchStages launch

theorem wp_unfinished_free {launch : Launch} :
    (unfinished launch).wp .free
      (fun pending w' => w' = w ∧ pending = pendingStages launch w.session)
      (fun _ w' => w' = w) w := by
  unfold unfinished
  rw [wp_bind]
  refine wp_look_free ?_ rfl
  unfold pendingStages
  split
  · refine wp_mono (wp_fold (E := fun _ w' => w' = w) (fun pending rest w' => w' = w ∧ ∃ done,
      launchStages launch = done ++ rest ∧
      pending = done.filter fun s => !isFinal (w.session.stages s).state) ?_ ⟨rfl, [], rfl, rfl⟩)
      ?_ fun _ _ h => h
    · rintro pending s rest w₁ ⟨rfl, done, hdone, rfl⟩
      rw [wp_bind]
      refine wp_look_free ⟨rfl, done ++ [s], by simpa using hdone, ?_⟩ rfl
      rw [List.filter_append, List.filter_singleton]
      cases isFinal (w₁.session.stages s).state <;> simp
    · rintro pending w' ⟨rfl, done, hdone, rfl⟩
      rw [List.append_nil] at hdone
      exact ⟨rfl, by rw [hdone]⟩
  · exact ⟨rfl, rfl⟩

/-- What a refusal leaves, unless it comes after the amendment. -/
def RefusedUnchanged (w : Site N H) (e : Fault) (w' : Site N H) : Prop :=
  ∀ text code, e = .refused text code → w'.submitted = w.submitted → Unchanged w w'

theorem Same.refusedUnchanged {w w' : Site N H} {e : Fault} (h : Same w w') :
    RefusedUnchanged w e w' :=
  fun _ _ _ _ => h.unchanged

/-- An upgrade amends the run, or raises with the run as it was unless a write failed. -/
theorem wp_upgradeCost_free {p : ℕ} {inputs : AmendInputs} :
    (upgradeCost p inputs).wp .free
      (fun _ w' => ∃ run wheel, Repinnable inputs w.session run ∧
        w' = { w with session := { w.session with run := some (amended inputs run wheel) } })
      (RefusedUnchanged w) w := by
  unfold upgradeCost
  rw [wp_bind]
  refine wp_look_free ?_ (Same.refl w).refusedUnchanged
  split
  · rw [wp_bind, wp_mapError]
    refine wp_mono (wp_zoom_free sessionLens wp_amendCost) ?_ ?_
    · rintro _ _ ⟨_, rfl, run, wheel, hrun, rfl⟩
      refine wp_look_free ⟨run, wheel, hrun, rfl⟩ ?_
      intro _ _ h
      cases h
    · rintro e _ ⟨v, rfl, hv⟩ text code he -
      cases hv with
      | inl hrun => exact ⟨hrun, rfl, rfl⟩
      | inr hos =>
          obtain ⟨_, rfl⟩ := hos
          cases he
  · exact (Same.refl w).refusedUnchanged

theorem wp_checkHarness_free {launcher : Launcher} {session : String} {pending : List Stage} :
    (checkHarness launcher session pending).wp .free (fun _ w' => w' = w)
      (fun e w' => w' = w ∧ ∀ text code, e = .refused text code → ∃ run s,
        w.session.run = some run ∧ s ∈ pending ∧
          pinnedElsewhere launcher.harness run s ≠ []) w := by
  unfold checkHarness
  rw [wp_bind]
  refine wp_look_free ?_ ⟨rfl, fun _ _ h => by cases h⟩
  split
  · exact rfl
  · rename_i run hrun
    split
    · exact rfl
    · rename_i s hs
      refine ⟨rfl, fun _ _ _ => ⟨run, s, hrun, List.mem_of_find?_eq_some hs, ?_⟩⟩
      simpa using List.find?_some hs

end Checks

/-- Cost runs under the harness it is re-pinned to, and no other stage is re-pinned. -/
theorem pinnedElsewhere_amended {inputs : AmendInputs} {run : Run N} {wheel : String} {s : Stage} :
    pinnedElsewhere inputs.harness (amended inputs run wheel) s =
      if s = .cost then [] else pinnedElsewhere inputs.harness run s := by
  cases s <;> simp [pinnedElsewhere, amended, effectiveFor, effective]

section Resume
variable {launcher : Launcher} {args : ResumeArgs} {p : ℕ} {w : Site N H}

theorem refusedUnchanged_other {w' : Site N H} : RefusedUnchanged w .other w' := by
  intro _ _ h
  cases h

theorem RefusedUnchanged.of_same {w₁ w' : Site N H} {e : Fault} (h : Same w w₁)
    (h' : RefusedUnchanged w₁ e w') : RefusedUnchanged w e w' := by
  intro text code he hsubmitted
  have h₁ := h' text code he (hsubmitted.trans h.submitted.symm)
  refine ⟨h₁.run.trans (by rw [h.session]), h₁.launch.trans h.launch, h₁.epoch.trans ?_⟩
  rw [Ledger.epoch, Ledger.epoch, h.resumes]

/-- What the harness check refuses after an amendment is the unit tests. -/
theorem late_of_pinned {inputs : AmendInputs} {run : Run N} {s : Stage} {wheel : String}
    (hrun : Repinnable inputs w.session run)
    (hs : s ∈ pendingStages w.launch w.session)
    (hpinned : pinnedElsewhere inputs.harness (amended inputs run wheel) s ≠ []) :
    w.launch.unit_tests = true ∧ (w.session.stages .unit_tests).state = none ∧
      pinnedElsewhere inputs.harness run .unit_tests ≠ [] := by
  have hfound : w.session.run.isSome = true := by rw [hrun.found]; rfl
  rw [pinnedElsewhere_amended] at hpinned
  rw [pendingStages, if_pos hfound, List.mem_filter, launchStages, List.mem_filter] at hs
  obtain ⟨⟨-, hlaunch⟩, hfinal⟩ := hs
  cases s with
  | compile => simp [hrun.before .compile (by simp [BEFORE_COST])] at hfinal
  | quality => simp [hrun.before .quality (by simp [BEFORE_COST])] at hfinal
  | correctness => simp [hrun.before .correctness (by simp [BEFORE_COST])] at hfinal
  | unit_tests =>
      refine ⟨by simpa using hlaunch, ?_, by simpa using hpinned⟩
      cases hrun.tests with
      | inl h => exact h
      | inr h => simp [h] at hfinal
  | cost => simp at hpinned

/-- The checks submit nothing, and refuse without a trace unless they refuse late. -/
theorem wp_checkResume
    (early : ∀ run, Amendable launcher args w run → ¬ LateRefusal launcher args w run) :
    (checkResume launcher args p w.launch).wp .free (fun _ w' => w'.submitted = w.submitted)
      (RefusedUnchanged w) w := by
  unfold checkResume refuseCleanedSession
  rw [wp_bind, wp_bind]
  refine wp_look_free ?_ refusedUnchanged_other
  split
  · exact (Same.refl w).refusedUnchanged
  · rw [wp_pure, wp_bind]
    refine wp_mono wp_checkJobsEnded_free ?_ fun _ _ h => h.refusedUnchanged
    rintro _ w₁ ⟨h₁, hended⟩
    rw [wp_bind]
    refine wp_mono wp_unfinished_free ?_ fun _ w' h => h ▸ h₁.refusedUnchanged
    rintro _ _ ⟨rfl, rfl⟩
    rw [wp_bind]
    unfold amendment
    split
    · rename_i hasked
      rw [wp_map]
      refine wp_mono wp_upgradeCost_free ?_ fun _ _ h => h.of_same h₁
      rintro _ _ ⟨run, wheel, hrun, rfl⟩
      rw [h₁.session] at hrun
      have late := early run ⟨hasked, hended, hrun⟩
      unfold lateChecks
      rw [wp_bind]
      refine wp_mono wp_checkHarness_free ?_ ?_
      · rintro _ _ rfl
        rw [wp_bind]
        cases hlevel : resolveLevel launcher args w.launch.log_level with
        | ok level => exact h₁.submitted
        | error fault => exact absurd (.inr ⟨fault, hlevel⟩) late
      · rintro e _ ⟨rfl, hrefused⟩ text code he -
        obtain ⟨run', s, hrun', hs, hpinned⟩ := hrefused text code he
        cases hrun'
        rw [h₁.session] at hs
        exact absurd (.inl (late_of_pinned hrun hs hpinned)) late
    · unfold lateChecks
      rw [wp_pure, wp_bind]
      refine wp_mono wp_checkHarness_free ?_ ?_
      · rintro _ _ rfl
        rw [wp_bind]
        cases resolveLevel launcher args w.launch.log_level with
        | ok level => exact h₁.submitted
        | error fault => exact h₁.refusedUnchanged
      · rintro e _ ⟨rfl, -⟩
        exact h₁.refusedUnchanged

/-- A refused submission comes after `bsub`. -/
theorem wp_submitManager {run_id key : String} {w' : Site N H}
    (hsubmitted : w'.submitted = w.submitted) :
    (submitManager run_id key).wp .free (fun _ _ => True) (RefusedUnchanged w) w' := by
  unfold submitManager
  rw [wp_bind]
  refine wp_look_free ?_ refusedUnchanged_other
  rw [wp_bind]
  refine wp_perform_free ?_
  rintro reserved_at _ ⟨-, rfl⟩
  split
  · exact refusedUnchanged_other
  · rw [wp_bind]
    refine wp_put_free ?_ refusedUnchanged_other
    rw [wp_bind]
    refine wp_perform_free ?_
    rintro outcome _ rfl
    rw [wp_bind]
    refine wp_put_free ?_ refusedUnchanged_other
    split
    · trivial
    · intro _ _ _ h
      simp [Site.updateJob, hsubmitted] at h

theorem wp_resumeLocked
    (early : ∀ run, Amendable launcher args w run → ¬ LateRefusal launcher args w run) :
    (resumeLocked launcher args p).wp .free (fun _ _ => True) (RefusedUnchanged w) w := by
  unfold resumeLocked
  rw [wp_bind]
  refine wp_look_free ?_ refusedUnchanged_other
  rw [wp_bind]
  refine wp_mono (wp_checkResume early) ?_ fun _ _ h => h
  rintro ⟨pending, index, level⟩ w₁ h₁
  change (put _ >>= _).wp _ _ _ _
  rw [wp_bind]
  refine wp_put_free ?_ refusedUnchanged_other
  rw [wp_bind]
  refine wp_look_free ?_ refusedUnchanged_other
  rw [wp_bind]
  refine wp_put_free ?_ refusedUnchanged_other
  exact wp_submitManager h₁

/-! ## A late refusal happens -/

theorem exec_readFile {β : Type} {f : World N H → β} {v : World N H} :
    Exec (readFile f) v (some (.ok (f v))) v := .fallible ⟨rfl, rfl⟩

theorem exec_refuseUnless {c : Bool} {text : String} {v : World N H} (h : c = true) :
    Exec (refuseUnless c text) v (some (.ok ())) v := by
  rw [refuseUnless, if_pos h]
  exact .ret () v

theorem exec_look {β : Type} {f : Site N H → β} : Exec (look f) w (some (.ok (f w))) w :=
  .fallible ⟨rfl, rfl⟩

theorem exec_requireFinal {v : World N H} {stages : List Stage}
    (final : ∀ s ∈ stages, isFinal (v.stages s).state = true) :
    Exec (Prog.each (fun s => do
      let state ← readState s
      refuseUnless (isFinal state) ("Only cost can be re-pinned: " ++ s.name ++ " is "
        ++ statusText state ++ ", not final")) stages) v (some (.ok ())) v := by
  have loop := Exec.each (ε := Exn) (f := fun s => do
      let state ← readState s
      refuseUnless (isFinal state) ("Only cost can be re-pinned: " ++ s.name ++ " is "
        ++ statusText state ++ ", not final"))
    (fun rest w => w = v ∧ ∀ s ∈ rest, isFinal (v.stages s).state = true) ?_ ⟨rfl, final⟩
  · obtain ⟨_, ⟨rfl, -⟩, ended⟩ := loop
    exact ended
  rintro s rest _ ⟨rfl, h⟩
  refine ⟨_, ⟨rfl, fun t ht => h t (List.mem_cons_of_mem _ ht)⟩, ?_⟩
  exact exec_readFile.bind (exec_refuseUnless (h s (List.mem_cons_self ..)))

theorem exec_amendSession {inputs : AmendInputs} {v : World N H} {run : Run N} (wheel : String)
    (hclean : v.clean = none) (hbefore : ∀ s ∈ BEFORE_COST, isFinal (v.stages s).state = true)
    (htests : (v.stages .unit_tests).state = none ∨ isFinal (v.stages .unit_tests).state = true)
    (hcost : isFinal (v.stages .cost).state = false) (hrun : v.run = some run)
    (hprofile : inputs.installed = .ok (true, true)) (hforce : inputs.inForce run = false) :
    Exec (amendSession inputs) v (some (.ok ()))
      { v with run := some (amended inputs run wheel) } := by
  have refuse : Exec refuseCleaned v (some (.ok ())) v := by
    refine exec_readFile.bind ?_
    rw [hclean]
    exact .ret () v
  refine refuse.bind (exec_readFile.bind ((exec_requireFinal hbefore).bind ?_))
  refine exec_readFile.bind ((exec_refuseUnless (by simpa using htests)).bind ?_)
  refine exec_readFile.bind ((exec_refuseUnless (by simp [hcost])).bind ?_)
  rw [hrun, hprofile]
  refine Exec.bind (.ret () _) ((exec_refuseUnless (by simp [hforce])).bind ?_)
  refine (Exec.request (b := wheel) trivial).bind ?_
  refine (Exec.fallible (b := ()) rfl).bind ?_
  exact Exec.request trivial

theorem exec_amendCost {inputs : AmendInputs} {v : World N H} {run : Run N}
    (h : Repinnable inputs v run) (wheel : String) :
    Exec (amendCost p inputs) v (some (.ok ()))
      { v with run := some (amended inputs run wheel) } := by
  unfold amendCost
  rw [if_neg h.reason]
  refine exec_readFile.bind ?_
  rw [h.found, Option.isSome_some, if_pos rfl]
  refine (Exec.fallible (b := ()) ⟨h.free.1, h.free.2, rfl⟩).bind ?_
  have session : Exec (amendSession inputs) (v.takeExclusive p) (some (.ok ()))
      { v.takeExclusive p with run := some (amended inputs run wheel) } :=
    exec_amendSession wheel h.clean h.before h.tests h.cost h.found h.profile h.inForce
  have released : Exec unlockExclusive
      { v.takeExclusive p with run := some (amended inputs run wheel) }
      (some (Except.ok (ε := Exn) ())) { v with run := some (amended inputs run wheel) } := by
    refine .act (b := ()) ?_ (.ret () _)
    simp [World.dropExclusive, World.takeExclusive, h.free.1]
  exact session.attempt.bind (released.bind (.ret () _))

/-- A scheduler that no longer knows the manager lets it be settled. -/
theorem exec_checkJobEnded {session : String} {e : Entry}
    (h : e.unsettled = true → e.stage = .manager) :
    ∃ w', Same w w' ∧ Exec (checkJobEnded session e) w (some (.ok ())) w' := by
  unfold checkJobEnded
  cases hsettled : e.unsettled with
  | false => exact ⟨w, .refl w, .ret () w⟩
  | true =>
      have settle : ∀ w₁ : Site N H, Exec (checkManagerEnded session e []) w₁ (some (.ok ()))
          (w₁.updateJob e.key (settleManager [])) := fun w₁ => .fallible rfl
      have gone : ∀ (w₁ : Site N H) (id : String), Exec (checkManagerEnded session e
          [⟨id, .EXIT, none, none, none, none⟩]) w₁ (some (.ok ()))
          (w₁.updateJob e.key (settleManager [⟨id, .EXIT, none, none, none, none⟩])) :=
        fun w₁ id => .fallible rfl
      rw [Bool.not_true, if_neg (by simp), if_neg (by simp [h hsettled])]
      unfold findManager
      split
      · refine ⟨w.updateJob e.key (settleManager []), same_updateJob ..,
          Exec.bind (a := Except.ok []) ?_ (settle w)⟩
        exact .act ⟨trivial, rfl⟩ (.ret _ w)
      · rename_i id _
        let status : JobStatus := ⟨id, .EXIT, none, none, none, none⟩
        let reported : Site N H := w.report id (some status)
        refine ⟨reported.updateJob e.key (settleManager [status]),
          (same_report w id (some status)).trans (same_updateJob ..),
          Exec.bind (a := Except.ok [status]) ?_ (gone reported id)⟩
        refine Exec.bind (a := Except.ok status) ?_ (.ret _ _)
        exact .act (b := Except.ok status) rfl (.ret _ _)

theorem exec_checkJobsEnded {session : String}
    (h : ∀ e ∈ w.ledger.jobs, e.unsettled = true → e.stage = .manager) :
    ∃ w', Same w w' ∧ Exec (checkJobsEnded session) w (some (.ok ())) w' := by
  obtain ⟨w', ⟨hsame, -⟩, run⟩ : ∃ w', (Same w w' ∧ ∀ e ∈ ([] : List Entry),
      e.unsettled = true → e.stage = .manager) ∧
      Exec (Prog.each (checkJobEnded session) w.ledger.jobs) w (some (.ok ())) w' := by
    refine Exec.each (fun rest w' => Same w w' ∧ ∀ e : Entry, e ∈ rest → e.unsettled = true →
      e.stage = .manager) ?_ ⟨.refl w, h⟩
    rintro e rest w₁ ⟨h₁, hended⟩
    obtain ⟨w₂, h₂, run⟩ := exec_checkJobEnded (hended e (List.mem_cons_self ..))
    exact ⟨w₂, ⟨h₁.trans h₂, fun x hx => hended x (List.mem_cons_of_mem _ hx)⟩, run⟩
  exact ⟨w', hsame, exec_look.bind run⟩

theorem exec_unfinished {launch : Launch} :
    Exec (unfinished launch) w (some (.ok (pendingStages launch w.session))) w := by
  refine exec_look.bind ?_
  unfold pendingStages
  split
  · obtain ⟨pending, _, ⟨rfl, done, hdone, rfl⟩, run⟩ : ∃ pending w', (w' = w ∧ ∃ done,
        launchStages launch = done ++ [] ∧
        pending = done.filter fun s => !isFinal (w.session.stages s).state) ∧
        Exec (Prog.fold (fun pending s => do
          let state ← look fun w => (w.session.stages s).state
          pure (if isFinal state then pending else pending ++ [s])) [] (launchStages launch)) w
          (some (.ok pending)) w' := by
      refine Exec.fold (fun pending rest w' => w' = w ∧ ∃ done,
        launchStages launch = done ++ rest ∧
        pending = done.filter fun s => !isFinal (w.session.stages s).state) ?_ ⟨rfl, [], rfl, rfl⟩
      rintro pending s rest w₁ ⟨rfl, done, hdone, rfl⟩
      refine ⟨_, _, ⟨rfl, done ++ [s], by simpa using hdone, ?_⟩, exec_look.bind (.ret _ w₁)⟩
      rw [List.filter_append, List.filter_singleton]
      cases isFinal (w₁.session.stages s).state <;> simp
    rw [List.append_nil] at hdone
    rwa [← hdone] at run
  · exact .ret _ w

theorem exec_upgradeCost {inputs : AmendInputs} {run : Run N}
    (h : Repinnable inputs w.session run) (wheel : String) :
    ∃ index, Exec (upgradeCost p inputs) w (some (.ok index))
      { w with session := { w.session with run := some (amended inputs run wheel) } } := by
  let w' : Site N H :=
    { w with session := { w.session with run := some (amended inputs run wheel) } }
  have repinned : Exec (((amendCost p inputs).zoom sessionLens).mapError amendFault) w
      (some (.ok ())) w' := ((exec_amendCost h wheel).zoom sessionLens rfl).mapError
  refine ⟨(w'.session.run.map (·.amendments.length)).getD 0, exec_look.bind ?_⟩
  rw [h.found, Option.isSome_some, if_pos rfl]
  exact repinned.bind exec_look

theorem resolveLevel_refuses {recorded : String} {fault : Fault}
    (h : resolveLevel launcher args recorded = .error fault) :
    ∃ text code, fault = .refused text code := by
  unfold resolveLevel at h
  simp only at h
  split_ifs at h
  all_goals
    cases h
    exact ⟨_, _, rfl⟩

/-- After the amendment the late checks refuse. -/
theorem exec_lateRefusal {launch : Launch} {pending : List Stage} {run : Run N} {wheel : String}
    {inputs : AmendInputs} (hharness : inputs.harness = launcher.harness)
    (hfound : w.session.run = some (amended inputs run wheel))
    (hlate : (.unit_tests ∈ pending ∧ pinnedElsewhere launcher.harness run .unit_tests ≠ []) ∨
      ∃ fault, resolveLevel launcher args launch.log_level = .error fault) {index : Option ℕ} :
    ∃ text code, Exec (lateChecks launcher args launch pending index) w
      (some (.error (.refused text code))) w := by
  have check : ∀ {s}, pending.find? (fun s => pinnedElsewhere launcher.harness
      (amended inputs run wheel) s ≠ []) = some s → ∃ text code, Exec
      (checkHarness launcher launch.session pending : Prog (Site N H) Fault Unit) w
      (some (.error (.refused text code))) w := by
    intro s hs
    obtain ⟨text, code, hrefused⟩ : ∃ text code, refusePinned launch.session pending s
      (pinnedElsewhere launcher.harness (amended inputs run wheel) s) = .refused text code :=
      ⟨_, _, rfl⟩
    refine ⟨text, code, exec_look.bind ?_⟩
    rw [hfound]
    simp only [hs]
    rw [← hrefused]
    exact .raise _ w
  cases hpinned : pending.find? (fun s => pinnedElsewhere launcher.harness
      (amended inputs run wheel) s ≠ []) with
  | some s =>
      obtain ⟨text, code, refusal⟩ := check hpinned
      exact ⟨text, code, refusal.raised⟩
  | none =>
      rcases hlate with ⟨hpending, hpin⟩ | ⟨fault, hlevel⟩
      · have hnone := List.find?_eq_none.mp hpinned _ hpending
        rw [← hharness] at hnone hpin
        rw [pinnedElsewhere_amended] at hnone
        simp [hpin] at hnone
      · obtain ⟨text, code, rfl⟩ := resolveLevel_refuses hlevel
        have passed : Exec (checkHarness launcher launch.session pending) w
            (some (Except.ok (ε := Fault) ())) w := by
          refine exec_look.bind ?_
          rw [hfound]
          simp only [hpinned]
          exact .ret () w
        refine ⟨text, code, passed.bind ?_⟩
        rw [hlevel]
        exact Exec.raised (.raise _ w)

/-- A late refusal leaves the amendment behind. -/
theorem exec_refused_amended {run : Run N} (h : Amendable launcher args w run)
    (hlate : LateRefusal launcher args w run) :
    ∃ w' text code, Exec (resumeLocked launcher args p) w (some (.error (.refused text code))) w' ∧
      w'.submitted = w.submitted ∧ ¬ Unchanged w w' := by
  obtain ⟨w₁, h₁, checked⟩ : ∃ w', Same w w' ∧
    Exec (checkJobsEnded w.launch.session) w (some (.ok ())) w' := exec_checkJobsEnded h.ended
  have hrepin := h.repinnable
  rw [← h₁.session] at hrepin
  obtain ⟨index, upgraded⟩ := exec_upgradeCost (p := p) hrepin "wheel"
  let w₂ : Site N H := { w₁ with session := { w₁.session with
    run := some (amended (amendInputs launcher args w.launch) run "wheel") } }
  have hpending : w.launch.unit_tests = true → (w.session.stages .unit_tests).state = none →
      .unit_tests ∈ pendingStages w.launch w₁.session := by
    intro htests hnone
    have hfound : w₁.session.run.isSome = true := by rw [hrepin.found]; rfl
    rw [pendingStages, if_pos hfound, List.mem_filter, launchStages, List.mem_filter, h₁.session,
      hnone, htests]
    simp [STAGE_ORDER, isFinal]
  obtain ⟨text, code, refusal⟩ : ∃ text code, Exec (lateChecks launcher args w.launch
      (pendingStages w.launch w₁.session) (some index)) w₂
        (some (.error (.refused text code))) w₂ :=
    exec_lateRefusal rfl rfl (hlate.imp (fun hl => ⟨hpending hl.1 hl.2.1, hl.2.2⟩) id)
  have checks : Exec (checkResume launcher args p w.launch) w
      (some (.error (.refused text code))) w₂ := by
    refine Exec.bind (a := ()) ?_ (checked.bind (exec_unfinished.bind ?_))
    · refine exec_look.bind ?_
      rw [h.repinnable.clean]
      exact .ret () w
    · refine Exec.bind (a := some index) ?_ refusal
      rw [amendment, if_pos h.asked]
      exact upgraded.bind (.ret _ _)
  refine ⟨w₂, text, code, exec_look.bind checks.raised, h₁.submitted, fun hsame => ?_⟩
  have hrun := hsame.run
  rw [h.repinnable.found] at hrun
  have hlength := congrArg (fun r : Option (Run N) => r.map (·.amendments.length)) hrun
  simp [w₂, amended] at hlength

end Resume

section Sample

/-- A session compiled by an older harness: all but cost and the unit tests are complete. -/
def olderSession : World Int Unit :=
  { World.empty with
    run := some sampleRun
    stages := fun s => if s = .cost ∨ s = .unit_tests then {} else { state := some ⟨.complete, 1,
      none, none⟩ } }

def olderSite : Site Int Unit where
  session := olderSession
  launch := ⟨"run", "session", true, ⟨none, some 56⟩, "python", "project", "old", "INFO"⟩
  ledger := {}
  submitted := []
  reports := []

def newerLauncher : Launcher where
  harness := ⟨"newer", "newer"⟩
  python := "python"
  project := "project"
  measurement_identity := "new"
  log_level := ""
  requirement _ := ⟨"qtb-lsf-monitor/3", "lsf.cost_evidence:validate"⟩
  installed := .ok (true, true)

end Sample

end TranspileBench.Lsf
