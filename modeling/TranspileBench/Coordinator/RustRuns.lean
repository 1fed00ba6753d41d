import TranspileBench.Coordinator.RustSuite

/-!
Runs of `cargo test` that end in any way: whether the suite counts as completed, what is
judged of it and whether the baseline's results are stored.
-/
namespace TranspileBench.Coordinator
open Evaluator

/-- A run of `cargo test`: what the build prints, what each test binary and the doc tests
print in the order they run, and cargo's closing lines; how much of it reached the log; and
how the process ended. -/
structure CargoTest where
  build : List Char
  binaries : List (List Char)
  closing : List Char
  printed : List Char
  ending : Ending
  reached : printed <+: build ++ binaries.flatten ++ closing

/-- Cargo ended by itself, within the budget, and every test binary ran to its end. -/
def CargoTest.Finished (run : CargoTest) : Prop :=
  (∃ returncode, run.ending = .exited returncode) ∧
    run.build ++ run.binaries.flatten <+: run.printed

/-- The baseline half of `upstream_checks`: the suites it goes on with, the store's or
fresh ones, and what it publishes. -/
def baselineSuites (key : Option String) (entry : Option (SuiteResult × SuiteResult))
    (python rust : SuiteResult) :
    (SuiteResult × SuiteResult) × Option (SuiteResult × SuiteResult) :=
  match entry with
  | some stored => (stored, none)
  | none =>
      ((python, rust),
        if key.isSome && python.completed && rust.completed then some (python, rust) else none)

/-- What becomes of a suite that did not finish. -/
structure Unjudged (suite : SuiteResult) : Prop where
  evolved : ∀ baseline, (judgeSuites baseline suite).2.1.1 = .unresolved
  baseline : ∀ evolved, (judgeSuites suite evolved).1.1 = .unresolved
  unstored : ∀ key python, (baselineSuites key none python suite).2 = none

/-- The suite counts as completed only if its run finished, and else decides nothing. -/
def OnlyFinished (run : CargoTest) (suite : SuiteResult) : Prop :=
  (suite.completed = true → run.Finished) ∧ (¬ run.Finished → Unjudged suite)

theorem unjudged_of_incomplete {suite : SuiteResult} (h : suite.completed = false) :
    Unjudged suite where
  evolved _ := judge_incomplete h
  baseline evolved := by
    have hbase : (judgeSuites suite evolved).1
        = (.unresolved, "Baseline suite did not complete") := by
      simp only [judgeSuites, h, Bool.not_false, if_true]
      split
      · rfl
      · split <;> rfl
    rw [hbase]
  unstored key python := by simp [baselineSuites, h]

theorem readSuite_completed (text : List Char) : (readSuite text).completed = true ↔
    TEST_RESULT <:+: text ∧ ¬ COULD_NOT_COMPILE <:+: text := by
  simp [readSuite]

/-- A run counts as completed only if it finished, exactly when it did finish, or was cut
before any summary, or some crate did not compile. -/
theorem only_finished_iff (log : String) (run : CargoTest) :
    (∃ suite, rustSuite log run.ending run.printed = .ok suite ∧ OnlyFinished run suite) ↔
      run.Finished ∨ ¬ TEST_RESULT <:+: run.printed ∨ COULD_NOT_COMPILE <:+: run.printed := by
  simp only [rustSuite_eq, Except.ok.injEq, exists_eq_left']
  have hcompleted := readSuite_completed run.printed
  constructor
  · rintro ⟨only, -⟩
    by_contra hnot
    simp only [not_or, not_not] at hnot
    exact hnot.1 (only (hcompleted.mpr hnot.2))
  · intro h
    by_cases hfinished : run.Finished
    · exact ⟨fun _ => hfinished, fun hnot => absurd hfinished hnot⟩
    · have cut := h.resolve_left hfinished
      have hincomplete : (readSuite run.printed).completed = false := by
        refine Bool.eq_false_iff.mpr fun hcomplete => ?_
        obtain ⟨summary, compiled⟩ := hcompleted.mp hcomplete
        exact cut.elim (fun hnone => hnone summary) compiled
      refine ⟨fun hcomplete => ?_, fun _ => unjudged_of_incomplete hincomplete⟩
      rw [hincomplete] at hcomplete
      cases hcomplete

/-- The budget ends while the second binary runs. -/
def timedOutRun : CargoTest where
  build := []
  binaries := ["test a ... ok\ntest result: ok.\n".toList, "test b ... FAILED\n".toList]
  closing := []
  printed := "test a ... ok\ntest result: ok.\n".toList
  ending := .timedOut "timed out after 10800 seconds"
  reached := by simp

/-- It counts as completed, with its one passed test, and is stored. -/
theorem timed_out_completed :
    (¬ ∃ suite, rustSuite "rust.log" timedOutRun.ending timedOutRun.printed = .ok suite ∧
      OnlyFinished timedOutRun suite) ∧
    ∀ python, python.completed = true →
      (baselineSuites (some "key") none python (readSuite timedOutRun.printed)).2
        = some (python, readSuite timedOutRun.printed) := by
  have hcompleted : (readSuite timedOutRun.printed).completed = true :=
    (readSuite_completed _).mpr (by decide +kernel)
  refine ⟨?_, fun python hpython => by simp [baselineSuites, hpython, hcompleted]⟩
  rintro ⟨suite, heq, only, -⟩
  obtain rfl : readSuite timedOutRun.printed = suite := by simpa using heq
  obtain ⟨⟨_, hending⟩, -⟩ := only hcompleted
  cases hending

end TranspileBench.Coordinator
