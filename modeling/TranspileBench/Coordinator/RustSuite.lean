import Mathlib.Data.List.AList
import TranspileBench.Lib.Regex
import TranspileBench.Evaluator.Grading
import TranspileBench.Coordinator.Suites

/-!
The Rust suite of the unit-test stage: what `rust_suite` reads out of the log that `cargo
test` leaves, and what `upstream_checks` stores of the baseline's suites.
-/
namespace TranspileBench.Coordinator
open Evaluator Regex

/-- Python's `str.isspace`, of one character. -/
def isSpace (c : Char) : Bool :=
  [(0x09, 0x0D), (0x1C, 0x20), (0x85, 0x85), (0xA0, 0xA0), (0x1680, 0x1680), (0x2000, 0x200A),
    (0x2028, 0x2029), (0x202F, 0x202F), (0x205F, 0x205F), (0x3000, 0x3000)].any
    fun (first, last) => first ≤ c.toNat && c.toNat ≤ last

def isWord (c : Char) : Bool := !isSpace c

def OK : List Char := "ok".toList
def FAILED : List Char := "FAILED".toList
def IGNORED : List Char := "ignored".toList

/-- `\S+`. -/
def WORD : Regex := .seq (.one isWord) (.many isWord)

/-- `ok|FAILED|ignored`. -/
def OUTCOME : Regex := .alt (.literal OK) (.alt (.literal FAILED) (.literal IGNORED))

/-- `^test (\S+) \.\.\. (ok|FAILED|ignored)\s*$`. -/
def RUST_TEST : Regex :=
  .seq .lineStart <| .seq (.literal "test ".toList) <| .seq (.group WORD) <|
    .seq (.literal " ... ".toList) <| .seq (.group OUTCOME) <| .seq (.many isSpace) .lineEnd

def TEST_RESULT : List Char := "test result:".toList
def COULD_NOT_COMPILE : List Char := "could not compile".toList

/-- `name: outcome` of a match; the pattern has two groups. -/
def outcomeOf : List (List Char) → Option (List Char × List Char)
  | [name, outcome] => some (name, outcome)
  | _ => none

/-- The dictionary of the matches: a later outcome of a name takes the earlier one's place. -/
def outcomesOf (found : List (List Char × List Char)) : AList fun _ : List Char => List Char :=
  found.foldl (fun outcomes (name, outcome) => outcomes.insert name outcome) ∅

/-- The names with this outcome, sorted. -/
def namesWith (outcomes : AList fun _ : List Char => List Char) (outcome : List Char) :
    List String :=
  sorted ((outcomes.entries.filter (·.2 == outcome)).map fun e => String.ofList e.1)

/-- What `rust_suite` makes of its log. -/
def readSuite (text : List Char) : SuiteResult :=
  let outcomes := outcomesOf ((RUST_TEST.findall 0 true text).filterMap outcomeOf)
  { completed := TEST_RESULT <:+: text && !(COULD_NOT_COMPILE <:+: text)
    failed := namesWith outcomes FAILED
    passed := namesWith outcomes OK }

/-- How the process of a command ended. -/
inductive Ending
  | notStarted (text : String)
  | timedOut (text : String)
  | exited (returncode : Int)

/-- `run_logged`, as far as it tells its caller. -/
def runLogged (log : String) : Ending → Except Exn Unit
  | .notStarted text | .timedOut text =>
      .error (.harness ("Build command failed: " ++ text ++ "; log: " ++ log))
  | .exited returncode =>
      if returncode ≠ 0 then
        .error (.harness ("Build command exited " ++ toString returncode ++ "; log: " ++ log))
      else .ok ()

/-- `rust_suite`: a harness error of the command is passed over. -/
def rustSuite (log : String) (ending : Ending) (text : List Char) : Except Exn SuiteResult :=
  match runLogged log ending with
  | .ok () | .error (.harness _) => .ok (readSuite text)
  | .error e => .error e

@[simp] theorem rustSuite_eq (log : String) (ending : Ending) (text : List Char) :
    rustSuite log ending text = .ok (readSuite text) := by
  cases ending with
  | notStarted _ | timedOut _ => rfl
  | exited returncode => by_cases h : returncode = 0 <;> simp [rustSuite, runLogged, h]

section Line

/-- The line reports this outcome of a test of this name. -/
structure Reports (l name outcome : List Char) : Prop where
  line : ∃ w, l = "test ".toList ++ (name ++ (" ... ".toList ++ (outcome ++ w))) ∧
    ∀ c ∈ w, isSpace c = true
  nonempty : name ≠ []
  word : ∀ c ∈ name, isSpace c = false
  outcome : outcome = OK ∨ outcome = FAILED ∨ outcome = IGNORED

variable {l rest name outcome : List Char} {m : Match} {start : Bool}

theorem mem_word : m ∈ WORD.run start rest ↔
    rest = m.text ++ m.rest ∧ m.groups = [] ∧ m.text ≠ [] ∧ ∀ c ∈ m.text, isSpace c = false := by
  obtain ⟨text, groups, after⟩ := m
  simp only [WORD, mem_seq, mem_one, mem_many, isWord, Bool.not_eq_true']
  constructor
  · rintro ⟨_, ⟨c, hc, rfl, hm⟩, m₂, ⟨hrest, hgroups, hall⟩, heq⟩
    rw [Match.mk.injEq] at heq
    obtain ⟨rfl, rfl, rfl⟩ := heq
    rw [hm]
    refine ⟨by simp [hrest], by simp [hgroups], by simp, ?_⟩
    exact List.forall_mem_cons.mpr ⟨hc, hall⟩
  · rintro ⟨rfl, rfl, hne, hall⟩
    obtain ⟨c, text, rfl⟩ := List.exists_cons_of_ne_nil hne
    obtain ⟨hc, hall⟩ := List.forall_mem_cons.mp hall
    exact ⟨⟨[c], [], text ++ after⟩, ⟨c, hc, rfl, rfl⟩, ⟨text, [], after⟩, ⟨rfl, rfl, hall⟩, rfl⟩

theorem mem_outcome : m ∈ OUTCOME.run start rest ↔ rest = m.text ++ m.rest ∧ m.groups = [] ∧
    (m.text = OK ∨ m.text = FAILED ∨ m.text = IGNORED) := by
  obtain ⟨text, groups, after⟩ := m
  simp only [OUTCOME, mem_alt, mem_literal, Match.mk.injEq]
  constructor
  · rintro (⟨rfl, rfl, rfl, -⟩ | ⟨rfl, rfl, rfl, -⟩ | ⟨rfl, rfl, rfl, -⟩) <;> simp
  · rintro ⟨rfl, rfl, rfl | rfl | rfl⟩ <;> simp

/-- What the pattern matches: one line's report, and blanks up to the end of a line. -/
theorem mem_rust_test : m ∈ RUST_TEST.run start rest ↔ start = true ∧
    ∃ name outcome w, m.text = "test ".toList ++ (name ++ (" ... ".toList ++ (outcome ++ w))) ∧
      rest = m.text ++ m.rest ∧ m.groups = [name, outcome] ∧ name ≠ [] ∧
      (∀ c ∈ name, isSpace c = false) ∧ (outcome = OK ∨ outcome = FAILED ∨ outcome = IGNORED) ∧
      (∀ c ∈ w, isSpace c = true) ∧ AtEnd m.rest := by
  simp only [RUST_TEST, mem_seq, mem_lineStart, mem_literal, mem_group, mem_word, mem_outcome,
    mem_many, mem_lineEnd]
  constructor
  · rintro ⟨_, ⟨hstart, rfl⟩, _, ⟨t, ⟨ht, hm₁⟩, _, ⟨_, ⟨n, ⟨hn, hng, hne, hword⟩, rfl⟩, _,
      ⟨d, ⟨hd, hm₂⟩, _, ⟨_, ⟨o, ⟨ho, hog, hout⟩, rfl⟩, _, ⟨s, ⟨hs, hsg, hw⟩, _, ⟨hend, rfl⟩,
      rfl⟩, rfl⟩, rfl⟩, rfl⟩, rfl⟩, rfl⟩
    rw [hm₁, hm₂]
    refine ⟨hstart, n.text, o.text, s.text, by simp, ?_, by simp [hng, hog, hsg], hne, hword,
      hout, hw, hend⟩
    have hd : n.rest = " ... ".toList ++ d.rest := hd
    have hs : o.rest = s.text ++ s.rest := hs
    have ht : rest = "test ".toList ++ t.rest := ht
    simp only [ht, hn, hd, ho, hs, List.append_assoc, List.nil_append]
  · rintro ⟨hstart, name, outcome, w, htext, rfl, hgroups, hne, hword, hout, hw, hend⟩
    obtain ⟨text, groups, after⟩ := m
    obtain rfl : text = _ := htext
    obtain rfl : groups = _ := hgroups
    refine ⟨_, ⟨hstart, rfl⟩, _, ⟨⟨_, [], _⟩, ⟨by simp only [List.append_assoc], rfl⟩, _,
      ⟨_, ⟨⟨name, [], _⟩, ⟨rfl, rfl, hne, hword⟩, rfl⟩, _, ⟨⟨_, [], _⟩, ⟨rfl, rfl⟩, _,
      ⟨_, ⟨⟨outcome, [], _⟩, ⟨rfl, rfl, hout⟩, rfl⟩, _, ⟨⟨w, [], after⟩, ⟨rfl, rfl, hw⟩, _,
      ⟨hend, rfl⟩, rfl⟩, rfl⟩, rfl⟩, rfl⟩, rfl⟩, ?_⟩
    simp

/-- Two readings of one text, whose first lines both end. -/
theorem line_prefix {a b : List Char} (heq : l ++ rest = a ++ b) (ha : '\n' ∉ a)
    (hend : AtEnd rest) : ∃ u, l = a ++ u ∧ b = u ++ rest := by
  rcases List.append_eq_append_iff.mp heq with ⟨u, rfl, rfl⟩ | ⟨u, rfl, rfl⟩
  · cases u with
    | nil => exact ⟨[], by simp, rfl⟩
    | cons c u =>
        obtain rfl : c = '\n' := hend c rfl
        simp at ha
  · exact ⟨u, rfl, rfl⟩

theorem newline_free (hword : ∀ c ∈ name, isSpace c = false)
    (hout : outcome = OK ∨ outcome = FAILED ∨ outcome = IGNORED) :
    '\n' ∉ "test ".toList ++ (name ++ (" ... ".toList ++ outcome)) := by
  have hname : '\n' ∉ name := fun hmem => by simpa [isSpace] using hword _ hmem
  have hout : '\n' ∉ outcome := by rcases hout with rfl | rfl | rfl <;> decide
  simp [hname, hout]

theorem takeWhile_word {w b : List Char} (hword : ∀ c ∈ w, isSpace c = false)
    (hb : ∀ c ∈ b.head?, isSpace c = true) : (w ++ b).takeWhile isWord = w := by
  induction w with
  | nil =>
      cases b with
      | nil => rfl
      | cons c b => simp [isWord, hb c rfl]
  | cons c w ih =>
      obtain ⟨hc, hword⟩ := List.forall_mem_cons.mp hword
      simp [isWord, hc] at ih ⊢
      exact ih hword

theorem outcome_word (hout : outcome = OK ∨ outcome = FAILED ∨ outcome = IGNORED) :
    ∀ c ∈ outcome, isSpace c = false := by
  have hwords : OK.all (!isSpace ·) = true ∧ FAILED.all (!isSpace ·) = true ∧
      IGNORED.all (!isSpace ·) = true := by decide
  rcases hout with rfl | rfl | rfl
  · simpa using hwords.1
  · simpa using hwords.2.1
  · simpa using hwords.2.2

theorem dots_space (b : List Char) : ∀ c ∈ (" ... ".toList ++ b).head?, isSpace c = true := by
  intro c hc
  obtain rfl : ' ' = c := by simpa using hc
  decide

/-- A line reports at most one outcome, of one name. -/
theorem Reports.unique {name' outcome' : List Char} (h : Reports l name outcome)
    (h' : Reports l name' outcome') : name = name' ∧ outcome = outcome' := by
  obtain ⟨w, rfl, hw⟩ := h.line
  obtain ⟨w', heq, hw'⟩ := h'.line
  have heq := List.append_cancel_left heq
  have hname : name = name' := by
    have hrest := congrArg (List.takeWhile isWord) heq
    rwa [takeWhile_word h.word (dots_space _), takeWhile_word h'.word (dots_space _)] at hrest
  subst hname
  have heq := List.append_cancel_left (List.append_cancel_left heq)
  have hrest := congrArg (List.takeWhile isWord) heq
  rw [takeWhile_word (outcome_word h.outcome) fun c hc => hw c (List.mem_of_mem_head? hc),
    takeWhile_word (outcome_word h'.outcome) fun c hc => hw' c (List.mem_of_mem_head? hc)] at hrest
  exact ⟨rfl, hrest⟩

theorem reports_of_mem (hl : '\n' ∉ l) (hend : AtEnd rest)
    (h : m ∈ RUST_TEST.run true (l ++ rest)) :
    (∃ name outcome, Reports l name outcome ∧ m.groups = [name, outcome]) ∧
      ∃ w, m.text = l ++ w ∧ rest = w ++ m.rest ∧ (∀ c ∈ w, isSpace c = true) ∧ AtEnd m.rest := by
  obtain ⟨-, name, outcome, w, htext, heq, hgroups, hne, hword, hout, hw, hafter⟩ :=
    mem_rust_test.mp h
  rw [htext] at heq
  simp only [← List.append_assoc _ _ w] at heq
  rw [List.append_assoc] at heq
  obtain ⟨u, rfl, hrest⟩ := line_prefix heq (newline_free hword hout) hend
  have hu : '\n' ∉ u := fun hmem => hl (List.mem_append_right _ hmem)
  obtain ⟨v, rfl, rfl⟩ : ∃ v, w = u ++ v ∧ rest = v ++ m.rest := by
    rcases List.append_eq_append_iff.mp hrest with ⟨v, rfl, hv⟩ | ⟨v, rfl, hv⟩
    · cases v with
      | nil => exact ⟨[], by simp, by simpa using hv.symm⟩
      | cons c v =>
          obtain rfl : c = '\n' := hafter c (by simp [hv])
          simp at hu
    · exact ⟨v, rfl, hv⟩
  refine ⟨⟨name, outcome, ⟨⟨u, by simp, fun c hc => hw c (List.mem_append_left _ hc)⟩, hne,
    hword, hout⟩, hgroups⟩, v, ?_, rfl, fun c hc => hw c (List.mem_append_right _ hc), hafter⟩
  simp [htext]

theorem run_of_reports (h : Reports l name outcome) (hend : AtEnd rest) :
    ⟨l, [name, outcome], rest⟩ ∈ RUST_TEST.run true (l ++ rest) := by
  obtain ⟨w, rfl, hw⟩ := h.line
  exact mem_rust_test.mpr ⟨rfl, name, outcome, w, rfl, rfl, rfl, h.nonempty, h.word, h.outcome,
    hw, hend⟩

/-- The first match on a line is the report of the line. -/
theorem head_run (hl : '\n' ∉ l) (hend : AtEnd rest) {groups : List (List Char)} :
    (RUST_TEST.run true (l ++ rest)).head?.map (·.groups) = some groups ↔
      ∃ name outcome, Reports l name outcome ∧ groups = [name, outcome] := by
  rw [Option.map_eq_some_iff]
  constructor
  · rintro ⟨m, hm, rfl⟩
    exact (reports_of_mem hl hend (List.mem_of_mem_head? hm)).1
  · rintro ⟨name, outcome, h, rfl⟩
    obtain ⟨m, ms, hruns⟩ := List.exists_cons_of_ne_nil (List.ne_nil_of_mem (run_of_reports h hend))
    obtain ⟨name', outcome', h', hgroups⟩ := (reports_of_mem hl hend (m := m) (by simp [hruns])).1
    obtain ⟨rfl, rfl⟩ := h.unique h'
    exact ⟨m, by rw [hruns]; rfl, hgroups⟩

theorem rust_test_line (hl : '\n' ∉ l) {groups : List (List Char)} :
    RUST_TEST.line l = some groups ↔
      ∃ name outcome, Reports l name outcome ∧ groups = [name, outcome] := by
  have h : (RUST_TEST.run true (l ++ [])).head?.map (·.groups) = some groups ↔ _ :=
    head_run hl (by simp [AtEnd])
  rwa [List.append_nil] at h

theorem rust_test_byLine : RUST_TEST.ByLine isSpace where
  anchored rest := List.eq_nil_iff_forall_not_mem.mpr fun m hm => by
    cases (mem_rust_test.mp hm).1
  idle l hl := by
    have none : RUST_TEST.run true l = [] := List.eq_nil_iff_forall_not_mem.mpr fun m hm => by
      obtain ⟨-, name, outcome, w, htext, rfl, -⟩ := mem_rust_test.mp hm
      have ht : isSpace 't' = true := hl 't' (by simp [htext])
      exact absurd ht (by decide)
    simp [line, none]
  alike l rest hl hend := Option.ext fun groups =>
    (head_run hl hend).trans (rust_test_line hl).symm
  ends l rest hl hend m hm := (reports_of_mem hl hend hm).2

end Line

section Outcomes

variable {text name outcome : List Char}

theorem lookup_outcomesOf (found : List (List Char × List Char)) :
    (outcomesOf found).lookup name
      = found.reverse.findSome? fun (n, o) => if n = name then some o else none := by
  induction found using List.reverseRecOn with
  | nil => rfl
  | append_singleton found entry ih =>
      obtain ⟨n, o⟩ := entry
      rw [List.reverse_append, List.reverse_singleton, List.singleton_append, List.findSome?_cons,
        ← ih]
      simp only [outcomesOf, List.foldl_append, List.foldl_cons, List.foldl_nil]
      by_cases hn : n = name
      · simp [hn]
      · simp [hn, AList.lookup_insert_ne (Ne.symm hn)]

theorem mem_namesWith (outcomes : AList fun _ : List Char => List Char) :
    String.ofList name ∈ namesWith outcomes outcome ↔ outcomes.lookup name = some outcome := by
  rw [namesWith, mem_sorted, ← Option.mem_def, AList.mem_lookup_iff]
  simp only [List.mem_map, List.mem_filter, beq_iff_eq, Sigma.exists, String.ofList_inj]
  exact ⟨fun ⟨_, _, ⟨hmem, rfl⟩, rfl⟩ => hmem, fun hmem => ⟨_, _, ⟨hmem, rfl⟩, rfl⟩⟩

/-- The last line that reports on a test of this name reports this outcome. -/
def LastReports (text name outcome : List Char) : Prop :=
  ∃ before l after, lines text = before ++ l :: after ∧ Reports l name outcome ∧
    ∀ l' ∈ after, ∀ o, ¬ Reports l' name o

theorem found_lines (text : List Char) : (RUST_TEST.findall 0 true text).filterMap outcomeOf
    = (lines text).filterMap fun l => (RUST_TEST.line l).bind outcomeOf := by
  rw [rust_test_byLine.findall_lines, List.filterMap_filterMap]

/-- The suite keeps of each name the outcome that is reported last. -/
theorem mem_failed_iff :
    String.ofList name ∈ (readSuite text).failed ↔ LastReports text name FAILED := by
  have reported : ∀ l ∈ lines text, ∀ o, ((RUST_TEST.line l).bind outcomeOf).bind
      (fun (n, o) => if n = name then some o else none) = some o ↔ Reports l name o := by
    intro l hl o
    simp only [Option.bind_eq_some_iff, rust_test_line (newline_free_of_mem_lines text hl)]
    constructor
    · rintro ⟨⟨n, o'⟩, ⟨_, ⟨_, _, h, rfl⟩, heq⟩, hname⟩
      cases heq
      split at hname
      · rename_i hn
        cases hname
        exact hn ▸ h
      · cases hname
    · intro h
      exact ⟨(name, o), ⟨_, ⟨name, o, h, rfl⟩, rfl⟩, if_pos rfl⟩
  rw [readSuite, mem_namesWith, lookup_outcomesOf, found_lines, ← List.filterMap_reverse,
    ← List.head?_filterMap, List.filterMap_filterMap, List.head?_filterMap,
    List.findSome?_eq_some_iff]
  constructor
  · rintro ⟨after, l, before, heq, hl, hafter⟩
    have heq : lines text = before.reverse ++ l :: after.reverse := by
      simpa using congrArg List.reverse heq
    refine ⟨before.reverse, l, after.reverse, heq, (reported l (by simp [heq]) _).mp hl, ?_⟩
    intro l' hl' o hreports
    have hsome := (reported l' (by simp [heq, List.mem_reverse.mp hl']) o).mpr hreports
    rw [hafter l' (List.mem_reverse.mp hl')] at hsome
    cases hsome
  · rintro ⟨before, l, after, heq, hl, hafter⟩
    refine ⟨after.reverse, l, before.reverse, by simp [heq],
      (reported l (by simp [heq]) _).mpr hl, fun l' hl' => ?_⟩
    have hmem := List.mem_reverse.mp hl'
    exact Option.eq_none_iff_forall_ne_some.mpr fun o hsome =>
      hafter l' hmem o ((reported l' (by simp [heq, hmem]) o).mp hsome)

end Outcomes

/-! ## A failure that a test binary reports, and what becomes of it -/

section Failures

/-- What libtest prints of a failed test. -/
def failedLine (name : List Char) : List Char := "test ".toList ++ (name ++ " ... FAILED".toList)

/-- Every failure the log reports is listed, and is a regression to a baseline that
completed without it. -/
def NoFailureLost (text : List Char) (suite : SuiteResult) : Prop :=
  ∀ name, failedLine name ∈ lines text → String.ofList name ∈ suite.failed ∧
    ∀ baseline : SuiteResult, baseline.completed = true → String.ofList name ∉ baseline.failed →
      (judgeSuites baseline suite).2.1.1 = .failed ∧
        String.ofList name ∈ (judgeSuites baseline suite).2.2

/-- Every failure is reported under a name of one word, of which no later line reports
another outcome, in a log with a summary and no crate that did not compile. -/
structure FailuresReadable (text : List Char) : Prop where
  word : ∀ name, failedLine name ∈ lines text → name ≠ [] ∧ ∀ c ∈ name, isSpace c = false
  last : ∀ name, failedLine name ∈ lines text → LastReports text name FAILED
  summary : ∀ name, failedLine name ∈ lines text →
    TEST_RESULT <:+: text ∧ ¬ COULD_NOT_COMPILE <:+: text

variable {text : List Char}

/-- A failure that the baseline does not have is a regression. -/
theorem judge_counts_failure {baseline evolved : SuiteResult} {test : String}
    (hbase : baseline.completed = true) (hevolved : evolved.completed = true)
    (hfailed : test ∈ evolved.failed) (hnew : test ∉ baseline.failed) :
    (judgeSuites baseline evolved).2.1.1 = .failed ∧
      test ∈ (judgeSuites baseline evolved).2.2 := by
  have hmem : test ∈ sortedSet ((evolved.failed.filter fun t => !baseline.failed.contains t) ++
      baseline.passed.filter fun t => !evolved.passed.contains t) := by
    rw [mem_sortedSet]
    exact List.mem_append_left _ (by simp [hfailed, hnew])
  have hne := List.ne_nil_of_mem hmem
  simp only [judgeSuites, hbase, hevolved, Bool.not_true, Bool.false_eq_true, if_false, if_pos hne]
  exact ⟨trivial, hmem⟩

theorem judge_incomplete {baseline evolved : SuiteResult} (h : evolved.completed = false) :
    (judgeSuites baseline evolved).2.1.1 = .unresolved := by
  simp [judgeSuites, h]

/-- A failure is listed, and judged a regression, exactly when the log reports it so. -/
theorem no_failure_lost_iff (log : String) (ending : Ending) (text : List Char) :
    (∃ suite, rustSuite log ending text = .ok suite ∧ NoFailureLost text suite) ↔
      FailuresReadable text := by
  simp only [rustSuite_eq, Except.ok.injEq, exists_eq_left']
  constructor
  · intro h
    have last : ∀ name, failedLine name ∈ lines text → LastReports text name FAILED :=
      fun name hname => mem_failed_iff.mp (h name hname).1
    refine ⟨fun name hname => ?_, last, fun name hname => ?_⟩
    · obtain ⟨-, l, -, -, hl, -⟩ := last name hname
      exact ⟨hl.nonempty, hl.word⟩
    · have judged := ((h name hname).2 ⟨true, [], []⟩ rfl List.not_mem_nil).1
      cases hcompleted : (readSuite text).completed with
      | false =>
          rw [judge_incomplete hcompleted] at judged
          cases judged
      | true => simpa [readSuite] using hcompleted
  · intro h name hname
    have hfailed := mem_failed_iff.mpr (h.last name hname)
    have hcompleted : (readSuite text).completed = true := by
      simpa [readSuite] using h.summary name hname
    exact ⟨hfailed, fun baseline hbase hnew => judge_counts_failure hbase hcompleted hfailed hnew⟩

/-- A test that should panic and did not. -/
def shouldPanicLog : List Char :=
  "test a - should panic ... FAILED\n\ntest result: FAILED.\n".toList

/-- A test that fails in one binary, of the same name as one that passes in a later one. -/
def sameNameLog : List Char :=
  "test a ... FAILED\n\ntest result: FAILED.\n\ntest a ... ok\n\ntest result: ok.\n".toList

theorem reported_not_listed {text : List Char} (name : List Char)
    (hreported : failedLine name ∈ lines text)
    (hnone : (readSuite text).failed = []) :
    ¬ ∃ suite, rustSuite "rust.log" (.exited 101) text = .ok suite ∧ NoFailureLost text suite := by
  rintro ⟨suite, heq, kept⟩
  obtain rfl : readSuite text = suite := by simpa using heq
  have hmem := (kept name hreported).1
  rw [hnone] at hmem
  cases hmem

/-- Neither failure is listed. -/
theorem failures_lost :
    (¬ ∃ suite, rustSuite "rust.log" (.exited 101) shouldPanicLog = .ok suite ∧
      NoFailureLost shouldPanicLog suite) ∧
    ¬ ∃ suite, rustSuite "rust.log" (.exited 101) sameNameLog = .ok suite ∧
      NoFailureLost sameNameLog suite := by
  constructor
  · exact reported_not_listed "a - should panic".toList (by decide +kernel)
      (by decide +kernel)
  · exact reported_not_listed "a".toList (by decide +kernel) (by decide +kernel)

end Failures

end TranspileBench.Coordinator
