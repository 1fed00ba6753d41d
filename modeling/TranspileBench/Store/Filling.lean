import TranspileBench.Store.Publication
import TranspileBench.Store.Stages

/-!
What the correctness and unit-test stages fill an entry with. The files of a baseline
half read back as that half; the paths of stored suites name the entry's final
directory, where a copy of every log that was there will live.
-/
namespace TranspileBench.Store
open Evaluator Coordinator Prog

variable {N : Type}

/-- A line of `rows.jsonl`: a row and the file that it comes from. -/
inductive StoredLine
  | correctness (row : SuiteCheck)
  | clifford (row : CliffordRow)

/-- A suite's outcome, with the paths of its log and its records by field. -/
structure SuiteFiles where
  result : SuiteResult
  paths : List (String × String)

/-- What a file of an entry holds. -/
inductive StoredFile (N : Type)
  | lock
  | rows (lines : List StoredLine)
  | evidence (records : List (Record N))
  | suite (stored : SuiteFiles)
  | log (text : String)
  | provenance (session key first_computed : String)

def writeFile (name : String) (content : StoredFile N) : Prog (Dir (StoredFile N)) Exn Unit :=
  fallible (fun _ => True) fun d _ d' => d' = d.insert name content

/-! ## The correctness half -/

def linesOf (d : Dir (StoredFile N)) : List StoredLine :=
  match d.lookup "rows.jsonl" with
  | some (.rows lines) => lines
  | _ => []

/-- `append_record`, under the lock file beside the rows. -/
def appendLine (line : StoredLine) : Prog (Dir (StoredFile N)) Exn Unit := do
  writeFile "rows.jsonl.lock" .lock
  fallible (fun _ => True) fun d _ d' => d' = d.insert "rows.jsonl" (.rows (linesOf d ++ [line]))

def CorrectnessHalf.lines (half : CorrectnessHalf N) : List StoredLine :=
  half.suite.map .correctness ++ half.clifford.map .clifford

def fillCorrectness (half : CorrectnessHalf N) : Prog (Dir (StoredFile N)) Exn Unit := do
  each appendLine half.lines
  writeFile "evidence.json" (.evidence half.evidence)

def store_baseline_correctness (session key : String) (half : CorrectnessHalf N) :
    Publication (StoredFile N) where
  kind := "correctness"
  key := key
  fill _ := fillCorrectness half
  provenance now := .provenance session key now

/-- What a correctness stage reads of an entry. -/
def readHalf (d : Dir (StoredFile N)) : Option (CorrectnessHalf N) :=
  match d.lookup "evidence.json" with
  | some (.evidence records) =>
      some {
        suite := (linesOf d).filterMap fun | .correctness row => some row | _ => none
        clifford := (linesOf d).filterMap fun | .clifford row => some row | _ => none
        evidence := records }
  | _ => none

theorem linesOf_insert {d : Dir (StoredFile N)} {name : String} (content : StoredFile N)
    (h : name ≠ "rows.jsonl") : linesOf (d.insert name content) = linesOf d := by
  rw [linesOf, linesOf, AList.lookup_insert_ne (Ne.symm h)]

theorem wp_appendLine (line : StoredLine) (d : Dir (StoredFile N)) :
    wp .free (appendLine line) (fun _ d' => linesOf d' = linesOf d ++ [line]) (fun _ _ => True)
      d := by
  rw [appendLine, wp_bind]
  refine wp_fallible_free (fun _ d₁ hd₁ => ?_) fun _ _ => trivial
  refine wp_fallible_free (fun _ d₂ hd₂ => ?_) fun _ _ => trivial
  rw [hd₂, linesOf, AList.lookup_insert, hd₁, linesOf_insert .lock (by decide)]

/-- A complete fill reads back as the half it was given. -/
theorem wp_fillCorrectness (half : CorrectnessHalf N) :
    wp .free (fillCorrectness half)
      (fun _ d => ∀ content, readHalf (d.insert "provenance.json" content) = some half)
      (fun _ _ => True) ∅ := by
  rw [fillCorrectness, wp_bind]
  refine wp_mono (wp_each (fun rest d => linesOf d ++ rest = half.lines) ?_ ?_)
    (fun _ d hd => ?_) fun _ _ => id
  · intro line rest d hd
    refine wp_mono (wp_appendLine line d) (fun _ d' hd' => ?_) fun _ _ => id
    rw [hd', List.append_assoc]
    exact hd
  · rfl
  · refine wp_fallible_free (fun _ d' hd' content => ?_) fun _ _ => trivial
    rw [List.append_nil] at hd
    have hlines : linesOf (d'.insert "provenance.json" content) = half.lines := by
      rw [linesOf_insert content (by decide), hd', linesOf_insert _ (by decide), hd]
    have hevidence : (d'.insert "provenance.json" content).lookup "evidence.json" =
        some (.evidence half.evidence) := by
      rw [AList.lookup_insert_ne (by decide), hd', AList.lookup_insert]
    rw [readHalf, hevidence, hlines]
    simp [CorrectnessHalf.lines, List.filterMap_append, List.filterMap_map]

/-! ## The suites -/

/-- Python's `Path.name`. -/
def pathName (path : String) : String := (path.splitOn "/").getLastD ""

/-- The log under the entry's directory, wherever that is. -/
def storedName (name path : String) : String := name ++ "-" ++ pathName path

/-- A log that is there is copied. -/
def copyLog (name path : String) : Prog (Dir (StoredFile N)) Exn Unit := do
  let source ← request (fun _ => True) fun _ : Option String => True
  match source with
  | none => pure ()
  | some text => writeFile (storedName name path) (.log text)

def storedPaths (final name : String) (suite : SuiteFiles) : List (String × String) :=
  suite.paths.map fun (field, path) => (field, final ++ "/" ++ storedName name path)

def storeSuite (final name : String) (suite : SuiteFiles) :
    Prog (Dir (StoredFile N)) Exn Unit := do
  each (fun path => copyLog name path.2) suite.paths
  writeFile (name ++ ".json") (.suite { suite with paths := storedPaths final name suite })

def fillSuites (python rust : SuiteFiles) (final : String) :
    Prog (Dir (StoredFile N)) Exn Unit := do
  storeSuite final "python" python
  storeSuite final "rust" rust

def store_suites (session key : String) (python rust : SuiteFiles) :
    Publication (StoredFile N) where
  kind := "unit-tests"
  key := key
  fill := fillSuites python rust
  provenance now := .provenance session key now

/-- A suite's files leave any other file alone. -/
theorem wp_storeSuite (final name other : String) (suite : SuiteFiles)
    (d : Dir (StoredFile N)) (copies : ∀ path, storedName name path ≠ other)
    (json : name ++ ".json" ≠ other) :
    wp .free (storeSuite final name suite)
      (fun _ d' => d'.lookup (name ++ ".json") =
          some (.suite { suite with paths := storedPaths final name suite }) ∧
        d'.lookup other = d.lookup other) (fun _ _ => True) d := by
  rw [storeSuite, wp_bind]
  refine wp_mono (wp_each (fun _ d' => d'.lookup other = d.lookup other) ?_ rfl)
    (fun _ d' hd' => ?_) fun _ _ => id
  · intro path _ d' hd'
    rw [copyLog, wp_bind]
    refine wp_request_free (fun source _ => ?_) fun _ _ => trivial
    cases source with
    | none => exact hd'
    | some text =>
        refine wp_fallible_free (fun _ d'' h => ?_) fun _ _ => trivial
        rw [h, AList.lookup_insert_ne (copies path.2).symm, hd']
  · refine wp_fallible_free (fun _ d'' h => ?_) fun _ _ => trivial
    rw [h, AList.lookup_insert, AList.lookup_insert_ne json.symm]
    exact ⟨rfl, hd'⟩

theorem storedName_ne {name other : String} (h : name.toList.head? ≠ other.toList.head?)
    (hname : name.toList ≠ []) (path : String) : storedName name path ≠ other := by
  intro heq
  refine h ?_
  rw [← heq, storedName, String.toList_append, String.toList_append, List.append_assoc,
    List.head?_append_of_ne_nil _ hname]

/-- The paths in stored suites name files of the entry's final directory. -/
theorem wp_fillSuites (python rust : SuiteFiles) (final : String) :
    wp .free (fillSuites python rust final)
      (fun _ (d : Dir (StoredFile N)) =>
        d.lookup "python.json" =
          some (.suite { python with paths := storedPaths final "python" python }) ∧
        d.lookup "rust.json" =
          some (.suite { rust with paths := storedPaths final "rust" rust }))
      (fun _ _ => True) ∅ := by
  rw [fillSuites, wp_bind]
  refine wp_mono (wp_storeSuite final "python" "rust.json" python ∅
    (storedName_ne (by decide) (by decide)) (by decide)) (fun _ d hd => ?_) fun _ _ => id
  refine wp_mono (wp_storeSuite final "rust" "python.json" rust d
    (storedName_ne (by decide) (by decide)) (by decide)) (fun _ d' hd' => ?_) fun _ _ => id
  exact ⟨hd'.2.trans hd.1, hd'.1⟩

/-! ## The stages' entries in a store -/

inductive StageResult (N : Type)
  | correctness (session key : String) (half : CorrectnessHalf N)
  | unit_tests (session key : String) (python rust : SuiteFiles)

def StageResult.publication : StageResult N → Publication (StoredFile N)
  | .correctness session key half => store_baseline_correctness session key half
  | .unit_tests session key python rust => store_suites session key python rust

/-- An entry reads back as what a stage has published. -/
def StageResult.Reads (final : String) (d : Dir (StoredFile N)) : StageResult N → Prop
  | .correctness _ _ half => readHalf d = some half
  | .unit_tests _ _ python rust =>
      d.lookup "python.json" =
        some (.suite { python with paths := storedPaths final "python" python }) ∧
      d.lookup "rust.json" = some (.suite { rust with paths := storedPaths final "rust" rust })

theorem StageResult.reads {root : String} {place : Place} {d : Dir (StoredFile N)}
    {f : FilledCall (StageResult N) (StoredFile N)}
    (h : f.Wrote root StageResult.publication place d) :
    f.call.Reads (place.path root) d := by
  obtain ⟨result, files⟩ := f
  obtain ⟨now, rfl⟩ := h.provenance
  have run := h.fill
  cases result with
  | correctness session key half => exact (run.sound trivial (wp_fillCorrectness half)).2 _
  | unit_tests session key python rust =>
      have stored := (run.sound trivial (wp_fillSuites python rust _)).2
      refine ⟨?_, ?_⟩
      · rw [AList.lookup_insert_ne (by decide)]
        exact stored.1
      · rw [AList.lookup_insert_ne (by decide)]
        exact stored.2

/-- Whoever reads an entry of the correctness or unit-test stage reads what one session
has published under that key. -/
theorem published_reads {root : String} {c : Config (Results (StageResult N) (StoredFile N)) Exn}
    (h : (resultStore root StageResult.publication).Reachable c) {place : Place}
    {d : Dir (StoredFile N)} (hd : c.world.published place = some d) :
    ∃ f ∈ c.world.filled, f.call.publication.kind = place.kind ∧
      f.call.publication.key = place.key ∧ f.call.Reads (place.path root) d := by
  obtain ⟨f, hf, hwrote⟩ := published_wrote h hd
  exact ⟨f, hf, hwrote.kind, hwrote.key, StageResult.reads hwrote⟩

/-- The correctness halves that can be read, by key. -/
def halves (w : Results (StageResult N) (StoredFile N)) (key : String) :
    Option (CorrectnessHalf N) :=
  (w.published ⟨"correctness", key⟩).bind readHalf

theorem halves_congr {w w' : Results (StageResult N) (StoredFile N)}
    (h : ∀ key, w'.entry ⟨"correctness", key⟩ = w.entry ⟨"correctness", key⟩) :
    halves w' = halves w := by
  funext key
  rw [halves, halves, Results.published, Results.published, h key]

/-- To the sessions of a store a publication is one step that keeps what is there,
`publish`; nothing else that publishers and readers do changes what can be read. -/
theorem publish_refines {root : String} {c c' : Config (Results (StageResult N) (StoredFile N)) Exn}
    (h : (resultStore root StageResult.publication).Reachable c)
    (next : (resultStore root StageResult.publication).Step c c') :
    halves c'.world = halves c.world ∨
      ∃ key half, halves c'.world = publish key half (halves c.world) := by
  obtain ⟨-, hsame | ⟨p, hp⟩ | ⟨p, hp⟩ | henv⟩ :=
    ((outline root StageResult.publication).holds h).step _ next
  · exact .inl (by rw [hsame])
  · rcases hp.publishes with hsame | ⟨place, d, absent, hnew⟩
    · exact .inl (halves_congr fun key => by rw [hsame])
    by_cases hkind : place.kind = "correctness"
    · obtain ⟨kind, key⟩ := place
      subst hkind
      have sound := ((outline root StageResult.publication).holds (.step h next)).1
      obtain ⟨f, -, hwrote⟩ := sound ⟨"correctness", key⟩ d (by simp [hnew])
      have there : c'.world.published ⟨"correctness", key⟩ = some d :=
        Results.Sound.published sound (by simp [hnew])
      have reads := StageResult.reads hwrote
      obtain ⟨result, files⟩ := f
      cases result with
      | unit_tests session key' python rust =>
          have hkind : "unit-tests" = "correctness" := hwrote.kind
          exact absurd hkind (by decide)
      | correctness session _ half =>
          refine .inr ⟨key, half, funext fun key' => ?_⟩
          have missing : halves c.world key = none := by
            rw [halves, Results.published, absent]
            rfl
          rw [publish, missing, Option.isSome_none, if_neg Bool.false_ne_true]
          by_cases hkey : key' = key
          · subst hkey
            rw [Function.update_self, halves, there]
            exact reads
          · rw [Function.update_of_ne hkey, halves, halves, Results.published, hnew,
              Function.update_of_ne (by simpa using hkey), Results.published]
    · refine .inl (halves_congr fun key => ?_)
      rw [hnew, Function.update_of_ne]
      rintro rfl
      exact hkind rfl
  · exact .inl (by rw [hp]; rfl)
  · exact .inl (by rw [henv])

end TranspileBench.Store
