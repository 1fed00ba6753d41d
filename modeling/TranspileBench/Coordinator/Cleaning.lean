import TranspileBench.Lib.FileTree
import TranspileBench.Coordinator.Maintenance
import Mathlib

/-!
`clean` over the files of a session: the plan of what is deleted, which is saved before
anything is, and the deletion, which may be killed anywhere and resumes from the saved plan.
-/
namespace TranspileBench.Coordinator

/-! ## What clean reads -/

/-- One output of a C6 prefix, as a row names it. -/
structure PrefixOutput where
  stage : String
  output : Option String
  output_hash : Option String
  job_file : Option String

structure OutputCheck where
  oracle : String
  status : String
  prefix_outputs : List PrefixOutput := []

/-- The fields of a row of `observations.jsonl` that its outputs are planned by. -/
structure OutputRow where
  id : String
  seed : Nat
  output : Option String
  output_hash : String
  checks : List OutputCheck

/-- The fields of a `job.json`. -/
structure JobFile where
  mode : String
  seeds : List Nat

/-- What a host makes of names and of the contents of files. -/
structure Host (C : Type) where
  /-- `Path(name).resolve()`. -/
  resolve : String → TreePath
  /-- `st_size` of a file. -/
  size : C → Nat
  /-- `st_size` of a directory. -/
  block : Nat
  /-- `file_hash`. -/
  sha256 : C → String
  /-- `digest` of a listing. -/
  digest : List (String × Nat) → String
  state : C → Except Exn StageState
  /-- `stage_state_hashes` of `decision.json`. -/
  decision : C → Except Exn (Stage → Option String)
  /-- `output_retention_bytes` of `policy.json`. -/
  limit : C → Except Exn Nat
  rows : C → Except Exn (List OutputRow)
  job : C → Except Exn JobFile

/-! ## The plan -/

/-- Where a planned file comes from. -/
structure Provenance where
  oracle : Option String := none
  stage : Option String := none
  output_hash : String
  observation_id : String
  compressed_sha256 : String
  job_file : Option TreePath := none
  compressed_bytes : Nat

/-- What `clean.json` records of something it deletes. -/
inductive Deletion
  | directory (files bytes : Nat) (listing_sha256 : String)
  | file (bytes : Nat) (provenance : Provenance)

def Deletion.bytes : Deletion → Nat
  | .directory _ bytes _ => bytes
  | .file bytes _ => bytes

abbrev Plan := List (TreePath × Deletion)

/-- An assignment to a dictionary that keeps its order. -/
def setItem {V : Type} (entries : List (TreePath × V)) (key : TreePath) (value : V) :
    List (TreePath × V) :=
  if entries.any (·.1 == key) then
    entries.map fun entry => if entry.1 == key then (key, value) else entry
  else entries ++ [(key, value)]

/-- A dictionary of what is found for each item. -/
def collected {α V : Type} (find : α → Except Exn (Option (TreePath × V))) (items : List α) :
    Except Exn (List (TreePath × V)) :=
  items.foldlM (fun planned item => do
    let found ← find item
    pure (found.elim planned fun entry => setItem planned entry.1 entry.2)) []

section Plan
variable {C : Type} (host : Host C) (t : FileTree C) (root : TreePath)

/-- `_tree`. -/
def treeEntry (path : TreePath) : Deletion :=
  let listing := (t.below path).filterMap fun p =>
    (t.read p).map fun content => ("/".intercalate (p.drop path.length), host.size content)
  .directory listing.length (listing.map (·.2)).sum
    (host.digest (listing.mergeSort fun a b => a.1 ≤ b.1))

def sortedPaths (paths : List TreePath) : List TreePath := paths.mergeSort fun a b => a ≤ b

/-- The entries of a directory that are directories, in order. -/
def subdirectories (path : TreePath) (keep : String → Bool) : List TreePath :=
  sortedPaths ((t.below path).filter fun p =>
    p.length == path.length + 1 && p.getLast?.any keep && t.isDir p)

/-- `root.glob("jobs/**/scratch")`. -/
def scratchPaths : List TreePath :=
  sortedPaths ((t.below (root ++ ["jobs"])).filter fun p =>
    root.length + 1 < p.length && p.getLast? == some "scratch")

def upstreamPaths : List TreePath :=
  (subdirectories t root (startsWith · "upstream-")).flatMap fun upstream =>
    [upstream ++ ["test"], upstream ++ ["cargo"]]

/-- The directories that are deleted when they exist. -/
def bulkDirectories : List TreePath :=
  [root ++ ["builds", "evolved-build"], root ++ ["verifier"], root ++ ["verifier-cache"],
    root ++ ["oracle-jobs"]] ++ subdirectories t (root ++ ["builds"]) (fun _ => true)
    ++ scratchPaths t root ++ upstreamPaths t root

def planDirectories (directories : List TreePath) : Plan :=
  directories.foldl (fun planned path =>
    if t.isDir path && !planned.any (·.1 == path) then planned ++ [(path, treeEntry host t path)]
    else planned) []

/-- Python's truth of an optional text. -/
def truthy (text : Option String) : Bool := text.any (· != "")

/-- `stat().st_size` and the content it is the size of, of what exists. -/
def sized (path : TreePath) : Option (Nat × Option C) :=
  match t.get path with
  | none => none
  | some .directory => some (host.block, none)
  | some (.file content) => some (host.size content, some content)

/-- `file_hash` of a path; a directory cannot be read. -/
def hashed : Option C → Except Exn String
  | none => .error (.other "Is a directory")
  | some content => .ok (host.sha256 content)

/-- `output_deletions` of one row. -/
def outputDeletion (limit : Nat) (row : OutputRow) : Except Exn (Option (TreePath × Provenance)) :=
  match row.output with
  | none => .ok none
  | some output =>
      if output = "" ∨ row.checks = [] ∨ row.checks.any (·.status != "verified") then .ok none
      else
        let path := host.resolve output
        match sized host t path with
        | none => .ok none
        | some (bytes, content) =>
            if root.isPrefixOf path && limit < bytes then do
              let compressed_sha256 ← hashed host content
              pure (some (path, { output_hash := row.output_hash, observation_id := row.id,
                                  compressed_sha256, compressed_bytes := bytes }))
            else .ok none

def outputDeletions (limit : Nat) (rows : List OutputRow) :
    Except Exn (List (TreePath × Provenance)) :=
  collected (outputDeletion host t root limit) rows

/-- `prefix_output_deletions` of one prefix of a verified C6 check. -/
def prefixDeletion (limit : Nat) (row : OutputRow) (out : PrefixOutput) :
    Except Exn (Option (TreePath × Provenance)) :=
  if truthy out.output && truthy out.output_hash && truthy out.job_file then
    let path := host.resolve (out.output.getD "")
    let job_file := host.resolve (out.job_file.getD "")
    match sized host t path, sized host t job_file with
    | some (bytes, content), some (_, job) =>
        if root.isPrefixOf path && root.isPrefixOf job_file
            && path.dropLast.dropLast == job_file.dropLast && limit < bytes then
          match job with
          | none => .error (.other "Is a directory")
          | some text => do
              let job ← host.job text
              if job.mode = "prefix" ∧ row.seed ∈ job.seeds then do
                let compressed_sha256 ← hashed host content
                pure (some (path,
                  { oracle := some "C6", stage := some out.stage,
                    output_hash := out.output_hash.getD "", observation_id := row.id,
                    compressed_sha256, job_file := some job_file, compressed_bytes := bytes }))
              else .ok none
        else .ok none
    | _, _ => .ok none
  else .ok none

/-- The prefixes of a row that C6 verified. -/
def OutputRow.prefixes (row : OutputRow) : List PrefixOutput :=
  (row.checks.filter fun check => check.oracle == "C6" && check.status == "verified").flatMap
    (·.prefix_outputs)

def prefixOutputDeletions (limit : Nat) (rows : List OutputRow) :
    Except Exn (List (TreePath × Provenance)) :=
  collected (fun found => prefixDeletion host t root limit found.1 found.2)
    (rows.flatMap fun row => row.prefixes.map fun out => (row, out))

/-- A file whose content is read, which must exist. -/
def required {α : Type} (parse : C → Except Exn α) (path : TreePath) : Except Exn α :=
  match t.read path with
  | some content => parse content
  | none => .error (.other "No such file")

/-- `read_records` of the quality observations. -/
def sessionRows : Except Exn (List OutputRow) :=
  match t.read (root ++ ["observations.jsonl"]) with
  | some content => host.rows content
  | none => .ok []

def fileEntries (planned : Plan) (files : List (TreePath × Provenance)) : Plan :=
  files.foldl (fun planned entry =>
    setItem planned entry.1 (.file entry.2.compressed_bytes entry.2)) planned

def plannedDeletions : Except Exn Plan := do
  let directories := bulkDirectories t root
  let limit ← required t host.limit (root ++ ["policy.json"])
  let rows ← sessionRows host t root
  let outputs ← outputDeletions host t root limit rows
  let prefixes ← prefixOutputDeletions host t root limit rows
  let files := (prefixes.foldl (fun files entry => setItem files entry.1 entry.2) outputs).filter
    fun entry => !directories.any (·.isPrefixOf entry.1)
  pure (fileEntries (planDirectories host t directories) files)

end Plan

/-! ## Cleaning -/

/-- `clean.json`. -/
structure CleanState where
  status : CleanStatus
  stage_state_hashes : Stage → Option String
  planned : Plan
  freed_bytes : Option Nat := none

def CleanState.finished (state : CleanState) : CleanState :=
  { state with status := .complete, freed_bytes := some (state.planned.map (·.2.bytes)).sum }

/-- The files of a session, and its `clean.json`, which is written in one step. -/
structure SessionTree (C : Type) where
  tree : FileTree C
  clean : Option CleanState := none

def SessionTree.treeLens (C : Type) : Lens (SessionTree C) (FileTree C) where
  get w := w.tree
  set w t := { w with tree := t }
  get_set _ _ := rfl
  set_get _ := rfl
  set_set _ _ _ := rfl

section Clean
variable {C : Type} (host : Host C) (root : TreePath)

def stagePath (s : Stage) (name : String) : TreePath := root ++ ["stages", s.name, name]

/-- The states of the stages, with their hashes. -/
def stageStates (t : FileTree C) : Except Exn (List (Stage × Option (StageState × String))) :=
  STAGE_ORDER.mapM fun s =>
    match t.read (stagePath root s "state.json") with
    | none => .ok (s, none)
    | some content => (host.state content).map fun state => (s, some (state, host.sha256 content))

/-- The checks before a first cleanup, and the plan it starts with. -/
def startClean (t : FileTree C) : Except Exn CleanState := do
  let states ← stageStates host root t
  let running := states.filter fun entry => entry.2.any (UNFINISHED.contains ·.1.status)
  if running ≠ [] then .error (.precondition (", ".intercalate (running.map (·.1.name))
    ++ " did not finish; run it again to a final state, then decide, then clean"))
  else
    match t.read (root ++ ["decision.json"]) with
    | none => .error (.precondition "Run decide before clean")
    | some content => do
        let recorded ← host.decision content
        let current := fun s => ((states.lookup s).bind id).map (·.2)
        let changed := STAGE_ORDER.filter fun s => recorded s != current s
        if changed ≠ [] then .error (.precondition ("Stages changed since the last decide ("
          ++ ", ".intercalate (changed.map (·.name)) ++ "); run decide again"))
        else do
          let planned ← plannedDeletions host t root
          pure { status := .cleaning, stage_state_hashes := current, planned }

/-- Delete one planned entry, if it is still there. -/
def deleteEntry (entry : TreePath × Deletion) : Prog (FileTree C) Exn Unit :=
  match entry.2 with
  | .directory _ _ _ => do
      let found ← Prog.read fun t => (t.get entry.1).isSome
      if found then FileTree.rmtree crash entry.1 else pure ()
  | .file _ _ => FileTree.unlink crash entry.1

def writeCleanState (state : CleanState) : Prog (SessionTree C) Exn Unit :=
  Prog.fallible crash fun w (_ : Unit) w' => w' = { w with clean := some state }

def deletePlan (state : CleanState) : Prog (SessionTree C) Exn Nat := do
  (Prog.each deleteEntry state.planned).zoom (SessionTree.treeLens C)
  writeCleanState state.finished
  pure EXIT_OK

/-- `_clean`, under the lifecycle lock. -/
def cleanTree : Prog (SessionTree C) Exn Nat := do
  let found ← Prog.fallible crash fun w found w' => found = w.clean ∧ w' = w
  match found with
  | some state => if state.status = .complete then pure EXIT_OK else deletePlan state
  | none => do
      -- reading the states and everything that is planned
      let started ← Prog.fallible crash fun w started w' =>
        started = startClean host root w.tree ∧ w' = w
      let state ← Prog.ofExcept started
      writeCleanState state
      deletePlan state

end Clean
end TranspileBench.Coordinator
