import TranspileBench.Coordinator.QualityKey
import TranspileBench.Lib.Program
import Mathlib.Data.Nat.Notation

/-!
`verify_many`: oracle requests go through content keys, the session's verifier cache and
batches of the pinned verifier process, which may stop anywhere.
-/
namespace TranspileBench.Coordinator

/-! ## Requests and jobs -/

structure SemanticReference extends Fixture where
  kind : String

/-- What a request reads of its case. -/
structure OracleCase where
  semantic_reference : SemanticReference
  circuit : Fixture
  input_domain : Json

/-- The worker result that is verified. -/
structure Exported where
  output : Json
  layout : Json

structure OracleRequest where
  case : OracleCase
  result : Exported
  oracle : Json
  reference : Option Fixture
  extra : Option (List (String × Json))

/-- A JSON object, and one with its keys in order. -/
abbrev JsonObject := List (String × Json)

def JsonObject.canonical (o : JsonObject) : JsonObject := o.mergeSort fun a b => decide (a.1 ≤ b.1)

/-- `{**base, **extra}`. -/
def JsonObject.update (base extra : JsonObject) : JsonObject :=
  (base.filter fun entry => (extra.lookup entry.1).isNone) ++ extra

/-- A JSON object with a `status`. -/
structure OracleResult where
  status : Option String
  fields : JsonObject
  deriving DecidableEq

/-- Verified or mismatch. -/
def OracleResult.decisive (r : OracleResult) : Bool :=
  r.status == some "verified" || r.status == some "mismatch"

/-- What a request gets; `cached` is set on a result of the cache. -/
structure OracleAnswer where
  result : OracleResult
  cached : Bool

/-- What `verify_many` uses: the fixtures, the hash of a file, the digest and the verifier,
a function of what its job says and what is in the job's files. -/
structure Verifier (K : Type) where
  verify_artifact : Fixture → Except Exn Json
  file_hash : Json → Except Exn Json
  digest : (identity : String) → (job : JsonObject) → K
  verify : (job : JsonObject) → OracleResult

def Verifier.CollisionFree {K : Type} (v : Verifier K) : Prop :=
  ∀ identity job identity' job', v.digest identity job = v.digest identity' job' →
    identity = identity' ∧ job = job'

section Jobs
variable {K : Type} (v : Verifier K)

def OracleRequest.ref (request : OracleRequest) : Fixture :=
  request.reference.getD
    (if request.case.semantic_reference.kind = "frozen_circuit" then
      request.case.semantic_reference.toFixture
    else request.case.circuit)

def Verifier.job (request : OracleRequest) : Except Exn JsonObject := do
  let reference_path ← v.verify_artifact request.ref
  let base : JsonObject :=
    [("protocol", "\"qtb-verifier/1\""), ("reference", reference_path),
      ("reference_hash", request.ref.sha256), ("output", request.result.output),
      ("layout", request.result.layout), ("input_domain", request.case.input_domain),
      ("oracle", request.oracle)]
  pure (base.update (request.extra.getD []))

def CONTENT_FILES : List String := ["output", "reference", "target"]

/-- The files of a job by their hashes. -/
def Verifier.hashed (entry : String × Json) : Except Exn (String × Json) := do
  if CONTENT_FILES.contains entry.1 then
    let hash ← v.file_hash entry.2
    pure (entry.1, hash)
  else pure entry

/-- What a job is about: a job with the same content is an equal job. -/
def Verifier.content (job : JsonObject) : Except Exn JsonObject := do
  let entries ← job.mapM v.hashed
  pure (JsonObject.canonical entries)

structure KeyedJob where
  job : JsonObject
  content : JsonObject

def Verifier.keyed (request : OracleRequest) : Except Exn KeyedJob := do
  let job ← v.job request
  let content ← v.content job
  pure ⟨job, content⟩

end Jobs

/-! ## The session's files -/

/-- A file of the verifier cache: it cannot be read as JSON, it is nested too deeply for the
parser, it is JSON of another kind, on which the test of its status raises, or an object. -/
inductive CacheFile
  | unreadable
  | nested
  | other (message : String)
  | object (result : OracleResult)

/-- What reading a file raises out of the call; a `HarnessError` is caught. -/
def CacheFile.raised : CacheFile → Option Exn
  | .nested => some (.other "maximum recursion depth exceeded")
  | .other message => some (.other message)
  | .unreadable | .object _ => none

/-- A directory of `oracle-jobs` with its `job.json` and `result.json`. -/
structure OracleJob where
  job : JsonObject
  result : Option OracleResult

/-- `verifier-cache` and `oracle-jobs`. `returned` is history: the contents of the jobs
whose result the verifier has written. -/
structure VerifierFiles (K : Type) where
  cache : K → Option CacheFile
  jobs : ℕ → Option OracleJob
  returned : List JsonObject

section Programs
variable {K : Type} [DecidableEq K] (v : Verifier K)

/-- The result of a job by its files; a job whose files are gone is not verified. -/
def Verifier.run (job : JsonObject) : OracleResult :=
  match v.content job with
  | .ok content => v.verify content
  | .error _ => ⟨some "unverified", []⟩

/-- The verifier writes the result of a job. -/
def Verifier.answer (w : VerifierFiles K) (directory : ℕ) : VerifierFiles K :=
  match w.jobs directory with
  | none => w
  | some j => { w with
      jobs := Function.update w.jobs directory (some { j with result := some (v.run j.job) })
      returned := w.returned ++ (v.content j.job).toOption.toList }

/-- A pending job in its directory. -/
structure OracleEntry (K : Type) where
  key : K
  directory : ℕ
  oracle : Json

/-- `run_verifier_batch`: the verifier answers the jobs in order until it is done, is lost
or is stopped after the idle timeout. A reason is given unless every result is there. -/
def run_verifier_batch (chunk : List (OracleEntry K)) :
    Prog (VerifierFiles K) Exn (Option String) :=
  Prog.perform fun w problem w' => ∃ n,
    w' = ((chunk.take n).map (·.directory)).foldl v.answer w ∧
      (problem = none ↔ ∀ e ∈ chunk, ((w'.jobs e.directory).bind (·.result)).isSome)

def unverified (oracle : Json) (problem : Option String) : OracleResult :=
  ⟨some "unverified", [("oracle", oracle), ("detail", problem.getD "null")]⟩

set_option linter.unusedVariables false in
/-- `verify_chunk`: the first job without a result has stopped the process; the rest get a
fresh one. -/
def verify_chunk (chunk : List (OracleEntry K)) :
    Prog (VerifierFiles K) Exn (List (K × OracleResult)) :=
  if chunk = [] then pure []
  else do
    let problem ← run_verifier_batch v chunk
    let result ← Prog.read fun w directory => (w.jobs directory).bind (·.result)
    let done := chunk.filterMap fun e => (result e.directory).map fun r => (e.key, r)
    match h : chunk.filter fun e => (result e.directory).isNone with
    | [] => pure done
    | first :: rest => do
        let more ← verify_chunk rest
        pure (done ++ (first.key, unverified first.oracle problem) :: more)
termination_by chunk.length
decreasing_by
  have := List.length_filter_le (fun e => (result e.directory).isNone) chunk
  rw [h, List.length_cons] at this
  omega

/-! ## The call -/

section Call
variable (workers : ℕ) (identity : String)

def makeEntry (entries : List (OracleEntry K)) (pending : K × JsonObject) :
    Prog (VerifierFiles K) Exn (List (OracleEntry K)) := do
  let directory ← Prog.perform fun w directory w' =>
    w.jobs directory = none ∧
      w' = { w with jobs := Function.update w.jobs directory (some ⟨pending.2, none⟩) }
  pure (entries ++ [⟨pending.1, directory, (pending.2.lookup "oracle").getD "null"⟩])

/-- `entries[i : i + size] for i in range(0, len(entries), size)`. -/
def chunksOf {α : Type} (size : ℕ) (entries : List α) : List (List α) :=
  (List.range ((entries.length + size - 1) / size)).map fun i =>
    (entries.drop (i * size)).take size

/-- `run_verifier`: the chunks run side by side in directories of their own. -/
def run_verifier (pending : List (K × JsonObject)) :
    Prog (VerifierFiles K) Exn (List (K × OracleResult)) := do
  let entries ← Prog.fold makeEntry [] pending
  let size := max 1 (min 50 ((entries.length + workers - 1) / workers))
  Prog.fold (fun merged chunk => do
    let results ← verify_chunk v chunk
    pure (merged ++ results)) [] (chunksOf size entries)

/-- A cached result is used when it is decisive. -/
def readCached (results : List (K × OracleAnswer)) (key : K) :
    Prog (VerifierFiles K) Exn (List (K × OracleAnswer)) := do
  let file ← Prog.read fun w => w.cache key
  match file with
  | none | some .unreadable => pure results
  | some .nested => throw (.other "maximum recursion depth exceeded")
  | some (.other message) => throw (.other message)
  | some (.object r) => pure (if r.decisive then (key, ⟨r, true⟩) :: results else results)

/-- The jobs without a result, each content once. -/
def pendingJobs (results : List (K × OracleAnswer)) (keyed : List (K × JsonObject)) :
    List (K × JsonObject) :=
  keyed.foldl (fun pending entry =>
    if (results.lookup entry.1).isSome || (pending.lookup entry.1).isSome then pending
    else pending ++ [entry]) []

def runPending (pending : List (K × JsonObject)) :
    Prog (VerifierFiles K) Exn (List (K × OracleResult)) :=
  if pending = [] then pure [] else run_verifier v workers pending

/-- Only decisive results are cached; the write is atomic. -/
def writeCached (entry : K × OracleResult) : Prog (VerifierFiles K) Exn Unit :=
  if entry.2.decisive then
    Prog.modify fun w =>
      { w with cache := Function.update w.cache entry.1 (some (.object entry.2)) }
  else pure ()

/-- `results[key]`. -/
def getResult (results : List (K × OracleAnswer)) (key : K) : Except Exn OracleAnswer :=
  match results.lookup key with
  | some answer => .ok answer
  | none => .error (.lookup "KeyError")

/-- `results.update(fresh)`. -/
def withFresh (results : List (K × OracleAnswer)) (fresh : List (K × OracleResult)) :
    List (K × OracleAnswer) :=
  fresh.map (fun entry => (entry.1, ⟨entry.2, false⟩)) ++ results

def getResults (results : List (K × OracleAnswer)) (keys : List K) :
    Prog (VerifierFiles K) Exn (List OracleAnswer) :=
  match keys.mapM (getResult results) with
  | .ok answers => pure answers
  | .error e => throw e

def verifyJobs (jobs : List KeyedJob) : Prog (VerifierFiles K) Exn (List OracleAnswer) := do
  let keyed := jobs.map fun j => (v.digest identity j.content, j.job)
  let results ← Prog.fold readCached [] (keyed.map (·.1)).dedup
  let fresh ← runPending v workers (pendingJobs results keyed)
  Prog.each writeCached fresh
  getResults (withFresh results fresh) (keyed.map (·.1))

def verify_many (requests : List OracleRequest) :
    Prog (VerifierFiles K) Exn (List OracleAnswer) :=
  if requests.isEmpty then pure []
  else
    match requests.mapM v.keyed with
    | .ok jobs => verifyJobs v workers identity jobs
    | .error e => throw e

end Call
end Programs
end TranspileBench.Coordinator
