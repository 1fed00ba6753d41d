import TranspileBench.Compile.Tree
import TranspileBench.Lib.Parallel
import TranspileBench.Lib.Interleaving

/-!
The compile stage: the snapshots of both revisions, the identities of their builds, the
baseline build from the store and the evolved one in the session. Invocations of any
number of sessions run over one store.
-/
namespace TranspileBench.Compile
open Evaluator (Revision)
open Coordinator (Scope)
open Prog

/-- A build's directory: its copy of the source, its `build.json`, whether `READY` is in
it, and on which host it was made. -/
structure BuildDir (K : Type) where
  source : Tree
  record : Option (Build K)
  ready : Bool
  host : Host

/-- A baseline build as a session records it. -/
structure StoredBuild (K : Type) extends Build K where
  store_key : K
  reused : Bool

structure Builds (K : Type) where
  baseline : Option (StoredBuild K) := none
  evolved : Option (Build K) := none

/-- What compile writes into `run.json`. -/
structure Run (K : Type) where
  changed_paths : Option (List String) := none
  scope : Option (List Scope) := none
  harness : Option String := none
  builds : Builds K := {}
  built : Bool := false

/-- `same_build`: whether the session is an A/A run. -/
def same_build {K : Type} [DecidableEq K] (builds : Builds K) : Bool :=
  match builds.baseline, builds.evolved with
  | some baseline, some evolved => baseline.id = evolved.id
  | _, _ => false

/-- A session: the source trees its user may edit, the snapshots `builds/REVISION` and
their manifests, the harness wheel, `builds/evolved-build`, `run.json`, and whether the
stage's state says `complete`. The rest is history: from which trees builds have copied
their source, and on which host compile completed. -/
structure Session (K : Type) where
  source : Revision → Tree
  tree : Revision → Option Tree
  manifest : Revision → Option Manifest
  wheel : Option String
  evolved : Option (BuildDir K)
  run : Run K
  complete : Bool
  copied : List (Revision × Tree)
  completedOn : Option Host

/-- The builds of a store and their locks. -/
structure Store (K : Type) where
  entry : K → Option (BuildDir K)
  lock : K → Option ℕ

/-- What one invocation works on. -/
structure Compiling (K : Type) where
  session : Session K
  store : Store K

/-- Where a build is made. -/
inductive Place (K : Type)
  | evolved
  | entry (key : K)

section State
variable {K : Type} [DecidableEq K]

def Compiling.setTree (v : Compiling K) (r : Revision) (tree : Option Tree) : Compiling K :=
  { v with session := { v.session with tree := Function.update v.session.tree r tree } }

def Compiling.setManifest (v : Compiling K) (r : Revision) (manifest : Manifest) : Compiling K :=
  { v with session := { v.session with
      manifest := Function.update v.session.manifest r (some manifest) } }

def Compiling.dir (v : Compiling K) : Place K → Option (BuildDir K)
  | .evolved => v.session.evolved
  | .entry key => v.store.entry key

def Compiling.setDir (v : Compiling K) (place : Place K) (d : Option (BuildDir K)) : Compiling K :=
  match place with
  | .evolved => { v with session := { v.session with evolved := d } }
  | .entry key => { v with store := { v.store with entry := Function.update v.store.entry key d } }

def Compiling.note (v : Compiling K) (r : Revision) (tree : Tree) : Compiling K :=
  { v with session := { v.session with copied := v.session.copied ++ [(r, tree)] } }

def Compiling.setRun (v : Compiling K) (run : Run K) : Compiling K :=
  { v with session := { v.session with run := run } }

end State

section Programs
variable {K : Type} [DecidableEq K] (P : Platform K)

/-! ## Snapshots -/

/-- What git or a walk of the source lists, and what git says of the checkout. -/
structure Listing where
  names : List String
  commit : Option String
  dirty_status : Option String

def unsafePath (name : String) : Bool :=
  startsWith name "/" || (parts name).contains ".."

def inGit (name : String) : Bool := (parts name).contains ".git"

/-- An operation in the snapshot's directory: it takes effect or raises. -/
def inTree (r : Revision) (A : Tree → Option Tree → Prop) : Prog (Compiling K) Exn Unit :=
  fallible (fun _ => True) fun v _ v' =>
    ∃ tree tree', v.session.tree r = some tree ∧ A tree tree' ∧ v' = v.setTree r tree'

/-- The manifest's entry for the copy of a file. -/
def entryOf (r : Revision) (name : String) : Prog (Compiling K) Exn FileEntry :=
  fallible (fun _ => True) fun v entry v' =>
    v' = v ∧ ∃ tree, v.session.tree r = some tree ∧
      (tree.lookup name).bind P.entry = some entry

def copyNode (r : Revision) (files : Files) (name : String) (node : Node) :
    Prog (Compiling K) Exn Files :=
  match node with
  | .directory => throw (.harness s!"Submodules must be materialized explicitly: {name}")
  | _ => do
      -- a symlink that leaves the source raises
      request (fun _ => True) fun _ : Unit => True
      inTree r fun tree tree' => tree' = some (tree.insert name node)
      let entry ← entryOf P r name
      pure (files.insert name entry)

def copyFile (r : Revision) (files : Files) (name : String) : Prog (Compiling K) Exn Files :=
  if unsafePath name then throw (.harness "Unsafe snapshot path")
  else if inGit name then pure files
  else do
    let original ← read fun v => (v.session.source r).lookup name
    match original with
    | none => pure files
    | some node => copyNode P r files name node

def commitSnapshot (r : Revision) (listing : Listing) (files : Files) :
    Prog (Compiling K) Exn Manifest :=
  if files = ∅ then throw (.harness "Empty source snapshot")
  else do
    let manifest := ⟨listing.commit, listing.dirty_status, files, P.tree_hash files⟩
    fallible (fun _ => True) fun v _ v' => v' = v.setManifest r manifest
    pure manifest

/-- `snapshot`: the manifest is written last. -/
def snapshot (r : Revision) : Prog (Compiling K) Exn Manifest := do
  let listing ← request (fun _ => True) fun _ : Listing => True
  fallible (fun _ => True) fun v _ v' =>
    v.session.tree r = none ∧ v' = v.setTree r (some ∅)
  let files ← fold (copyFile P r) ∅ listing.names
  commitSnapshot P r listing files

/-- `rmtree`: files go one by one, in any order, and the directory last. -/
def removeTree (r : Revision) : Prog (Compiling K) Exn Unit := do
  repeatedly (inTree r fun _ tree' => tree'.isSome)
  inTree r fun _ tree' => tree' = none

/-- A killed snapshot can leave a partial tree before its manifest is committed. -/
def clearTree (r : Revision) : Prog (Compiling K) Exn Unit := do
  let there ← read fun v => (v.session.tree r).isSome
  if there then removeTree r else pure ()

def snapshotOf (r : Revision) : Prog (Compiling K) Exn Manifest := do
  let committed ← read fun v => v.session.manifest r
  match committed with
  | some manifest => pure manifest
  | none => do
      clearTree r
      snapshot P r

/-! ## Building -/

/-- An operation in a build's directory: it takes effect or raises. -/
def inDir (place : Place K) (A : BuildDir K → Option (BuildDir K) → Prop) :
    Prog (Compiling K) Exn Unit :=
  fallible (fun _ => True) fun v _ v' =>
    ∃ d d', v.dir place = some d ∧ A d d' ∧ v' = v.setDir place d'

/-- `mkdir` of a directory that is there raises. -/
def makeDir (place : Place K) (host : Host) : Prog (Compiling K) Exn Unit :=
  fallible (fun _ => True) fun v _ v' =>
    v.dir place = none ∧ v' = v.setDir place (some ⟨∅, none, false, host⟩)

def copyInto (r : Revision) (place : Place K) (name : String) : Prog (Compiling K) Exn Unit := do
  let node ← fallible (fun _ => True) fun v node v' =>
    v' = v ∧ ∃ tree, v.session.tree r = some tree ∧ tree.lookup name = some node
  inDir place fun d d' => d' = some { d with source := d.source.insert name node }

def copytree (r : Revision) (place : Place K) : Prog (Compiling K) Exn Unit := do
  let names ← fallible (fun _ => True) fun v (names : List String) v' =>
    ∃ tree, v.session.tree r = some tree ∧ (∀ name, name ∈ names ↔ name ∈ tree) ∧
      v' = v.note r tree
  each (copyInto r place) names

/-- The `build.json` of a build. -/
def built (info : Manifest) (identity : Identity) (toolchain : String) : Build K :=
  ⟨P.identity_hash identity, toolchain, identity, info⟩

/-- `build_into`, from the snapshot of a revision. -/
def build_into (r : Revision) (info : Manifest) (place : Place K) (identity : Identity)
    (toolchain : String) (host : Host) : Prog (Compiling K) Exn (Build K) := do
  makeDir place host
  copytree r place
  -- the environment, the wheel from source or from the stored wheels, and its checks
  request (fun _ => True) fun _ : Unit => True
  inDir place fun d d' => d' = some { d with record := some (built P info identity toolchain) }
  -- verify_build
  request (fun _ => True) fun _ : Unit => True
  pure (built P info identity toolchain)

/-! ## The baseline build from the store -/

/-- `build.json`, when it can be read and points only inside its entry. -/
def readBuild (key : K) : Prog (Compiling K) Exn (Build K) :=
  fallible (fun _ => True) fun v build v' =>
    v' = v ∧ ∃ d, v.store.entry key = some d ∧ d.record = some build

def ready_build (key : K) : Prog (Compiling K) Exn (Option (Build K)) := do
  let ready ← read fun v => (v.store.entry key).any (·.ready)
  if ready then some <$> readBuild key else pure none

def repair (key : K) : Prog (Compiling K) Exn Unit := do
  let there ← read fun v => (v.store.entry key).isSome
  if there then do
    repeatedly (inDir (.entry key) fun d d' => ∃ source record, ∃ ready : Bool,
      (ready → d.ready) ∧ d' = some ⟨source, record, ready, d.host⟩)
    inDir (.entry key) fun _ d' => d' = none
  else pure ()

def makeBaseline (host : Host) (info : Manifest) (identity : Identity) (toolchain : String)
    (key : K) : Prog (Compiling K) Exn (Build K) := do
  repair key
  let build ← build_into P .baseline info (.entry key) identity toolchain host
  inDir (.entry key) fun d d' => d' = some { d with ready := true }
  pure build

/-- The second look, and the build if nobody else has made it meanwhile. -/
def underLock (host : Host) (info : Manifest) (identity : Identity) (toolchain : String) (key : K) :
    Prog (Compiling K) Exn (Build K × Bool) := do
  let found ← ready_build key
  match found with
  | some build => pure (build, true)
  | none => do
      let build ← makeBaseline P host info identity toolchain key
      pure (build, false)

/-- `flock` waits until nobody else has the lock. -/
def acquire (p : ℕ) (key : K) : Prog (Compiling K) Exn Unit :=
  perform fun v _ v' => v.store.lock key = none ∧
    v' = { v with store := { v.store with lock := Function.update v.store.lock key (some p) } }

def unlock (key : K) : Prog (Compiling K) Exn Unit :=
  modify fun v =>
    { v with store := { v.store with lock := Function.update v.store.lock key none } }

def lookUp (p : ℕ) (host : Host) (info : Manifest) (identity : Identity) (toolchain : String)
    (key : K) : Prog (Compiling K) Exn (Build K × Bool) := do
  let found ← ready_build key
  match found with
  | some build => pure (build, true)
  | none => do
      acquire p key
      let result ← (underLock P host info identity toolchain key).attempt
      unlock key
      match result with
      | .ok build => pure build
      | .error e => throw e

def baseline_build (p : ℕ) (host : Host) (info : Manifest) (identity : Identity)
    (toolchain : String) (harness : String) : Prog (Compiling K) Exn (StoredBuild K) := do
  let key := P.build_key identity harness
  let build ← lookUp P p host info identity toolchain key
  -- verify_build
  request (fun _ => True) fun _ : Unit => True
  pure ⟨build.1, key, build.2⟩

/-! ## `_build` -/

/-- The one wheel of the running harness. -/
def harnessWheel : Prog (Compiling K) Exn String := do
  let wheel ← read fun v => v.session.wheel
  match wheel with
  | some hash => pure hash
  | none => do
      let hash ← request (fun _ => True) fun _ : String => True
      modify fun v => { v with session := { v.session with wheel := some hash } }
      pure hash

def baseline_toolchain : Prog (Compiling K) Exn String := do
  let tree ← read fun v => v.session.tree .baseline
  match tree.bind P.channel with
  | some toolchain => pure toolchain
  | none => throw (.harness "Qiskit source needs rust-toolchain.toml and rustup")

/-- A saved evolved build is verified and compared with the source's tree hash. -/
def checkSaved (evolved : Manifest) (build : Build K) : Prog (Compiling K) Exn Unit := do
  request (fun _ => True) fun _ : Unit => True
  if build.snapshot.tree_hash ≠ evolved.tree_hash then
    throw (.harness "Saved build does not match the source snapshot")
  else pure ()

/-- An unfinished build is set aside. -/
def setAside : Prog (Compiling K) Exn Unit :=
  fallible (fun _ => True) fun v _ v' => v' = v.setDir .evolved none

def savedIn (evolved : Manifest) (d : BuildDir K) : Prog (Compiling K) Exn (Option (Build K)) :=
  match d.record with
  | none => do
      setAside
      pure none
  | some build => do
      checkSaved evolved build
      pure (some build)

def savedBuild (evolved : Manifest) : Prog (Compiling K) Exn (Option (Build K)) := do
  let dir ← read fun v => v.session.evolved
  match dir with
  | none => pure none
  | some d => savedIn evolved d

def saveRun (run : Run K) : Prog (Compiling K) Exn Unit :=
  fallible (fun _ => True) fun v _ v' => v' = v.setRun run

def recordSaved (run : Run K) : Option (Build K) → Prog (Compiling K) Exn (Run K)
  | none => pure run
  | some build => do
      let run := { run with builds := { run.builds with evolved := some build } }
      saveRun run
      pure run

/-- How the builds ended; there is no evolved one when a saved build is reused. -/
structure Outcomes (K : Type) where
  baseline : Except Exn (StoredBuild K)
  evolved : Option (Except Exn (Build K))

/-- What the invocation has resolved before any build work. -/
structure Resolved where
  baseline : Manifest
  evolved : Manifest
  toolchain : String
  baselineIdentity : Identity
  evolvedIdentity : Identity
  harness : String

/-- Both builds are prepared at once. -/
def runTasks (p : ℕ) (host : Host) (x : Resolved) (saved : Option (Build K)) :
    Prog (Compiling K) Exn (Outcomes K) :=
  let baseline := baseline_build P p host x.baseline x.baselineIdentity x.toolchain x.harness
  match saved with
  | some _ => do
      let result ← baseline.attempt
      pure ⟨result, none⟩
  | none => do
      let results ← par
        (build_into P .evolved x.evolved .evolved x.evolvedIdentity x.toolchain host) baseline
      pure ⟨results.2, some results.1⟩

/-- A build that finished is recorded even if the other one fails. -/
def Outcomes.record (o : Outcomes K) (run : Run K) : Run K :=
  { run with builds := ⟨o.baseline.toOption.or run.builds.baseline,
      (o.evolved.bind (·.toOption)).or run.builds.evolved⟩ }

/-- The first error, if there is one. -/
def Outcomes.raise (o : Outcomes K) : Prog (Compiling K) Exn Unit :=
  match o.baseline, o.evolved with
  | .error e, _ => throw e
  | .ok _, some (.error e) => throw e
  | .ok _, _ => pure ()

def finishBuilds (run : Run K) (o : Outcomes K) : Prog (Compiling K) Exn Unit := do
  saveRun (o.record run)
  o.raise
  -- the verifier environment
  request (fun _ => True) fun _ : Unit => True
  saveRun { o.record run with built := true }

/-- The identities of both builds, resolved before any build work. -/
def resolve (host : Host) (baseline evolved : Manifest) (toolchain harness : String) :
    Except Exn Resolved := do
  let baselineIdentity ← build_identity host baseline.tree_hash toolchain
  let evolvedIdentity ← build_identity host evolved.tree_hash toolchain
  pure ⟨baseline, evolved, toolchain, baselineIdentity, evolvedIdentity, harness⟩

def raiseError {α : Type} : Except Exn α → Prog (Compiling K) Exn α
  | .ok a => pure a
  | .error e => throw e

/-- The changed paths, their scope and the harness. -/
def Run.describe (run : Run K) (x : Resolved) : Run K :=
  let paths := diff_snapshots x.baseline x.evolved
  { run with changed_paths := some paths, scope := some (scopes P.normal paths),
             harness := some x.harness }

def build (p : ℕ) (host : Host) (run : Run K) : Prog (Compiling K) Exn Unit := do
  let baseline ← snapshotOf P .baseline
  let evolved ← snapshotOf P .evolved
  let harness ← harnessWheel
  let toolchain ← baseline_toolchain P
  let x ← raiseError (resolve host baseline evolved toolchain harness)
  let saved ← savedBuild evolved
  let run ← recordSaved (run.describe P x) saved
  let outcomes ← runTasks P p host x saved
  finishBuilds run outcomes

/-- The stage: a completed one does not run again. -/
def compile_stage (p : ℕ) (host : Host) : Prog (Compiling K) Exn Unit := do
  let complete ← read fun v => v.session.complete
  if complete then pure () else do
    let run ← read fun v => v.session.run
    build P p host run
    -- the input roundtrip
    request (fun _ => True) fun _ : Unit => True
    modify fun v => { v with session := { v.session with
      complete := true, completedOn := some host } }

end Programs

/-! ## Sessions over one store -/

/-- Sessions, who is compiling in each, and the store. -/
structure World (S K : Type) where
  session : S → Session K
  stage : S → Option ℕ
  store : Store K

section Sessions
variable {S K : Type} [DecidableEq S] [DecidableEq K]

def sessionLens (σ : S) : Lens (World S K) (Compiling K) where
  get w := ⟨w.session σ, w.store⟩
  set w v := { w with session := Function.update w.session σ v.session, store := v.store }
  get_set _ _ := by simp
  set_get _ := by simp
  set_set _ _ _ := by simp

/-- `run_compile`: the stage lock is not waited for. -/
def run_compile (P : Platform K) (σ : S) (p : ℕ) (host : Host) : Prog (World S K) Exn Unit := do
  fallible (fun e => ∃ message, e = .precondition message) fun w _ w' =>
    w.stage σ = none ∧ w' = { w with stage := Function.update w.stage σ (some p) }
  (compile_stage P p host).zoom (sessionLens σ)

/-- A process ends or is killed: its locks are free. -/
def World.release (p : ℕ) (w : World S K) : World S K :=
  { w with
    stage := fun σ => if w.stage σ = some p then none else w.stage σ
    store := { w.store with
      lock := fun key => if w.store.lock key = some p then none else w.store.lock key } }

/-- A session that was created and not compiled yet. -/
def Session.created (source : Revision → Tree) : Session K where
  source := source
  tree _ := none
  manifest _ := none
  wheel := none
  evolved := none
  run := {}
  complete := false
  copied := []
  completedOn := none

def World.edit (w : World S K) (σ : S) (source : Revision → Tree) : World S K :=
  { w with session := Function.update w.session σ { w.session σ with source := source } }

/-- Sessions that compile over one store, on any hosts, while their sources are edited. -/
def compileSystem (S : Type) [DecidableEq S] (P : Platform K) : System (World S K) Exn where
  init w := (∀ σ, ∃ source, w.session σ = .created source) ∧ (∀ σ, w.stage σ = none) ∧
    (∀ key, w.store.entry key = none) ∧ ∀ key, w.store.lock key = none
  entry p prog := ∃ σ host, prog = run_compile P σ p host
  release := World.release
  env w w' := ∃ σ source, w' = w.edit σ source

end Sessions

end TranspileBench.Compile
