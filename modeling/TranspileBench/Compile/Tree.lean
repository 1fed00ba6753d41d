import TranspileBench.Coordinator.Costs
import Mathlib.Data.Finmap
import Mathlib.Data.Finset.Sort
import Mathlib.Data.String.Basic

/-!
What compile works on: source trees, the manifests of their snapshots, how two manifests
differ and which stages that reaches, the identity of a build and its `build.json`.
-/
namespace TranspileBench.Compile
open Evaluator (Revision sortedSet)
open Coordinator (Scope STAGES isInfix)

/-! ## Trees and manifests -/

/-- What a name stands for in a source tree. -/
inductive Node
  | file (content : String) (executable : Bool)
  | symlink (target : String)
  | directory
  deriving DecidableEq

abbrev Tree := Finmap fun _ : String => Node

inductive FileEntry
  | file (sha256 : String) (executable : Bool)
  | symlink (target : String)
  deriving DecidableEq

abbrev Files := Finmap fun _ : String => FileEntry

/-- A `*.snapshot.json`. -/
structure Manifest where
  commit : Option String
  dirty_status : Option String
  files : Files
  tree_hash : String

/-- `diff_snapshots`: the paths on which two manifests differ. -/
def diff_snapshots (baseline evolved : Manifest) : List String :=
  ((baseline.files.keys ∪ evolved.files.keys).filter fun path =>
    baseline.files.lookup path ≠ evolved.files.lookup path).sort (· ≤ ·)

theorem mem_diff_snapshots {baseline evolved : Manifest} {path : String} :
    path ∈ diff_snapshots baseline evolved ↔
      baseline.files.lookup path ≠ evolved.files.lookup path := by
  rw [diff_snapshots, Finset.mem_sort, Finset.mem_filter, and_iff_right_iff_imp, Finset.mem_union,
    Finmap.mem_keys, Finmap.mem_keys, ← Finmap.lookup_isSome, ← Finmap.lookup_isSome]
  intro hne
  cases hb : baseline.files.lookup path with
  | some entry => exact .inl rfl
  | none =>
      rw [hb] at hne
      exact .inr (Option.isSome_iff_ne_none.mpr hne.symm)

/-! ## The change scope -/

def nonSourceParts : List String :=
  ["test", "tests", "docs", "doc", "releasenotes", ".github", ".circleci", ".buildkite", "ci"]

def nonSourceNames : List String :=
  ["cargo.lock", "uv.lock", "pdm.lock", "poetry.lock", "changelog", "readme", "license",
    "copying", ".gitlab-ci.yml", ".travis.yml", "azure-pipelines.yml", "tox.ini", "noxfile.py"]

def parts (path : String) : List String := (path.toList.splitOn '/').map String.ofList

/-- Paths in a snapshot diff that cannot run in the transpilation pipeline. -/
def non_source_path (path : String) : Bool :=
  let name := (parts path).getLastD ""
  (parts path).dropLast.any nonSourceParts.contains || nonSourceNames.contains name
    || endsWith name ".md" || endsWith name ".rst"

/-- The stages and components one changed path reaches, or `none` when it is unmapped. -/
def reaches (level : ℕ) (path : String) : Option (List String × List String) :=
  let has := fun part => isInfix part path
  if !(startsWith path "qiskit/" || (startsWith path "crates/" && has "/src/")) then none
  else if has "sabre" && (has "passes/" || has "routing/" || has "layout/") then
    some (["layout", "routing"], [])
  else if has "vf2" then
    some (["layout", "routing"] ++ if level = 3 then ["optimization"] else [], [])
  else if ["two_qubit_decompose", "unitary_synthesis", "weyl"].any has then
    some (["init", "translation", "optimization"], ["unitary_synthesis"])
  else if has "consolidate_blocks" then some (["init"], [])
  else if ["commutative_cancellation", "remove_identity"].any has then
    some (["init", "optimization"], [])
  else if has "optimization/" then some (["init", "optimization"], [])
  else none

/-- `changed_scope` over paths in lower case, with forward slashes. -/
def changed_scope (normal : String → String) (paths : List String) (level : ℕ) : Scope :=
  let source := (paths.map normal).filter fun path => !non_source_path path
  let reached := source.map fun path => (reaches level path).getD (STAGES, [])
  { stages := sortedSet (reached.flatMap (·.1))
    components := sortedSet (reached.flatMap (·.2))
    unmapped_paths := source.filter fun path => (reaches level path).isNone }

/-- The scope of every optimization level. -/
def scopes (normal : String → String) (paths : List String) : List Scope :=
  (List.range 4).map (changed_scope normal paths)

/-! ## Builds -/

/-- What a build depends on besides its source. -/
structure Environment where
  python : String
  locks : List (String × String)
  toolchain : String
  native_compilers : List (String × String)
  flags : List (String × String)
  os : String
  architecture : String
  deriving DecidableEq

structure Identity extends Environment where
  snapshot : String
  deriving DecidableEq

/-- A host as an invocation of compile finds it: its Python, the lock files, what each
Rust toolchain and each native compiler says of itself, and the system. -/
structure Host where
  python : String
  locks : List (String × String)
  /-- `rustc -Vv`, or its error output. -/
  rustc : String → Except String String
  compiler : String → Option String
  os : String
  architecture : String

/-- The build flags of `build_environment`, the same for both revisions. -/
def BUILD_FLAGS : List (String × String) :=
  [("QISKIT_BUILD_PROFILE", "release"), ("QISKIT_BUILD_WITH_MIMALLOC", "1"),
    ("CARGO_PROFILE_RELEASE_LTO", "thin"), ("CARGO_PROFILE_RELEASE_CODEGEN_UNITS", "16")]

def nativeCompiler (host : Host) (compiler : String) : Except Exn (String × String) :=
  match host.compiler compiler with
  | none => .error (.harness s!"Cannot resolve native compiler {compiler}")
  | some version => .ok (compiler, version)

def environment (host : Host) (toolchain : String) : Except Exn Environment :=
  match host.rustc toolchain with
  | .error stderr => .error (.harness s!"Cannot resolve baseline toolchain {toolchain}: {stderr}")
  | .ok tool => do
      let compilers ← ["cc", "c++"].mapM (nativeCompiler host)
      pure ⟨host.python, host.locks, tool, compilers, BUILD_FLAGS, host.os, host.architecture⟩

def build_identity (host : Host) (tree_hash toolchain : String) : Except Exn Identity := do
  let resolved ← environment host toolchain
  pure ⟨resolved, tree_hash⟩

/-- A `build.json`. -/
structure Build (K : Type) where
  id : K
  toolchain_channel : String
  identity : Identity
  snapshot : Manifest

/-- The functions of the platform that compile relies on: hashes of files, of a manifest's
files and of identities, the key of a stored build, the channel that a tree's
`rust-toolchain.toml` names when `rustup` is there, and paths in lower case. -/
structure Platform (K : Type) where
  file_hash : String → String
  tree_hash : Files → String
  identity_hash : Identity → K
  build_key : Identity → String → K
  channel : Tree → Option String
  normal : String → String

/-- How a manifest records a node. -/
def Platform.entry {K : Type} (P : Platform K) : Node → Option FileEntry
  | .file content executable => some (.file (P.file_hash content) executable)
  | .symlink target => some (.symlink target)
  | .directory => none

def Platform.Records {K : Type} (P : Platform K) (tree : Tree) (files : Files) : Prop :=
  ∀ name, files.lookup name = (tree.lookup name).bind P.entry

/-- Two hosts build alike with a toolchain: whatever enters a build's identity besides the
source is the same. -/
structure SameEnvironment (toolchain : String) (host host' : Host) : Prop where
  python : host.python = host'.python
  locks : host.locks = host'.locks
  rustc : host.rustc toolchain = host'.rustc toolchain
  cc : host.compiler "cc" = host'.compiler "cc"
  cxx : host.compiler "c++" = host'.compiler "c++"
  os : host.os = host'.os
  architecture : host.architecture = host'.architecture

theorem environment_ok {host : Host} {toolchain : String} {e : Environment} :
    environment host toolchain = .ok e ↔ ∃ tool cc cxx, host.rustc toolchain = .ok tool ∧
      host.compiler "cc" = some cc ∧ host.compiler "c++" = some cxx ∧
      e = ⟨host.python, host.locks, tool, [("cc", cc), ("c++", cxx)], BUILD_FLAGS, host.os,
        host.architecture⟩ := by
  unfold environment
  cases hrustc : host.rustc toolchain with
  | error stderr => simp
  | ok tool =>
      cases hcc : host.compiler "cc" with
      | none => simp [nativeCompiler, hcc, bind, Except.bind]
      | some cc =>
          cases hcxx : host.compiler "c++" with
          | none => simp [nativeCompiler, hcc, hcxx, bind, Except.bind]
          | some cxx =>
              simp [nativeCompiler, hcc, hcxx, bind, Except.bind, pure, Except.pure, eq_comm]

/-- The same environment is resolved exactly on hosts that build alike. -/
theorem sameEnvironment_iff {toolchain : String} {host host' : Host} {e e' : Environment}
    (h : environment host toolchain = .ok e) (h' : environment host' toolchain = .ok e') :
    e = e' ↔ SameEnvironment toolchain host host' := by
  obtain ⟨tool, cc, cxx, hrustc, hcc, hcxx, rfl⟩ := environment_ok.mp h
  obtain ⟨tool', cc', cxx', hrustc', hcc', hcxx', rfl⟩ := environment_ok.mp h'
  constructor
  · intro heq
    simp only [Environment.mk.injEq, List.cons.injEq, Prod.mk.injEq, true_and, and_true] at heq
    obtain ⟨hpython, hlocks, rfl, ⟨rfl, rfl⟩, hos, harch⟩ := heq
    exact ⟨hpython, hlocks, hrustc.trans hrustc'.symm, hcc.trans hcc'.symm,
      hcxx.trans hcxx'.symm, hos, harch⟩
  · intro same
    cases (hrustc.symm.trans (same.rustc.trans hrustc'))
    cases (hcc.symm.trans (same.cc.trans hcc'))
    cases (hcxx.symm.trans (same.cxx.trans hcxx'))
    rw [same.python, same.locks, same.os, same.architecture]

end TranspileBench.Compile
