import TranspileBench.Compile.Sessions

/-!
Invocations of compile played back: what a run over sources of one file leaves, when
nothing fails and nobody else is around.
-/
namespace TranspileBench.Compile
open Evaluator (Revision)
open Prog

/-- A source of one file. -/
structure OneFile {K : Type} (P : Platform K) where
  name : String
  content : String
  safe : unsafePath name = false
  plain : inGit name = false

section Playback
variable {K : Type} {P : Platform K} (f : OneFile P) {v : Compiling K} {r : Revision}

def OneFile.node : Node := .file f.content false

def OneFile.tree : Tree := Finmap.insert f.name f.node ∅

def OneFile.files : Files := Finmap.insert f.name (.file (P.file_hash f.content) false) ∅

def OneFile.manifest : Manifest := ⟨none, none, f.files, P.tree_hash f.files⟩

theorem OneFile.lookup : f.tree.lookup f.name = some f.node := Finmap.lookup_insert _

theorem OneFile.files_ne : f.files ≠ ∅ := by
  intro h
  have hlookup := congrArg (·.lookup f.name) h
  simp [OneFile.files] at hlookup

theorem OneFile.mem {name : String} : name ∈ f.tree ↔ name = f.name := by
  rw [OneFile.tree, Finmap.mem_insert]
  exact or_iff_left Finmap.notMem_empty

/-- The first snapshot of a revision. -/
theorem exec_snapshotOf (hm : v.session.manifest r = none) (ht : v.session.tree r = none)
    (hs : v.session.source r = f.tree) :
    Exec (snapshotOf P r) v (some (.ok f.manifest))
      (((v.setTree r (some ∅)).setTree r (some f.tree)).setManifest r f.manifest) := by
  have clear : Exec (clearTree r) v (some (.ok ())) v := by
    refine .bind (.read _) ?_
    rw [ht]
    exact .ret () v
  have copied : Exec (copyFile P r ∅ f.name) (v.setTree r (some ∅)) (some (.ok f.files))
      ((v.setTree r (some ∅)).setTree r (some f.tree)) := by
    unfold copyFile
    rw [f.safe, f.plain]
    refine .bind (.read _) ?_
    have hlookup : ((v.setTree r (some ∅)).session.source r).lookup f.name = some f.node :=
      (congrArg (·.lookup f.name) hs).trans f.lookup
    rw [hlookup]
    refine .bind (.request (b := ()) trivial) ?_
    refine .bind (.fallible (b := ()) ⟨∅, _, setTree_same _, rfl, rfl⟩) ?_
    refine .bind (.fallible ⟨rfl, f.tree, setTree_same _, ?_⟩) (.ret _ _)
    rw [f.lookup]
    rfl
  refine .bind (.read _) ?_
  rw [hm]
  refine .bind clear (.bind (a := ⟨[f.name], none, none⟩) (.request trivial) ?_)
  refine .bind (.fallible (b := ()) ⟨ht, rfl⟩) (.bind (copied.bind (.ret _ _)) ?_)
  unfold commitSnapshot
  rw [if_neg f.files_ne]
  exact .bind (.fallible (b := ()) rfl) (.ret _ _)

variable [DecidableEq K] {place : Place K} {host : Host} {info : Manifest} {identity : Identity}
  {toolchain : String}

theorem setDir_setDir (d d' : Option (BuildDir K)) :
    (v.setDir place d).setDir place d' = v.setDir place d' := by
  cases place with
  | evolved => rfl
  | entry key => simp [Compiling.setDir]

theorem setDir_note (d : Option (BuildDir K)) (tree : Tree) :
    (v.setDir place d).note r tree = (v.note r tree).setDir place d := by
  cases place <;> rfl

/-- A build where there is none, from a snapshot of one file. -/
theorem exec_build_into (hdir : v.dir place = none) (htree : v.session.tree r = some f.tree) :
    Exec (build_into P r info place identity toolchain host) v
      (some (.ok (built P info identity toolchain)))
      ((v.note r f.tree).setDir place
        (some ⟨f.tree, some (built P info identity toolchain), false, host⟩)) := by
  have copied : Exec (copytree r place) (v.setDir place (some ⟨∅, none, false, host⟩))
      (some (.ok ())) ((v.note r f.tree).setDir place (some ⟨f.tree, none, false, host⟩)) := by
    have tree : (v.note r f.tree).session.tree r = some f.tree := htree
    refine .bind (a := [f.name]) (.fallible ⟨f.tree, ?_, fun name => ?_, rfl⟩) ?_
    · rw [setDir_tree]
      exact htree
    · rw [f.mem, List.mem_singleton]
    rw [setDir_note]
    have written : Exec (copyInto r place f.name)
        ((v.note r f.tree).setDir place (some ⟨∅, none, false, host⟩)) (some (.ok ()))
        ((v.note r f.tree).setDir place (some ⟨f.tree, none, false, host⟩)) := by
      refine .bind (.fallible ⟨rfl, f.tree, ?_, f.lookup⟩) ?_
      · rw [setDir_tree]
        exact tree
      · refine .fallible ⟨_, _, setDir_dir .., rfl, ?_⟩
        rw [setDir_setDir]
        rfl
    exact written.bind (.ret _ _)
  refine .bind (.fallible (b := ()) ⟨hdir, rfl⟩)
    (copied.bind (.bind (.request (b := ()) trivial) ?_))
  refine .bind (.fallible (b := ()) ⟨_, _, setDir_dir .., rfl, ?_⟩)
    (.bind (.request (b := ()) trivial) (.ret _ _))
  rw [setDir_setDir]

omit [DecidableEq K] in
theorem exec_ready_none {key : K} (hentry : v.store.entry key = none) :
    Exec (ready_build key) v (some (.ok none)) v := by
  refine .bind (.read _) ?_
  rw [hentry]
  exact .ret _ _

/-- A baseline build that the store does not have. -/
theorem exec_baseline_build {p : ℕ} {harness : String}
    (hentry : v.store.entry (P.build_key identity harness) = none)
    (hlock : v.store.lock (P.build_key identity harness) = none)
    (htree : v.session.tree .baseline = some f.tree) :
    ∃ v', Exec (baseline_build P p host info identity toolchain harness) v
      (some (.ok ⟨built P info identity toolchain, P.build_key identity harness, false⟩)) v' ∧
      v'.session = (v.note .baseline f.tree).session := by
  generalize hkey : P.build_key identity harness = key at hentry hlock
  have repaired : ∀ u : Compiling K, u.store.entry key = none →
      Exec (repair key) u (some (.ok ())) u := fun u hu => by
    refine .bind (.read _) ?_
    rw [hu]
    exact .ret _ _
  have made : ∀ u : Compiling K, u.store.entry key = none → u.session.tree .baseline = some f.tree →
      Exec (underLock P host info identity toolchain key) u
        (some (.ok (built P info identity toolchain, false)))
        ((u.note .baseline f.tree).setDir (.entry key)
          (some ⟨f.tree, some (built P info identity toolchain), true, host⟩)) := fun u hu hut => by
    refine .bind (exec_ready_none hu) (.bind (.bind (repaired u hu)
      (.bind (exec_build_into f hu hut) (.bind (.fallible (b := ()) ⟨_, _, setDir_dir .., rfl, ?_⟩)
        (.ret _ _)))) (.ret _ _))
    rw [setDir_setDir]
  have locked : ∃ v', v'.session = (v.note .baseline f.tree).session ∧
      Exec (lookUp P p host info identity toolchain key) v
        (some (.ok (built P info identity toolchain, false))) v' := by
    let u : Compiling K :=
      { v with store := { v.store with lock := Function.update v.store.lock key (some p) } }
    refine ⟨_, ?_, .bind (exec_ready_none hentry) (.bind (.perform (b := ()) ⟨hlock, rfl⟩)
      (.bind (.attempt (made u hentry htree)) (.bind (.modify _) (.ret _ _))))⟩
    rfl
  obtain ⟨v', hsession, run⟩ := locked
  refine ⟨v', ?_, hsession⟩
  unfold baseline_build
  rw [hkey]
  exact .bind run (.bind (.request (b := ()) trivial) (.ret _ _))

/-- What a host resolves for sources of one file. -/
structure Resolvable (host : Host) (toolchain : String) (i : Identity) : Prop where
  channel : P.channel f.tree = some toolchain
  identity : build_identity host f.manifest.tree_hash toolchain = .ok i

omit [DecidableEq K] in
theorem exec_resolve {f : OneFile P} {i : Identity} (h : Resolvable f host toolchain i)
    (harness : String) :
    resolve host f.manifest f.manifest toolchain harness =
      .ok ⟨f.manifest, f.manifest, toolchain, i, i, harness⟩ := by
  rw [resolve, h.identity]
  rfl

/-- A session whose snapshots are committed, with its harness wheel. -/
structure Snapshots (hash : String) (s : Session K) : Prop where
  manifest : ∀ r, s.manifest r = some f.manifest
  tree : s.tree .baseline = some f.tree
  evolved : s.tree .evolved = some f.tree
  wheel : s.wheel = some hash
  incomplete : s.complete = false

/-- An invocation that is killed when it has made the evolved build, before the baseline's
task has done anything. -/
theorem exec_killed {p : ℕ} {i : Identity} (hash : String) (source : Revision → Tree)
    (hsource : ∀ r, source r = f.tree) (h : Resolvable f host toolchain i) (store : Store K) :
    ∃ v', Exec (compile_stage P p host) ⟨.created source, store⟩ none v' ∧ v'.store = store ∧
      Snapshots f hash v'.session ∧ v'.session.run = {} ∧
      v'.session.evolved = some ⟨f.tree, some (built P f.manifest i toolchain), false, host⟩ := by
  have baseline := exec_snapshotOf f (v := ⟨.created source, store⟩) (r := .baseline) rfl rfl
    (hsource _)
  generalize hv₁ : Compiling.setManifest _ _ _ = v₁ at baseline
  have evolved := exec_snapshotOf f (v := v₁) (r := .evolved) (by subst hv₁; rfl)
    (by subst hv₁; rfl) (by subst hv₁; exact hsource _)
  generalize hv₂ : Compiling.setManifest _ _ _ = v₂ at evolved
  let v₃ : Compiling K := { v₂ with session := { v₂.session with wheel := some hash } }
  have hdir : v₃.dir .evolved = none := by subst hv₂ hv₁; rfl
  have htree : v₃.session.tree .evolved = some f.tree := by subst hv₂ hv₁; rfl
  have htree' : v₃.session.tree .baseline = some f.tree := by subst hv₂ hv₁; rfl
  have wheel : Exec harnessWheel v₂ (some (.ok hash)) v₃ := by
    refine .bind (.read _) ?_
    have hnone : v₂.session.wheel = none := by subst hv₂ hv₁; rfl
    rw [hnone]
    exact .bind (.request trivial) (.bind (.modify _) (.ret _ _))
  have channel : Exec (baseline_toolchain P) v₃ (some (.ok toolchain)) v₃ := by
    refine .bind (.read _) ?_
    rw [htree', Option.bind_some, h.channel]
    exact .ret _ _
  have saved : Exec (savedBuild f.manifest) v₃ (some (.ok none)) v₃ := by
    refine .bind (.read _) ?_
    have hnone : v₃.session.evolved = none := hdir
    rw [hnone]
    exact .ret _ _
  let made : Compiling K := (v₃.note .evolved f.tree).setDir .evolved
    (some ⟨f.tree, some (built P f.manifest i toolchain), false, host⟩)
  have tasks : Exec (runTasks P p host ⟨f.manifest, f.manifest, toolchain, i, i, hash⟩ none) v₃ none
      made :=
    .stopped (.par_first (exec_build_into f hdir htree) (.stop _ _))
  refine ⟨made, ?_, by subst hv₂ hv₁; rfl, ⟨fun r => ?_, htree', htree, rfl, ?_⟩, ?_, rfl⟩
  · refine .bind (.read _) ?_
    refine .bind (.read _) (.stopped (.bind baseline (.bind evolved (.bind wheel
      (.bind channel ?_)))))
    rw [exec_resolve h hash]
    exact .bind (.ret _ _) (.bind saved (.bind (.ret _ _) (.stopped tasks)))
  · subst hv₂ hv₁
    cases r <;> rfl
  · subst hv₂ hv₁
    rfl
  · subst hv₂ hv₁
    rfl

/-- An invocation that finds the snapshots committed and a saved evolved build of their tree,
and makes the baseline build. -/
theorem exec_resumed {p : ℕ} {i : Identity} {hash : String} {d : BuildDir K} {b : Build K}
    (snapshots : Snapshots f hash v.session) (h : Resolvable f host toolchain i)
    (hd : v.session.evolved = some d) (hb : d.record = some b) (hsnapshot : b.snapshot = f.manifest)
    (hentry : ∀ key, v.store.entry key = none) (hlock : ∀ key, v.store.lock key = none) :
    ∃ v', Exec (compile_stage P p host) v (some (.ok ())) v' ∧ v'.session.complete = true ∧
      v'.session.completedOn = some host ∧ v'.session.evolved = some d ∧
      v'.session.tree = v.session.tree := by
  have committed : ∀ r, Exec (snapshotOf P r) v (some (.ok f.manifest)) v := fun r => by
    refine .bind (.read _) ?_
    rw [snapshots.manifest r]
    exact .ret _ _
  have wheel : Exec harnessWheel v (some (.ok hash)) v := by
    refine .bind (.read _) ?_
    rw [snapshots.wheel]
    exact .ret _ _
  have channel : Exec (baseline_toolchain P) v (some (.ok toolchain)) v := by
    refine .bind (.read _) ?_
    rw [snapshots.tree, Option.bind_some, h.channel]
    exact .ret _ _
  have saved : Exec (savedBuild f.manifest) v (some (.ok (some b))) v := by
    refine .bind (.read _) ?_
    rw [hd]
    change Exec (savedIn f.manifest d) _ _ _
    unfold savedIn
    rw [hb]
    refine .bind (a := ()) (.bind (.request (b := ()) trivial) ?_) (.ret _ _)
    rw [hsnapshot, if_neg (fun hne => hne rfl)]
    exact .ret _ _
  let x : Resolved := ⟨f.manifest, f.manifest, toolchain, i, i, hash⟩
  let described := v.session.run.describe P x
  let run : Run K := { described with builds := { described.builds with evolved := some b } }
  obtain ⟨v₂, task, hsession⟩ : ∃ v₂, Exec (baseline_build P p host f.manifest i toolchain hash)
      (v.setRun run) (some (.ok ⟨built P f.manifest i toolchain, P.build_key i hash, false⟩)) v₂ ∧
      v₂.session = ((v.setRun run).note .baseline f.tree).session :=
    exec_baseline_build f (hentry _) (hlock _) snapshots.tree
  have tasks : Exec (runTasks P p host x (some b)) (v.setRun run)
      (some (.ok ⟨.ok ⟨built P f.manifest i toolchain, P.build_key i hash, false⟩, none⟩)) v₂ :=
    .bind (.attempt task) (.ret _ _)
  let recorded := Outcomes.record
    ⟨.ok ⟨built P f.manifest i toolchain, P.build_key i hash, false⟩, none⟩ run
  have finished : Exec (finishBuilds run
      ⟨.ok ⟨built P f.manifest i toolchain, P.build_key i hash, false⟩, none⟩) v₂ (some (.ok ()))
      ((v₂.setRun recorded).setRun { recorded with built := true }) :=
    .bind (.fallible (b := ()) rfl) (.bind (.ret _ _) (.bind (.request (b := ()) trivial)
      (.fallible (b := ()) rfl)))
  have stage : Exec (build P p host v.session.run) v (some (.ok ()))
      ((v₂.setRun recorded).setRun { recorded with built := true }) := by
    refine .bind (committed _) (.bind (committed _) (.bind wheel (.bind channel ?_)))
    rw [exec_resolve h hash]
    exact .bind (.ret _ _) (.bind saved (.bind (.bind (.fallible (b := ()) rfl) (.ret _ _))
      (.bind tasks finished)))
  let final : Compiling K := (v₂.setRun recorded).setRun { recorded with built := true }
  refine ⟨{ final with
    session := { final.session with complete := true, completedOn := some host } },
    .bind (.read _) ?_, rfl, rfl, (congrArg Session.evolved hsession).trans hd,
    (congrArg Session.tree hsession).trans rfl⟩
  rw [if_neg (by rw [snapshots.incomplete]; exact Bool.false_ne_true)]
  exact .bind (.read _) (.bind stage (.bind (.request (b := ()) trivial) (.modify _)))

/-- A stage that runs while nobody else is around, and the end of its process. -/
theorem reachable_compile {S : Type} [DecidableEq S] {w : World S K} {σ : S}
    {o : Option (Except Exn Unit)} {v' : Compiling K}
    (h : (compileSystem S P).Reachable ⟨w, fun _ => none⟩) (free : w.stage σ = none)
    (run : Exec (compile_stage P 0 host) ⟨w.session σ, w.store⟩ o v') :
    ∃ w', (compileSystem S P).Reachable ⟨w', fun _ => none⟩ ∧ w'.session σ = v'.session ∧
      w'.stage σ = none ∧ w'.store.entry = v'.store.entry ∧
      ∀ key, v'.store.lock key = none → w'.store.lock key = none := by
  let held : World S K := { w with stage := Function.update w.stage σ (some 0) }
  have invocation : Exec (run_compile P σ 0 host) w o ((sessionLens σ).set held v') :=
    .bind (.fallible (b := ()) ⟨free, rfl⟩) (run.zoom (sessionLens σ) rfl)
  refine ⟨((sessionLens σ).set held v').release 0, h.exec _ 0 rfl ⟨σ, host, rfl⟩ invocation, ?_, ?_,
    rfl, fun key hkey => ?_⟩
  · exact Function.update_self ..
  · change (if Function.update w.stage σ (some 0) σ = some 0 then none else _) = none
    rw [if_pos (Function.update_self ..)]
  · change (if v'.store.lock key = some 0 then none else v'.store.lock key) = none
    rw [hkey]
    rfl

/-- A session whose evolved build was made on one host before its invocation was killed, and
which was completed on another. -/
theorem reachable_two_hosts {host' : Host} {i i' : Identity}
    (h : Resolvable f host toolchain i) (h' : Resolvable f host' toolchain i') :
    ∃ w : World Unit K, (compileSystem Unit P).Reachable ⟨w, fun _ => none⟩ ∧
      (w.session ()).complete = true ∧ (w.session ()).completedOn = some host' ∧
      (∃ d, (w.session ()).evolved = some d ∧ d.host = host) ∧
      (w.session ()).tree .baseline = some f.tree := by
  let empty : Store K := ⟨fun _ => none, fun _ => none⟩
  let start : World Unit K := ⟨fun _ => .created fun _ => f.tree, fun _ => none, empty⟩
  have reach : (compileSystem Unit P).Reachable ⟨start, fun _ => none⟩ :=
    .init ⟨⟨fun _ => ⟨_, rfl⟩, fun _ => rfl, fun _ => rfl, fun _ => rfl⟩, fun _ => rfl⟩
  obtain ⟨v₁, killed, hstore, snapshots, -, hevolved⟩ :=
    exec_killed f (p := 0) "harness" (fun _ => f.tree) (fun _ => rfl) h empty
  obtain ⟨w₁, reach₁, hsession, hstage, hentry, hlock⟩ :=
    reachable_compile (σ := ()) reach rfl killed
  rw [← hsession] at snapshots hevolved
  rw [hstore] at hentry hlock
  obtain ⟨v₂, completed, hcomplete, hhost, hevolved₂, htree⟩ :=
    exec_resumed f (v := ⟨w₁.session (), w₁.store⟩) (p := 0) snapshots h' hevolved rfl rfl
      (fun key => by rw [hentry]) fun key => hlock key rfl
  obtain ⟨w₂, reach₂, hsession₂, -⟩ := reachable_compile (σ := ()) reach₁ hstage completed
  rw [← hsession₂] at hcomplete hhost hevolved₂ htree
  exact ⟨w₂, reach₂, hcomplete, hhost, ⟨_, hevolved₂, rfl⟩, by rw [htree]; exact snapshots.tree⟩

end Playback

/-! ## A sample -/

/-- Identities stand for their own hashes, and a toolchain file holds only its channel. -/
def samplePlatform : Platform (Identity × Option String) where
  file_hash := id
  tree_hash _ := "tree"
  identity_hash i := (i, none)
  build_key i harness := (i, some harness)
  channel tree :=
    match tree.lookup "rust-toolchain.toml" with
    | some (.file content _) => some content
    | _ => none
  normal := id

theorem samplePlatform_collisionFree : samplePlatform.CollisionFree := by
  intro i h i' h' heq
  cases heq
  exact ⟨rfl, rfl⟩

def sampleFile : OneFile samplePlatform := 
  ⟨"rust-toolchain.toml", "1.85", by decide +kernel, by decide +kernel⟩

/-- A host with some version of its native compilers. -/
def sampleHost (version : String) : Host where
  python := "3.12.4"
  locks := [("common.lock", "c0")]
  rustc channel := .ok ("rustc " ++ channel)
  compiler _ := some version
  os := "Linux"
  architecture := "x86_64"

theorem sampleFile_resolvable (version : String) :
    ∃ i, Resolvable sampleFile (sampleHost version) "1.85" i := by
  refine ⟨_, ?_, rfl⟩
  change (match sampleFile.tree.lookup sampleFile.name with
    | some (.file content _) => some content
    | _ => none) = _
  rw [OneFile.lookup]
  rfl

/-- The sample session with its evolved build from one host and completed on another. -/
theorem sample_two_hosts (version version' : String) :
    ∃ w : World Unit (Identity × Option String),
      (compileSystem Unit samplePlatform).Reachable ⟨w, fun _ => none⟩ ∧
      (w.session ()).complete = true ∧ (w.session ()).completedOn = some (sampleHost version') ∧
      (∃ d, (w.session ()).evolved = some d ∧ d.host = sampleHost version) ∧
      (w.session ()).tree .baseline = some sampleFile.tree := by
  obtain ⟨i, h⟩ := sampleFile_resolvable version
  obtain ⟨i', h'⟩ := sampleFile_resolvable version'
  exact reachable_two_hosts sampleFile h h'

end TranspileBench.Compile
