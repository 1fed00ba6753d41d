import TranspileBench.Compile.Tasks

/-!
One invocation of compile: from the snapshots to a `run.json` that records both builds.
-/
namespace TranspileBench.Compile
open Evaluator (Revision)
open Prog

section Invocation
variable {K : Type} [DecidableEq K] {P : Platform K} {p : ℕ} {v v' : Compiling K} {x : Resolved}
  {host : Host} {run : Run K}

/-! ## The evolved build -/

/-- No evolved build is recorded yet. -/
structure Preparing (P : Platform K) (host : Host) (x : Resolved) (v : Compiling K) : Prop where
  resolves : Resolves P host x v.session
  unrecorded : v.session.run.builds.evolved = none

omit [DecidableEq K] in
theorem Preparing.same (h : Preparing P host x v) (same : SameInputs v.session v'.session) :
    Preparing P host x v' :=
  ⟨h.resolves.same same, by rw [same.run]; exact h.unrecorded⟩

/-- The evolved build's directory changes: nothing there, something unfinished, or a build
of the committed snapshot. -/
theorem Compiling.Sound.setEvolved (hinv : v.Sound P)
    (hrun : v.session.run.builds.evolved = none) {d : Option (BuildDir K)}
    (hd : ∀ d' b, d = some d' → d'.record = some b → Whole P d' b ∧
      v.session.manifest .evolved = some b.snapshot ∧ (v.session.manifest .baseline).isSome ∧
        (v.session.tree .baseline).bind P.channel = some b.toolchain_channel) :
    (v.setDir .evolved d).Sound P := by
  have same : SameInputs v.session (v.setDir .evolved d).session := ⟨rfl, rfl, rfl, rfl, rfl, rfl⟩
  refine ⟨⟨hinv.session.snapshot, hd, hinv.session.copied,
    ⟨hinv.session.recorded.baseline, fun b hb => ?_⟩, fun hcomplete => ?_⟩, hinv.store⟩
  · cases hrun.symm.trans hb
  · obtain ⟨host, x, hhost, hresolves, hends⟩ := hinv.session.complete hcomplete
    exact ⟨host, x, hhost, hresolves.same same, hends⟩

theorem evolved_workshop :
    Workshop P (evolving P) .evolved x.evolved .evolved
      (built P x.evolved x.evolvedIdentity x.toolchain) (Preparing P host x) where
  refl v := ⟨.refl _, rfl⟩
  stable v v' h rely _ := ⟨h.same rely.inputs, rely.evolved, rely.inputs.tree⟩
  whole v h inv := (inv.session.snapshot _ _ h.resolves.evolved).2
  write v d h inv _ hd := by
    have same : SameInputs v.session (v.setDir .evolved (some d)).session :=
      ⟨rfl, rfl, rfl, rfl, rfl, rfl⟩
    refine ⟨⟨same, rfl⟩, inv.setEvolved h.unrecorded fun d' b hd' hb => ?_, h.same same⟩
    cases hd'
    obtain ⟨rfl, whole⟩ := hd b hb
    exact ⟨whole, h.resolves.evolved, by rw [h.resolves.baseline]; rfl, h.resolves.toolchain⟩
  note v tree h inv htree :=
    ⟨⟨.note _ tree, rfl⟩, inv.note h.resolves.evolved htree, h.same (.note _ tree)⟩

/-! ## Both builds -/

/-- What holds while an invocation builds: the in-memory run has the builds of `run.json`. -/
structure Working (P : Platform K) (host : Host) (x : Resolved) (run : Run K) (v : Compiling K) :
    Prop where
  resolves : Resolves P host x v.session
  builds : v.session.run.builds = run.builds
  incomplete : v.session.complete = false

omit [DecidableEq K] in
theorem Working.same (h : Working P host x run v) (same : SameInputs v.session v'.session) :
    Working P host x run v' :=
  ⟨h.resolves.same same, by rw [same.run]; exact h.builds,
    by rw [same.complete]; exact h.incomplete⟩

/-- The evolved build is the saved one, of the snapshot's tree. -/
def Kept (x : Resolved) (b : Build K) (v : Compiling K) : Prop :=
  ∃ d, v.session.evolved = some d ∧ d.record = some b ∧ b.snapshot.tree_hash = x.evolved.tree_hash

/-- How the builds may have ended. -/
structure Ended (P : Platform K) (x : Resolved) (run : Run K) (o : Outcomes K) (v : Compiling K) :
    Prop where
  baseline : ∀ b, o.baseline = .ok b →
    b.store_key = P.build_key x.baselineIdentity x.harness ∧ Ready b.store_key b.toBuild v
  evolved : ∀ b, o.evolved = some (.ok b) → Kept x b v
  saved : o.evolved = none → ∃ b, run.builds.evolved = some b ∧ Kept x b v

/-- What a lookup of a saved build found. -/
structure Saved (x : Resolved) (builds : Builds K) (saved : Option (Build K)) (v : Compiling K) :
    Prop where
  found : ∀ b, saved = some b → builds.evolved = some b ∧ Kept x b v
  missing : saved = none → builds.evolved = none

omit [DecidableEq K] in
theorem Kept.around {b : Build K} (h : Kept x b v)
    (evolved : v'.session.evolved = v.session.evolved) : Kept x b v' := by
  rw [Kept, evolved]
  exact h

/-- The baseline task, whatever the other task and the other processes do. -/
theorem wp_baselineTask (h : Working P host x run v) :
    wp (basing P p) (baseline_build P p host x.baseline x.baselineIdentity x.toolchain x.harness)
      (fun b v => Working P host x run v ∧
        b.store_key = P.build_key x.baselineIdentity x.harness ∧ Ready b.store_key b.toBuild v)
      (fun _ => Working P host x run) v := by
  have carried := wp_carry (C := basing P p) (A := Working P host x run)
    (fun _ _ h rely => h.same rely.inputs)
    (fun _ _ h guar => h.same guar.inputs) h
    (wp_baseline_build (P := P) (p := p) h.resolves.baselineIdentity h.resolves.baseline)
  exact wp_mono carried (fun _ _ h => h) fun _ _ h => h.1

theorem wp_evolvedTask (h : Working P host x run v) (unrecorded : run.builds.evolved = none) :
    wp (evolving P)
      (build_into P .evolved x.evolved .evolved x.evolvedIdentity x.toolchain host)
      (fun b v => Working P host x run v ∧ Kept x b v) (fun _ => Working P host x run) v := by
  have carried := wp_carry (C := evolving P) (A := Working P host x run)
    (fun _ _ h rely => h.same rely.inputs)
    (fun _ _ h guar => h.same guar.inputs) h
    (wp_build_into h.resolves.evolvedIdentity evolved_workshop
      ⟨h.resolves, by rw [h.builds]; exact unrecorded⟩)
  refine wp_mono carried ?_ fun _ _ h => h.1
  rintro _ v₁ ⟨h₁, rfl, -, d, hd, hrecord, -, -⟩
  exact ⟨h₁, d, hd, hrecord, rfl⟩

omit [DecidableEq K] in
/-- Which builds are there once both tasks have ended. -/
theorem Ended.of_outcomes {o : Outcomes K} {r : Except Exn (Build K)}
    (hbaseline : Outcome (fun b v => Working P host x run v ∧
      b.store_key = P.build_key x.baselineIdentity x.harness ∧ Ready b.store_key b.toBuild v)
      (fun _ => Working P host x run) o.baseline v)
    (hevolved : o.evolved = some r)
    (hr : Outcome (fun b v => Working P host x run v ∧ Kept x b v)
      (fun _ => Working P host x run) r v) :
    Working P host x run v ∧ Ended P x run o v := by
  have working : Working P host x run v := by
    cases r with
    | ok b => exact hr.1
    | error e => exact hr
  refine ⟨working, fun b hb => ?_, fun b hb => ?_, fun hnone => ?_⟩
  · rw [hb] at hbaseline
    exact hbaseline.2
  · cases hevolved.symm.trans hb
    exact hr.2
  · cases hevolved.symm.trans hnone

theorem wp_runTasks (h : Working P host x run v) {saved : Option (Build K)}
    (hsaved : Saved x run.builds saved v) :
    wp (compiling P p) (runTasks P p host x saved)
      (fun o v => Working P host x run v ∧ Ended P x run o v)
        (fun _ => Working P host x run) v := by
  unfold runTasks
  cases saved with
  | some b =>
      -- only the baseline's task runs, and the saved build stays
      obtain ⟨hbuilds, hkept⟩ := hsaved.found b rfl
      have beside := wp_beside (P := Kept x b) (tasks_beside P p).inv₂ (tasks_beside P p).rely₂
        (fun v v' guar => ((tasks_beside P p).guar₂ v v' guar).1)
        (fun v v' h rely _ => h.around rely.evolved) (fun v v' h guar _ => h.around guar.evolved)
        hkept (wp_baselineTask (P := P) (p := p) h)
      rw [wp_bind, wp_attempt]
      refine wp_mono beside ?_ ?_
      · rintro stored v₁ ⟨hkept₁, h₁, hstored⟩
        exact ⟨h₁, fun b' hb' => by cases hb'; exact hstored, nofun, fun _ => ⟨b, hbuilds, hkept₁⟩⟩
      · rintro e v₁ ⟨hkept₁, h₁⟩
        exact ⟨h₁, nofun, nofun, fun _ => ⟨b, hbuilds, hkept₁⟩⟩
  | none =>
      have both := wp_par (E := fun _ => Working P host x run) (tasks_beside P p) ?_ ?_
        (wp_evolvedTask (P := P) h (hsaved.missing rfl)) (wp_baselineTask (P := P) (p := p) h)
      · rw [wp_bind]
        refine wp_mono both ?_ fun _ _ => id
        rintro ⟨evolved, baseline⟩ v₁ ⟨hevolved, hbaseline⟩
        exact Ended.of_outcomes hbaseline rfl hevolved
      · rintro (e | b) v v' h rely -
        · exact Working.same h rely.inputs
        · exact ⟨h.1.same rely.inputs, h.2.around rely.evolved⟩
      · rintro (e | b) v v' h rely -
        · exact Working.same h rely.inputs
        · exact ⟨h.1.same rely.inputs, h.2.1, h.2.2.rely rely⟩

/-! ## `run.json` -/

omit [DecidableEq K] in
/-- An unfinished session's `run.json` may record any finished builds. -/
theorem Compiling.Sound.setRun (hinv : v.Sound P) (incomplete : v.session.complete = false)
    (recorded : Recorded run.builds v.session.evolved v.store) : (v.setRun run).Sound P :=
  ⟨⟨hinv.session.snapshot, hinv.session.evolved, hinv.session.copied, recorded,
    fun hcomplete => by cases incomplete.symm.trans hcomplete⟩, hinv.store⟩

omit [DecidableEq K] in
theorem Resolves.setRun (h : Resolves P host x v.session) (run : Run K) :
    Resolves P host x (v.setRun run).session :=
  ⟨h.baseline, h.evolved, h.toolchain, h.baselineIdentity, h.evolvedIdentity⟩

omit [DecidableEq K] in
theorem wp_saveRun (run : Run K) {A : Compiling K → Prop}
    (stable : ∀ v v', A v → Around p v v' → A v') (hA : A v)
    (incomplete : ∀ v, A v → v.session.complete = false)
    (recorded : ∀ v, A v → v.Sound P → Recorded run.builds v.session.evolved v.store) :
    wp (compiling P p) (saveRun run) (fun _ v' => ∃ v, A v ∧ v' = v.setRun run) (fun _ => A) v := by
  refine wp_fallible (Goes.refl p) ?_ fun v₁ around _ _ _ => stable v v₁ hA around
  rintro v₁ around inv - _ rfl
  have h₁ := stable v v₁ hA around
  exact ⟨⟨fun _ _ => id, .refl p _⟩, inv.setRun (incomplete _ h₁) (recorded _ h₁ inv),
    v₁, h₁, rfl⟩

omit [DecidableEq K] in
theorem Ended.around {o : Outcomes K} (h : Ended P x run o v) (around : Around p v v') :
    Ended P x run o v' := by
  refine ⟨fun b hb => ?_, fun b hb => (h.evolved b hb).around around.evolved, fun hnone => ?_⟩
  · obtain ⟨hkey, hready⟩ := h.baseline b hb
    exact ⟨hkey, hready.rely ⟨around.inputs, around.store⟩⟩
  · obtain ⟨b, hbuilds, hkept⟩ := h.saved hnone
    exact ⟨b, hbuilds, hkept.around around.evolved⟩

omit [DecidableEq K] in
/-- What the builds left is recorded over what was recorded before. -/
theorem Ended.recorded {o : Outcomes K} (h : Ended P x run o v) (working : Working P host x run v)
    (hinv : v.Sound P) : Recorded (o.record run).builds v.session.evolved v.store := by
  have before := hinv.session.recorded
  rw [working.builds] at before
  constructor
  · intro b hb
    cases hbaseline : o.baseline with
    | ok stored =>
        simp only [Outcomes.record, hbaseline, Except.toOption, Option.some_or] at hb
        cases hb
        exact (h.baseline b hbaseline).2
    | error e =>
        simp only [Outcomes.record, hbaseline, Except.toOption, Option.none_or] at hb
        exact before.baseline b hb
  · intro b hb
    cases hevolved : o.evolved with
    | none =>
        simp only [Outcomes.record, hevolved, Option.bind_none, Option.none_or] at hb
        exact before.evolved b hb
    | some result =>
        cases result with
        | ok made =>
            simp only [Outcomes.record, hevolved, Option.bind_some, Except.toOption,
              Option.some_or] at hb
            cases hb
            obtain ⟨d, hd, hrecord, -⟩ := h.evolved b hevolved
            exact ⟨d, hd, hrecord⟩
        | error e =>
            simp only [Outcomes.record, hevolved, Option.bind_some, Except.toOption,
              Option.none_or] at hb
            exact before.evolved b hb

/-- The in-memory run describes the snapshots. -/
structure Described (P : Platform K) (x : Resolved) (run : Run K) : Prop where
  changed_paths : run.changed_paths = some (diff_snapshots x.baseline x.evolved)
  scope : run.scope = some (scopes P.normal (diff_snapshots x.baseline x.evolved))

omit [DecidableEq K] in
/-- When neither build failed, both are recorded. -/
theorem Ended.completes {o : Outcomes K} {stored : StoredBuild K} (h : Ended P x run o v)
    (described : Described P x run) (hbaseline : o.baseline = .ok stored)
    (hevolved : ∀ e, o.evolved ≠ some (.error e)) : Completes P x (o.record run) := by
  refine ⟨⟨stored, ?_, (h.baseline stored hbaseline).1⟩, ?_, described.changed_paths,
    described.scope⟩
  · simp only [Outcomes.record, hbaseline, Except.toOption, Option.some_or]
  · cases hresult : o.evolved with
    | none =>
        obtain ⟨b, hbuilds, -, -, -, htree⟩ := h.saved hresult
        refine ⟨b, ?_, htree⟩
        simp only [Outcomes.record, hresult, Option.bind_none, Option.none_or, hbuilds]
    | some result =>
        cases result with
        | error e => exact absurd hresult (hevolved e)
        | ok made =>
            obtain ⟨-, -, -, htree⟩ := h.evolved made hresult
            refine ⟨made, ?_, htree⟩
            simp only [Outcomes.record, hresult, Option.bind_some, Except.toOption,
              Option.some_or]

/-- `run.json` records an invocation that got to its end. -/
structure AtEnd (P : Platform K) (host : Host) (x : Resolved) (v : Compiling K) : Prop where
  resolves : Resolves P host x v.session
  completes : Completes P x v.session.run
  incomplete : v.session.complete = false

omit [DecidableEq K] in
theorem AtEnd.around (h : AtEnd P host x v) (around : Around p v v') : AtEnd P host x v' :=
  ⟨h.resolves.same around.inputs, by rw [around.inputs.run]; exact h.completes,
    by rw [around.inputs.complete]; exact h.incomplete⟩

omit [DecidableEq K] in
/-- The raise of the first error; without one, both builds are there. -/
theorem wp_raise {o : Outcomes K} {Q : Compiling K → Prop} {C : Contract (Compiling K)}
    (ok : ∀ stored, o.baseline = .ok stored → (∀ e, o.evolved ≠ some (.error e)) → Q v) :
    wp C o.raise (fun _ => Q) (fun _ _ => True) v := by
  unfold Outcomes.raise
  split
  · trivial
  · trivial
  · rename_i stored hbaseline hne
    exact ok stored hbaseline hne

omit [DecidableEq K] in
theorem wp_finishBuilds {o : Outcomes K} (h : Working P host x run v) (ended : Ended P x run o v)
    (described : Described P x run) :
    wp (compiling P p) (finishBuilds run o) (fun _ => AtEnd P host x) (fun _ _ => True) v := by
  unfold finishBuilds
  rw [wp_bind]
  have saved := wp_saveRun (P := P) (p := p) (o.record run)
    (A := fun v => Working P host x run v ∧ Ended P x run o v)
    (fun v v' h around => ⟨h.1.same around.inputs, h.2.around around⟩) ⟨h, ended⟩
    (fun v h => h.1.incomplete) fun v h inv => h.2.recorded h.1 inv
  refine wp_mono saved ?_ fun _ _ _ => trivial
  rintro _ _ ⟨v₁, ⟨h₁, ended₁⟩, rfl⟩
  rw [wp_bind]
  refine wp_raise fun stored hbaseline hevolved => ?_
  have atEnd : AtEnd P host x (v₁.setRun (o.record run)) :=
    ⟨h₁.resolves.setRun _, ended₁.completes described hbaseline hevolved, h₁.incomplete⟩
  rw [wp_bind]
  refine wp_request (Goes.refl p) (fun v₂ around _ _ _ => ?_) fun _ _ _ _ _ => trivial
  have h₂ : AtEnd P host x v₂ ∧ v₂.session.run = o.record run :=
    ⟨atEnd.around around, around.inputs.run⟩
  have again := wp_saveRun (P := P) (p := p) { o.record run with built := true }
    (A := fun v => AtEnd P host x v ∧ v.session.run = o.record run)
    (fun v v' h around => ⟨h.1.around around, around.inputs.run.trans h.2⟩) h₂
    (fun v h => h.1.incomplete) fun v h inv => by
      have recorded := inv.session.recorded
      rw [h.2] at recorded
      exact ⟨recorded.baseline, recorded.evolved⟩
  refine wp_mono again ?_ fun _ _ _ => trivial
  rintro _ _ ⟨v₃, ⟨h₃, hrun⟩, rfl⟩
  have completes := h₃.completes
  rw [hrun] at completes
  exact ⟨h₃.resolves.setRun _, ⟨completes.baseline, completes.evolved, completes.changed_paths,
    completes.scope⟩, h₃.incomplete⟩

/-! ## The stage -/

/-- A saved build is reused when it is of the snapshot's tree; an unfinished one is set aside. -/
theorem wp_savedBuild (h : Working P host x run v) :
    wp (compiling P p) (savedBuild x.evolved)
      (fun saved v => Working P host x run v ∧ (∀ b, saved = some b → Kept x b v) ∧
        (saved = none → v.session.run.builds.evolved = none))
          (fun _ => Working P host x run) v := by
  unfold savedBuild
  rw [wp_bind]
  refine wp_read (Goes.refl p) fun v₁ around inv => ?_
  have h₁ := h.same around.inputs
  -- a recorded build is in the directory
  have unrecorded : (∀ d b, v₁.session.evolved = some d → d.record ≠ some b) →
      v₁.session.run.builds.evolved = none := fun hnone => by
    cases hrun : v₁.session.run.builds.evolved with
    | none => rfl
    | some b =>
        obtain ⟨d, hd, hrecord⟩ := inv.session.recorded.evolved b hrun
        exact absurd hrecord (hnone d b hd)
  cases hdir : v₁.session.evolved with
  | none => exact ⟨h₁, nofun, fun _ => unrecorded fun d b hd => by cases hdir.symm.trans hd⟩
  | some d =>
      change wp _ (savedIn x.evolved d) _ _ v₁
      unfold savedIn
      cases hrecord : d.record with
      | none =>
          have hnone := unrecorded fun d' b hd => by
            cases hdir.symm.trans hd
            rw [hrecord]
            nofun
          change wp _ (setAside >>= fun _ => pure none) _ _ v₁
          rw [wp_bind]
          refine wp_fallible (Goes.refl p) ?_ fun v₂ around₂ _ _ _ => h₁.same around₂.inputs
          rintro v₂ around₂ inv₂ - _ rfl
          have hnone₂ : v₂.session.run.builds.evolved = none := by
            rw [around₂.inputs.run]
            exact hnone
          have same : SameInputs v₂.session (v₂.setDir .evolved none).session :=
            ⟨rfl, rfl, rfl, rfl, rfl, rfl⟩
          exact ⟨same.goes (.refl p _), inv₂.setEvolved hnone₂ fun _ _ h => (by cases h),
            (h₁.same around₂.inputs).same same, nofun, fun _ => hnone₂⟩
      | some b =>
          change wp _ (checkSaved x.evolved b >>= fun _ => pure (some b)) _ _ v₁
          rw [wp_bind]
          unfold checkSaved
          rw [wp_bind]
          refine wp_request (Goes.refl p) (fun v₂ around₂ _ _ _ => ?_)
            fun v₂ around₂ _ _ _ => h₁.same around₂.inputs
          have h₂ := h₁.same around₂.inputs
          split
          · exact h₂
          · rename_i htree
            refine ⟨h₂, fun b' hb' => ?_, nofun⟩
            cases hb'
            exact ⟨d, around₂.evolved.trans hdir, hrecord, not_not.mp htree⟩

omit [DecidableEq K] in
theorem wp_recordSaved (h : Working P host x run v) {saved : Option (Build K)}
    (kept : ∀ b, saved = some b → Kept x b v)
    (missing : saved = none → v.session.run.builds.evolved = none)
    (described : Described P x run) :
    wp (compiling P p) (recordSaved run saved)
      (fun run v => Working P host x run v ∧ Described P x run ∧ Saved x run.builds saved v)
      (fun _ _ => True) v := by
  cases saved with
  | none => exact ⟨h, described, nofun, fun _ => h.builds ▸ missing rfl⟩
  | some b =>
      unfold recordSaved
      rw [wp_bind]
      have written := wp_saveRun (P := P) (p := p)
        { run with builds := { run.builds with evolved := some b } }
        (A := fun v => Working P host x run v ∧ Kept x b v)
        (fun v v' h around => ⟨h.1.same around.inputs, h.2.around around.evolved⟩)
        ⟨h, kept b rfl⟩ (fun v h => h.1.incomplete) fun v h inv => by
          have before := inv.session.recorded
          rw [h.1.builds] at before
          refine ⟨before.baseline, fun b' hb' => ?_⟩
          cases hb'
          obtain ⟨d, hd, hrecord, -⟩ := h.2
          exact ⟨d, hd, hrecord⟩
      refine wp_mono written ?_ fun _ _ _ => trivial
      rintro _ _ ⟨v₁, ⟨h₁, hkept⟩, rfl⟩
      refine ⟨⟨h₁.resolves.setRun _, rfl, h₁.incomplete⟩,
        ⟨described.changed_paths, described.scope⟩, fun b' hb' => ?_, nofun⟩
      cases hb'
      exact ⟨rfl, hkept⟩

/-- What an invocation knows before it has resolved anything. -/
structure Opened (run : Run K) (v : Compiling K) : Prop where
  builds : v.session.run.builds = run.builds
  incomplete : v.session.complete = false

omit [DecidableEq K] in
theorem Opened.same (h : Opened run v) (same : SameInputs v.session v'.session) : Opened run v' :=
  ⟨by rw [same.run]; exact h.builds, by rw [same.complete]; exact h.incomplete⟩

omit [DecidableEq K] in
theorem keeping_opened (r : Revision) : Keeping p r (Opened (K := K) run) :=
  ⟨fun _ _ h around => h.same around.inputs, fun _ _ h => ⟨h.builds, h.incomplete⟩,
    fun _ _ h _ => ⟨h.builds, h.incomplete⟩⟩

omit [DecidableEq K] in
/-- The snapshot of one revision leaves the other's manifest alone. -/
theorem keeping_baseline {m : Manifest} :
    Keeping p .evolved fun v : Compiling K =>
      Opened run v ∧ v.session.manifest .baseline = some m := by
  refine ⟨fun v v' h around => ⟨h.1.same around.inputs, ?_⟩,
    fun v tree h => ⟨⟨h.1.builds, h.1.incomplete⟩, h.2⟩,
    fun v m' h _ => ⟨⟨h.1.builds, h.1.incomplete⟩, ?_⟩⟩
  · rw [around.inputs.manifest]
    exact h.2
  · rw [setManifest_other m' (by decide)]
    exact h.2

/-- Both manifests are committed. -/
structure Snapped (run : Run K) (baseline evolved : Manifest) (v : Compiling K) : Prop extends
    Opened run v where
  baseline : v.session.manifest .baseline = some baseline
  evolved : v.session.manifest .evolved = some evolved

omit [DecidableEq K] in
theorem Snapped.same {baseline evolved : Manifest} (h : Snapped run baseline evolved v)
    (same : SameInputs v.session v'.session) : Snapped run baseline evolved v' :=
  ⟨h.toOpened.same same, by rw [same.manifest]; exact h.baseline,
    by rw [same.manifest]; exact h.evolved⟩

omit [DecidableEq K] in
theorem Compiling.Sound.setWheel (hinv : v.Sound P) (wheel : Option String) :
    Compiling.Sound P { v with session := { v.session with wheel := wheel } } := by
  refine ⟨⟨hinv.session.snapshot, hinv.session.evolved, hinv.session.copied,
    hinv.session.recorded, fun hcomplete => ?_⟩, hinv.store⟩
  obtain ⟨host, x, hhost, h, hends⟩ := hinv.session.complete hcomplete
  exact ⟨host, x, hhost,
    ⟨h.baseline, h.evolved, h.toolchain, h.baselineIdentity, h.evolvedIdentity⟩, hends⟩

omit [DecidableEq K] in
theorem wp_harnessWheel {baseline evolved : Manifest} (h : Snapped run baseline evolved v) :
    wp (compiling P p) harnessWheel (fun _ => Snapped run baseline evolved)
      (fun _ _ => True) v := by
  unfold harnessWheel
  rw [wp_bind]
  refine wp_read (Goes.refl p) fun v₁ around _ => ?_
  have h₁ := h.same around.inputs
  cases v₁.session.wheel with
  | some hash => exact h₁
  | none =>
      change wp _ (request _ _ >>= _) _ _ v₁
      rw [wp_bind]
      refine wp_request (Goes.refl p) (fun v₂ around₂ _ hash _ => ?_) fun _ _ _ _ _ => trivial
      rw [wp_bind]
      refine wp_modify fun v₃ around₃ inv => ?_
      have h₃ := (h₁.same around₂.inputs).same around₃.inputs
      exact ⟨⟨fun _ _ => id, .refl p _⟩, inv.setWheel _, ⟨h₃.builds, h₃.incomplete⟩, h₃.baseline,
        h₃.evolved⟩

omit [DecidableEq K] in
theorem wp_baseline_toolchain {baseline evolved : Manifest} (h : Snapped run baseline evolved v) :
    wp (compiling P p) (baseline_toolchain P)
      (fun toolchain v => Snapped run baseline evolved v ∧
        (v.session.tree .baseline).bind P.channel = some toolchain) (fun _ _ => True) v := by
  unfold baseline_toolchain
  rw [wp_bind]
  refine wp_read (Goes.refl p) fun v₁ around _ => ?_
  cases hchannel : (v₁.session.tree .baseline).bind P.channel with
  | none => trivial
  | some toolchain => exact ⟨h.same around.inputs, hchannel⟩

/-- What is resolved before any build work. -/
theorem resolve_ok {baseline evolved : Manifest} {toolchain harness : String}
    (h : resolve host baseline evolved toolchain harness = .ok x) :
    build_identity host baseline.tree_hash toolchain = .ok x.baselineIdentity ∧
      build_identity host evolved.tree_hash toolchain = .ok x.evolvedIdentity ∧
      x.baseline = baseline ∧ x.evolved = evolved ∧ x.toolchain = toolchain := by
  unfold resolve at h
  cases hb : build_identity host baseline.tree_hash toolchain with
  | error e => simp [hb, bind, Except.bind] at h
  | ok bi =>
      cases he : build_identity host evolved.tree_hash toolchain with
      | error e => simp [hb, he, bind, Except.bind] at h
      | ok ei =>
          simp only [hb, he, bind, Except.bind, pure, Except.pure, Except.ok.injEq] at h
          subst h
          exact ⟨rfl, rfl, rfl, rfl, rfl⟩

theorem wp_build (h : Opened run v) :
    wp (compiling P p) (build P p host run) (fun _ (v : Compiling K) => ∃ x, AtEnd P host x v)
      (fun _ _ => True) v := by
  unfold build
  rw [wp_bind]
  refine wp_mono (wp_snapshotOf (keeping_opened .baseline) h) ?_ fun _ _ _ => trivial
  rintro baseline v₁ h₁
  rw [wp_bind]
  refine wp_mono (wp_snapshotOf keeping_baseline h₁) ?_ fun _ _ _ => trivial
  rintro evolved v₂ ⟨⟨opened, hbaseline⟩, hevolved⟩
  rw [wp_bind]
  refine wp_mono (wp_harnessWheel ⟨opened, hbaseline, hevolved⟩) ?_ fun _ _ _ => trivial
  rintro harness v₃ h₃
  rw [wp_bind]
  refine wp_mono (wp_baseline_toolchain h₃) ?_ fun _ _ _ => trivial
  rintro toolchain v₄ ⟨h₄, htoolchain⟩
  rw [wp_bind]
  cases hx : resolve host baseline evolved toolchain harness with
  | error e => exact trivial
  | ok x =>
      obtain ⟨hbi, hei, rfl, rfl, rfl⟩ := resolve_ok hx
      have working : Working P host x (run.describe P x) v₄ :=
        ⟨⟨h₄.baseline, h₄.evolved, htoolchain, hbi, hei⟩, h₄.builds, h₄.incomplete⟩
      change wp _ (savedBuild x.evolved >>= _) _ _ v₄
      rw [wp_bind]
      refine wp_mono (wp_savedBuild working) ?_ fun _ _ _ => trivial
      rintro saved v₅ ⟨h₅, kept, missing⟩
      rw [wp_bind]
      refine wp_mono (wp_recordSaved h₅ kept missing ⟨rfl, rfl⟩) ?_ fun _ _ _ => trivial
      rintro run' v₆ ⟨h₆, described, hsaved⟩
      rw [wp_bind]
      refine wp_mono (wp_runTasks h₆ hsaved) ?_ fun _ _ _ => trivial
      rintro o v₇ ⟨h₇, ended⟩
      exact wp_mono (wp_finishBuilds h₇ ended described) (fun _ _ h => ⟨x, h⟩) fun _ _ => id

/-- An invocation keeps the invariant, wherever it ends. -/
theorem wp_compile_stage : wp (compiling P p) (compile_stage P p host) (fun _ _ => True)
    (fun _ _ => True) v := by
  unfold compile_stage
  rw [wp_bind]
  refine wp_read (Goes.refl p) fun v₁ _ _ => ?_
  split
  · trivial
  · rename_i hcomplete
    rw [wp_bind]
    refine wp_read (Goes.refl p) fun v₂ around _ => ?_
    rw [wp_bind]
    have opened : Opened v₂.session.run v₂ :=
      ⟨rfl, by rw [around.inputs.complete]; exact Bool.eq_false_iff.mpr hcomplete⟩
    refine wp_mono (wp_build opened) ?_ fun _ _ _ => trivial
    rintro _ v₃ ⟨x, h₃⟩
    rw [wp_bind]
    refine wp_request (Goes.refl p) (fun v₄ around₄ _ _ _ => ?_) fun _ _ _ _ _ => trivial
    refine wp_modify fun v₅ around₅ inv => ?_
    have h₅ := (h₃.around around₄).around around₅
    refine ⟨⟨fun _ _ => id, .refl p _⟩, ⟨⟨inv.session.snapshot, inv.session.evolved,
      inv.session.copied, inv.session.recorded, fun _ => ⟨host, x, rfl, ?_, h₅.completes⟩⟩,
      inv.store⟩, trivial⟩
    exact ⟨h₅.resolves.baseline, h₅.resolves.evolved, h₅.resolves.toolchain,
      h₅.resolves.baselineIdentity, h₅.resolves.evolvedIdentity⟩

end Invocation

end TranspileBench.Compile
