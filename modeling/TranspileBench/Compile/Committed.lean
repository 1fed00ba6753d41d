import TranspileBench.Compile.Playback

/-!
What compile commits: manifests that never change, a `run.json` that agrees with them, and
nothing partial among its sources and builds.
-/
namespace TranspileBench.Compile
open Evaluator (Revision)
open Prog

section Frozen
variable {S K : Type} [DecidableEq S] [DecidableEq K] {P : Platform K}

/-- A `run.json` over two committed manifests: its builds are of their trees, its changed
paths are where they differ, and its scope is that of the changed paths. -/
structure Consistent (P : Platform K) (s : Session K) (baseline evolved : Manifest)
    (paths : List String) (stored : StoredBuild K) (made : Build K) : Prop where
  manifest_baseline : s.manifest .baseline = some baseline
  manifest_evolved : s.manifest .evolved = some evolved
  builds : s.run.builds = ⟨some stored, some made⟩
  baseline_hash : stored.snapshot.tree_hash = baseline.tree_hash
  evolved_hash : made.snapshot.tree_hash = evolved.tree_hash
  changed_paths : s.run.changed_paths = some paths
  differ : ∀ path, path ∈ paths ↔ baseline.files.lookup path ≠ evolved.files.lookup path
  scope : s.run.scope = some (scopes P.normal paths)

/-- Nothing partial is used: a committed manifest has its whole tree, builds copy their
source from such trees, and the recorded builds are finished ones of whole sources. -/
structure OnlyWhole (P : Platform K) (s : Session K) (store : Store K) : Prop where
  snapshot : ∀ r m, s.manifest r = some m → ∃ tree, s.tree r = some tree ∧ P.Records tree m.files
  source : ∀ x ∈ s.copied, ∃ m, s.manifest x.1 = some m ∧ P.Records x.2 m.files
  evolved : ∀ b, s.run.builds.evolved = some b →
    ∃ d, s.evolved = some d ∧ d.record = some b ∧ Whole P d b
  baseline : ∀ b, s.run.builds.baseline = some b →
    ∃ d, store.entry b.store_key = some d ∧ d.ready ∧ d.record = some b.toBuild ∧
      Whole P d b.toBuild

/-- What compile freezes in a session over a whole run. -/
structure Frozen (r : (compileSystem S P).Run) (σ : S) : Prop where
  manifest : ∀ i j, i ≤ j → ∀ revision m,
    ((r.config i).world.session σ).manifest revision = some m →
      ((r.config j).world.session σ).manifest revision = some m
  complete : ∀ n, ((r.config n).world.session σ).complete = true →
    ∃ baseline evolved paths stored made,
      Consistent P ((r.config n).world.session σ) baseline evolved paths stored made
  whole : ∀ n, OnlyWhole P ((r.config n).world.session σ) (r.config n).world.store

omit [DecidableEq K] in
theorem Session.Sound.consistent {s : Session K} {store : Store K} (hash : P.CollisionFree)
    (h : s.Sound P store) (hstore : store.Sound P) (hcomplete : s.complete = true) :
    ∃ baseline evolved paths stored made, Consistent P s baseline evolved paths stored made := by
  obtain ⟨host, x, -, resolves, ends⟩ := h.complete hcomplete
  obtain ⟨stored, hstored, hkey⟩ := ends.baseline
  obtain ⟨made, hmade, htree⟩ := ends.evolved
  have hidentity := Completes.identity hash h hstore hstored hkey
  obtain ⟨d, -, -, -, -, whole, -⟩ := Recorded.ready h hstore hstored
  refine ⟨x.baseline, x.evolved, diff_snapshots x.baseline x.evolved, stored, made,
    resolves.baseline, resolves.evolved, ?_, ?_, htree, ends.changed_paths,
    fun _ => mem_diff_snapshots, ends.scope⟩
  · cases hbuilds : s.run.builds
    rw [hbuilds] at hstored hmade
    cases hstored
    cases hmade
    rfl
  · calc stored.snapshot.tree_hash
        = stored.identity.snapshot := whole.snapshot.symm
      _ = x.baselineIdentity.snapshot := by rw [hidentity]
      _ = x.baseline.tree_hash := (build_identity_ok.mp resolves.baselineIdentity).2

omit [DecidableEq K] in
theorem Session.Sound.onlyWhole {s : Session K} {store : Store K} (h : s.Sound P store)
    (hstore : store.Sound P) : OnlyWhole P s store := by
  refine ⟨fun r m hm => (h.snapshot r m hm).2, h.copied, fun b hb => ?_, fun b hb => ?_⟩
  · obtain ⟨d, hd, hrecord⟩ := h.recorded.evolved b hb
    exact ⟨d, hd, hrecord, (h.evolved d b hd hrecord).1⟩
  · obtain ⟨d, -, hd, hready, hrecord, whole, -⟩ := Recorded.ready h hstore hb
    exact ⟨d, hd, hready, hrecord, whole⟩

/-- Committed manifests never change, a completed compile is consistent with them, and
nothing partial is used, however invocations are killed and sources edited. -/
theorem compile_frozen (hash : P.CollisionFree) (r : (compileSystem S P).Run) (σ : S) :
    Frozen r σ := by
  have sound : ∀ n, World.Sound P (r.config n).world := fun n =>
    ((compileOutline S P).holds (r.reachable _ n)).1
  refine ⟨fun i j hij revision m => ?_, fun n => ?_, fun n => ?_⟩
  · refine (compileOutline S P).run_induction r
      (T := fun w w' => (w.session σ).manifest revision = some m →
        (w'.session σ).manifest revision = some m)
      (fun _ => id) (fun _ _ _ h h' hm => h' (h hm)) ?_ ?_ ?_ hij
    · exact fun p w w' _ _ does => does.manifest σ revision m
    · exact fun p w _ => id
    · rintro w _ - ⟨τ, source, rfl⟩ hm
      by_cases heq : σ = τ
      · subst heq
        simpa [World.edit] using hm
      · simpa [World.edit, heq] using hm
  · exact ((sound n).session σ).consistent hash (sound n).store
  · exact ((sound n).session σ).onlyWhole (sound n).store

/-- A run in which an invocation is killed and the next one, on another host, completes. -/
theorem compile_frozen_sample :
    ∃ (r : (compileSystem Unit samplePlatform).Run) (n : ℕ),
      ((r.config n).world.session ()).complete = true ∧ Frozen r () := by
  obtain ⟨w, reach, hcomplete, -⟩ := sample_two_hosts "gcc 12" "gcc 13"
  obtain ⟨r, n, hn⟩ := reach.exists_run
  exact ⟨r, n, by rw [hn]; exact hcomplete, compile_frozen samplePlatform_collisionFree r ()⟩

end Frozen

end TranspileBench.Compile
