import TranspileBench.Compile.Playback

/-!
When both arms are built alike: the baseline build is looked up under the whole identity
that an invocation resolves, a saved evolved build only under its tree.
-/
namespace TranspileBench.Compile
open Evaluator (Revision)
open Prog

section Alike
variable {S K : Type} [DecidableEq S] [DecidableEq K] {P : Platform K}

/-- The recorded builds differ in their snapshots at most, and when these are equal the
session is an A/A run. -/
def BuiltAlike (s : Session K) : Prop :=
  ∃ baseline evolved stored made, s.manifest .baseline = some baseline ∧
    s.manifest .evolved = some evolved ∧ s.run.builds = ⟨some stored, some made⟩ ∧
    stored.identity.toEnvironment = made.identity.toEnvironment ∧
    (baseline.files = evolved.files → same_build s.run.builds = true)

/-- The invocation that made the evolved build and the one that completed compile found the
same Python, lock files, Rust toolchain, native compilers and system. -/
def SameHosts (P : Platform K) (s : Session K) : Prop :=
  ∃ toolchain d host, (s.tree .baseline).bind P.channel = some toolchain ∧
    s.evolved = some d ∧ s.completedOn = some host ∧ SameEnvironment toolchain d.host host

omit [DecidableEq K] in
/-- What the two recorded builds of a completed session were made with. -/
theorem Session.Sound.builds {s : Session K} {store : Store K} (hash : P.CollisionFree)
    (h : s.Sound P store) (hstore : store.Sound P) (hcomplete : s.complete = true) :
    ∃ baseline evolved stored made toolchain d host, s.manifest .baseline = some baseline ∧
      s.manifest .evolved = some evolved ∧ s.run.builds = ⟨some stored, some made⟩ ∧
      (s.tree .baseline).bind P.channel = some toolchain ∧ s.evolved = some d ∧
      s.completedOn = some host ∧
      environment host toolchain = .ok stored.identity.toEnvironment ∧
      environment d.host toolchain = .ok made.identity.toEnvironment ∧
      stored.identity.snapshot = baseline.tree_hash ∧
      made.identity.snapshot = evolved.tree_hash ∧
      stored.id = P.identity_hash stored.identity ∧ made.id = P.identity_hash made.identity := by
  obtain ⟨host, x, hhost, resolves, ends⟩ := h.complete hcomplete
  obtain ⟨stored, hstored, hkey⟩ := ends.baseline
  obtain ⟨made, hmade, -⟩ := ends.evolved
  have hidentity := Completes.identity hash h hstore hstored hkey
  obtain ⟨_, _, _, _, _, wholeStored, _⟩ := Recorded.ready h hstore hstored
  obtain ⟨d, hd, hrecord⟩ := h.recorded.evolved made hmade
  obtain ⟨wholeMade, hevolved, -, hchannel⟩ := h.evolved d made hd hrecord
  have hbaseline := build_identity_ok.mp resolves.baselineIdentity
  refine ⟨x.baseline, x.evolved, stored, made, x.toolchain, d, host, resolves.baseline,
    resolves.evolved, ?_, resolves.toolchain, hd, hhost, ?_, ?_, ?_, ?_, wholeStored.id,
    wholeMade.id⟩
  · cases hbuilds : s.run.builds
    rw [hbuilds] at hstored hmade
    cases hstored
    cases hmade
    rfl
  · rw [hidentity]
    exact hbaseline.1
  · rw [Option.some.inj (resolves.toolchain.symm.trans hchannel)]
    exact wholeMade.environment
  · rw [hidentity]
    exact hbaseline.2
  · rw [Option.some.inj (resolves.evolved.symm.trans hevolved)]
    exact wholeMade.snapshot

theorem Session.Sound.alike_iff {s : Session K} {store : Store K} (hash : P.CollisionFree)
    (h : s.Sound P store) (hstore : store.Sound P) (hcomplete : s.complete = true) :
    BuiltAlike s ↔ SameHosts P s := by
  obtain ⟨baseline, evolved, stored, made, toolchain, d, host, hbaseline, hevolved, hbuilds,
    htoolchain, hd, hhost, henv, henv', hsnapshot, hsnapshot', hid, hid'⟩ :=
    h.builds hash hstore hcomplete
  have same := sameEnvironment_iff henv' henv
  constructor
  · rintro ⟨-, -, stored', made', -, -, hbuilds', halike, -⟩
    cases hbuilds.symm.trans hbuilds'
    exact ⟨toolchain, d, host, htoolchain, hd, hhost, same.mp halike.symm⟩
  · rintro ⟨toolchain', d', host', htoolchain', hd', hhost', hsame⟩
    cases htoolchain.symm.trans htoolchain'
    cases hd.symm.trans hd'
    cases hhost.symm.trans hhost'
    have halike := (same.mpr hsame).symm
    refine ⟨baseline, evolved, stored, made, hbaseline, hevolved, hbuilds, halike, fun hfiles => ?_⟩
    -- equal files have equal tree hashes, so both identities are the same
    have hhash : stored.identity.snapshot = made.identity.snapshot := by
      rw [hsnapshot, hsnapshot', (h.snapshot _ _ hbaseline).1, (h.snapshot _ _ hevolved).1, hfiles]
    have hidentity : stored.identity = made.identity := by
      cases hs : stored.identity
      cases hm : made.identity
      rw [hs, hm] at halike hhash
      simp_all
    rw [hbuilds]
    simp [same_build, hid, hid', hidentity]

/-- In every state that any schedule reaches, both arms of a completed session are built
alike exactly if the two invocations that built them found the same environment. -/
theorem built_alike_iff (hash : P.CollisionFree) {c : Config (World S K) Exn}
    (h : (compileSystem S P).Reachable c) (σ : S)
    (hcomplete : (c.world.session σ).complete = true) :
    BuiltAlike (c.world.session σ) ↔ SameHosts P (c.world.session σ) := by
  have sound : World.Sound P c.world := ((compileOutline S P).holds h).1
  exact (sound.session σ).alike_iff hash sound.store hcomplete

end Alike

/-- Both invocations on one host: the builds are alike, and equal sources are an A/A run. -/
theorem built_alike_iff_sample :
    ∃ w : World Unit (Identity × Option String), (w.session ()).complete = true ∧
      BuiltAlike (w.session ()) := by
  obtain ⟨w, reach, hcomplete, hhost, ⟨d, hd, hmade⟩, htree⟩ := sample_two_hosts "gcc 12" "gcc 12"
  refine ⟨w, hcomplete, (built_alike_iff samplePlatform_collisionFree reach () hcomplete).mpr ?_⟩
  refine ⟨"1.85", d, _, ?_, hd, hhost, by rw [hmade]; exact ⟨rfl, rfl, rfl, rfl, rfl, rfl, rfl⟩⟩
  obtain ⟨i, h⟩ := sampleFile_resolvable "gcc 12"
  rw [htree]
  exact h.channel

/-- The native compilers change between a killed invocation and the next one, which reuses the
evolved build and makes the baseline's anew. -/
theorem built_apart :
    ∃ c : Config (World Unit (Identity × Option String)) Exn,
      (compileSystem Unit samplePlatform).Reachable c ∧
      (c.world.session ()).complete = true ∧ ¬BuiltAlike (c.world.session ()) := by
  obtain ⟨w, reach, hcomplete, hhost, ⟨d, hd, hmade⟩, -⟩ := sample_two_hosts "gcc 12" "gcc 13"
  refine ⟨_, reach, hcomplete, fun alike => ?_⟩
  have sound : World.Sound samplePlatform w := ((compileOutline Unit samplePlatform).holds reach).1
  obtain ⟨toolchain, d', host, -, hd', hhost', same⟩ :=
    ((sound.session ()).alike_iff samplePlatform_collisionFree sound.store hcomplete).mp alike
  cases hd.symm.trans hd'
  cases hhost.symm.trans hhost'
  have hcc := same.cc
  rw [hmade] at hcc
  exact absurd hcc (by decide)

end TranspileBench.Compile
