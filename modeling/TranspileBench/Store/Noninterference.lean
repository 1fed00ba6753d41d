import TranspileBench.Store.Halves
import TranspileBench.Coordinator.CostReplay

/-!
Two sessions over one store that differ in their evolved trees: whatever those trees do,
the stages whose baseline half both sessions got through leave the same baseline entries.
-/
namespace TranspileBench.Store
open Evaluator Coordinator Routine

variable {N H : Type}

section Session
variable (setup : Setup N H) (entries : Entries N)

/-- The build every session over these entries ends with. -/
def sharedBuild : Option Build := (readyBuild setup entries.builds).1.toOption

/-- The keys of a session that is not an A/A one. -/
def sharedKeys {α : Type} (key : Build → α) : Option α :=
  if setup.run.store.isSome then (sharedBuild setup entries).map key else none

/-- The baseline half of quality once more. -/
def measureAgain (w : Site N) : Site N :=
  ((measureBaseline setup (sharedBuild setup entries)
    (sharedKeys setup entries setup.qualityKey)).exec
    w).2

/-- The marks that the baseline's own audit leaves over what is measured. -/
def sharedMarks (measured : List (Observation N) × (String → Option (QualityEntry N))) :
    String → Bool :=
  judgedMarks setup { setup.run with builds := { baseline := sharedBuild setup entries } } measured
    entries.invalidated

/-- Nothing but compile has run. -/
structure Fresh (w : Site N) : Prop where
  status : ∀ s, s ≠ .compile → w.status s = none
  through : ∀ s, s ≠ .compile → w.through s = false
  observations : w.observations = []
  quality : w.store.quality = entries.quality
  invalidated : w.store.invalidated = entries.invalidated
  correctness : w.store.correctness = entries.correctness
  unit_tests : w.store.unit_tests = entries.unit_tests
  audited : w.audited = false

/-- The entries of one kind of results: filled in by now, or still to be. -/
structure Filled {α : Type} (key : Option String) (fresh : Option α)
    (before now : String → Option α) (through : Bool) : Prop where
  still : published key fresh now = published key fresh before
  full : through = true → now = published key fresh before

/-- The store of a session that is no A/A one, as the baseline alone makes it. -/
structure Law (w : Site N) : Prop where
  measured : ∃ m, w.measured = ((measureAgain setup entries)^[m]
    (Site.start setup entries)).measured
  valid : w.store.invalidated = entries.invalidated ∨ Settled setup w
  settled : w.through .quality = true ∨ w.audited = true → Settled setup w
  unaudited : w.audited = false → w.store.invalidated = entries.invalidated
  audited : w.audited = true → w.agreed = true →
    w.store.invalidated = sharedMarks setup entries w.measured
  correctness : Filled (sharedKeys setup entries setup.correctnessKey) (freshHalf setup)
    entries.correctness w.store.correctness (w.through .correctness)
  unit_tests : Filled (sharedKeys setup entries setup.unitTestsKey) (freshSuites setup)
    entries.unit_tests w.store.unit_tests (w.through .unit_tests)

structure Inv (w : Site N) : Prop where
  run : w.run = { setup.run with builds := w.run.builds }
  ready : readyBuild setup w.store.builds = readyBuild setup entries.builds
  built : w.through .compile = true → w.store.builds = (readyBuild setup entries.builds).2
  recorded : w.isFinal .compile = true → w.run.builds.baseline = sharedBuild setup entries
  untouched : w.isFinal .compile = false → Fresh entries w
  law : sameBuild w.run.builds = false → Law setup entries w

end Session

variable {setup : Setup N H} {entries : Entries N} {w w' : Site N}

theorem Filled.step {α : Type} {key : Option String} {fresh : Option α}
    {before now next : String → Option α} {through through' : Bool}
    (h : Filled key fresh before now through) (step : Publishes key fresh now
      next through through') :
    Filled key fresh before next through' := by
  have full : next = published key fresh now → next = published key fresh before :=
    fun heq => heq.trans h.still
  refine ⟨?_, fun hthrough => ?_⟩
  · rcases step.entries with rfl | rfl
    · exact h.still
    · rw [published_published, h.still]
  · rcases step.through hthrough with hthrough | heq
    · rcases step.entries with rfl | heq
      · exact h.full hthrough
      · exact full heq
    · exact full heq

theorem Filled.initial {α : Type} (key : Option String) (fresh : Option α)
    (entries : String → Option α) : Filled key fresh entries entries false :=
  ⟨rfl, fun h => by cases h⟩

/-- Before any other stage there is nothing to tell. -/
theorem Fresh.law (h : Fresh entries w) : Law setup entries w := by
  have measured : w.measured = (Site.start setup entries).measured := by
    rw [Site.measured, h.observations, h.quality]
    rfl
  have quality := h.through .quality (by decide)
  have correctness := h.through .correctness (by decide)
  have unit_tests := h.through .unit_tests (by decide)
  refine ⟨⟨0, measured⟩, .inl h.invalidated, ?_, fun _ => h.invalidated, ?_, ?_, ?_⟩
  · rw [quality, h.audited]
    exact fun h => by cases h <;> contradiction
  · rw [h.audited]
    exact fun h => by cases h
  · rw [correctness, h.correctness]
    exact .initial _ _ _
  · rw [unit_tests, h.unit_tests]
    exact .initial _ _ _

/-- What the body of stage `s` keeps. -/
structure Kept (s : Stage) (w w' : Site N) : Prop where
  status : w'.status = w.status
  run : { w'.run with builds := {} } = { w.run with builds := {} }
  through : ∀ t, t ≠ s → w'.through t = w.through t
  builds : s ≠ .compile → w'.run = w.run ∧ w'.store.builds = w.store.builds
  measured : s ≠ .quality → w'.observations = w.observations ∧ w'.store.quality = w.store.quality
  marks : s ≠ .quality → w'.store.invalidated = w.store.invalidated ∧ w'.audited = w.audited ∧
    w'.agreed = w.agreed
  correctness : s ≠ .correctness → w'.store.correctness = w.store.correctness
  unit_tests : s ≠ .unit_tests → w'.store.unit_tests = w.store.unit_tests

theorem Kept.of_outside {s : Stage} (h : w'.outside s = w.outside s) : Kept s w w' := by
  have through : ∀ t, t ≠ s → w'.through t = w.through t := by
    intro t ht
    have heq : Function.update w'.through s false = Function.update w.through s false := by
      have := congrArg (fun w : Site N => w.through) h
      cases s <;> exact this
    simpa [ht] using congrFun heq t
  have run := congrArg (fun w : Site N => w.run) h
  have status := congrArg (fun w : Site N => w.status) h
  have observations := congrArg (fun w : Site N => w.observations) h
  have audited := congrArg (fun w : Site N => w.audited) h
  have agreed := congrArg (fun w : Site N => w.agreed) h
  have builds := congrArg (fun w : Site N => w.store.builds) h
  have quality := congrArg (fun w : Site N => w.store.quality) h
  have invalidated := congrArg (fun w : Site N => w.store.invalidated) h
  have correctness := congrArg (fun w : Site N => w.store.correctness) h
  have unit_tests := congrArg (fun w : Site N => w.store.unit_tests) h
  cases s with
  | compile =>
      exact ⟨status, run, through, fun h => absurd rfl h, fun _ => ⟨observations, quality⟩,
        fun _ => ⟨invalidated, audited, agreed⟩, fun _ => correctness, fun _ => unit_tests⟩
  | quality =>
      exact ⟨status, congrArg (fun run : Run N => { run with builds := {} }) run, through,
        fun _ => ⟨run, builds⟩, fun h => absurd rfl h, fun h => absurd rfl h,
        fun _ => correctness, fun _ => unit_tests⟩
  | correctness =>
      exact ⟨status, congrArg (fun run : Run N => { run with builds := {} }) run, through,
        fun _ => ⟨run, builds⟩, fun _ => ⟨observations, quality⟩,
        fun _ => ⟨invalidated, audited, agreed⟩, fun h => absurd rfl h, fun _ => unit_tests⟩
  | unit_tests =>
      exact ⟨status, congrArg (fun run : Run N => { run with builds := {} }) run, through,
        fun _ => ⟨run, builds⟩, fun _ => ⟨observations, quality⟩,
        fun _ => ⟨invalidated, audited, agreed⟩, fun _ => correctness, fun h => absurd rfl h⟩
  | cost =>
      exact ⟨status, congrArg (fun run : Run N => { run with builds := {} }) run, through,
        fun _ => ⟨run, builds⟩, fun _ => ⟨observations, quality⟩,
        fun _ => ⟨invalidated, audited, agreed⟩, fun _ => correctness, fun _ => unit_tests⟩

/-- The stages other than quality leave the law as far as it is about quality. -/
theorem Law.kept {s : Stage} (law : Law setup entries w) (kept : Kept s w w')
    (quality : s ≠ .quality)
    (correctness : Filled (sharedKeys setup entries setup.correctnessKey) (freshHalf setup)
      entries.correctness w'.store.correctness (w'.through .correctness))
    (unit_tests : Filled (sharedKeys setup entries setup.unitTestsKey) (freshSuites setup)
      entries.unit_tests w'.store.unit_tests (w'.through .unit_tests)) : Law setup entries w' := by
  obtain ⟨hobservations, hquality⟩ := kept.measured quality
  obtain ⟨hinvalidated, haudited, hagreed⟩ := kept.marks quality
  have measured : w'.measured = w.measured := by
    rw [Site.measured, hobservations, hquality]
    rfl
  refine ⟨?_, ?_, ?_, ?_, ?_, correctness, unit_tests⟩
  · rw [measured]
    exact law.measured
  · rw [hinvalidated]
    exact law.valid.imp_right fun h => h.congr measured
  · rw [kept.through .quality (Ne.symm quality), haudited]
    exact fun h => (law.settled h).congr measured
  · rw [haudited, hinvalidated]
    exact law.unaudited
  · rw [haudited, hagreed, hinvalidated, measured]
    exact law.audited

theorem iterate_around (m : ℕ) (w : Site N) :
    ((measureAgain setup entries)^[m] w).around = w.around := by
  induction m with
  | zero => rfl
  | succ m ih =>
      rw [Function.iterate_succ_apply']
      exact (measureBaseline_around _).trans ih

theorem measureAgain_settled (h : Settled setup w) : measureAgain setup entries w = w :=
  measureBaseline_settled h

theorem Inv.store (inv : Inv setup entries w) : w.run.store = setup.run.store := by
  have store := congrArg (fun run : Run N => run.store) inv.run
  exact store

/-- A stage's view of its session reads the same builds and keys in every session. -/
theorem Inv.keys {α : Type} (inv : Inv setup entries w) (final : w.isFinal .compile = true)
    (differ : sameBuild w.run.builds = false) (key : Build → α) :
    (if w.run.store.isSome ∧ sameBuild w.run.builds = false then w.run.builds.baseline.map key
      else none) = sharedKeys setup entries key := by
  rw [inv.recorded final, inv.store, sharedKeys]
  simp only [differ, and_true]

theorem Inv.marks (inv : Inv setup entries w) (final : w.isFinal .compile = true)
    (measured : List (Observation N) × (String → Option (QualityEntry N))) :
    judgedMarks setup w.run measured entries.invalidated = sharedMarks setup entries measured := by
  funext key
  simp only [judgedMarks, sharedMarks, markedEntries, inv.recorded final, inv.store]

theorem Law.quality (inv : Inv setup entries w) (law : Law setup entries w)
    (final : w.isFinal .compile = true) (differ : sameBuild w.run.builds = false)
    (kept : Kept .quality w w')
    (measures : Measures setup w.run w
      ((measureBaseline setup w.run.builds.baseline (storeKeys setup w.run)).exec w) w') :
    Law setup entries w' := by
  have half : ((measureBaseline setup w.run.builds.baseline (storeKeys setup w.run)).exec w) =
      (measureBaseline setup (sharedBuild setup entries)
        (sharedKeys setup entries setup.qualityKey)).exec w := by
    rw [inv.recorded final]
    exact congrArg (fun keys => (measureBaseline setup _ keys).exec w)
      (inv.keys final differ setup.qualityKey)
  rw [half] at measures
  -- a half that gets through settles its rows, and settled rows stay as they are
  have settles : ((measureBaseline setup (sharedBuild setup entries)
      (sharedKeys setup entries setup.qualityKey)).exec w).1 = .ok () → Settled setup w' :=
    fun got => ((measureBaseline_settles w trivial).1 () got).congr measures.measured
  have same : Settled setup w → w'.measured = w.measured := by
    intro h
    rw [measures.measured, measureBaseline_settled h]
  have stays : Settled setup w → Settled setup w' := fun h => h.congr (same h)
  refine ⟨?_, ?_, ?_, ?_, ?_, ?_, ?_⟩
  · obtain ⟨m, hm⟩ := law.measured
    rcases law.valid with hvalid | hsettled
    · refine ⟨m + 1, ?_⟩
      rw [measures.measured, Function.iterate_succ_apply']
      have view : w.measuring =
          ((measureAgain setup entries)^[m] (Site.start setup entries)).measuring := by
        have around : ((measureAgain setup entries)^[m] (Site.start setup entries)).around = _ :=
          iterate_around m _
        have marks := (Site.of_around around).2.1
        rw [Site.measuring, Site.measuring, hm, hvalid, marks]
        rfl
      exact congrArg Prod.fst (measureBaseline_confined _ _ view).2
    · exact ⟨m, (same hsettled).trans hm⟩
  · rcases measures.marks with ⟨hmarks, -⟩ | ⟨got, -⟩
    · rw [hmarks]
      exact law.valid.imp_right stays
    · exact .inr (settles got)
  · rintro (h | h)
    · rcases measures.through h with h | got
      · exact stays (law.settled (.inl h))
      · exact settles got
    · rcases measures.marks with ⟨-, haudited, -⟩ | ⟨got, -⟩
      · exact stays (law.settled (.inr (haudited ▸ h)))
      · exact settles got
  · intro h
    rcases measures.marks with ⟨hmarks, haudited, -⟩ | ⟨-, haudited, -⟩
    · rw [hmarks]
      exact law.unaudited (haudited ▸ h)
    · rw [h] at haudited
      cases haudited
  · intro haudited hagreed
    rcases measures.marks with ⟨hmarks, haudited', hagreed'⟩ | ⟨-, -, hjudged⟩
    · rw [haudited'] at haudited
      rw [hmarks, same (law.settled (.inr haudited))]
      exact law.audited haudited (hagreed' ▸ hagreed)
    · obtain ⟨hagreed, hjudged⟩ := hjudged hagreed
      rw [hjudged, ← measures.measured]
      cases hbefore : w.audited with
      | false => rw [law.unaudited hbefore, inv.marks final]
      | true =>
          rw [law.audited hbefore hagreed, same (law.settled (.inr hbefore)), ← inv.marks final,
            judgedMarks_judgedMarks]
  · rw [kept.correctness (by decide), kept.through .correctness (by decide)]
    exact law.correctness
  · rw [kept.unit_tests (by decide), kept.through .unit_tests (by decide)]
    exact law.unit_tests

/-- The fields that the invariant reads, but for the stages' status. -/
structure SameStore (w w' : Site N) : Prop where
  run : w'.run = w.run
  observations : w'.observations = w.observations
  store : w'.store = w.store
  through : w'.through = w.through
  audited : w'.audited = w.audited
  agreed : w'.agreed = w.agreed

theorem Law.congr (law : Law setup entries w) (same : SameStore w w') : Law setup entries w' := by
  obtain ⟨-, hobservations, hstore, hthrough, haudited, hagreed⟩ := same
  have measured : w'.measured = w.measured := by
    rw [Site.measured, hobservations, hstore]
    rfl
  refine ⟨?_, ?_, ?_, ?_, ?_, ?_, ?_⟩
  · rw [measured]
    exact law.measured
  · rw [hstore]
    exact law.valid.imp_right fun h => h.congr measured
  · rw [hthrough, haudited]
    exact fun h => (law.settled h).congr measured
  · rw [haudited, hstore]
    exact law.unaudited
  · rw [haudited, hagreed, hstore, measured]
    exact law.audited
  · rw [hstore, hthrough]
    exact law.correctness
  · rw [hstore, hthrough]
    exact law.unit_tests

theorem Inv.congr (inv : Inv setup entries w) (same : SameStore w w')
    (status : w'.isFinal .compile = w.isFinal .compile)
    (fresh : w.isFinal .compile = false → Fresh entries w') : Inv setup entries w' where
  run := same.run ▸ inv.run
  ready := same.store ▸ inv.ready
  built := by
    rw [same.through, same.store]
    exact inv.built
  recorded := by
    rw [status, same.run]
    exact inv.recorded
  untouched := status ▸ fresh
  law := by
    rw [same.run]
    exact fun differ => (inv.law differ).congr same

theorem Fresh.congr (fresh : Fresh entries w) (same : SameStore w w')
    (status : ∀ s, s ≠ .compile → w'.status s = w.status s) : Fresh entries w' := by
  obtain ⟨-, hobservations, hstore, hthrough, haudited, -⟩ := same
  refine ⟨fun s hs => (status s hs).trans (fresh.status s hs), ?_, ?_, ?_, ?_, ?_, ?_, ?_⟩
  · rw [hthrough]
    exact fresh.through
  · rw [hobservations]
    exact fresh.observations
  · rw [hstore]
    exact fresh.quality
  · rw [hstore]
    exact fresh.invalidated
  · rw [hstore]
    exact fresh.correctness
  · rw [hstore]
    exact fresh.unit_tests
  · rw [haudited]
    exact fresh.audited

theorem Fresh.kept (fresh : Fresh entries w) (kept : Kept .compile w w') : Fresh entries w' := by
  obtain ⟨hobservations, hquality⟩ := kept.measured (by decide)
  obtain ⟨hinvalidated, haudited, -⟩ := kept.marks (by decide)
  exact ⟨fun s hs => kept.status ▸ fresh.status s hs,
    fun s hs => (kept.through s hs).trans (fresh.through s hs),
    hobservations.trans fresh.observations, hquality.trans fresh.quality,
    hinvalidated.trans fresh.invalidated, (kept.correctness (by decide)).trans fresh.correctness,
    (kept.unit_tests (by decide)).trans fresh.unit_tests, haudited.trans fresh.audited⟩

theorem resumed_same (s : Stage) (w : Site N) : SameStore w (w.resumed s) := by
  unfold Site.resumed
  split <;> exact ⟨rfl, rfl, rfl, rfl, rfl, rfl⟩

theorem resumed_status (s : Stage) (w : Site N) : (w.resumed s).status = w.status := by
  unfold Site.resumed
  split <;> rfl

theorem finish_same (s : Stage) (answer : Except Exn (Option (GateState × String)))
    (w : Site N) : SameStore w (finish s (answer, w)) := by
  cases answer <;> exact ⟨rfl, rfl, rfl, rfl, rfl, rfl⟩

theorem finish_status {s t : Stage} (answer : Except Exn (Option (GateState × String)))
    (w : Site N) (h : t ≠ s) : (finish s (answer, w)).status t = w.status t := by
  cases answer <;> exact Function.update_of_ne h _ _

theorem compileBody_outside {evolved : Behaviour N} :
    Ignores (Site.outside .compile) (compileBody setup evolved) := by
  intro w
  have built : Ensures (compileBody setup evolved) (· = w) (fun _ => Built setup w)
      (Built setup w) := compileBody_built.mono (fun _ h => h) (fun _ _ h => h.1) fun _ h => h
  exact (built.final rfl).outside

theorem Law.measured_unique (law : Law setup entries w) (law' : Law setup entries w')
    (through : w.through .quality = true) (through' : w'.through .quality = true) :
    w.measured = w'.measured := by
  obtain ⟨m, hm⟩ := law.measured
  obtain ⟨n, hn⟩ := law'.measured
  have rest : (measureAgain setup entries)^[m] (Site.start setup entries) =
      (measureAgain setup entries)^[n] (Site.start setup entries) :=
    iterate_rest (measureAgain_settled ((law.settled (.inl through)).congr hm.symm))
      (measureAgain_settled ((law'.settled (.inl through')).congr hn.symm))
  rw [hm, hn, rest]

section Sessions
variable [Arith N] {s : Stage} {evolved : Behaviour N}

theorem stageBody_kept (run : Run N) (w : Site N) :
    Kept s w ((stageBody setup s run evolved).exec w).2 := by
  have outside : Ignores (Site.outside s) (stageBody setup s run evolved) := by
    cases s with
    | compile => exact compileBody_outside.bind fun _ => .pure _
    | quality => exact qualityBody_outside.bind fun _ => .pure _
    | correctness => exact correctnessBody_outside.bind fun _ => .pure _
    | unit_tests => exact unitTestsBody_outside.bind fun _ => .pure _
    | cost => exact .pure _
  exact .of_outside (outside w)

/-- Compile ends: its builds are the shared ones, and nothing else has been touched. -/
theorem Inv.compile (inv : Inv setup entries w) (final : w.isFinal .compile = false) :
    Inv setup entries (finish .compile ((stageBody setup .compile w.run evolved).exec w)) := by
  have kept : Kept .compile w ((stageBody setup .compile w.run evolved).exec w).2 :=
    stageBody_kept w.run w
  have ends : Ensures (stageBody setup .compile w.run evolved) (· = w)
      (fun _ w' => Built setup w w' ∧ w'.run.builds.baseline =
        (readyBuild setup w.store.builds).1.toOption) (Built setup w) :=
    compileBody_built.bind fun _ => .pure fun _ h => h
  have fresh := (inv.untouched final).kept kept
  obtain ⟨hok, herror⟩ := ends w rfl
  cases hexec : (stageBody setup .compile w.run evolved).exec w with
  | mk answer w' =>
      rw [hexec] at kept fresh hok herror
      have built : Built setup w w' := by
        cases answer with
        | ok gate => exact (hok gate rfl).1
        | error e => exact herror e rfl
      have fresh' : Fresh entries (finish .compile (answer, w')) :=
        fresh.congr (finish_same _ _ _) fun s hs => finish_status _ _ hs
      have same := finish_same .compile answer w'
      refine ⟨?_, ?_, ?_, ?_, fun _ => fresh', fun _ => fresh'.law⟩
      · rw [same.run]
        have hrun := congrArg (fun run : Run N => { run with builds := w'.run.builds }) kept.run
        exact hrun.trans (congrArg (fun run : Run N => { run with builds := w'.run.builds })
          inv.run)
      · rw [same.store]
        rcases built.builds with h | h
        · rw [h, inv.ready]
        · rw [h, readyBuild_ready, inv.ready]
      · rw [same.through, same.store]
        intro h
        rcases built.through h with h | h
        · rcases built.builds with h' | h'
          · rw [h', inv.built h]
          · rw [h', inv.ready]
        · rw [h, inv.ready]
      · intro hfinal
        rw [same.run]
        cases answer with
        | ok gate => rw [(hok gate rfl).2, inv.ready, sharedBuild]
        | error e =>
            simp [finish, Site.setStatus, Site.isFinal, FINAL] at hfinal

/-- A later stage that runs keeps the builds, and the law. -/
theorem Inv.later (inv : Inv setup entries w) (final : w.isFinal .compile = true)
    (later : s ≠ .compile) :
    Inv setup entries (finish s ((stageBody setup s w.run evolved).exec w)) := by
  have kept : Kept s w ((stageBody setup s w.run evolved).exec w).2 := stageBody_kept w.run w
  have law : sameBuild w.run.builds = false → Law setup entries w →
      Law setup entries ((stageBody setup s w.run evolved).exec w).2 := by
    intro differ law
    cases s with
    | compile => exact absurd rfl later
    | quality =>
        have measures : Ensures (stageBody setup .quality w.run evolved) (· = w) (fun _ => _) _ :=
          qualityBody_measures.bind fun _ => .pure fun _ h => h
        exact law.quality inv final differ kept (measures.final rfl)
    | correctness =>
        have publishes : Ensures (stageBody setup .correctness w.run evolved) (· = w)
            (fun _ => HalfPublished setup w.run w) (HalfPublished setup w.run w) :=
          correctnessBody_publishes.bind fun _ => .pure fun _ h => h
        refine law.kept kept (by decide) (law.correctness.step ?_) ?_
        · rw [← inv.keys final differ setup.correctnessKey]
          exact publishes.final rfl
        · rw [kept.unit_tests (by decide), kept.through .unit_tests (by decide)]
          exact law.unit_tests
    | unit_tests =>
        have publishes : Ensures (stageBody setup .unit_tests w.run evolved) (· = w)
            (fun _ => SuitesPublished setup w.run w) (SuitesPublished setup w.run w) :=
          unitTestsBody_publishes.bind fun _ => .pure fun _ h => h
        refine law.kept kept (by decide) ?_ (law.unit_tests.step ?_)
        · rw [kept.correctness (by decide), kept.through .correctness (by decide)]
          exact law.correctness
        · rw [← inv.keys final differ setup.unitTestsKey]
          exact publishes.final rfl
    | cost => exact law
  have hrun := (kept.builds later).1
  have hbuilds := (kept.builds later).2
  have hthrough := kept.through .compile (Ne.symm later)
  have hstatus := kept.status
  cases hexec : (stageBody setup s w.run evolved).exec w with
  | mk answer w' =>
      rw [hexec] at law hrun hbuilds hthrough hstatus
      have hfinal : w'.isFinal .compile = w.isFinal .compile := by
        rw [Site.isFinal, hstatus, Site.isFinal]
      have inv' : Inv setup entries w' := by
        refine ⟨hrun ▸ inv.run, hbuilds ▸ inv.ready, ?_, ?_, ?_, ?_⟩
        · rw [hthrough, hbuilds]
          exact inv.built
        · rw [hfinal, hrun]
          exact inv.recorded
        · rw [hfinal, final]
          exact fun h => by cases h
        · rw [hrun]
          exact fun differ => law differ (inv.law differ)
      refine inv'.congr (finish_same s answer w') ?_ fun h => ?_
      · rw [Site.isFinal, finish_status answer w' (Ne.symm later), Site.isFinal]
      · rw [hfinal, final] at h
        cases h

theorem Inv.invoke (inv : Inv setup entries w) (s : Stage) (evolved : Behaviour N) :
    Inv setup entries (invoke setup w s evolved) := by
  unfold Store.invoke
  split
  · exact inv
  case isFalse unfinished =>
    split
    · exact inv
    case isFalse started =>
      -- a later stage starts after compile has ended
      have final : s ≠ .compile → w.isFinal .compile = true := by
        intro later
        by_contra h
        have fresh := inv.untouched (Bool.eq_false_iff.mpr h)
        have hbefore : (PREREQUISITES s).all w.isFinal = false := by
          cases s with
          | compile => exact absurd rfl later
          | quality =>
              simp only [PREREQUISITES, List.all_cons, List.all_nil, Bool.and_true]
              exact Bool.eq_false_iff.mpr h
          | correctness | unit_tests =>
              simp [PREREQUISITES, Site.isFinal, fresh.status .quality (by decide)]
          | cost => simp [PREREQUISITES, Site.isFinal, fresh.status .correctness (by decide)]
        simp [startable, hbefore] at started
      split
      case isTrue skipped =>
        have later : s ≠ .compile := by
          rintro rfl
          simp [Site.skipped, GATED] at skipped
        refine inv.congr ⟨rfl, rfl, rfl, rfl, rfl, rfl⟩ ?_ fun h => ?_
        · simp [Site.isFinal, Site.setStatus, Ne.symm later]
        · rw [final later] at h
          cases h
      case isFalse =>
        have resumed : Inv setup entries (w.resumed s) := by
          have same := resumed_same s w
          have status := resumed_status s w
          refine inv.congr same ?_ fun h => (inv.untouched h).congr same fun t _ => ?_
          · rw [Site.isFinal, status, Site.isFinal]
          · rw [status]
        have hfinal : (w.resumed s).isFinal .compile = w.isFinal .compile := by
          rw [Site.isFinal, resumed_status, Site.isFinal]
        rw [← (resumed_same s w).run]
        by_cases hs : s = .compile
        · subst hs
          exact resumed.compile (hfinal.trans (Bool.eq_false_iff.mpr unfinished))
        · exact resumed.later (hfinal.trans (final hs)) hs

theorem session_inv (invocations : List (Stage × Behaviour N)) :
    Inv setup entries (session setup entries invocations) := by
  unfold session
  have start : Inv setup entries (Site.start setup entries) :=
    ⟨rfl, rfl, fun h => (by cases h), fun h => (by cases h),
      fun _ => ⟨fun _ _ => rfl, fun _ _ => rfl, rfl, rfl, rfl, rfl, rfl, rfl⟩,
      fun _ => Fresh.law ⟨fun _ _ => rfl, fun _ _ => rfl, rfl, rfl, rfl, rfl, rfl, rfl⟩⟩
  generalize Site.start setup entries = w at start
  induction invocations generalizing w with
  | nil => exact start
  | cons i rest ih => exact ih _ (start.invoke i.1 i.2)

/-- The entries of the stages that two sessions both got through. -/
structure SameEntries (w w' : Site N) : Prop where
  builds : w.through .compile = true → w'.through .compile = true →
    w.store.builds = w'.store.builds
  quality : w.through .quality = true → w'.through .quality = true →
    w.store.quality = w'.store.quality
  /-- The marks, unless an audit that ended was failed by evolved rows: one of those sampled
  was not reproduced, or there was none to sample from. -/
  invalidated : w.through .quality = true → w'.through .quality = true →
    w.audited = w'.audited → w.agreed = true → w'.agreed = true →
      w.store.invalidated = w'.store.invalidated
  correctness : w.through .correctness = true → w'.through .correctness = true →
    w.store.correctness = w'.store.correctness
  unit_tests : w.through .unit_tests = true → w'.through .unit_tests = true →
    w.store.unit_tests = w'.store.unit_tests

end Sessions

section Sample
attribute [local instance] integerArith

def sampleQualityCase : Case Int :=
  { sampleCase with case_id := "routing/qft", role := .scored, panel := none, seeds_per_block := 1 }

def sampleWorkerRow (seed : ℕ) : WorkerRow Int where
  seed := seed
  status := "ok"
  not_attempted := false
  error := none
  metric _ := some 1
  output_hash := some "output"
  checks := []

/-- A tree that builds under an id, and whose recompiles reproduce its rows or not. -/
def sampleTree (id : String) (reproduces : Bool) : Behaviour Int where
  snapshot := .ok ()
  build := .ok ⟨id, none⟩
  verify _ := .ok ()
  roundtrip := .ok ()
  hosted := .ok ()
  compile _ batch := .ok ⟨batch.map sampleWorkerRow, by simp [sampleWorkerRow, Function.comp_def]⟩
  reproduces _ _ := .ok reproduces
  suite := .ok ⟨true, [], []⟩
  clifford := .ok []
  python := .ok ⟨true, [], []⟩
  rust := .ok ⟨true, [], []⟩
  own := .ok ⟨true, [], []⟩

def sampleFailure (seed : ℕ) : WorkerRow Int where
  seed := seed
  status := "error"
  not_attempted := false
  error := some "TranspilerError"
  metric _ := none
  output_hash := none
  checks := []

/-- A tree that builds under an id, and on which every compile fails. -/
def brokenTree (id : String) : Behaviour Int :=
  { sampleTree id true with
    compile := fun _ batch =>
      .ok ⟨batch.map sampleFailure, by simp [sampleFailure, Function.comp_def]⟩ }

noncomputable def sampleSetup : Setup Int StageState where
  platform := Platform.unary sampleSetting
  run := { sampleRun with profile := ⟨⟨false, [sampleQualityCase]⟩, samplePolicy, by decide⟩ }
  buildKey := "build"
  qualityKey build case := build.id ++ "/" ++ case.case_id
  correctnessKey build := build.id
  unitTestsKey build := build.id
  draw _ population count := (List.range population).take count
  verifier := .ok ()
  baseline := sampleTree "a" true

noncomputable def sampleSession (tree : Behaviour Int) : Site Int :=
  session sampleSetup .empty [(.compile, tree), (.quality, tree)]

end Sample

end TranspileBench.Store
