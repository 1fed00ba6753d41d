import TranspileBench.Coordinator.QualityRun
import TranspileBench.Coordinator.Sessions
import Mathlib

/-!
The invocations of a session played back: what `compile` and the stages leave behind when
nothing fails and nobody else is around.
-/
namespace TranspileBench.Coordinator
open Evaluator

variable {N H α : Type}

section Files
variable {platform : Platform N H} {f : StageFiles N} {rows : List (Observation N)}

theorem exec_putEvidence (row : Record N) :
    Exec (putEvidence row) f (some (.ok ())) { f with evidence := putRecord f.evidence row } :=
  Exec.bind (a := ()) (.fallible rfl) (.fallible rfl)

theorem exec_putEvidences (records : List (Record N)) :
    Exec (Prog.each putEvidence records) f (some (.ok ()))
      { f with evidence := records.foldl putRecord f.evidence } := by
  induction records generalizing f with
  | nil => exact .ret () f
  | cons row rest ih => exact (exec_putEvidence row).bind ih

/-- What is no new record stays. -/
theorem mem_foldl_putRecord {evidence records : List (Record N)} {r : Record N}
    (hother : ∀ x ∈ records, x.id ≠ r.id) : r ∈ records.foldl putRecord evidence ↔
      r ∈ evidence := by
  induction records generalizing evidence with
  | nil => rfl
  | cons x rest ih =>
      rw [List.foldl_cons, ih fun y hy => hother y (List.mem_cons_of_mem _ hy), mem_putRecord]
      have hx := hother x (List.mem_cons_self ..)
      constructor
      · rintro (⟨hr, -⟩ | rfl)
        · exact hr
        · exact absurd rfl hx
      · exact fun hr => .inl ⟨hr, hx.symm⟩

theorem exec_appendObservation (h : RecordLog.Holds platform.codec rows f.observations)
    (row : Observation N) :
    Exec (appendObservation platform row) f (some (.ok ()))
      { f with observations := RecordLog.frame platform.codec (rows ++ [row]) } := by
  have bytes : ∀ (line file : List UInt8), Exec (Prog.each (fun byte =>
      Prog.fallible crash fun file (_ : Unit) file' => file' = file ++ [byte]) line) file
      (some (.ok ())) (file ++ line) := by
    intro line
    induction line with
    | nil =>
        intro file
        rw [List.append_nil]
        exact .ret () file
    | cons byte rest ih =>
        intro file
        have hrest := ih (file ++ [byte])
        rw [List.append_assoc] at hrest
        exact Exec.bind (a := ()) (.fallible rfl) hrest
  have line := bytes (platform.codec.encode row ++ [RecordLog.newline])
    (RecordLog.frame platform.codec rows)
  refine Exec.zoom observationsLens ?_ rfl
  rw [RecordLog.frame_append, show RecordLog.frame platform.codec [row] =
    platform.codec.encode row ++ [RecordLog.newline] by simp]
  exact Exec.bind (a := ()) (.fallible h.dropTail.symm) (line.bind (.fallible rfl))

def commitEvidence (row : Observation N) (evidence : List (Record N)) : List (Record N) :=
  if row.status ≠ "ok" then putRecord evidence (failureRecord row) else evidence

theorem exec_recordFailure (row : Observation N) :
    Exec (recordFailure row) f (some (.ok ()))
      { f with evidence := commitEvidence row f.evidence } := by
  unfold recordFailure commitEvidence
  split_ifs
  · exact exec_putEvidence _
  · exact .ret () f

theorem exec_commitRow (h : RecordLog.Holds platform.codec rows f.observations)
    (row : Observation N) :
    Exec (commitRow platform false row) f (some (.ok ()))
      { f with evidence := commitEvidence row f.evidence
               observations := RecordLog.frame platform.codec (rows ++ [row]) } := by
  refine (exec_recordFailure row).bind ?_
  refine (exec_appendObservation (f := { f with evidence := commitEvidence row f.evidence })
    h row).bind ?_
  rw [if_neg (by simp)]
  exact .ret () _

/-- The evidence once all of them are. -/
def commitAll (rows : List (Observation N)) (evidence : List (Record N)) : List (Record N) :=
  rows.foldl (fun evidence row => commitEvidence row evidence) evidence

theorem exec_commitRows (new : List (Observation N))
    (h : f.observations = RecordLog.frame platform.codec rows) :
    Exec (Prog.each (commitRow platform false) new) f (some (.ok ()))
      { f with evidence := commitAll new f.evidence
               observations := RecordLog.frame platform.codec (rows ++ new) } := by
  induction new generalizing f rows with
  | nil =>
      rw [List.append_nil, ← h]
      exact .ret () f
  | cons row rest ih =>
      have others := ih (f := { f with
        evidence := commitEvidence row f.evidence
        observations := RecordLog.frame platform.codec (rows ++ [row]) }) rfl
      rw [List.append_assoc] at others
      exact (exec_commitRow (h ▸ .of_frame rows) row).bind others

theorem exec_readObservations (h : RecordLog.Holds platform.codec rows f.observations) :
    Exec (readObservations platform) f (some (.ok rows)) f := by
  refine (Exec.read (fun f : StageFiles N => f.observations)).bind (exec_ofExcept ?_)
  rw [readRows, h.readRecords]

/-- The records that follow the rows. -/
def closingRecords (manifest : Manifest N) (rows : List (Observation N)) (reproduced : Bool) :
    List (Record N) :=
  { id := "audit/determinism", kind := .completeness,
    result := if reproduced && [Revision.baseline, .evolved].all fun revision =>
        rows.any fun r => r.revision == revision && r.output_hash.isSome && r.seed_block == "B0"
      then .passed else .unresolved } :: aggregateChecks manifest rows

theorem closingRecords_aggregate {manifest : Manifest N} {reproduced : Bool} {r : Record N}
    (h : r ∈ closingRecords manifest rows reproduced) : Aggregate manifest r := by
  cases List.mem_cons.mp h with
  | inl haudit =>
      rw [haudit]
      exact audit_aggregate manifest _
  | inr hr => exact aggregateChecks_aggregate hr

theorem exec_measureQuality {run : Run N} {g : StageFiles N} (reproduced : Bool)
    (measured : Exec (quality platform run) f (some (.ok rows)) g) :
    Exec (measureQuality platform run) f (some (.ok rows))
      { g with evidence :=
          (closingRecords run.profile.manifest rows reproduced).foldl putRecord g.evidence } := by
  refine measured.bind ?_
  refine Exec.bind (a := ()) ((Exec.request (b := reproduced) trivial).bind (exec_putEvidence _)) ?_
  exact (exec_putEvidences (aggregateChecks run.profile.manifest rows)).bind (.ret rows _)

/-! ## One case -/

/-- A measurement of one case in one batch: the builds, and what the workers report of each. -/
structure Measurement (run : Run N) where
  case : Case N
  baseline : Build
  evolved : Build
  report : Revision → List (WorkerRow N)
  cases : qualityCases run.profile.manifest = [case]
  builds : run.builds = ⟨some baseline, some evolved⟩
  batched : batches run.profile.policy.measurement_protocol.quality_batch_size
    (List.range case.seeds_per_block).length (List.range case.seeds_per_block)
      = [List.range case.seeds_per_block]
  sized : run.profile.policy.measurement_protocol.quality_batch_size ≠ 0
  reported : ∀ revision, Reported (List.range case.seeds_per_block) (report revision)

section Measurement
variable {run : Run N} (m : Measurement run)

def Measurement.task (revision : Revision) : Task N :=
  ⟨revision, m.case, List.range m.case.seeds_per_block, false⟩

def Measurement.build : Revision → Build
  | .baseline => m.baseline
  | .evolved => m.evolved

def Measurement.own (platform : Platform N H) (revision : Revision) : List (Observation N) :=
  (m.report revision).map (observe platform (m.build revision).id revision m.case)

def Measurement.observations (platform : Platform N H) : List (Observation N) :=
  m.own platform .baseline ++ m.own platform .evolved

/-- The case is planned in one batch: its store entries are not valid, or not asked for. -/
theorem Measurement.exec_planCase (tasks : List (Task N)) (revision : Revision) :
    Exec (planCase platform run [] tasks (revision, m.case)) f
      (some (.ok (tasks ++ [m.task revision]))) f := by
  have added : Exec (addTasks run.profile.policy.measurement_protocol.quality_batch_size tasks
      revision m.case false (List.range m.case.seeds_per_block)) f
      (some (.ok (tasks ++ [m.task revision]))) f := by
    rw [addTasks, if_neg m.sized, m.batched]
    exact .ret _ f
  have seeds : (List.range m.case.seeds_per_block).filter (fun seed =>
      !([] : List (String × Revision × Nat × String)).contains
        (m.case.case_id, revision, seed, "B0")) = List.range m.case.seeds_per_block :=
    List.filter_eq_self.mpr fun _ _ => rfl
  refine Exec.bind (a := ()) (.request trivial) ?_
  dsimp only
  rw [seeds]
  split_ifs
  · exact Exec.bind (a := "") (.request trivial)
      (Exec.bind (a := false) (.request trivial) added)
  · exact added

theorem Measurement.exec_runTask (h : f.observations = RecordLog.frame platform.codec rows)
    (revision : Revision) :
    Exec (runTask platform run (m.task revision)) f (some (.ok ()))
      { f with evidence := commitAll (m.own platform revision) f.evidence
               observations := RecordLog.frame platform.codec
                 (rows ++ m.own platform revision) } := by
  have batch : Exec (qualityBatch platform run (m.task revision)) f
      (some (.ok (m.own platform revision))) f := by
    have found : run.builds.get revision = some (m.build revision) := by
      rw [m.builds]
      cases revision <;> rfl
    have reported : Exec (Prog.request crash fun rows : List (WorkerRow N) =>
        Reported (List.range m.case.seeds_per_block) rows) f
        (some (.ok (m.report revision))) f :=
      .request (m.reported revision)
    unfold qualityBatch
    rw [show (m.task revision).revision = revision from rfl, found]
    exact reported.bind (.ret _ f)
  exact batch.bind (exec_commitRows _ h)

theorem Measurement.exec_quality (hempty : f.observations = []) :
    Exec (quality platform run) f (some (.ok (m.observations platform)))
      { f with evidence := commitAll (m.observations platform) f.evidence
               observations := RecordLog.frame platform.codec (m.observations platform) } := by
  have pairs : ([Revision.baseline, .evolved].flatMap fun revision =>
      (qualityCases run.profile.manifest).map fun case => (revision, case)) =
      [(Revision.baseline, m.case), (.evolved, m.case)] := by
    rw [m.cases]
    rfl
  have first : Exec (planCase platform run [] [] (.baseline, m.case)) f
      (some (.ok [m.task .baseline])) f := m.exec_planCase [] .baseline
  have second : Exec (planCase platform run [] [m.task .baseline] (.evolved, m.case)) f
      (some (.ok [m.task .baseline, m.task .evolved])) f :=
        m.exec_planCase [m.task .baseline] .evolved
  have planned : Exec (Prog.fold (planCase platform run []) []
      [(Revision.baseline, m.case), (.evolved, m.case)]) f
      (some (.ok [m.task .baseline, m.task .evolved])) f :=
    first.bind (second.bind (.ret _ f))
  unfold quality
  rw [pairs]
  have holds : RecordLog.Holds platform.codec [] f.observations := hempty ▸ .nil
  refine (exec_readObservations holds).bind (planned.bind ?_)
  have unframed : f.observations = RecordLog.frame platform.codec [] := hempty
  refine Exec.bind (a := ()) ((m.exec_runTask unframed .baseline).bind
    ((m.exec_runTask rfl .evolved).bind (.ret () _))) ?_
  have committed : commitAll (m.observations platform) f.evidence
      = commitAll (m.own platform .evolved)
      (commitAll (m.own platform .baseline) f.evidence) := List.foldl_append
  rw [committed, Measurement.observations]
  exact exec_readObservations (.of_frame _)

end Measurement

end Files

section Locks
variable {platform : Platform N H} {p : Nat} {s : Stage} {w w' : World N H}
  {body rest : Prog (World N H) Exn α}

variable (platform) (p) (s) in
/-- What is left of `session_locks` once the locks are held. -/
def held (body : Prog (World N H) Exn α) : Prog (World N H) Exn α := do
  let result ← (do
    let result ← body.attempt
    unlockStage platform p s
    Prog.ofExcept result : Prog (World N H) Exn α).attempt
  unlockShared p
  Prog.ofExcept result

theorem reaches_sessionLocks (hexclusive : w.exclusive = none) (hfree : w.stageLock s = none) :
    Reaches (sessionLocks platform p s body) w (held platform p s body)
      ((w.takeShared p).takeStage p s) := by
  have locked : Reaches (withStage platform p s body) (w.takeShared p)
      (body.attempt >>= fun result => unlockStage platform p s >>= fun _ => Prog.ofExcept result)
      ((w.takeShared p).takeStage p s) :=
    Exec.reaches (a := ()) (.fallible ⟨hfree, rfl⟩) (.refl ..)
  exact Exec.reaches (a := ()) (.fallible ⟨hexclusive, rfl⟩) (locked.attempt.bind _)

theorem reaches_held (run : Reaches body w rest w') :
    Reaches (held platform p s body) w (held platform p s rest) w' :=
  (run.attempt.bind _).attempt.bind _

/-- The locks are let go however the body ends. -/
theorem exec_held {r : Except Exn α} (run : Exec body w (some r) w') :
    Exec (held platform p s body) w (some r) ((w'.dropStage platform p s).dropShared p) := by
  have returned : ∀ w : World N H, Exec (Prog.ofExcept r) w (some r) w := by
    intro w
    cases r with
    | ok a => exact exec_ofExcept rfl
    | error e => exact exec_ofExcept_error rfl
  exact (run.attempt.bind ((Exec.modify _).bind (returned _))).attempt.bind
    ((Exec.modify _).bind (returned _))

theorem exec_held_killed (run : Exec body w none w') : Exec (held platform p s body) w none w' :=
  .stopped (.attempt_stopped (.stopped (.attempt_stopped run)))

end Locks

section Invocation
variable [Arith N] [DecidableEq N] {platform : Platform N H} {p : Nat}
  {s : Stage} {run view : Run N}
  {harness : Harness} {files : Stage → StageFiles N} {w w' : World N H}

/-- A session whose locks are free, with these files. -/
structure World.Resting (w : World N H) (run : Run N) (files : Stage → StageFiles N) : Prop where
  found : w.run = some run
  clean : w.clean = none
  exclusive : w.exclusive = none
  free : ∀ s, w.stageLock s = none
  stages : w.stages = files

omit [Arith N] [DecidableEq N] in
theorem World.Resting.release (h : w.Resting run files) (p : Nat) :
    (w.release platform p).Resting run files where
  found := h.found
  clean := h.clean
  exclusive := by simp [World.release, World.mark, h.exclusive]
  free s := by simp [World.release, World.mark, h.free s]
  stages := h.stages

omit [Arith N] [DecidableEq N] in
/-- With its locks free a session is torn no further by the end of a process. -/
theorem World.Resting.release_torn (h : w.Resting run files) (p : Nat) :
    (w.release platform p).torn ↔ w.torn := by
  simp [World.release, World.mark, h.free .quality]

/-- The files an attempt's body starts with. -/
def StageFiles.rerun (s : Stage) (f : StageFiles N) : StageFiles N :=
  { f.resumed s with state := some { status := .running, attempts := attemptsOf f.state + 1 } }

/-- The files an attempt leaves whose body left `g`. -/
def StageFiles.settled (g : StageFiles N) (attempts : Nat)
    (gate : Option (GateState × String)) : StageFiles N :=
  { g with state := some { status := .complete, attempts, gate } }

/-- The world an attempt's body starts in. -/
def World.begun (w : World N H) (p : Nat) (s : Stage) (view : Run N) (attempts : Nat) :
    World N H :=
  (w.setStage s { (w.stages s).resumed s with state := some { status := .running, attempts } }).mark
    p (.body s view)

/-- The world a body that returned leaves. -/
def World.settled (w : World N H) (p : Nat) (s : Stage) (attempts : Nat)
    (gate : Option (GateState × String)) : World N H :=
  (w.mark p (.inside s)).setStage s ((w.stages s).settled attempts gate)

theorem reaches_body (attempts : Nat) :
    Reaches (runAttempt platform p s view attempts) w ((stageBody platform s view).attempt >>=
        fun result => Prog.modify (·.mark p (.inside s)) >>= fun _ => finish s attempts result)
      (w.begun p s view attempts) := by
  have hbegun : (w.setStage s { w.stages s with
      state := some { status := .running, attempts } }).setStage s
        (({ w.stages s with state := some { status := .running, attempts } } :
          StageFiles N).resumed s) =
      w.setStage s { (w.stages s).resumed s with
        state := some { status := .running, attempts } } := by
    simp [World.setStage, StageFiles.resumed]
  have prepared : Exec (prepare s) w (some (.ok none)) w := by
    unfold prepare
    split_ifs
    · exact .request trivial
    · exact .ret none w
  refine prepared.reaches ?_
  refine Exec.reaches (a := ()) (.fallible rfl) (Exec.reaches (a := ()) (.fallible rfl) ?_)
  rw [World.setStage_same, hbegun]
  exact (Exec.modify _).reaches (.refl ..)

theorem exec_runAttempt {attempts : Nat} {gate : Option (GateState × String)}
    (body : Exec (stageBody platform s view) (w.begun p s view attempts) (some (.ok gate)) w') :
    Exec (runAttempt platform p s view attempts) w (some (.ok EXIT_OK))
      (w'.settled p s attempts gate) := by
  refine (reaches_body attempts).exec (body.attempt.bind ((Exec.modify _).bind ?_))
  refine (Exec.request (b := ()) trivial).bind ?_
  exact Exec.bind (a := ()) (.fallible rfl) ((Exec.request (b := ()) trivial).bind (.ret _ _))

omit [Arith N] [DecidableEq N] in
theorem exec_committedEvidence (s : Stage) (w : World N H) :
    Exec (committedEvidence s) w (some (.ok (w.committed s))) w := by
  refine Exec.bind (a := (w.stages s).state) (.fallible ⟨rfl, rfl⟩) ?_
  cases hcommitted : isCommitted (w.stages s).state with
  | true =>
      rw [if_pos rfl]
      exact Exec.bind (a := (w.stages s).evidence) (.fallible ⟨rfl, rfl⟩) (.ret _ w)
  | false =>
      rw [if_neg (by simp), World.committed, committedRows_eq_nil hcommitted]
      exact .ret [] w

/-- A stage behind compile that this harness may run over these files. -/
structure Startable (platform : Platform N H) (files : Stage → StageFiles N)
    (s : Stage) (run : Run N)
    (harness : Harness) : Prop where
  later : s ≠ .compile
  live : isFinal (files s).state = false
  finals : ∀ t ∈ PREREQUISITES s, isFinal (files t).state = true
  pinned : checkHarness harness (effectiveFor run s) = .ok ()
  stored : (effectiveFor run s).store ≠ none
  baseline : ((effectiveFor run s).builds.baseline.bind (·.store_key)).isSome = true
  ungated : ∀ v : World N H, v.stages = files →
    Exec (gatedReason platform s (effectiveFor run s)) v (some (.ok none)) v

omit [DecidableEq N] in
/-- Nothing refuses the attempt or skips the stage. -/
theorem exec_preconditions (ready : Startable platform files s run harness)
    (stages : w.stages = files)
    (previous : Option StageState) :
    Exec (preconditions platform s (effectiveFor run s) previous) w (some (.ok false)) w := by
  have final : ∀ needed : List Stage, (∀ t ∈ needed, isFinal (files t).state = true) →
      Exec (Prog.each (requireFinal s) needed) w (some (.ok ())) w := by
    intro needed
    induction needed with
    | nil => exact fun _ => .ret () w
    | cons t rest ih =>
        intro hfinal
        obtain ⟨ht, hrest⟩ := List.forall_mem_cons.mp hfinal
        refine Exec.bind (a := ()) ?_ (ih hrest)
        refine Exec.bind (a := (w.stages t).state) (.fallible ⟨rfl, rfl⟩) ?_
        rw [stages, ht, if_pos rfl]
        exact .ret () w
  have store : Exec (requireStore s (effectiveFor run s)) w (some (.ok ())) w := by
    obtain ⟨key, hkey⟩ := Option.isSome_iff_exists.mp ready.baseline
    rw [requireStore, if_neg ready.later, if_neg ready.stored, hkey]
    exact .request trivial
  have host : Exec (checkHost s) w (some (Except.ok (ε := Exn) ())) w := by
    rw [checkHost, if_neg ready.later]
    exact .request trivial
  exact (final _ ready.finals).bind (store.bind ((ready.ungated w stages).bind
    (host.bind (.ret false w))))

omit [Arith N] [DecidableEq N] in
theorem exec_openSession (found : w.run = some run)
    (pinned : checkHarness harness (effectiveFor run s) = .ok ()) :
    Exec (openSession s harness) w (some (.ok (effectiveFor run s))) w := by
  refine Exec.bind (a := some run) (.fallible ⟨found.symm, rfl⟩) ?_
  exact (exec_ofExcept pinned).bind ((Exec.request (b := ()) trivial).bind (.ret _ w))

/-- The stage's files once its attempt has ended. -/
def settleStage (files : Stage → StageFiles N) (s : Stage) (g : StageFiles N)
    (gate : Option (GateState × String)) : Stage → StageFiles N :=
  Function.update files s (g.settled (attemptsOf (files s).state + 1) gate)

/-- The attempt of a stage whose body returns. -/
theorem exec_attempted {gate : Option (GateState × String)} {g : StageFiles N}
    (stages : w.stages = files)
    (body : ∀ v : World N H, v.stages = Function.update files s ((files s).rerun s) →
      Exec (stageBody platform s view) v (some (.ok gate)) (v.setStage s g)) :
    Exec (runAttempt platform p s view (attemptsOf (files s).state + 1)) w (some (.ok EXIT_OK))
      (((w.begun p s view (attemptsOf (files s).state + 1)).setStage s g).settled p s
        (attemptsOf (files s).state + 1) gate) := by
  refine exec_runAttempt (body _ ?_)
  simp [World.begun, World.setStage, World.mark, StageFiles.rerun, stages]

/-- A session in which an invocation holds the locks of `s`, and nobody another stage's. -/
structure World.Entered (w : World N H) (s : Stage) (run : Run N)
    (files : Stage → StageFiles N) : Prop where
  found : w.run = some run
  clean : w.clean = none
  exclusive : w.exclusive = none
  free : ∀ t, t ≠ s → w.stageLock t = none
  stages : w.stages = files

omit [Arith N] [DecidableEq N] in
theorem World.Resting.entered (h : w.Resting run files) (p : Nat) (s : Stage) :
    ((w.takeShared p).takeStage p s).Entered s run files where
  found := h.found
  clean := h.clean
  exclusive := h.exclusive
  free t ht := by simp [World.takeStage, World.takeShared, World.mark, ht, h.free t]
  stages := h.stages

/-- An invocation that has opened its session: what it read decides, not what is there then. -/
theorem reaches_opened (h : w.Resting run files) (later : s ≠ .compile)
    (live : isFinal (files s).state = false)
    (pinned : checkHarness harness (effectiveFor run s) = .ok ()) :
    Reaches (runStage platform p s harness) w
      (held platform p s (execute platform p s (effectiveFor run s) (files s).state))
      ((w.takeShared p).takeStage p s) := by
  let w₀ := (w.takeShared p).takeStage p s
  have stages : w₀.stages = files := h.stages
  have entered : Exec refuseCleaned w₀ (some (.ok ())) w₀ :=
    Exec.bind (a := none) (.fallible ⟨h.clean.symm, rfl⟩) (.ret () w₀)
  have found : Exec (readState s) w₀ (some (.ok (files s).state)) w₀ :=
    .fallible ⟨(congrArg (fun files => (files s).state) stages).symm, rfl⟩
  have opened : Exec (openSession s harness) w₀ (some (.ok (effectiveFor run s))) w₀ :=
    exec_openSession h.found pinned
  have locked : Reaches (do
      refuseCleaned
      let previous ← readState s
      if isFinal previous then pure EXIT_OK
      else do
        let view ← openSession s harness
        execute platform p s view previous) w₀
      (execute platform p s (effectiveFor run s) (files s).state) w₀ := by
    refine entered.reaches (found.reaches ?_)
    rw [live, if_neg (by simp)]
    exact opened.reaches (.refl ..)
  rw [runStage, if_neg later]
  refine Exec.reaches (a := true) (.fallible ⟨(congrArg Option.isSome h.found).symm, rfl⟩) ?_
  exact (reaches_sessionLocks h.exclusive (h.free s)).trans (reaches_held locked)

/-- The rest of an invocation whose body returns. -/
theorem exec_executed {opened : Run N} {gate : Option (GateState × String)} {g : StageFiles N}
    (h : w.Entered s run files) (ready : Startable platform files s opened harness)
    (body : ∀ v : World N H, v.stages = Function.update files s ((files s).rerun s) →
      Exec (stageBody platform s (effectiveFor opened s)) v (some (.ok gate)) (v.setStage s g)) :
    ∃ w', Exec (held platform p s (execute platform p s (effectiveFor opened s) (files s).state)) w
        (some (.ok EXIT_OK)) w'
      ∧ w'.Resting run (settleStage files s g gate)
      ∧ (w'.torn ↔ w.torn ∨ (s = .quality ∧
        Unanswered platform (settleStage files s g gate .quality))) := by
  have attempt : Exec (runAttempt platform p s (effectiveFor opened s)
      (attemptsOf (files s).state + 1)) w (some (.ok EXIT_OK)) _ := exec_attempted h.stages body
  set v := ((w.begun p s (effectiveFor opened s) (attemptsOf (files s).state + 1)).setStage s
    g).settled p s (attemptsOf (files s).state + 1) gate with hv
  have hstages : v.stages = settleStage files s g gate := by
    simp [hv, settleStage, World.settled, World.begun, World.setStage, World.mark, h.stages]
  refine ⟨(v.dropStage platform p s).dropShared p,
    exec_held ((exec_preconditions ready h.stages _).bind attempt),
    ⟨h.found, h.clean, h.exclusive, fun t => ?_, hstages⟩, ?_⟩
  · by_cases hs : t = s
    · simp [World.dropShared, World.dropStage, World.mark, hs]
    · have hfree := h.free t hs
      simpa [World.dropShared, World.dropStage, World.mark, hs, hv, World.settled,
        World.begun, World.setStage] using hfree
  · rw [← hstages]
    rfl

/-- An invocation of a stage whose body returns. -/
theorem exec_stage {gate : Option (GateState × String)} {g : StageFiles N}
    (h : w.Resting run files) (ready : Startable platform files s run harness)
    (body : ∀ v : World N H, v.stages = Function.update files s ((files s).rerun s) →
      Exec (stageBody platform s (effectiveFor run s)) v (some (.ok gate)) (v.setStage s g)) :
    ∃ w', Exec (runStage platform p s harness) w (some (.ok EXIT_OK)) w'
      ∧ w'.Resting run (settleStage files s g gate)
      ∧ (w'.torn ↔ w.torn ∨ (s = .quality ∧
        Unanswered platform (settleStage files s g gate .quality))) := by
  obtain ⟨w', rest, ended⟩ := exec_executed (h.entered p s) ready body
  exact ⟨w', (reaches_opened h ready.later ready.live ready.pinned).exec rest, ended⟩

end Invocation

/-! ## Bodies -/

section Compile
variable [Arith N] [DecidableEq N] {platform : Platform N H} {p : Nat} {w w₁ : World N H}
  {inputs : CompileInputs N}

/-- `run.json` once both builds are made. -/
def Run.built (run : Run N) (paths : List String) (scope : List Scope) (implementation : String)
    (baseline evolved : Build) : Run N :=
  { run with
    implementation := some implementation
    changed_paths := paths
    scope := some scope
    builds := ⟨some baseline, some evolved⟩ }

variable (view : Run N) (paths : List String) (scope : List Scope) (implementation : String)
  (baseline evolved : Build)

omit [Arith N] [DecidableEq N] in
/-- Both builds are made, and what comes next decides the rest. -/
theorem exec_recorded {o : Option (Except Exn (Run N))} {w' : World N H}
    (rest : Exec (do
      saveRun (view.built paths scope implementation baseline evolved)
      raiseBaseline (.ok baseline)
      raiseEvolved (some (.ok evolved))
      Prog.request crash fun _ : Unit => True
      saveRun (view.built paths scope implementation baseline evolved)
      pure (view.built paths scope implementation baseline evolved)) w o w') :
    Exec (build view) w o w' := by
  refine Exec.bind (a := (paths, scope, implementation)) (.request trivial) ?_
  refine Exec.bind (a := none) (.request trivial) (Exec.bind (.ret _ w) ?_)
  exact Exec.bind (a := ⟨.ok baseline, some (.ok evolved)⟩)
    (.request ⟨⟨fun _ h => (nomatch h), fun _ h => (nomatch h)⟩, rfl⟩) rest

omit [Arith N] [DecidableEq N] in
theorem exec_build :
    Exec (build view) w (some (.ok (view.built paths scope implementation baseline evolved)))
      { w with run := some (view.built paths scope implementation baseline evolved) } := by
  refine exec_recorded view paths scope implementation baseline evolved
    (Exec.bind (a := ()) (.fallible rfl) ?_)
  refine Exec.bind (a := ()) (.ret () _) (Exec.bind (a := ()) (.ret () _) ?_)
  exact Exec.bind (a := ()) (.request trivial) (Exec.bind (a := ()) (.fallible rfl) (.ret _ _))

omit [Arith N] [DecidableEq N] in
/-- The builds of an attempt that was killed behind them. -/
theorem exec_build_killed :
    Exec (build view) w none
      { w with run := some (view.built paths scope implementation baseline evolved) } :=
  exec_recorded view paths scope implementation baseline evolved
    (Exec.bind (a := ()) (.fallible rfl) (.stop _ _))

def roundtripRecord : Record N :=
  { id := "harness/roundtrip", kind := .harness, result := .passed }

omit [Arith N] [DecidableEq N] in
theorem exec_compileBody :
    Exec (compileBody view) w (some (.ok ()))
      ({ w with run := some (view.built paths scope implementation baseline evolved) }.setStage
        .compile { w.stages .compile with
          evidence := putRecord (w.stages .compile).evidence roundtripRecord }) := by
  refine (exec_build view paths scope implementation baseline evolved).bind ?_
  refine Exec.bind (a := ()) (.request trivial) ?_
  exact (exec_putEvidence roundtripRecord).zoom (stageLens .compile) rfl

omit [DecidableEq N] in
theorem exec_admitted (previous : Option StageState) :
    Exec (preconditions platform .compile view previous) w (some (.ok false)) w := by
  refine Exec.bind (a := ()) (.ret () w) (Exec.bind (a := ()) (.ret () w) ?_)
  exact Exec.bind (a := none) (.ret none w) (Exec.bind (a := ()) (.ret () w) (.ret false w))

/-- The world that the body of a compile leaves. -/
def World.compiled (w : World N H) (run : Run N) : World N H :=
  { w with run := some run }.setStage .compile { w.stages .compile with
    evidence := putRecord (w.stages .compile).evidence roundtripRecord }

theorem exec_compiled (previous : Option StageState) :
    Exec (execute platform p .compile view previous) w (some (.ok EXIT_OK))
      (((w.begun p .compile view (attemptsOf previous + 1)).compiled
        (view.built paths scope implementation baseline evolved)).settled p .compile
          (attemptsOf previous + 1) none) :=
  (exec_admitted view previous).bind (exec_runAttempt
    ((exec_compileBody view paths scope implementation baseline evolved).bind (.ret none _)))

/-- A compile that is killed once both builds are recorded. -/
theorem exec_compiled_killed (previous : Option StageState) :
    Exec (execute platform p .compile view previous) w none
      { w.begun p .compile view (attemptsOf previous + 1) with
        run := some (view.built paths scope implementation baseline evolved) } := by
  have body := exec_build_killed (w := w.begun p .compile view (attemptsOf previous + 1)) view
    paths scope implementation baseline evolved
  exact (exec_admitted view previous).bind ((reaches_body _).exec
    (.stopped (.attempt_stopped (.stopped (.stopped body)))))

variable {view}

/-- A compile that has created its session, or found it. -/
theorem reaches_created (clean : w.clean = none) (exclusive : w.exclusive = none)
    (free : w.stageLock .compile = none) (live : isFinal (w.stages .compile).state = false)
    (asked : w.run.all (fun run => inputs.match_ (effective run)) = true)
    (created : Exec (createSession inputs) ((w.takeShared p).takeStage p .compile)
      (some (.ok view)) w₁) :
    Reaches (runCompile platform p inputs) w
      (held platform p .compile (execute platform p .compile view (w.stages .compile).state))
      w₁ := by
  refine (reaches_sessionLocks exclusive free).trans (reaches_held ?_)
  refine Exec.reaches (a := ()) (Exec.bind (a := none) (.fallible ⟨clean.symm, rfl⟩) (.ret () _)) ?_
  refine Exec.reaches (a := (w.stages .compile).state) (.fallible ⟨rfl, rfl⟩) ?_
  have same : Exec (checkInputs inputs) ((w.takeShared p).takeStage p .compile) (some (.ok ()))
      ((w.takeShared p).takeStage p .compile) := by
    refine Exec.bind (a := w.run) (.fallible ⟨rfl, rfl⟩) ?_
    rw [if_pos asked]
    exact .ret () _
  refine same.reaches ?_
  rw [live, if_neg (by simp)]
  exact created.reaches (.refl ..)

omit [Arith N] [DecidableEq N] in
theorem exec_createSession (missing : w.run = none) :
    Exec (createSession inputs) w (some (.ok inputs.newRun))
      { w with run := some inputs.newRun } := by
  refine Exec.bind (a := none) (.fallible ⟨missing.symm, rfl⟩) ?_
  exact Exec.bind (a := ()) (.request trivial) (Exec.bind (a := ()) (.fallible rfl) (.ret _ _))

omit [Arith N] [DecidableEq N] in
theorem exec_foundSession (found : w.run = some view) (same : inputs.match_ view = true)
    (pinned : checkHarness inputs.harness view = .ok ()) :
    Exec (createSession inputs) w (some (.ok view)) w := by
  refine Exec.bind (a := some view) (.fallible ⟨found.symm, rfl⟩) ?_
  dsimp only
  rw [if_pos same]
  exact (exec_ofExcept pinned).bind (Exec.bind (a := ()) (.request trivial) (.ret _ w))

variable (inputs)

/-- `run.json` of a session for these inputs that has compiled. -/
def CompileInputs.compiled : Run N :=
  inputs.newRun.built paths scope inputs.harness.implementation baseline evolved

/-- The files of a session that has compiled. -/
def compiledFiles : Stage → StageFiles N
  | .compile => { state := some { status := .complete, attempts := 1 }
                  evidence := [roundtripRecord] }
  | _ => {}

variable (platform) (p) in
theorem exec_runCompile :
    ∃ w' : World N H, Exec (runCompile platform p inputs) World.empty (some (.ok EXIT_OK)) w'
      ∧ w'.Resting (inputs.compiled paths scope baseline evolved) compiledFiles ∧ ¬ w'.torn := by
  have created : Reaches (runCompile platform p inputs) World.empty _ _ :=
    reaches_created rfl rfl rfl rfl rfl (exec_createSession rfl)
  refine ⟨_, created.exec (exec_held (exec_compiled inputs.newRun paths scope
    inputs.harness.implementation baseline evolved (World.empty.stages .compile).state)),
      ⟨rfl, rfl, rfl, fun s => ?_, funext fun s => ?_⟩, ?_⟩
  · cases s <;> rfl
  · cases s <;> rfl
  · rintro (h | ⟨h, -⟩)
    · exact h
    · cases h

omit [Arith N] [DecidableEq N] in
/-- The end of another process takes no lock but its own. -/
theorem World.Entered.release {s : Stage} {files : Stage → StageFiles N}
    (h : w.Entered s view files) (p : Nat) : (w.release platform p).Entered s view files where
  found := h.found
  clean := h.clean
  exclusive := by simp [World.release, World.mark, h.exclusive]
  free t ht := by simp [World.release, World.mark, h.free t ht]
  stages := h.stages

/-- The files once an unfinished compile has been resumed. -/
def resumedFiles (files : Stage → StageFiles N) : Stage → StageFiles N :=
  Function.update files .compile { (files .compile).resumed .compile with
    state := some { status := .complete, attempts := attemptsOf (files .compile).state + 1 }
    evidence := putRecord ((files .compile).resumed .compile).evidence roundtripRecord }

variable (platform) (p) {inputs} in
/-- A compile resumed beside an invocation that holds the locks of another stage. -/
theorem exec_resumed {s : Stage} {files : Stage → StageFiles N} (h : w.Entered s view files)
    (other : s ≠ .compile) (live : isFinal (files .compile).state = false)
    (same : inputs.match_ view = true) (asked : inputs.match_ (effective view) = true)
    (pinned : checkHarness inputs.harness view = .ok ()) :
    ∃ w', Exec (runCompile platform p inputs) w (some (.ok EXIT_OK)) w' ∧
      w'.Entered s (view.built paths scope implementation baseline evolved)
        (resumedFiles files) := by
  have state : (w.stages .compile).state = (files .compile).state := by rw [h.stages]
  have created : Reaches (runCompile platform p inputs) w _ _ :=
    reaches_created h.clean h.exclusive (h.free _ other.symm) (state ▸ live)
      (by simp [h.found, asked]) (exec_foundSession h.found same pinned)
  refine ⟨_, created.exec (exec_held (exec_compiled view paths scope implementation baseline
    evolved _)), ⟨rfl, h.clean, h.exclusive, fun t ht => ?_, funext fun t => ?_⟩⟩
  · by_cases hc : t = .compile
    · simp [World.dropShared, World.dropStage, World.mark, hc]
    · simpa [World.dropShared, World.dropStage, World.mark, hc, World.settled, World.begun,
        World.compiled, World.setStage, World.takeStage, World.takeShared] using h.free t ht
  · by_cases hc : t = .compile
    · simp [World.dropShared, World.dropStage, World.mark, hc, World.settled, World.begun,
        World.compiled, World.setStage, World.takeStage, World.takeShared, StageFiles.settled,
        resumedFiles, h.stages]
    · simp [World.dropShared, World.dropStage, World.mark, hc, World.settled, World.begun,
        World.compiled, World.setStage, World.takeStage, World.takeShared, resumedFiles, h.stages]

end Compile

section Bodies
variable [Arith N] [DecidableEq N] {platform : Platform N H} {view : Run N} {v : World N H}
  {files : Stage → StageFiles N}

/-- The evidence that these files commit. -/
def committedOf (files : Stage → StageFiles N) (s : Stage) : List (Record N) :=
  committedRows s (files s).state (files s).evidence

/-- The quality files once a case is measured over those an attempt starts with. -/
def Measurement.written (m : Measurement view) (platform : Platform N H) (f : StageFiles N) :
    StageFiles N :=
  { f.rerun .quality with
    evidence := (closingRecords view.profile.manifest (m.observations platform) true).foldl
      putRecord (commitAll (m.observations platform) (f.rerun .quality).evidence)
    observations := RecordLog.frame platform.codec (m.observations platform) }

theorem Measurement.exec_body (m : Measurement view) {gate : GateState × String}
    (hempty : (files .quality).observations = [])
    (hgate : qualityGate view (m.observations platform)
      (committedOf files .compile ++ (m.written platform (files .quality)).evidence) = .ok gate)
    (stages : v.stages = Function.update files .quality ((files .quality).rerun .quality)) :
    Exec (stageBody platform .quality view) v (some (.ok (some gate)))
      (v.setStage .quality (m.written platform (files .quality))) := by
  have hstage : v.stages .quality = (files .quality).rerun .quality := by simp [stages]
  have measured : Exec (measureQuality platform view) (v.stages .quality)
      (some (.ok (m.observations platform))) (m.written platform (files .quality)) := by
    rw [hstage]
    have rerun : ((files .quality).rerun .quality).observations = [] := hempty
    exact exec_measureQuality true (m.exec_quality rerun)
  have committed := exec_committedEvidence .compile
    (v.setStage .quality (m.written platform (files .quality)))
  have hcompile : (v.setStage .quality (m.written platform (files .quality))).committed .compile
      = committedOf files .compile := by
    simp [World.committed, committedOf, stages]
  rw [hcompile] at committed
  refine Exec.bind ?_ (.ret (some gate) _)
  refine (measured.zoom (stageLens .quality) rfl).bind (committed.bind ?_)
  refine Exec.bind (a := (m.written platform (files .quality)).evidence) (.fallible ⟨?_, rfl⟩)
    (exec_ofExcept hgate)
  simp only [World.setStage_same]

/-- A baseline half that the store holds. -/
def storedHalf (pre : String) : StoredCorrectness N pre where
  clifford := []
  evidence := [{ id := "baseline/preflight", kind := .correctness, result := .passed,
                 subject := .reference }]
  clifford_baseline _ h := absurd h List.not_mem_nil
  baseline r h := by
    rw [List.mem_singleton.mp h]
    simp [isBaselineCorrectness]
  kind r h := by rw [List.mem_singleton.mp h]

/-- The evidence of the suites behind it: one check is verified, and no Clifford variant run. -/
def suiteEvidence : List (Record N) :=
  [{ id := "baseline/preflight", kind := .correctness, result := .passed, subject := .reference },
    { id := "IA1/C1-C5/evolved", kind := .correctness, result := .passed, subject := .evolved },
    { id := "IA1/C1-C5", kind := .correctness, result := .unresolved },
    { id := "IA1/C7", kind := .correctness, result := .unresolved }]

omit [Arith N] [DecidableEq N] in
theorem exec_correctnessBody {f : StageFiles N} :
    Exec (correctnessBody "IA") f (some (.ok ()))
      { f with clifford := [], evidence := suiteEvidence } := by
  refine Exec.bind (a := ()) (.fallible rfl) (Exec.bind (a := ()) (.fallible rfl) ?_)
  refine Exec.bind (a := some (storedHalf "IA")) (.request trivial) ?_
  have stored : Exec (baselineCorrectness "IA" (some (storedHalf "IA")))
      { f with clifford := [], evidence := [] } (some (.ok ()))
      { f with clifford := [], evidence := (storedHalf "IA").evidence } :=
    Exec.bind (a := ()) (.ret () _) (exec_putEvidences _)
  refine stored.bind ((Exec.read _).bind ?_)
  have behavior : Exec (behaviorChecks "IA" .evolved)
      { f with clifford := [], evidence := (storedHalf "IA").evidence } (some (.ok ()))
      { f with clifford := [], evidence := suiteEvidence.take 3 } := by
    refine Exec.bind (a := [⟨"case", 0, "verified", ""⟩]) (.request trivial) ?_
    refine Exec.bind (a := []) (.request trivial) ?_
    refine Exec.bind (a := ()) (Exec.bind (a := ()) (.ret () _) (.ret () _)) ?_
    refine Exec.bind (a := ()) (.ret () _) ?_
    refine (exec_putEvidence _).bind ((Exec.read _).bind ?_)
    exact exec_putEvidence _
  have clifford : Exec (cliffordChecks "IA" .evolved)
      { f with clifford := [], evidence := suiteEvidence.take 3 } (some (.ok ()))
      { f with clifford := [], evidence := suiteEvidence } := by
    refine Exec.bind (a := []) (.request (by simp)) ?_
    refine Exec.bind (a := ()) (.ret () _) ((Exec.read _).bind ?_)
    exact exec_putEvidence _
  exact behavior.bind clifford

omit [DecidableEq N] in
/-- Cost is due, as the files say. -/
theorem exec_costDue {due : Option CostDue} (hdue : v.costDue platform view = .ok due) :
    Exec (costDue platform view) v (some (.ok due)) v := by
  obtain ⟨rows, hrows, hgraded⟩ := Fallible.bind_eq_ok.mp hdue
  refine Exec.bind (a := (v.stages .quality).observations) (.fallible ⟨rfl, rfl⟩) ?_
  refine (exec_ofExcept hrows).bind ?_
  refine (exec_committedEvidence .compile v).bind ((exec_committedEvidence .quality v).bind ?_)
  exact (exec_committedEvidence .correctness v).bind (exec_ofExcept hgraded)

/-- A cost stage whose panels are all measured. -/
theorem exec_costBody {due : Option CostDue} {mid : CostFiles N}
    (hdue : v.costDue platform view = .ok due)
    (measured : Exec (measureCosts platform.toSetting view) ⟨(v.stages .cost).bundles, []⟩
      (some (.ok ())) mid) :
    Exec (stageBody platform .cost view) v (some (.ok none))
      (v.setStage .cost
        { v.stages .cost with bundles := mid.bundles, evidence := mid.evidence }) := by
  let reset := v.setStage .cost { v.stages .cost with evidence := [] }
  have cleared : Exec (resetEvidence.zoom (stageLens .cost)) v (some (Except.ok (ε := Exn) ()))
      reset := (Exec.fallible rfl).zoom (stageLens .cost) rfl
  have due : Exec (costDue platform view) reset (some (.ok due)) reset := exec_costDue hdue
  have panels := (measured.zoom costFilesLens
    (w := { v.stages .cost with evidence := [] }) rfl).zoom (stageLens .cost) (w := reset)
    (by simp [stageLens, reset])
  have left : (stageLens .cost).set reset
      (costFilesLens.set { v.stages .cost with evidence := [] } mid) = v.setStage .cost
        { v.stages .cost with bundles := mid.bundles, evidence := mid.evidence } := by
    simp [stageLens, costFilesLens, reset, World.setStage]
  rw [left] at panels
  exact Exec.bind (cleared.bind (due.bind (panels.attempt.bind (.ret () _)))) (.ret none _)

end Bodies

/-! ## Sessions -/

section Reached
variable [Arith N] [DecidableEq N] [DecidableEq H] {platform : Platform N H} {s : Stage}
  {run : Run N} {harness : Harness} {files : Stage → StageFiles N} {w : World N H}

variable (platform) in
theorem reachable_compile (inputs : CompileInputs N) (paths : List String) (scope : List Scope)
    (baseline evolved : Build) :
    ∃ w : World N H, (sessionSystem platform).Reachable ⟨w, fun _ => none⟩
      ∧ w.Resting (inputs.compiled paths scope baseline evolved) compiledFiles ∧ ¬ w.torn := by
  obtain ⟨w, compiled, hrest, hwhole⟩ :=
    exec_runCompile platform 0 inputs paths scope baseline evolved
  have start : (sessionSystem platform).Reachable ⟨World.empty, fun _ => none⟩ :=
    .init ⟨rfl, fun _ => rfl⟩
  have reached := System.Reachable.exec _ 0 start rfl ⟨.compile inputs, rfl⟩
    (compiled.bind (.ret () w))
  exact ⟨_, reached, hrest.release 0, fun h => hwhole ((hrest.release_torn 0).mp h)⟩

theorem reachable_stage {gate : Option (GateState × String)} {g : StageFiles N}
    (reached : (sessionSystem platform).Reachable ⟨w, fun _ => none⟩) (h : w.Resting run files)
    (ready : Startable platform files s run harness)
    (body : ∀ v : World N H, v.stages = Function.update files s ((files s).rerun s) →
      Exec (stageBody platform s (effectiveFor run s)) v (some (.ok gate)) (v.setStage s g)) :
    ∃ w' : World N H, (sessionSystem platform).Reachable ⟨w', fun _ => none⟩
      ∧ w'.Resting run (settleStage files s g gate)
      ∧ (w'.torn ↔ w.torn ∨ (s = .quality ∧
        Unanswered platform (settleStage files s g gate .quality))) := by
  obtain ⟨w', invoked, hrest, htorn⟩ := exec_stage (p := 0) h ready body
  have ended := System.Reachable.exec _ 0 reached rfl ⟨.stage s harness, rfl⟩
    (invoked.bind (.ret () w'))
  exact ⟨_, ended, hrest.release 0, (hrest.release_torn 0).trans htorn⟩

end Reached

end TranspileBench.Coordinator
