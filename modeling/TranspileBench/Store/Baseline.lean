import TranspileBench.Store.Stages
import TranspileBench.Coordinator.QualityRun

/-!
The baseline half of every stage: what it reads and writes is the baseline's rows and
entries, and once it has got through, doing it again changes nothing.
-/
namespace TranspileBench.Store
open Evaluator Coordinator Routine

variable {N H : Type}

/-! ## Quality -/

def baselineRows (rows : List (Observation N)) : List (Observation N) :=
  rows.filter fun r => r.revision == .baseline

/-- What the baseline half of quality leaves behind. -/
def Site.measured (w : Site N) : List (Observation N) × (String → Option (QualityEntry N)) :=
  (baselineRows w.observations, w.store.quality)

/-- What that half reads. -/
def Site.measuring (w : Site N) :
    (List (Observation N) × (String → Option (QualityEntry N))) × (String → Bool) :=
  (w.measured, w.store.invalidated)

/-- Everything that planning and committing leaves alone. -/
def Site.around (w : Site N) : Site N :=
  { w with observations := [], evidence := [], store := { w.store with quality := fun _ => none } }

theorem Site.measuring_eq {w w' : Site N} : w.measuring = w'.measuring ↔
    baselineRows w.observations = baselineRows w'.observations ∧
      w.store.quality = w'.store.quality ∧ w.store.invalidated = w'.store.invalidated := by
  simp only [Site.measuring, Site.measured, Prod.mk.injEq, and_assoc]

theorem baselineRows_append (rows : List (Observation N)) (row : Observation N) :
    baselineRows (rows ++ [row]) =
      baselineRows rows ++ if row.revision = .baseline then [row] else [] := by
  cases h : row.revision <;> simp [baselineRows, h]

theorem mem_owedSeeds {rows : List (Observation N)} {revision : Revision} {case : Case N}
    {seed : ℕ} : seed ∈ owedSeeds rows revision case ↔ seed < case.seeds_per_block ∧
      ∀ r ∈ rows, (r.case_id, r.revision, r.seed, r.seed_block) ≠
        (case.case_id, revision, seed, "B0") := by
  simp only [owedSeeds, List.mem_filter, List.mem_range, Bool.not_eq_true', List.contains_eq_mem,
    decide_eq_false_iff_not, List.mem_map, not_exists, not_and, ne_eq]

theorem owedSeeds_baseline (rows : List (Observation N)) :
    owedSeeds rows .baseline = owedSeeds (baselineRows rows) .baseline := by
  funext case
  refine List.filter_congr fun seed _ => ?_
  congr 1
  rw [Bool.eq_iff_iff, List.contains_iff_mem, List.contains_iff_mem, List.mem_map, List.mem_map]
  constructor
  · rintro ⟨r, hr, heq⟩
    refine ⟨r, List.mem_filter.mpr ⟨hr, ?_⟩, heq⟩
    simpa using congrArg (fun key => key.2.1) heq
  · rintro ⟨r, hr, heq⟩
    exact ⟨r, (List.mem_filter.mp hr).1, heq⟩

/-- No baseline seed of a quality case is owed. -/
def Settled (setup : Setup N H) (w : Site N) : Prop :=
  ∀ case ∈ qualityCases setup.run.profile.manifest, owedSeeds w.observations .baseline case = []

variable {setup : Setup N H} {w w' : Site N}

theorem Settled.congr (h : Settled setup w) (heq : w'.measured = w.measured) :
    Settled setup w' := by
  intro case hcase
  have hrows : baselineRows w'.observations = baselineRows w.observations := congrArg Prod.fst heq
  rw [owedSeeds_baseline, hrows, ← owedSeeds_baseline]
  exact h case hcase

section Half
variable (setup : Setup N H) (build : Option Build) (keys : Option (Case N → String))

/-- The baseline half of `quality`. -/
def measureBaseline : Routine (Site N) Exn Unit := do
  let owed ← read fun w => owedSeeds w.observations .baseline
  let tasks ← plan setup keys owed
  each (runBatch setup build .baseline setup.baseline) tasks

end Half

/-! ## Its parts are confined to the baseline's rows and entries -/

section Parts
variable {key : String} {keys : Option (Case N → String)} {case : Case N}

theorem append_confined (row : Observation N) : Confined Site.measuring (append row) := by
  refine .change fun w w' heq => Site.measuring_eq.mpr ?_
  obtain ⟨hrows, hstore⟩ := Site.measuring_eq.mp heq
  refine ⟨?_, hstore⟩
  rw [baselineRows_append, baselineRows_append, hrows]

theorem storeHit_confined (remaining : List ℕ) (seed : ℕ) :
    Confined Site.measuring (storeHit setup key case remaining seed) := by
  refine .bind (.read fun w w' heq => ?_) fun found => ?_
  · rw [(Site.measuring_eq.mp heq).2.1]
  · cases found with
    | none => exact .pure _
    | some stored => exact (append_confined _).bind fun _ => .pure _

theorem addBatches_confined {size : ℕ} {tasks : List (Batch N)} {cache : Option String}
    {seeds : List ℕ} : Confined Site.measuring (addBatches size tasks case cache seeds) := by
  unfold addBatches
  split
  · exact .throw _
  · exact .pure _

theorem planCase_confined (owed : Case N → List ℕ) (tasks : List (Batch N)) (case : Case N) :
    Confined Site.measuring (planCase setup keys owed tasks case) := by
  unfold planCase
  cases keys with
  | none => exact addBatches_confined
  | some key =>
      refine .bind (.read fun w w' heq => ?_) fun invalidated => ?_
      · rw [(Site.measuring_eq.mp heq).2.2]
      · split
        · exact addBatches_confined
        · exact (Confined.fold storeHit_confined _ _).bind fun _ => addBatches_confined

theorem storeRow_confined {seed : ℕ} (stored : StoredRow N seed) :
    Confined Site.measuring (storeRow key stored) := by
  refine .change fun w w' heq => ?_
  obtain ⟨hrows, hquality, hinvalidated⟩ := Site.measuring_eq.mp heq
  rw [hinvalidated, hquality]
  split
  · exact heq
  · exact Site.measuring_eq.mpr ⟨hrows, rfl, hinvalidated⟩

theorem commitRow_confined {id : String} {revision : Revision} {task : Batch N}
    (row : WorkerRow N) : Confined Site.measuring (commitRow setup id revision task row) := by
  unfold commitRow
  dsimp only
  split
  · refine (append_confined _).bind fun _ => ?_
    cases task.cache with
    | none => exact .pure ()
    | some key => exact storeRow_confined _
  · refine .bind (.change fun w w' heq => heq) fun _ => append_confined _

theorem runBatch_confined {build : Option Build} {revision : Revision} {b : Behaviour N}
    (task : Batch N) : Confined Site.measuring (runBatch setup build revision b task) := by
  cases build with
  | none => exact .throw _
  | some build => exact .bind (.ask _) fun report => .each fun row _ => commitRow_confined row

theorem measureBaseline_confined {build : Option Build} :
    Confined Site.measuring (measureBaseline setup build keys) := by
  refine .bind (.read fun w w' heq => ?_) fun owed => ?_
  · rw [owedSeeds_baseline, (Site.measuring_eq.mp heq).1, ← owedSeeds_baseline]
  · exact (Confined.fold (planCase_confined owed) _ _).bind fun tasks =>
      .each fun task _ => runBatch_confined task

/-! ## What is around it stays -/

theorem append_around (row : Observation N) : Ignores Site.around (append row) :=
  .change fun _ => rfl

theorem addBatches_around {size : ℕ} {tasks : List (Batch N)} {cache : Option String}
    {seeds : List ℕ} : Ignores Site.around (addBatches size tasks case cache seeds) := by
  unfold addBatches
  split
  · exact .throw _
  · exact .pure _

theorem storeHit_around (remaining : List ℕ) (seed : ℕ) :
    Ignores Site.around (storeHit setup key case remaining seed) := by
  refine .bind (.read _) fun found => ?_
  cases found with
  | none => exact .pure _
  | some stored => exact (append_around _).bind fun _ => .pure _

theorem planCase_around (owed : Case N → List ℕ) (tasks : List (Batch N)) (case : Case N) :
    Ignores Site.around (planCase setup keys owed tasks case) := by
  unfold planCase
  cases keys with
  | none => exact addBatches_around
  | some key =>
      refine .bind (.read _) fun invalidated => ?_
      split
      · exact addBatches_around
      · exact (Ignores.fold storeHit_around _ _).bind fun _ => addBatches_around

theorem storeRow_around {seed : ℕ} (stored : StoredRow N seed) :
    Ignores Site.around (storeRow key stored) := by
  refine .change fun w => ?_
  split <;> rfl

theorem commitRow_around {id : String} {revision : Revision} {task : Batch N}
    (row : WorkerRow N) : Ignores Site.around (commitRow setup id revision task row) := by
  unfold commitRow
  dsimp only
  split
  · refine (append_around _).bind fun _ => ?_
    cases task.cache with
    | none => exact .pure ()
    | some key => exact storeRow_around _
  · exact .bind (.change fun _ => rfl) fun _ => append_around _

theorem runBatch_around {build : Option Build} {revision : Revision} {b : Behaviour N}
    (task : Batch N) : Ignores Site.around (runBatch setup build revision b task) := by
  cases build with
  | none => exact .throw _
  | some build => exact .bind (.ask _) fun report => .each fun row _ => commitRow_around row

theorem plan_around (owed : Case N → List ℕ) : Ignores Site.around (plan setup keys owed) :=
  .fold (planCase_around owed) _ _

theorem measureBaseline_around {build : Option Build} :
    Ignores Site.around (measureBaseline setup build keys) :=
  .bind (.read _) fun owed => (plan_around owed).bind fun _ =>
    .each fun task _ => runBatch_around task

/-! ## The evolved rows stay out of it -/

theorem commitRow_evolved {id : String} {task : Batch N} (uncached : task.cache = none)
    (row : WorkerRow N) : Ignores Site.measuring (commitRow setup id .evolved task row) := by
  have append_evolved : Ignores Site.measuring
      (append (observe setup.platform id .evolved task.case row)) := by
    refine .change fun w => Site.measuring_eq.mpr ⟨?_, rfl, rfl⟩
    rw [baselineRows_append]
    exact List.append_nil _
  unfold commitRow
  dsimp only
  rw [uncached]
  split
  · exact append_evolved.bind fun _ => .pure ()
  · exact .bind (.change fun _ => rfl) fun _ => append_evolved

theorem runBatch_evolved {build : Option Build} {b : Behaviour N} {task : Batch N}
    (uncached : task.cache = none) :
    Ignores Site.measuring (runBatch setup build .evolved b task) := by
  cases build with
  | none => exact .throw _
  | some build =>
      exact .bind (.ask _) fun report => .each fun row _ => commitRow_evolved uncached row

/-- Planning without entries writes nothing, and fails only on empty batches. -/
theorem plan_uncached (w : Site N) (owed : Case N → List ℕ) :
    Ensures (plan setup none owed) (· = w) (fun tasks s => s = w ∧ ∀ t ∈ tasks, t.cache = none)
      fun s => s = w ∧ setup.run.profile.policy.measurement_protocol.quality_batch_size = 0 := by
  have planned := Ensures.fold (f := planCase setup none owed)
    (E := fun s => s = w ∧ setup.run.profile.policy.measurement_protocol.quality_batch_size = 0)
    (fun _ tasks s => s = w ∧ ∀ t ∈ tasks, t.cache = none) (fun tasks case _ => ?_)
    (qualityCases setup.run.profile.manifest) []
  · exact planned.mono (fun s hs => ⟨hs, fun t ht => (by cases ht)⟩) (fun _ _ h => h) fun _ h => h
  · simp only [planCase, Option.map_none, addBatches]
    split
    case isTrue hzero => exact .throw fun s hs => ⟨hs.1, hzero⟩
    case isFalse =>
      refine .pure fun s hs => ⟨hs.1, fun t ht => ?_⟩
      rcases List.mem_append.mp ht with ht | ht
      · exact hs.2 t ht
      · obtain ⟨batch, -, rfl⟩ := List.mem_map.mp ht
        rfl

/-- Empty batches stop the first case that is planned. -/
theorem plan_empty {owed : Case N → List ℕ}
    (zero : setup.run.profile.policy.measurement_protocol.quality_batch_size = 0) :
    Ensures (plan setup keys owed) (fun _ => True)
      (fun _ _ => qualityCases setup.run.profile.manifest = []) fun _ => True := by
  have stopped : ∀ tasks case seeds cache, Ensures
      (addBatches 0 tasks case cache seeds : Routine (Site N) Exn _) (fun _ => True)
      (fun _ _ => False) fun _ => True := fun _ _ _ _ => .throw fun _ _ => trivial
  unfold plan
  cases qualityCases setup.run.profile.manifest with
  | nil => exact .pure fun _ _ => rfl
  | cons case rest =>
      refine Ensures.bind (R := fun _ _ => False) ?_ fun _ s hs => hs.elim
      unfold planCase
      rw [zero]
      cases keys with
      | none => exact stopped _ _ _ _
      | some key =>
          refine .bind (.read (Q := fun _ _ => True) fun _ _ => trivial) fun invalidated => ?_
          split
          · exact stopped _ _ _ _
          · exact .bind (.trivially _) fun _ => stopped _ _ _ _

end Parts

/-! ## Once it has got through -/

theorem owedSeeds_append {rows : List (Observation N)} {row : Observation N}
    {revision : Revision} {case : Case N} {seed : ℕ}
    (h : seed ∈ owedSeeds (rows ++ [row]) revision case) :
    seed ∈ owedSeeds rows revision case ∧
      (row.case_id, row.revision, row.seed, row.seed_block) ≠
        (case.case_id, revision, seed, "B0") := by
  obtain ⟨hlt, hnone⟩ := mem_owedSeeds.mp h
  exact ⟨mem_owedSeeds.mpr ⟨hlt, fun r hr => hnone r (List.mem_append_left _ hr)⟩,
    hnone row (List.mem_append_right _ List.mem_cons_self)⟩

/-- Every baseline seed that is owed in `w` is one of these. -/
def Owes (setup : Setup N H) (expected : Case N → ℕ → Prop) (w : Site N) : Prop :=
  ∀ case ∈ qualityCases setup.run.profile.manifest,
    ∀ seed ∈ owedSeeds w.observations .baseline case, expected case seed

def InBatch (tasks : List (Batch N)) (case : Case N) (seed : ℕ) : Prop :=
  ∃ task ∈ tasks, task.case = case ∧ seed ∈ task.seeds

section Owes
variable {expected : Case N → ℕ → Prop}

theorem Owes.mono {expected' : Case N → ℕ → Prop} (h : Owes setup expected w)
    (step : ∀ case seed, expected case seed → expected' case seed) : Owes setup expected' w :=
  fun case hcase seed hseed => step case seed (h case hcase seed hseed)

/-- A committed row pays for its seed. -/
theorem append_owes (row : Observation N) :
    Ensures (append row) (Owes setup expected)
      (fun _ => Owes setup fun case seed => expected case seed ∧
        (row.case_id, row.revision, row.seed, row.seed_block) ≠
          (case.case_id, .baseline, seed, "B0")) (fun _ => True) :=
  .change fun _ hs case hcase seed hseed =>
    ⟨hs case hcase seed (owedSeeds_append hseed).1, (owedSeeds_append hseed).2⟩

/-- The seeds of a case go into its batches; what other cases owe stays. -/
theorem addBatches_owes {others : Case N → ℕ → Prop} {size : ℕ} {tasks : List (Batch N)}
    {case : Case N} {cache : Option String} {seeds : List ℕ}
    (due : ∀ c seed, expected c seed →
      (InBatch tasks c seed ∨ others c seed) ∨ (c = case ∧ seed ∈ seeds)) :
    Ensures (addBatches size tasks case cache seeds) (Owes setup expected)
      (fun tasks => Owes setup fun c seed => InBatch tasks c seed ∨ others c seed)
      fun _ => True := by
  unfold addBatches
  split
  case isTrue => exact .throw fun _ _ => trivial
  case isFalse hsize =>
    refine .pure fun s hs => hs.mono fun c seed h => ?_
    rcases due c seed h with (⟨task, htask, heq⟩ | h) | ⟨rfl, hseed⟩
    · exact .inl ⟨task, List.mem_append_left _ htask, heq⟩
    · exact .inr h
    · rw [← batches_flatten (Nat.pos_of_ne_zero hsize) (le_refl seeds.length)] at hseed
      obtain ⟨batch, hbatch, hseed⟩ := List.mem_flatten.mp hseed
      exact .inl ⟨⟨c, batch, cache⟩,
        List.mem_append_right _ (List.mem_map.mpr ⟨batch, hbatch, rfl⟩), rfl, hseed⟩

/-- What a case still owes while its stored rows are taken. -/
theorem storeHit_owes {key : String} {case : Case N} {others : Case N → ℕ → Prop}
    (remaining : List ℕ) (seed : ℕ) (rest : List ℕ) :
    Ensures (storeHit setup key case remaining seed)
      (Owes setup fun c x => others c x ∨ (c = case ∧ (x ∈ seed :: rest ∨ x ∈ remaining)))
      (fun remaining => Owes setup fun c x =>
        others c x ∨ (c = case ∧ (x ∈ rest ∨ x ∈ remaining))) fun _ => True := by
  refine .bind (.read (Q := fun _ => Owes setup fun c x =>
    others c x ∨ (c = case ∧ (x ∈ seed :: rest ∨ x ∈ remaining))) fun s hs => hs) fun found => ?_
  cases found with
  | none =>
      refine .pure fun s hs => hs.mono fun c x h => h.imp_right (And.imp_right ?_)
      simp only [List.mem_cons, List.mem_append, List.not_mem_nil, or_false]
      tauto
  | some stored =>
      refine .bind (append_owes _) fun _ => .pure fun s hs => hs.mono ?_
      rintro c x ⟨h | ⟨rfl, h | h⟩, hne⟩
      · exact .inl h
      · rcases List.mem_cons.mp h with rfl | h
        · refine absurd ?_ hne
          simp only [replayStored, stored.seed_eq, stored.block_eq]
        · exact .inr ⟨rfl, .inl h⟩
      · exact .inr ⟨rfl, .inr h⟩

theorem planCase_owes {keys : Option (Case N → String)} {owed : Case N → List ℕ}
    (tasks : List (Batch N)) (case : Case N) (rest : List (Case N)) :
    Ensures (planCase setup keys owed tasks case)
      (Owes setup fun c seed => InBatch tasks c seed ∨ (c ∈ case :: rest ∧ seed ∈ owed c))
      (fun tasks => Owes setup fun c seed => InBatch tasks c seed ∨ (c ∈ rest ∧ seed ∈ owed c))
      fun _ => True := by
  have due : ∀ c seed, InBatch tasks c seed ∨ (c ∈ case :: rest ∧ seed ∈ owed c) →
      (InBatch tasks c seed ∨ (c ∈ rest ∧ seed ∈ owed c)) ∨ (c = case ∧ seed ∈ owed case) := by
    rintro c seed (h | ⟨hc, hseed⟩)
    · exact .inl (.inl h)
    · rcases List.mem_cons.mp hc with rfl | hc
      · exact .inr ⟨rfl, hseed⟩
      · exact .inl (.inr ⟨hc, hseed⟩)
  unfold planCase
  cases keys with
  | none => exact addBatches_owes due
  | some key =>
      refine .bind (.read (Q := fun _ => Owes setup fun c seed =>
        InBatch tasks c seed ∨ (c ∈ case :: rest ∧ seed ∈ owed c)) fun s hs => hs)
        fun invalidated => ?_
      split
      · exact addBatches_owes due
      · have taken := Ensures.fold (E := fun _ => True) (f := storeHit setup (key case) case)
          (fun seeds remaining => Owes setup fun c x =>
            (InBatch tasks c x ∨ (c ∈ rest ∧ x ∈ owed c)) ∨
              (c = case ∧ (x ∈ seeds ∨ x ∈ remaining)))
          storeHit_owes (owed case) []
        refine .bind (taken.mono (fun s hs => hs.mono fun c seed h => ?_) (fun _ _ h => h)
          fun _ h => h) fun remaining => addBatches_owes fun c seed h => h.imp_right ?_
        · exact (due c seed h).imp_right (And.imp_right .inl)
        · rintro ⟨rfl, h | h⟩
          · cases h
          · exact ⟨rfl, h⟩

theorem commitRow_owes {id : String} {task : Batch N} (row : WorkerRow N) :
    Ensures (commitRow setup id .baseline task row) (Owes setup expected)
      (fun _ => Owes setup fun c seed => expected c seed ∧ ¬ (c = task.case ∧ seed = row.seed))
      fun _ => True := by
  have paid : Ensures (append (observe setup.platform id .baseline task.case row))
      (Owes setup expected)
      (fun _ => Owes setup fun c seed => expected c seed ∧ ¬ (c = task.case ∧ seed = row.seed))
      fun _ => True := by
    refine (append_owes _).mono (fun _ h => h) (fun _ s hs => hs.mono ?_) fun _ h => h
    rintro c seed ⟨h, hne⟩
    refine ⟨h, ?_⟩
    rintro ⟨rfl, rfl⟩
    exact hne rfl
  unfold commitRow
  dsimp only
  split
  · refine paid.bind fun _ => ?_
    cases task.cache with
    | none => exact .pure fun _ hs => hs
    | some key =>
        refine .change fun s hs => ?_
        split
        · exact hs
        · exact hs
  · exact .bind (.change (Q := fun _ => Owes setup expected) fun _ hs => hs) fun _ => paid

theorem runBatch_owes {build : Option Build} (task : Batch N) (rest : List (Batch N)) :
    Ensures (runBatch setup build .baseline setup.baseline task)
      (Owes setup (InBatch (task :: rest))) (fun _ => Owes setup (InBatch rest))
      fun _ => True := by
  cases build with
  | none => exact .throw fun _ _ => trivial
  | some build =>
      refine .bind (.ask (fun s hs _ _ => hs) fun _ _ => trivial) fun report => ?_
      have paid := Ensures.each (E := fun _ => True) (f := commitRow setup build.id .baseline task)
        (fun rows => Owes setup fun c seed =>
          InBatch rest c seed ∨ (c = task.case ∧ seed ∈ rows.map (·.seed)))
        (fun row rows => ?_) report.rows
      · refine paid.mono (fun s hs => hs.mono ?_) (fun _ s hs => hs.mono ?_) fun _ h => h
        · rintro c seed ⟨t, ht, rfl, hseed⟩
          rcases List.mem_cons.mp ht with rfl | ht
          · exact .inr ⟨rfl, report.seeds.mem_iff.mpr hseed⟩
          · exact .inl ⟨t, ht, rfl, hseed⟩
        · rintro c seed (h | ⟨-, h⟩)
          · exact h
          · cases h
      · refine (commitRow_owes row).mono (fun _ h => h) (fun _ s hs => hs.mono ?_) fun _ h => h
        rintro c seed ⟨h | ⟨rfl, h⟩, hne⟩
        · exact .inl h
        · rcases List.mem_cons.mp h with rfl | h
          · exact absurd ⟨rfl, rfl⟩ hne
          · exact .inr ⟨rfl, h⟩

end Owes

section Settled
variable {build : Option Build} {keys : Option (Case N → String)}

/-- A baseline half that gets through leaves nothing owed. -/
theorem measureBaseline_settles : Ensures (measureBaseline setup build keys) (fun _ => True)
    (fun _ => Settled setup) fun _ => True := by
  refine .bind (.read (Q := fun owed s => owed = owedSeeds s.observations .baseline)
    fun _ _ => rfl) fun owed => ?_
  have planned := Ensures.fold (E := fun _ => True) (f := planCase setup keys owed)
    (fun rest tasks => Owes setup fun c seed => InBatch tasks c seed ∨ (c ∈ rest ∧ seed ∈ owed c))
    planCase_owes (qualityCases setup.run.profile.manifest) []
  refine Ensures.bind (R := fun tasks => Owes setup (InBatch tasks)) ?_ fun tasks => ?_
  · refine planned.mono ?_ (fun tasks s hs => hs.mono ?_) fun _ h => h
    · rintro s rfl case hcase seed hseed
      exact .inr ⟨hcase, hseed⟩
    · rintro c seed (h | ⟨h, -⟩)
      · exact h
      · cases h
  · refine (Ensures.each (fun tasks => Owes setup (InBatch tasks)) runBatch_owes tasks).mono
      (fun _ h => h) (fun _ s hs case hcase => ?_) fun _ h => h
    refine List.eq_nil_iff_forall_not_mem.mpr fun seed hseed => ?_
    obtain ⟨task, htask, -⟩ := hs case hcase seed hseed
    cases htask

theorem planCase_paid {owed : Case N → List ℕ} {case : Case N} (paid : owed case = [])
    (tasks : List (Batch N)) :
    Ensures (planCase setup keys owed tasks case) (· = w) (fun tasks' s => s = w ∧ tasks' = tasks)
      (· = w) := by
  have added : ∀ size cache, Ensures (addBatches size tasks case cache []) (· = w)
      (fun tasks' s => s = w ∧ tasks' = tasks) (· = w) := by
    intro size cache
    unfold addBatches
    split
    · exact .throw fun _ h => h
    · exact .pure fun _ h => ⟨h, List.append_nil tasks⟩
  unfold planCase
  rw [paid]
  cases keys with
  | none => exact added _ none
  | some key =>
      refine .bind (.read (Q := fun _ => (· = w)) fun _ h => h) fun invalidated => ?_
      split
      · exact added _ none
      · refine .bind (R := fun remaining s => s = w ∧ remaining = []) (.pure fun _ h => ⟨h, rfl⟩) ?_
        rintro remaining s ⟨hs, rfl⟩
        exact added _ _ s hs

theorem plan_paid {owed : Case N → List ℕ}
    (paid : ∀ case ∈ qualityCases setup.run.profile.manifest, owed case = []) :
    Ensures (plan setup keys owed) (· = w) (fun tasks s => s = w ∧ tasks = []) (· = w) := by
  unfold plan
  generalize qualityCases setup.run.profile.manifest = cases at paid
  induction cases with
  | nil => exact .pure fun _ h => ⟨h, rfl⟩
  | cons case rest ih =>
      refine (planCase_paid (paid case List.mem_cons_self) []).bind fun tasks => .pointwise ?_
      rintro s ⟨rfl, rfl⟩
      exact ih fun c hc => paid c (List.mem_cons_of_mem _ hc)

/-- Once nothing is owed, the half changes nothing. -/
theorem measureBaseline_settled (h : Settled setup w) :
    ((measureBaseline setup build keys).exec w).2 = w := by
  have half : Ensures (measureBaseline setup build keys) (· = w) (fun _ => (· = w)) (· = w) := by
    refine .bind (R := fun owed s => s = w ∧ owed = owedSeeds w.observations .baseline)
      (.read fun s hs => ⟨hs, hs ▸ rfl⟩) fun owed => .pointwise ?_
    rintro s ⟨rfl, rfl⟩
    refine (plan_paid h).bind fun tasks => .pointwise ?_
    rintro s' ⟨rfl, rfl⟩
    exact .pure fun _ h => h
  exact half.final rfl

end Settled

end TranspileBench.Store
