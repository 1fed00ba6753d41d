import TranspileBench.Coordinator.QualityRows
import Mathlib.Data.List.Perm.Basic

/-!
A whole quality measurement. What is owed, the keys of the rows in the file and of
the tasks and cases still to come, is the same list from the first read of the file to
the last, up to order; it is free of duplicates, so every seed is committed once.
-/
namespace TranspileBench.Coordinator
open Evaluator

variable {N H : Type}

def Task.keys (task : Task N) : List (String × Revision × Nat) :=
  task.batch.map fun seed => (task.case.case_id, task.revision, seed)

def missingKeys (saved : List (Observation N)) : Revision × Case N → List (String × Revision × Nat)
  | (revision, case) =>
      ((List.range case.seeds_per_block).filter fun seed =>
        !(saved.map (·.key)).contains (case.case_id, revision, seed)).map
          fun seed => (case.case_id, revision, seed)

/-- The cases to plan, of both revisions. -/
def plannedCases (manifest : Manifest N) : List (Revision × Case N) :=
  [Revision.baseline, .evolved].flatMap fun revision =>
    (qualityCases manifest).map fun case => (revision, case)

theorem batches_flatten {size fuel : Nat} {seeds : List Nat} (hsize : 0 < size)
    (h : seeds.length ≤ fuel) : (batches size fuel seeds).flatten = seeds := by
  induction fuel generalizing seeds with
  | zero =>
      obtain rfl : seeds = [] := List.length_eq_zero_iff.mp (by omega)
      rfl
  | succ fuel ih =>
      rw [batches]
      split_ifs with hnil
      · rw [hnil]; rfl
      · have hpos := List.length_pos_iff.mpr hnil
        have hlen : (seeds.drop size).length ≤ fuel := by rw [List.length_drop]; omega
        rw [List.flatten_cons, ih hlen, List.take_append_drop]

section Keys
variable {profile : Profile N} {saved : List (Observation N)}

theorem mem_missingKeys {entry : Revision × Case N} {key : String × Revision × Nat} :
    key ∈ missingKeys saved entry ↔ key.1 = entry.2.case_id ∧ key.2.1 = entry.1 ∧
      key.2.2 < entry.2.seeds_per_block ∧ key ∉ saved.map (·.key) := by
  obtain ⟨revision, case⟩ := entry
  obtain ⟨id, r, seed⟩ := key
  simp only [missingKeys, List.mem_map, List.mem_filter, List.mem_range, Prod.mk.injEq,
    Bool.not_eq_true', List.contains_eq_mem, decide_eq_false_iff_not]
  constructor
  · rintro ⟨n, ⟨hlt, hnot⟩, rfl, rfl, rfl⟩
    exact ⟨rfl, rfl, hlt, hnot⟩
  · rintro ⟨rfl, rfl, hlt, hnot⟩
    exact ⟨seed, ⟨hlt, hnot⟩, rfl, rfl, rfl⟩

theorem mem_plannedCases {entry : Revision × Case N} :
    entry ∈ plannedCases profile.manifest ↔ entry.2 ∈ qualityCases profile.manifest := by
  obtain ⟨revision, case⟩ := entry
  cases revision <;> simp [plannedCases]

/-- The archived cases have ids of their own, so every case of a revision is planned once. -/
theorem plannedCases_nodup (profile : Profile N) :
    ((plannedCases profile.manifest).map fun e => (e.1, e.2.case_id)).Nodup := by
  have hids : ((qualityCases profile.manifest).map (·.case_id)).Nodup :=
    profile.distinct.sublist (List.filter_sublist.map _)
  have hpart : ∀ revision : Revision,
      ((qualityCases profile.manifest).map fun c => (revision, c.case_id)).Nodup := by
    intro revision
    have heq : (qualityCases profile.manifest).map (fun c => (revision, c.case_id)) =
        ((qualityCases profile.manifest).map (·.case_id)).map (Prod.mk revision) := by
      rw [List.map_map]
      rfl
    rw [heq]
    exact hids.map (Prod.mk_right_injective revision)
  simp only [plannedCases, List.flatMap_cons, List.flatMap_nil, List.append_nil, List.map_append,
    List.map_map, Function.comp_def]
  refine List.nodup_append.mpr ⟨hpart _, hpart _, ?_⟩
  rintro _ ha _ hb rfl
  obtain ⟨c, -, rfl⟩ := List.mem_map.mp ha
  simp at hb

/-- Everything a measurement starts with is owed once. -/
theorem owed_nodup (nodup : (saved.map (·.key)).Nodup) :
    (saved.map (·.key) ++ (plannedCases profile.manifest).flatMap (missingKeys saved)).Nodup := by
  refine List.nodup_append.mpr ⟨nodup, List.nodup_flatMap.mpr ⟨fun entry _ => ?_, ?_⟩, ?_⟩
  · exact (List.nodup_range.filter _).map fun a b hab => by simpa using hab
  · refine (List.pairwise_map.mp (plannedCases_nodup profile)).imp fun hne => ?_
    change List.Disjoint _ _
    rw [List.disjoint_left]
    intro key ha hb
    rw [mem_missingKeys] at ha hb
    exact hne (Prod.ext (ha.2.1.symm.trans hb.2.1) (ha.1.symm.trans hb.1))
  · rintro _ ha _ hb rfl
    obtain ⟨entry, -, hentry⟩ := List.mem_flatMap.mp hb
    exact (mem_missingKeys.mp hentry).2.2.2 ha

theorem mem_owed {key : String × Revision × Nat}
    (hsaved : ∀ k ∈ saved.map (·.key), Wanted profile k) :
    key ∈ saved.map (·.key) ++ (plannedCases profile.manifest).flatMap (missingKeys saved) ↔
      Wanted profile key := by
  rw [List.mem_append, List.mem_flatMap]
  constructor
  · rintro (h | ⟨entry, hentry, hkey⟩)
    · exact hsaved key h
    · rw [mem_missingKeys] at hkey
      exact ⟨entry.2, mem_plannedCases.mp hentry, hkey.1, hkey.2.2.1⟩
  · rintro ⟨case, hcase, hid, hseed⟩
    by_cases hkey : key ∈ saved.map (·.key)
    · exact .inl hkey
    · exact .inr ⟨(key.2.1, case), mem_plannedCases.mpr hcase,
        mem_missingKeys.mpr ⟨hid, rfl, hseed, hkey⟩⟩

end Keys

section Runs
variable {platform : Platform N H} {profile : Profile N} {torn : Prop} {st : StageState}
  {rows : List (Observation N)} {f : StageFiles N} {α β : Type}

theorem runs_bind {p : Prog (StageFiles N) Exn α} {k : α → Prog (StageFiles N) Exn β}
    {Q : β → StageFiles N → Prop} :
    Runs platform profile torn st (p >>= k) Q f ↔
      Runs platform profile torn st p (fun a => Runs platform profile torn st (k a) Q) f :=
  Prog.wp_bind

theorem Runs.mono {p : Prog (StageFiles N) Exn α} {Q Q' : α → StageFiles N → Prop}
    (h : Runs platform profile torn st p Q f) (hQ : ∀ a g, Q a g → Q' a g) :
    Runs platform profile torn st p Q' f :=
  Prog.wp_mono h hQ fun _ _ he => he

theorem runs_throw {e : Exn} {Q : α → StageFiles N → Prop} (he : crash e) :
    Runs platform profile torn st (throw e : Prog (StageFiles N) Exn α) Q f := he

/-- Nothing about a fresh row is recorded while evidence and rows agree. -/
theorem Committed.fresh_id (h : Committed platform profile torn st rows f) {row : Observation N}
    (hrow : IsRow platform profile row) (fresh : row.key ∉ rows.map (·.key)) :
    ∀ x ∈ rows, x.id ≠ row.id :=
  fun x hx heq => fresh ((h.row x hx).key_eq hrow heq ▸ List.mem_map_of_mem hx)

theorem Committed.ready (h : Committed platform profile torn st rows f) {row : Observation N}
    (hrow : IsRow platform profile row) (fresh : row.key ∉ rows.map (·.key))
    (ok : row.status = "ok") : Ready platform profile torn st rows row f := by
  refine ⟨h.state, h.records, h.observed, hrow, fresh, h.tidy.imp_right fun tidy => ?_⟩
  refine ⟨fun hbad => absurd ok hbad, fun r hr id hid => ?_⟩
  obtain ⟨x, hx, hbad, rfl⟩ := tidy.answered r hr id hid
  refine ⟨⟨x, List.mem_append_left _ hx, hbad, rfl⟩, fun heq => ?_⟩
  exact absurd ((failure_id_inj hid).trans heq) (h.fresh_id hrow fresh x hx)

theorem failureRecord_record {s : Stage} {manifest : Manifest N} (row : Observation N) :
    StageRecord manifest.prefix_ s (failureRecord row) :=
  .foreign (by simp [failureRecord]) (by simp [failureRecord])

/-- With the failure record of a fresh row written, the row can follow. -/
theorem Committed.recorded (h : Committed platform profile torn st rows f) {row : Observation N}
    (hrow : IsRow platform profile row) (fresh : row.key ∉ rows.map (·.key))
    (bad : row.status ≠ "ok") :
    Ready platform profile torn st rows row
      { f with evidence := putRecord f.evidence (failureRecord row) } := by
  have other : ∀ x ∈ rows, (failureRecord x).id ≠ (failureRecord row).id := fun x hx heq =>
    h.fresh_id hrow fresh x hx (failure_id_inj heq)
  refine ⟨h.state, fun r hr => ?_, ⟨h.file, h.row, h.nodup, h.tidy.imp_right fun tidy =>
    ⟨fun x hx hbad => ?_, fun r hr id hid => ?_⟩⟩, hrow, fresh, h.tidy.imp_right fun tidy =>
    ⟨fun _ => mem_putRecord.mpr (.inr rfl), fun r hr id hid => ?_⟩⟩
  · rcases mem_putRecord.mp hr with ⟨hr, -⟩ | rfl
    · exact h.records r hr
    · exact failureRecord_record row
  · exact mem_putRecord.mpr (.inl ⟨tidy.recorded x hx hbad, other x hx⟩)
  · rcases mem_putRecord.mp hr with ⟨hr, -⟩ | rfl
    · exact .inl (tidy.answered r hr id hid)
    · exact .inr fun x hx heq => h.fresh_id hrow fresh x hx (heq.trans (failure_id_inj hid).symm)
  · rcases mem_putRecord.mp hr with ⟨hr, hne⟩ | rfl
    · obtain ⟨x, hx, hbad, rfl⟩ := tidy.answered r hr id hid
      exact ⟨⟨x, List.mem_append_left _ hx, hbad, rfl⟩, fun heq =>
        absurd (hid.trans (congrArg ("failure/" ++ ·) heq)) hne⟩
    · exact ⟨⟨row, by simp, bad, rfl⟩, fun _ => ⟨bad, rfl⟩⟩

theorem runs_recordFailure (h : Committed platform profile torn st rows f) {row : Observation N}
    (hrow : IsRow platform profile row) (fresh : row.key ∉ rows.map (·.key)) :
    Runs platform profile torn st (recordFailure row)
      (fun _ => Ready platform profile torn st rows row) f := by
  unfold recordFailure
  split_ifs with hbad
  · have hready := h.recorded hrow fresh hbad
    have hinv : BodyInv platform profile torn .quality st
        { f with evidence := putRecord f.evidence (failureRecord row) } :=
      ⟨hready.state, hready.records, fun _ => ⟨rows, hready.observed⟩⟩
    unfold putEvidence Runs
    rw [Prog.wp_bind]
    refine Prog.wp_fallible (fun _ => trivial) ?_ fun _ _ _ _ he => he.crash
    rintro _ rfl _ _ _ rfl
    refine ⟨trivial, hinv, ?_⟩
    refine Prog.wp_fallible (fun _ => trivial) ?_ fun _ _ _ _ he => he.crash
    rintro _ rfl hinv _ _ rfl
    exact ⟨trivial, hinv, hready⟩
  · exact h.ready hrow fresh (not_not.mp hbad)

theorem runs_commitRow (h : Committed platform profile torn st rows f) {row : Observation N}
    (cache : Bool) (hrow : IsRow platform profile row) (fresh : row.key ∉ rows.map (·.key)) :
    Runs platform profile torn st (commitRow platform cache row)
      (fun _ => Committed platform profile torn st (rows ++ [row])) f := by
  unfold commitRow
  rw [runs_bind]
  refine (runs_recordFailure h hrow fresh).mono fun _ g hg => ?_
  rw [runs_bind]
  refine (runs_appendObservation hg).mono fun _ g' hg' => ?_
  split
  · exact runs_request fun _ _ => hg'
  · exact hg'

end Runs

section Owed
variable {platform : Platform N H} {profile : Profile N} {torn : Prop} {st : StageState}
  {all rest : List (String × Revision × Nat)}

/-- Between two commits, with `owed` still to come: committed and owed keys are `all`,
which is what the manifest wants, once each. -/
structure Owing (platform : Platform N H) (profile : Profile N) (torn : Prop) (st : StageState)
    (all owed : List (String × Revision × Nat)) (f : StageFiles N) : Prop where
  nodup : all.Nodup
  wanted : ∀ key, key ∈ all ↔ Wanted profile key
  committed : ∃ rows, Committed platform profile torn st rows f ∧
    (rows.map (·.key) ++ owed).Perm all

variable {owed : List (String × Revision × Nat)} {f : StageFiles N}

theorem Owing.perm {owed' : List (String × Revision × Nat)}
    (h : Owing platform profile torn st all owed f) (same : owed'.Perm owed) :
    Owing platform profile torn st all owed' f := by
  obtain ⟨rows, hrows, hperm⟩ := h.committed
  exact ⟨h.nodup, h.wanted, rows, hrows, (same.append_left _).trans hperm⟩

/-- What is owed is wanted and not committed yet. -/
theorem Owing.next {key : String × Revision × Nat}
    (h : Owing platform profile torn st all (key :: owed) f) {rows : List (Observation N)}
    (hperm : (rows.map (·.key) ++ key :: owed).Perm all) :
    Wanted profile key ∧ key ∉ rows.map (·.key) := by
  refine ⟨(h.wanted key).mp (hperm.mem_iff.mp (by simp)), fun hmem => ?_⟩
  exact (List.nodup_append.mp (hperm.nodup_iff.mpr h.nodup)).2.2 key hmem key (by simp) rfl

/-- A row with the next owed key pays it. -/
theorem Owing.paid {row : Observation N}
    (h : Owing platform profile torn st all (row.key :: owed) f)
    {rows : List (Observation N)} (hperm : (rows.map (·.key) ++ row.key :: owed).Perm all)
    {g : StageFiles N} (hg : Committed platform profile torn st (rows ++ [row]) g) :
    Owing platform profile torn st all owed g :=
  ⟨h.nodup, h.wanted, rows ++ [row], hg, by simpa using hperm⟩

/-- Only a committed row can tell how its key came to be. -/
def Identified (platform : Platform N H) (row : Observation N) : Prop :=
  row.seed_block = "B0" ∧ row.mode = "quality" ∧ ∃ hash, row.id = platform.observationId
    ⟨row.case_id, hash, row.build_id, row.revision, row.seed, row.seed_block⟩

theorem runs_pay {row : Observation N} (h : Owing platform profile torn st all (row.key :: owed) f)
    (hrow : Identified platform row) (cache : Bool) :
    Runs platform profile torn st (commitRow platform cache row)
      (fun _ => Owing platform profile torn st all owed) f := by
  obtain ⟨rows, hrows, hperm⟩ := h.committed
  obtain ⟨hwanted, hfresh⟩ := h.next hperm
  exact (runs_commitRow hrows cache ⟨hwanted, hrow.1, hrow.2.1, hrow.2.2⟩ hfresh).mono
    fun _ _ => h.paid hperm

/-- A batch is committed row by row. -/
theorem runs_runTask {run : Run N} {task : Task N}
    (h : Owing platform profile torn st all (task.keys ++ rest) f) :
    Runs platform profile torn st (runTask platform run task)
      (fun _ => Owing platform profile torn st all rest) f := by
  unfold runTask qualityBatch
  rw [runs_bind]
  cases run.builds.get task.revision with
  | none => exact runs_throw (by simp [crash])
  | some build =>
      rw [runs_bind]
      refine runs_request fun found hfound => ?_
      change Runs platform profile torn st (Prog.each _ (found.map _)) _ _
      have hkeys : (found.map fun r =>
          (observe platform build.id task.revision task.case r).key).Perm task.keys := by
        have hmap := hfound.map fun seed => (task.case.case_id, task.revision, seed)
        rwa [List.map_map] at hmap
      -- the rows still to commit are owed before the rest
      refine Prog.wp_mono (Prog.wp_each (fun todo => fun g =>
        (∀ row ∈ todo, Identified platform row) ∧
          Owing platform profile torn st all (todo.map (·.key) ++ rest) g) ?_ ⟨?_, ?_⟩)
        (fun _ _ hg => hg.2) fun _ _ he => he
      · rintro row todo g ⟨hall, hg⟩
        refine (runs_pay hg (hall row (by simp)) task.cache).mono fun _ g' hg' => ?_
        exact ⟨fun x hx => hall x (List.mem_cons_of_mem _ hx), hg'⟩
      · intro row hrow
        obtain ⟨r, -, rfl⟩ := List.mem_map.mp hrow
        exact ⟨rfl, rfl, _, rfl⟩
      · rw [List.map_map]
        exact h.perm (hkeys.append_right rest)

/-- One seed of a stored case is committed from the store or remains owed. -/
theorem runs_storeHit {key : String} {case : Case N} {remaining : List Nat} {seed : Nat}
    (h : Owing platform profile torn st all
      ((case.case_id, Revision.baseline, seed) ::
        (remaining.map fun n => (case.case_id, Revision.baseline, n)) ++ rest) f) :
    Runs platform profile torn st (storeHit platform key case remaining seed)
      (fun out => Owing platform profile torn st all
        ((out.map fun n => (case.case_id, Revision.baseline, n)) ++ rest)) f := by
  unfold storeHit
  rw [runs_bind]
  refine runs_request fun found _ => ?_
  cases found with
  | none =>
      refine h.perm ?_
      rw [List.map_append, List.append_assoc]
      exact List.perm_middle
  | some stored =>
      have hkey : (replayStored platform key case stored.row).key =
          (case.case_id, Revision.baseline, seed) :=
        Prod.ext rfl (Prod.ext rfl stored.seed_eq)
      rw [← hkey] at h
      obtain ⟨rows, hrows, hperm⟩ := h.committed
      obtain ⟨hwanted, hfresh⟩ := h.next hperm
      have hrow : IsRow platform profile (replayStored platform key case stored.row) :=
        ⟨hwanted, stored.block_eq, stored.mode_eq, _, rfl⟩
      change Runs platform profile torn st (_ >>= _) _ _
      rw [runs_bind]
      exact (runs_appendObservation (hrows.ready hrow hfresh stored.status_eq)).mono
        fun _ _ hg => h.paid hperm hg

theorem runs_storeHits {key : String} {case : Case N} {seeds : List Nat}
    (h : Owing platform profile torn st all
      ((seeds.map fun n => (case.case_id, Revision.baseline, n)) ++ rest) f) :
    Runs platform profile torn st (Prog.fold (storeHit platform key case) [] seeds)
      (fun out => Owing platform profile torn st all
        ((out.map fun n => (case.case_id, Revision.baseline, n)) ++ rest)) f := by
  refine Prog.wp_mono (Prog.wp_fold (fun remaining todo => Owing platform profile torn st all
    ((remaining.map fun n => (case.case_id, Revision.baseline, n)) ++
      ((todo.map fun n => (case.case_id, Revision.baseline, n)) ++ rest))) ?_ h)
    (fun _ _ hg => hg) fun _ _ he => he
  intro remaining seed todo g hg
  exact runs_storeHit (hg.perm (@List.perm_middle _ _ (remaining.map _) _).symm)

theorem runs_addTasks {size : Nat} {tasks : List (Task N)} {revision : Revision} {case : Case N}
    {cache : Bool} {seeds : List Nat}
    (h : Owing platform profile torn st all
      ((seeds.map fun n => (case.case_id, revision, n)) ++ (tasks.flatMap Task.keys ++ rest)) f) :
    Runs platform profile torn st (addTasks size tasks revision case cache seeds)
      (fun out => Owing platform profile torn st all (out.flatMap Task.keys ++ rest)) f := by
  unfold addTasks
  split_ifs with hsize
  · exact runs_throw (by simp [crash])
  · have hkeys : (((batches size seeds.length seeds).map fun batch =>
        (⟨revision, case, batch, cache⟩ : Task N)).flatMap Task.keys) =
          seeds.map fun n => (case.case_id, revision, n) := by
      rw [List.flatMap_map]
      change (batches size seeds.length seeds).flatMap
        (List.map fun n => (case.case_id, revision, n)) = _
      rw [List.flatMap_def, ← List.map_flatten, batches_flatten (by omega) le_rfl]
    refine h.perm ?_
    rw [List.flatMap_append, hkeys, List.append_assoc]
    exact List.perm_append_comm_assoc _ _ _

/-- Planning a case moves what it misses to the tasks, but for the stored seeds. -/
theorem runs_planCase {run : Run N} {saved : List (Observation N)} {tasks : List (Task N)}
    {entry : Revision × Case N} (block : ∀ row ∈ saved, row.seed_block = "B0")
    (h : Owing platform profile torn st all
      (missingKeys saved entry ++ (tasks.flatMap Task.keys ++ rest)) f) :
    Runs platform profile torn st
      (planCase platform run (saved.map fun r => (r.case_id, r.revision, r.seed, r.seed_block))
        tasks entry)
      (fun out => Owing platform profile torn st all (out.flatMap Task.keys ++ rest)) f := by
  obtain ⟨revision, case⟩ := entry
  have hcompleted : ∀ seed, (saved.map fun r =>
      (r.case_id, r.revision, r.seed, r.seed_block)).contains
      (case.case_id, revision, seed, "B0") =
        (saved.map (·.key)).contains (case.case_id, revision, seed) := by
    intro seed
    rw [Bool.eq_iff_iff, List.contains_iff_mem, List.contains_iff_mem, List.mem_map, List.mem_map]
    refine exists_congr fun r => and_congr_right fun hr => ?_
    simp [Observation.key, block r hr]
  have hmissing : missingKeys saved (revision, case) =
      ((List.range case.seeds_per_block).filter fun seed =>
        !(saved.map fun r => (r.case_id, r.revision, r.seed, r.seed_block)).contains
          (case.case_id, revision, seed, "B0")).map fun n => (case.case_id, revision, n) := by
    simp only [missingKeys, hcompleted]
  rw [hmissing] at h
  unfold planCase
  rw [runs_bind]
  refine runs_request fun _ _ => ?_
  dsimp only
  split_ifs with hstore
  · obtain ⟨rfl, -⟩ := hstore
    rw [runs_bind]
    refine runs_request fun key _ => ?_
    rw [runs_bind]
    refine runs_request fun valid _ => ?_
    split_ifs with hvalid
    · rw [runs_bind]
      exact (runs_storeHits h).mono fun _ _ hg => runs_addTasks hg
    · exact runs_addTasks h
  · exact runs_addTasks h

/-- A measurement from saved rows ends with every wanted key committed once. -/
theorem runs_quality {run : Run N} {saved : List (Observation N)} (hprofile : run.profile = profile)
    (h : Committed platform profile torn st saved f) :
    Runs platform profile torn st (quality platform run)
      (fun out g => Committed platform profile torn st out g ∧
        ∀ key, Wanted profile key → key ∈ out.map (·.key)) f := by
  subst hprofile
  unfold quality
  rw [runs_bind]
  refine (runs_readObservations h).mono ?_
  rintro found g ⟨rfl, hg⟩
  have start : Owing platform run.profile torn st
      (found.map (·.key) ++ (plannedCases run.profile.manifest).flatMap (missingKeys found))
      ((plannedCases run.profile.manifest).flatMap (missingKeys found)) g := by
    refine ⟨owed_nodup hg.nodup, fun key => mem_owed ?_, found, hg, .refl _⟩
    intro k hk
    obtain ⟨row, hrow, rfl⟩ := List.mem_map.mp hk
    exact (hg.row row hrow).wanted
  have planned := Prog.wp_fold (C := bodyContract platform run.profile torn .quality st)
    (E := fun e _ => crash e) (f := planCase platform run
      (found.map fun r => (r.case_id, r.revision, r.seed, r.seed_block)))
    (fun tasks todo => Owing platform run.profile torn st _
      (tasks.flatMap Task.keys ++ todo.flatMap (missingKeys found)))
    (fun tasks entry todo g' hg' => runs_planCase (fun row hrow => (hg.row row hrow).block)
      (hg'.perm (List.perm_append_comm_assoc _ _ _))) (s := []) start
  rw [runs_bind]
  refine Runs.mono planned fun tasks g' hg' => ?_
  rw [List.flatMap_nil, List.append_nil] at hg'
  have committed := Prog.wp_each (C := bodyContract platform run.profile torn .quality st)
    (E := fun e _ => crash e) (f := runTask platform run)
    (fun todo => Owing platform run.profile torn st _ (todo.flatMap Task.keys))
    (fun task todo g'' hg'' => runs_runTask hg'') hg'
  rw [runs_bind]
  refine Runs.mono committed fun _ last hlast => ?_
  obtain ⟨rows, hrows, hperm⟩ := hlast.committed
  refine (runs_readObservations hrows).mono ?_
  rintro out _ ⟨rfl, hout⟩
  refine ⟨hout, fun key hkey => ?_⟩
  rw [List.flatMap_nil, List.append_nil] at hperm
  exact hperm.mem_iff.mpr ((hlast.wanted key).mpr hkey)

end Owed

section Measure
variable {platform : Platform N H} {profile : Profile N} {torn : Prop} {st : StageState}
  {rows : List (Observation N)} {f : StageFiles N}

/-- A record that no observation is behind. -/
structure Aggregate (manifest : Manifest N) (r : Record N) : Prop where
  record : StageRecord manifest.prefix_ .quality r
  id : ∀ id, r.id ≠ "failure/" ++ id

theorem Aggregate.of_id {manifest : Manifest N} {r : Record N}
    (record : StageRecord manifest.prefix_ .quality r) (head : r.id.toList[0]? ≠ some 'f') :
    Aggregate manifest r := by
  refine ⟨record, fun id heq => head ?_⟩
  rw [heq]
  simp

theorem Aggregate.own {manifest : Manifest N} {r : Record N} {k : String}
    (hid : r.id = manifest.prefix_ ++ k) (section_ : k.toList[0]? ≠ some '5')
    (name : k.toList[2]? ≠ some 's') (hkind : r.kind ≠ .cost ∧ r.kind ≠ .improvement) :
    Aggregate manifest r := by
  refine .of_id (.own hid section_ name hkind) ?_
  rw [hid]
  cases hconfirm : manifest.confirm <;> simp [Manifest.prefix_, hconfirm]

theorem liteRecords_aggregate {manifest : Manifest N} (confirm : manifest.confirm = true)
    {r : Record N} (h : r ∈ liteRecords rows) : Aggregate manifest r := by
  rcases List.mem_append.mp h with h | h
  · obtain ⟨row, -, hr⟩ := List.mem_flatMap.mp h
    obtain ⟨check, -, hr⟩ := List.mem_filterMap.mp hr
    split_ifs at hr
    obtain rfl := Option.some.inj hr
    exact .of_id (.foreign (by simp) (by simp)) (by simp)
  · obtain rfl := List.mem_singleton.mp h
    have hid : "CA1/C1-lite" = manifest.prefix_ ++ "1/C1-lite" := by
      simp [Manifest.prefix_, confirm]
    exact .own hid (by simp) (by simp) (by simp)

theorem oracleRecords_aggregate {manifest : Manifest N} {oracle : String} {required : Nat}
    (head : oracle.toList[0]? = some 'C') {r : Record N}
    (h : r ∈ oracleRecords manifest.prefix_ oracle required rows) : Aggregate manifest r := by
  have name : ∀ rest, ("1/" ++ oracle ++ rest).toList[2]? ≠ some 's' := by
    intro rest
    rw [String.toList_append, String.toList_append, List.append_assoc,
      List.getElem?_append_right (by simp)]
    cases horacle : oracle.toList with
    | nil => simp [horacle] at head
    | cons c cs =>
        obtain rfl : c = 'C' := by simpa [horacle] using head
        simp
  rcases List.mem_append.mp h with h | h
  · obtain ⟨revision, -, hr⟩ := List.mem_filterMap.mp h
    split_ifs at hr
    obtain rfl := Option.some.inj hr
    refine .own (k := "1/" ++ oracle ++ ("/" ++ revision.name)) ?_ ?_ (name _) (by simp)
    · simp only [String.append_assoc]
    · simp
  · obtain rfl := List.mem_singleton.mp h
    exact .own (k := "1/" ++ oracle ++ "") (by simp only [String.append_assoc, String.append_empty])
      (by simp) (name _) (by simp)

theorem aggregateChecks_aggregate {manifest : Manifest N} {r : Record N}
    (h : r ∈ aggregateChecks manifest rows) : Aggregate manifest r := by
  simp only [aggregateChecks, List.mem_append] at h
  rcases h with ((h | h) | h) | h
  · split_ifs at h with hconfirm
    · exact liteRecords_aggregate hconfirm h
    · cases h
  · obtain rfl := List.mem_singleton.mp h
    exact .own rfl (by simp) (by simp) (by simp)
  · exact oracleRecords_aggregate (by simp) h
  · exact oracleRecords_aggregate (by simp) h

theorem audit_aggregate (manifest : Manifest N) (result : Result) :
    Aggregate manifest { id := "audit/determinism", kind := .completeness, result } :=
  .of_id (.foreign (by simp) (by simp)) (by simp)

theorem runs_audit (h : Committed platform profile torn st rows f) :
    Runs platform profile torn st (audit rows)
      (fun _ => Committed platform profile torn st rows) f := by
  have hr := audit_aggregate profile.manifest
  unfold audit
  rw [runs_bind]
  exact runs_request fun reproduced _ => runs_putEvidence h (hr _).record (hr _).id

/-- The measuring part of the quality body: the rows it returns are those in the file,
one of every wanted seed. -/
theorem runs_measureQuality {run : Run N} (hprofile : run.profile = profile)
    (h : Committed platform profile torn st rows f) :
    Runs platform profile torn st (measureQuality platform run)
      (fun out g => Committed platform profile torn st out g ∧
        ∀ key, Wanted profile key → key ∈ out.map (·.key)) f := by
  unfold measureQuality
  rw [runs_bind]
  refine (runs_quality hprofile h).mono fun out g hg => ?_
  rw [runs_bind]
  refine (runs_audit hg.1).mono fun _ g' hg' => ?_
  rw [runs_bind]
  refine Prog.wp_mono (Prog.wp_each (fun todo g => (∀ r ∈ todo, Aggregate profile.manifest r) ∧
    Committed platform profile torn st out g) ?_ ⟨fun r hr => ?_, hg'⟩) ?_ fun _ _ he => he
  · rintro r todo g'' ⟨hall, hg''⟩
    have hr := hall r (by simp)
    exact (runs_putEvidence hg'' hr.record hr.id).mono fun _ _ hg =>
      ⟨fun x hx => hall x (List.mem_cons_of_mem _ hx), hg⟩
  · exact hprofile ▸ aggregateChecks_aggregate hr
  · exact fun _ _ hlast => ⟨hlast.2, hg.2⟩

end Measure

end TranspileBench.Coordinator
