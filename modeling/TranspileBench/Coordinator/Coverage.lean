import Mathlib.Data.Finset.Card
import TranspileBench.Coordinator.QualityKey
import TranspileBench.Coordinator.QualityRun
import TranspileBench.Coordinator.CostReplay

/-!
The aggregate checks of a quality stage against the observations they stand for: a total
count is compared with the number of required checks, whichever rows carry them.
-/
namespace TranspileBench.Coordinator
open Evaluator

variable {N H D K : Type}

def RowCheck.check (c : RowCheck) : Check :=
  { oracle := c.oracle, status := c.status, union_width := c.union_width }

/-- The definitions behind the cases of a manifest. -/
structure Definitions (manifest : Manifest N) where
  keyed : Case N → KeyedCase
  role : ∀ c ∈ manifest.cases, (keyed c).role = c.role
  panel : ∀ c ∈ manifest.cases, (keyed c).panel = c.panel

/-- The setting of one revision's batches. -/
def QualitySetting.of (s : QualitySetting) (evolved : String) : Revision → QualitySetting
  | .baseline => s
  | .evolved => { s with baseline := evolved }

/-- The checks of a row: those of a fresh batch, of whatever its tools answered, or of a
baseline row that any session stored under an equal key. -/
inductive RowChecks (d : Digests D K) (s : QualitySetting) (evolved : String) (case : KeyedCase)
    (seed : Nat) : Revision → List Check → Prop
  | fresh (t : Tools) (revision : Revision) (row : FreshRow)
      (h : freshRow t (s.of evolved revision) case seed = .ok row) :
      RowChecks d s evolved case seed revision (row.checks.map (·.check))
  | stored (t : Tools) (s' : QualitySetting) (case' : KeyedCase) (row : FreshRow)
      (key : baselineQualityKey d s case = baselineQualityKey d s' case')
      (ok : (t.compile s'.baseline case'.toCaseDefinition [] seed).status = "ok")
      (h : freshRow t s' case' seed = .ok row) :
      RowChecks d s evolved case seed .baseline (row.checks.map (·.check))

/-- The rows of a quality stage's `observations.jsonl`. -/
structure QualityFile (platform : Platform N H) (profile : Profile N)
    (defs : Definitions profile.manifest) (d : Digests D K) (s : QualitySetting)
    (evolved : String) (rows : List (Observation N)) : Prop where
  row : ∀ row ∈ rows, IsRow platform profile row
  nodup : (rows.map (·.key)).Nodup
  checks : ∀ row ∈ rows, ∀ case ∈ qualityCases profile.manifest, case.case_id = row.case_id →
    RowChecks d s evolved (defs.keyed case) row.seed row.revision row.checks

def carriesCheck (oracle : String) (row : Observation N) : Bool :=
  row.checks.any (·.oracle == oracle)

/-- The observations that carry a check of the oracle. -/
def carried (rows : List (Observation N)) (oracle : String) :
    Finset (String × Revision × Nat) :=
  ((rows.filter (carriesCheck oracle)).map (·.key)).toFinset

/-- The oracles whose checks are counted over all rows. -/
inductive Counted
  | C0 | C6

def Counted.name : Counted → String
  | .C0 => "C0"
  | .C6 => "C6"

/-- The seeds of a case that an oracle is required on. -/
def Counted.scope : Counted → Case N → List Nat
  | .C0, case => List.range case.seeds_per_block
  | .C6, case => routingReplaySeeds case (List.range case.seeds_per_block)

/-- The observations that need a check: of both revisions, every case and each of its seeds
in the oracle's scope. -/
def requiredKeys (manifest : Manifest N) (oracle : Counted) : List (String × Revision × Nat) :=
  (plannedCases manifest).flatMap fun (revision, case) =>
    (oracle.scope case).map fun seed => (case.case_id, revision, seed)

def AllVerified (rows : List (Observation N)) (oracle : String) : Prop :=
  ∀ row ∈ rows, ∀ c ∈ row.checks, c.oracle = oracle → c.status = "verified"

/-- `aggregate_checks` records the oracle as passed. -/
def Passed (manifest : Manifest N) (rows : List (Observation N)) (oracle : Counted) : Prop :=
  ∃ r ∈ aggregateChecks manifest rows, r.id = manifest.prefix_ ++ "1/" ++ oracle.name ∧
    r.result = .passed

/-- A passed oracle has a verified check on every observation that needs one, and no other
checks than verified ones. -/
def Covers (manifest : Manifest N) (rows : List (Observation N)) (oracle : Counted) : Prop :=
  Passed manifest rows oracle →
    (∀ key ∈ requiredKeys manifest oracle, ∃ row ∈ rows, row.key = key ∧
      ∃ c ∈ row.checks, c.oracle = oracle.name ∧ c.status = "verified") ∧
    AllVerified rows oracle.name

/-- What lacks a required check. -/
def missing (manifest : Manifest N) (rows : List (Observation N)) (oracle : Counted) :
    Finset (String × Revision × Nat) :=
  (requiredKeys manifest oracle).toFinset \ carried rows oracle.name

/-- What carries a check without need. -/
def extra (manifest : Manifest N) (rows : List (Observation N)) (oracle : Counted) :
    Finset (String × Revision × Nat) :=
  carried rows oracle.name \ (requiredKeys manifest oracle).toFinset

section Rows

variable {t : Tools} {s : QualitySetting} {case : KeyedCase} {seed : Nat} {row : FreshRow}

/-- A row has at most one check of C0 and of C6. -/
theorem freshRow_once (h : freshRow t s case seed = .ok row) (oracle : Counted) :
    (row.checks.filter (·.oracle == oracle.name)).length ≤ 1 := by
  have hc6 : ∀ result, (checkRouting t s case seed result).oracle = "C6" := by
    intro result
    unfold checkRouting
    simp only
    split_ifs <;> rfl
  have hlite : ∀ result width, (checkLite t case result width).oracle = "C1-lite" := by
    intro result width
    unfold checkLite
    split_ifs <;> rfl
  unfold freshRow at h
  simp only at h
  split_ifs at h <;> cases h <;> cases oracle <;> simp [Counted.name, hc6, hlite]

theorem freshRow_replayed (h : freshRow t s case seed = .ok row) {c : RowCheck}
    (hc : c ∈ row.checks) (horacle : c.oracle = "C6") : replayed case seed = true := by
  have hlite : ∀ result width, (checkLite t case result width).oracle = "C1-lite" := by
    intro result width
    unfold checkLite
    split_ifs <;> rfl
  unfold freshRow at h
  simp only at h
  split_ifs at h <;> cases h
  · cases hc
  · obtain rfl := List.mem_singleton.mp hc
    simp at horacle
  all_goals first | assumption | skip
  all_goals
    exfalso
    simp only [List.append_nil, List.nil_append, List.cons_append, List.mem_cons,
      List.not_mem_nil, or_false] at hc
  · rcases hc with rfl | rfl
    · simp at horacle
    · simp [hlite] at horacle
  · subst hc
    simp at horacle

theorem RowChecks.once {d : Digests D K} {evolved : String} {revision : Revision}
    {checks : List Check} (h : RowChecks d s evolved case seed revision checks)
    (oracle : Counted) : (checks.filter (·.oracle == oracle.name)).length ≤ 1 := by
  have once : ∀ row : FreshRow, (row.checks.filter (·.oracle == oracle.name)).length ≤ 1 →
      ((row.checks.map (·.check)).filter (·.oracle == oracle.name)).length ≤ 1 := by
    intro row hrow
    rwa [List.filter_map, List.length_map]
  cases h with
  | fresh t revision row h => exact once row (freshRow_once h oracle)
  | stored t s' case' row key ok h => exact once row (freshRow_once h oracle)

end Rows

section Count

variable {profile : Profile N} {rows : List (Observation N)} {oracle : String}

theorem mem_requiredKeys {manifest : Manifest N} {o : Counted} {key : String × Revision × Nat} :
    key ∈ requiredKeys manifest o ↔
      ∃ case ∈ qualityCases manifest, key.1 = case.case_id ∧ key.2.2 ∈ o.scope case := by
  obtain ⟨id, revision, seed⟩ := key
  simp only [requiredKeys, plannedCases, List.mem_flatMap, List.mem_map, Prod.mk.injEq]
  constructor
  · rintro ⟨_, ⟨_, -, case, hcase, rfl⟩, seed', hseed, rfl, rfl, rfl⟩
    exact ⟨case, hcase, rfl, hseed⟩
  · rintro ⟨case, hcase, rfl, hseed⟩
    exact ⟨(revision, case), ⟨revision, by cases revision <;> simp, case, hcase, rfl⟩, seed, hseed,
      rfl, rfl, rfl⟩

theorem Counted.scope_nodup (o : Counted) (case : Case N) : (o.scope case).Nodup := by
  cases o with
  | C0 => exact List.nodup_range
  | C6 =>
      change (routingReplaySeeds case (List.range case.seeds_per_block)).Nodup
      unfold routingReplaySeeds
      split_ifs
      · exact List.nodup_range
      · exact List.nodup_range.filter _
      · exact List.nodup_nil

theorem requiredKeys_nodup (o : Counted) : (requiredKeys profile.manifest o).Nodup := by
  refine List.nodup_flatMap.mpr ⟨fun entry _ => ?_, ?_⟩
  · exact (o.scope_nodup _).map fun a b hab => by simpa using hab
  · refine (List.pairwise_map.mp (plannedCases_nodup profile)).imp fun hne => ?_
    change List.Disjoint _ _
    rw [List.disjoint_left]
    intro key ha hb
    obtain ⟨_, -, rfl⟩ := List.mem_map.mp ha
    obtain ⟨_, -, heq⟩ := List.mem_map.mp hb
    simp only [Prod.mk.injEq] at heq
    exact hne (Prod.ext heq.2.1.symm heq.1.symm)

theorem requiredKeys_length (manifest : Manifest N) (o : Counted) :
    (requiredKeys manifest o).length
      = 2 * ((qualityCases manifest).map fun c => (o.scope c).length).sum := by
  simp [requiredKeys, plannedCases, List.length_flatMap, Function.comp_def, Nat.two_mul]

theorem checks_length (once : ∀ row ∈ rows, (row.checks.filter (·.oracle == oracle)).length ≤ 1) :
    (rows.flatMap fun r => r.checks.filter (·.oracle == oracle)).length
      = (rows.filter (carriesCheck oracle)).length := by
  induction rows with
  | nil => rfl
  | cons row rows ih =>
      obtain ⟨hrow, hrows⟩ := List.forall_mem_cons.mp once
      rw [List.flatMap_cons, List.length_append, ih hrows]
      cases hcarries : carriesCheck oracle row with
      | true =>
          have hpos : 0 < (row.checks.filter (·.oracle == oracle)).length := by
            obtain ⟨c, hc, horacle⟩ := List.any_eq_true.mp hcarries
            exact List.length_pos_of_mem (List.mem_filter.mpr ⟨hc, horacle⟩)
          rw [List.filter_cons_of_pos hcarries, List.length_cons]
          omega
      | false =>
          have hnone : row.checks.filter (·.oracle == oracle) = [] := by
            refine List.filter_eq_nil_iff.mpr fun c hc horacle => ?_
            have hsome : carriesCheck oracle row = true := List.any_eq_true.mpr ⟨c, hc, horacle⟩
            rw [hcarries] at hsome
            cases hsome
          rw [List.filter_cons_of_neg (by simp [hcarries]), hnone]
          simp

theorem carried_card (nodup : (rows.map (·.key)).Nodup) :
    (carried rows oracle).card = (rows.filter (carriesCheck oracle)).length := by
  rw [carried, List.toFinset_card_of_nodup (nodup.sublist (List.filter_sublist.map _)),
    List.length_map]

theorem mem_carried {key : String × Revision × Nat} : key ∈ carried rows oracle ↔
    ∃ row ∈ rows, row.key = key ∧ ∃ c ∈ row.checks, c.oracle = oracle := by
  simp only [carried, List.mem_toFinset, List.mem_map, List.mem_filter, carriesCheck,
    List.any_eq_true, beq_iff_eq]
  exact ⟨fun ⟨row, ⟨hrow, hc⟩, hkey⟩ => ⟨row, hrow, hkey, hc⟩,
    fun ⟨row, hrow, hkey, hc⟩ => ⟨row, ⟨hrow, hc⟩, hkey⟩⟩

end Count

section Passed

variable {manifest : Manifest N} {rows : List (Observation N)} {oracle : String} {required : Nat}

theorem all_verified_iff : (rows.flatMap fun r => r.checks.filter (·.oracle == oracle)).all
    (·.status == "verified") = true ↔ AllVerified rows oracle := by
  simp only [List.all_eq_true, List.mem_flatMap, List.mem_filter, beq_iff_eq, AllVerified]
  exact ⟨fun h row hrow c hc horacle => h c ⟨row, hrow, hc, horacle⟩,
    fun h c ⟨row, hrow, hc, horacle⟩ => h row hrow c hc horacle⟩

theorem oracleRecords_passed {r : Record N} {pre : String} :
    (r ∈ oracleRecords pre oracle required rows ∧ r.result = .passed) ↔
      ((rows.flatMap fun r => r.checks.filter (·.oracle == oracle)).length = required ∧
        AllVerified rows oracle) ∧
        r = { id := pre ++ "1/" ++ oracle, kind := .correctness, result := .passed } := by
  rw [← all_verified_iff]
  constructor
  · rintro ⟨hr, hpassed⟩
    rcases List.mem_append.mp hr with hr | hr
    · obtain ⟨revision, -, hr⟩ := List.mem_filterMap.mp hr
      split_ifs at hr
      obtain rfl := Option.some.inj hr
      cases hpassed
    · obtain rfl := List.mem_singleton.mp hr
      simp only at hpassed
      split_ifs at hpassed with hcounted
      exact ⟨hcounted, by simp only [if_pos hcounted]⟩
  · rintro ⟨hcounted, rfl⟩
    refine ⟨List.mem_append_right _ (List.mem_singleton.mpr ?_), rfl⟩
    simp only [if_pos hcounted]

theorem liteRecords_passed {r : Record N} (h : r ∈ liteRecords rows) (passed : r.result = .passed) :
    r.id = "CA1/C1-lite" := by
  rcases List.mem_append.mp h with h | h
  · obtain ⟨row, -, hr⟩ := List.mem_flatMap.mp h
    obtain ⟨check, -, hr⟩ := List.mem_filterMap.mp hr
    split_ifs at hr
    obtain rfl := Option.some.inj hr
    cases passed
  · obtain rfl := List.mem_singleton.mp h
    rfl

theorem aggregateChecks_eq (hblock : ∀ row ∈ rows, row.seed_block = "B0") :
    aggregateChecks manifest rows = (if manifest.confirm then liteRecords rows else []) ++
      [{ id := manifest.prefix_ ++ "6/completeness", kind := .completeness,
         result := if rows.length = (requiredKeys manifest .C0).length then .passed
           else .unresolved }] ++
      oracleRecords manifest.prefix_ "C0" (requiredKeys manifest .C0).length rows ++
      oracleRecords manifest.prefix_ "C6" (requiredKeys manifest .C6).length rows := by
  have hall : rows.filter (·.seed_block == "B0") = rows :=
    List.filter_eq_self.mpr fun row hrow => by simp [hblock row hrow]
  have hevery : ((qualityCases manifest).map (·.seeds_per_block)).sum * 2
      = (requiredKeys manifest .C0).length := by
    simp [requiredKeys_length, Counted.scope, Nat.mul_comm]
  have hreplay : 2 * ((qualityCases manifest).map fun c =>
      (routingReplaySeeds c (List.range c.seeds_per_block)).length).sum
      = (requiredKeys manifest .C6).length := (requiredKeys_length manifest .C6).symm
  simp only [aggregateChecks, hall, hevery, hreplay]

theorem passed_iff (hblock : ∀ row ∈ rows, row.seed_block = "B0") (o : Counted) :
    Passed manifest rows o ↔
      (rows.flatMap fun r => r.checks.filter (·.oracle == o.name)).length
        = (requiredKeys manifest o).length ∧ AllVerified rows o.name := by
  have hpre : manifest.prefix_ = "CA" ∨ manifest.prefix_ = "IA" := by
    cases h : manifest.confirm <;> simp [Manifest.prefix_, h]
  have other : ∀ id, id = "CA1/C1-lite" ∨ id = manifest.prefix_ ++ "6/completeness" →
      id ≠ manifest.prefix_ ++ "1/" ++ o.name := by
    rintro _ (rfl | rfl) <;> rcases hpre with hpre | hpre <;> cases o <;> simp [hpre, Counted.name]
  rw [Passed, aggregateChecks_eq hblock]
  simp only [List.mem_append, List.mem_singleton]
  constructor
  · rintro ⟨r, ((hr | rfl) | hr) | hr, hid, hpassed⟩
    · split_ifs at hr with hconfirm
      · exact absurd hid (other _ (.inl (liteRecords_passed hr hpassed)))
      · cases hr
    · exact absurd hid (other _ (.inr rfl))
    · obtain ⟨hcounted, rfl⟩ := oracleRecords_passed.mp ⟨hr, hpassed⟩
      cases o with
      | C0 => exact hcounted
      | C6 => simp [Counted.name] at hid
    · obtain ⟨hcounted, rfl⟩ := oracleRecords_passed.mp ⟨hr, hpassed⟩
      cases o with
      | C0 => simp [Counted.name] at hid
      | C6 => exact hcounted
  · intro h
    cases o with
    | C0 =>
        obtain ⟨hr, hpassed⟩ := oracleRecords_passed.mpr ⟨h, rfl⟩
        exact ⟨_, .inl (.inr hr), rfl, hpassed⟩
    | C6 =>
        obtain ⟨hr, hpassed⟩ := oracleRecords_passed.mpr ⟨h, rfl⟩
        exact ⟨_, .inr hr, rfl, hpassed⟩

end Passed

section Covers
variable {platform : Platform N H} {profile : Profile N} {defs : Definitions profile.manifest}
  {d : Digests D K} {s : QualitySetting} {evolved : String} {rows : List (Observation N)}

theorem QualityFile.once (h : QualityFile platform profile defs d s evolved rows) (o : Counted) :
    ∀ row ∈ rows, (row.checks.filter (·.oracle == o.name)).length ≤ 1 := by
  intro row hrow
  obtain ⟨case, hcase, hid, -⟩ := (h.row row hrow).wanted
  exact (h.checks row hrow case hcase hid.symm).once o

/-- The count is right exactly when as many checks are extra as are missing. -/
theorem QualityFile.count_iff (h : QualityFile platform profile defs d s evolved rows)
    (o : Counted) :
    (rows.flatMap fun r => r.checks.filter (·.oracle == o.name)).length
        = (requiredKeys profile.manifest o).length ↔
      (extra profile.manifest rows o).card = (missing profile.manifest rows o).card := by
  rw [checks_length (h.once o), ← carried_card h.nodup,
    ← List.toFinset_card_of_nodup (requiredKeys_nodup o), extra, missing]
  have hcarried := Finset.card_sdiff_add_card_inter (carried rows o.name)
    (requiredKeys profile.manifest o).toFinset
  have hrequired := Finset.card_sdiff_add_card_inter (requiredKeys profile.manifest o).toFinset
    (carried rows o.name)
  rw [Finset.inter_comm] at hrequired
  omega

/-- An oracle's record stands for all of its observations unless extra checks make up for
missing ones. -/
theorem QualityFile.covers_iff (h : QualityFile platform profile defs d s evolved rows)
    (o : Counted) : Covers profile.manifest rows o ↔
      (AllVerified rows o.name →
        (extra profile.manifest rows o).card = (missing profile.manifest rows o).card →
        missing profile.manifest rows o = ∅) := by
  have hblock : ∀ row ∈ rows, row.seed_block = "B0" := fun row hrow => (h.row row hrow).block
  rw [Covers, passed_iff hblock, h.count_iff]
  constructor
  · intro hcovers hverified hcard
    rw [missing, Finset.sdiff_eq_empty_iff_subset]
    intro key hkey
    obtain ⟨row, hrow, hrowkey, c, hc, horacle, -⟩ :=
      (hcovers ⟨hcard, hverified⟩).1 key (List.mem_toFinset.mp hkey)
    exact mem_carried.mpr ⟨row, hrow, hrowkey, c, hc, horacle⟩
  · rintro hmissing ⟨hcard, hverified⟩
    refine ⟨fun key hkey => ?_, hverified⟩
    have hsub := Finset.sdiff_eq_empty_iff_subset.mp (hmissing hverified hcard)
    obtain ⟨row, hrow, hrowkey, c, hc, horacle⟩ :=
      mem_carried.mp (hsub (List.mem_toFinset.mpr hkey))
    exact ⟨row, hrow, hrowkey, c, hc, horacle, hverified row hrow c hc horacle⟩

/-- Every observation needs C0. -/
theorem QualityFile.no_extra (h : QualityFile platform profile defs d s evolved rows) :
    extra profile.manifest rows .C0 = ∅ := by
  rw [extra, Finset.sdiff_eq_empty_iff_subset]
  intro key hkey
  obtain ⟨row, hrow, rfl, -⟩ := mem_carried.mp hkey
  obtain ⟨case, hcase, hid, hseed⟩ := (h.row row hrow).wanted
  exact List.mem_toFinset.mpr
    (mem_requiredKeys.mpr ⟨case, hcase, hid, List.mem_range.mpr hseed⟩)

/-- The aggregate checks cover every required observation, exactly when no rows that carry
C6 without need are as many as those that lack it. -/
theorem aggregate_covers_iff (h : QualityFile platform profile defs d s evolved rows) :
    (Covers profile.manifest rows .C0 ∧ Covers profile.manifest rows .C6) ↔
      (AllVerified rows "C6" →
        (extra profile.manifest rows .C6).card = (missing profile.manifest rows .C6).card →
        missing profile.manifest rows .C6 = ∅) := by
  have hzero : Covers profile.manifest rows .C0 := by
    rw [h.covers_iff, h.no_extra, Finset.card_empty]
    exact fun _ hcard => Finset.card_eq_zero.mp hcard.symm
  exact (and_iff_right hzero).trans (h.covers_iff .C6)

theorem mem_replaySeeds (defs : Definitions profile.manifest) {case : Case N}
    (hcase : case ∈ qualityCases profile.manifest) {seed : Nat}
    (hseed : seed < case.seeds_per_block) :
    seed ∈ Counted.C6.scope case ↔ replayed (defs.keyed case) seed = true := by
  have hmem := List.mem_of_mem_filter hcase
  change seed ∈ routingReplaySeeds case (List.range case.seeds_per_block) ↔ _
  unfold routingReplaySeeds replayed
  rw [defs.role case hmem, defs.panel case hmem]
  split_ifs <;> simp [hseed]

/-- An extra check comes out of the store, from a case of the same key whose panel has more
seeds replayed. -/
theorem extra_stored (h : QualityFile platform profile defs d s evolved rows)
    {key : String × Revision × Nat} (hkey : key ∈ extra profile.manifest rows .C6) :
    key.2.1 = .baseline ∧ ∃ case ∈ qualityCases profile.manifest, case.case_id = key.1 ∧
      ∃ s' case', baselineQualityKey d s (defs.keyed case) = baselineQualityKey d s' case' ∧
        replayed case' key.2.2 = true ∧ replayed (defs.keyed case) key.2.2 = false := by
  obtain ⟨hcarried, hnot⟩ := Finset.mem_sdiff.mp hkey
  obtain ⟨row, hrow, rfl, c, hc, horacle⟩ := mem_carried.mp hcarried
  obtain ⟨case, hcase, hid, hseed⟩ := (h.row row hrow).wanted
  have unneeded : replayed (defs.keyed case) row.seed = false := by
    refine Bool.eq_false_iff.mpr fun hreplayed => hnot (List.mem_toFinset.mpr ?_)
    exact mem_requiredKeys.mpr ⟨case, hcase, hid, (mem_replaySeeds defs hcase hseed).mpr hreplayed⟩
  have hchecks := h.checks row hrow case hcase hid.symm
  generalize hrevision : row.revision = revision at hchecks
  generalize hlist : row.checks = checks at hchecks hc
  cases hchecks with
  | fresh t revision fresh hfresh =>
      obtain ⟨c', hc', rfl⟩ := List.mem_map.mp hc
      rw [freshRow_replayed hfresh hc' horacle] at unneeded
      cases unneeded
  | stored t s' case' fresh hstored ok hfresh =>
      obtain ⟨c', hc', rfl⟩ := List.mem_map.mp hc
      exact ⟨hrevision, case, hcase, hid.symm, s', case', hstored,
        freshRow_replayed hfresh hc' horacle, unneeded⟩

end Covers

/-! A guard case of eleven seeds. Its last baseline row was stored for a basis case, with a
C6 check, and the compile of its first evolved row failed. -/

section Sample

def guardCase : Case Int :=
  { sampleCase with
    case_id := "guard/qft", role := .guard, panel := none, seeds_per_block := 11 }

def guardProfile : Profile Int := ⟨⟨false, [guardCase]⟩, samplePolicy, by decide⟩

def guardDefs : Definitions guardProfile.manifest where
  keyed c := { keyedCase c.case_id with role := c.role, panel := c.panel }
  role _ _ := rfl
  panel _ _ := rfl

def basisCase : KeyedCase := { guardDefs.keyed guardCase with panel := some "basis-cx" }

def failedTools : Tools :=
  { sampleTools with compile := fun _ _ _ _ => ⟨"failed", "", "", "null", []⟩ }

def guardChecks : Revision → Nat → List Check
  | .evolved, 0 => []
  | .evolved, 10 => [{ oracle := "C0", status := "verified" }]
  | _, _ => [{ oracle := "C0", status := "verified" }, { oracle := "C6", status := "verified" }]

def guardRow (platform : Platform Int H) (revision : Revision) (seed : Nat) :
    Observation Int where
  case_id := "guard/qft"
  case_hash := "hash"
  revision := revision
  build_id := "build"
  seed := seed
  seed_block := "B0"
  mode := "quality"
  id := platform.observationId ⟨"guard/qft", "hash", "build", revision, seed, "B0"⟩
  status := if revision = .evolved ∧ seed = 0 then "failed" else "ok"
  not_attempted := false
  error := none
  metric _ := none
  output_hash := none
  checks := guardChecks revision seed
  cached_from := none

def guardRows (platform : Platform Int H) : List (Observation Int) :=
  [Revision.baseline, .evolved].flatMap fun revision =>
    (List.range 11).map (guardRow platform revision)

theorem replayed_guard (revision : Revision) (seed : Nat) (h : seed < 10) :
    freshRow sampleTools ((qualitySetting "iterations-profile").of "evolved" revision)
        (guardDefs.keyed guardCase) seed
      = .ok ⟨some 7, some 3, [⟨"C0", "verified", none⟩, ⟨"C6", "verified", none⟩]⟩ := by
  have hreplayed : replayed (guardDefs.keyed guardCase) seed = true := by
    simp [replayed, guardDefs, guardCase, keyedCase, h]
  cases revision <;> (unfold freshRow; rw [hreplayed]; rfl)

theorem guardRow_checks (revision : Revision) (seed : Nat) (h : seed < 11) :
    RowChecks contents (qualitySetting "iterations-profile") "evolved" (guardDefs.keyed guardCase)
      seed revision (guardChecks revision seed) := by
  by_cases hlast : seed = 10
  · subst hlast
    cases revision with
    | baseline =>
        exact .stored sampleTools (qualitySetting "iterations-profile") basisCase
          ⟨some 7, some 3, [⟨"C0", "verified", none⟩, ⟨"C6", "verified", none⟩]⟩ rfl rfl rfl
    | evolved =>
        exact .fresh sampleTools .evolved ⟨some 7, some 3, [⟨"C0", "verified", none⟩]⟩ rfl
  · have hseed : seed < 10 := by omega
    cases revision with
    | baseline => exact .fresh sampleTools .baseline _ (replayed_guard _ seed hseed)
    | evolved =>
        cases seed with
        | zero => exact .fresh failedTools .evolved ⟨none, none, []⟩ rfl
        | succ n =>
            have hchecks : guardChecks .evolved (n + 1)
                = [⟨"C0", "verified", none⟩, ⟨"C6", "verified", none⟩].map RowCheck.check := by
              unfold guardChecks
              split <;> simp_all [RowCheck.check]
            exact hchecks ▸ .fresh sampleTools .evolved _ (replayed_guard _ _ hseed)

theorem guard_file (platform : Platform Int H) : QualityFile platform guardProfile guardDefs
    contents (qualitySetting "iterations-profile") "evolved" (guardRows platform) where
  row row hrow := by
    obtain ⟨revision, -, hrow⟩ := List.mem_flatMap.mp hrow
    obtain ⟨seed, hseed, rfl⟩ := List.mem_map.mp hrow
    exact ⟨⟨guardCase, List.mem_cons_self, rfl, List.mem_range.mp hseed⟩, rfl, rfl, "hash", rfl⟩
  nodup := by
    change ([Revision.baseline, .evolved].flatMap fun revision =>
      (List.range 11).map fun seed => ("guard/qft", revision, seed)).Nodup
    decide +kernel
  checks row hrow case hcase _ := by
    obtain ⟨revision, -, hrow⟩ := List.mem_flatMap.mp hrow
    obtain ⟨seed, hseed, rfl⟩ := List.mem_map.mp hrow
    obtain rfl : case = guardCase := List.mem_singleton.mp (List.mem_of_mem_filter hcase)
    exact guardRow_checks revision seed (List.mem_range.mp hseed)

theorem guard_all_verified (platform : Platform Int H) : AllVerified (guardRows platform) "C6" := by
  intro row hrow c hc _
  obtain ⟨revision, -, hrow⟩ := List.mem_flatMap.mp hrow
  obtain ⟨seed, -, rfl⟩ := List.mem_map.mp hrow
  have hc : c ∈ guardChecks revision seed := hc
  unfold guardChecks at hc
  split at hc <;> simp only [List.mem_cons, List.not_mem_nil, or_false] at hc
  · subst hc; rfl
  · rcases hc with rfl | rfl <;> rfl

/-- The rows with a C6 check: all that need one but one, and one more. -/
theorem guard_carried (platform : Platform Int H) :
    ((guardRows platform).filter (carriesCheck "C6")).map (·.key) =
      (List.range 11).map (fun seed => ("guard/qft", Revision.baseline, seed)) ++
        (List.range' 1 9).map fun seed => ("guard/qft", Revision.evolved, seed) := rfl

theorem guard_extra (platform : Platform Int H) :
    extra guardProfile.manifest (guardRows platform) .C6 = {("guard/qft", .baseline, 10)} ∧
      missing guardProfile.manifest (guardRows platform) .C6 = {("guard/qft", .evolved, 0)} := by
  rw [extra, missing, carried, Counted.name, guard_carried]
  decide +kernel

theorem aggregate_covers_iff_guard :
    (Covers guardProfile.manifest (guardRows (Platform.unary sampleSetting)) .C0 ∧
        Covers guardProfile.manifest (guardRows (Platform.unary sampleSetting)) .C6) ↔
      (AllVerified (guardRows (Platform.unary sampleSetting)) "C6" →
        (extra guardProfile.manifest (guardRows (Platform.unary sampleSetting)) .C6).card
          = (missing guardProfile.manifest (guardRows (Platform.unary sampleSetting)) .C6).card →
        missing guardProfile.manifest (guardRows (Platform.unary sampleSetting)) .C6 = ∅) :=
  aggregate_covers_iff (guard_file _)

/-- C6 passes, though the first evolved observation has no check. -/
theorem aggregate_hides_missing : ∃ rows : List (Observation Int),
    QualityFile (Platform.unary sampleSetting) guardProfile guardDefs contents
      (qualitySetting "iterations-profile") "evolved" rows ∧
    ¬ (Covers guardProfile.manifest rows .C0 ∧ Covers guardProfile.manifest rows .C6) := by
  let platform : Platform Int StageState := Platform.unary sampleSetting
  obtain ⟨hextra, hmissing⟩ := guard_extra platform
  refine ⟨guardRows platform, guard_file platform, fun hcovers => ?_⟩
  have hnone := ((guard_file platform).covers_iff .C6).mp hcovers.2 (guard_all_verified platform)
    (by rw [hextra, hmissing]; rfl)
  rw [hmissing] at hnone
  exact Finset.singleton_ne_empty _ hnone

end Sample

end TranspileBench.Coordinator
