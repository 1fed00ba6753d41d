import TranspileBench.Lsf.Watching

/-!
The evidence the monitor emits against the admission it meets afterwards. A measurement
that the monitor let finish is admitted exactly when the worker and the monitor have
separate cores and no window was left open for longer than the validator allows.
-/
namespace TranspileBench.Lsf
open Evaluator (Estimator MEASURED_ARMS Protocol Counts Regime regimeCounts)
open Fallible (bind_eq_ok mapM_all)

/-! ## Before measuring -/

structure Prepared (m : CostMonitor) (required : EvidenceRequirement) (pre : Preflight) :
    Prop where
  contract : required.contract = CONTRACT
  identity : required.identity = m.identity
  thresholds : required.thresholds = m.thresholds
  tier : required.tier = m.tier
  slots : m.context.slots = some COST_SLOTS
  hosts : m.context.hosts.length = 1
  exclusive : m.context.exclusive_cores_requested = true
  single : m.context.single_host_requested = true
  model : m.tier.model.isSome = true → m.context.selectors.model = m.tier.model
  ncpus : m.tier.ncpus.isSome = true → m.context.selectors.ncpus = m.tier.ncpus
  physical : m.tier.ncpus.isSome = true → m.tier.ncpus = some pre.physical_cores
  layout : pre.layout.name = some LAYOUT
  monitor : pre.layout.monitor ≠ []
  worker : pre.layout.worker ≠ []
  mask : ∀ core ∈ [pre.layout.monitor, pre.layout.worker], core ⊆ pre.layout.mask
  idle : ∃ seconds busy, pre.idle_probe = ⟨some seconds, some busy⟩ ∧ 0 < seconds ∧ 0 ≤ busy
    ∧ (checkA busy seconds m.thresholds).1 = true

theorem requirementProblems_eq_nil {required : EvidenceRequirement} {m : CostMonitor} :
    requirementProblems required m = [] ↔
      required.contract = CONTRACT ∧ required.identity = m.identity
        ∧ required.thresholds = m.thresholds ∧ required.tier = m.tier := by
  simp [requirementProblems]

theorem allocationProblems_eq_nil {c : Context} {slots : ℕ} {tier : Tier}
    (h : allocationProblems c slots tier = []) :
    c.slots = some slots ∧ c.hosts.length = 1 ∧ c.exclusive_cores_requested = true
      ∧ c.single_host_requested = true
      ∧ (tier.model.isSome = true → c.selectors.model = tier.model)
      ∧ (tier.ncpus.isSome = true → c.selectors.ncpus = tier.ncpus) := by
  unfold allocationProblems at h
  split at h
  · simp at h
  · simp only [List.append_eq_nil_iff, flag_eq_nil, decide_eq_false_iff_not, not_not,
      Bool.and_eq_false_iff] at h
    obtain ⟨⟨⟨⟨hslots, hhosts⟩, hrequest⟩, hmodel⟩, hncpus⟩ := h
    have hone : c.hosts.length = 1 := by
      split at hhosts
      · rename_i host heq
        simp [heq]
      · simp at hhosts
    split at hrequest
    · simp at hrequest
    · simp only [List.append_eq_nil_iff, flag_eq_nil, Bool.not_eq_false'] at hrequest
      refine ⟨hslots, hone, hrequest.1, hrequest.2, fun h => ?_, fun h => ?_⟩
      · simpa [h] using hmodel
      · simpa [h] using hncpus

theorem coreOf_ne_nil {p : HostProbe} {cpu : ℕ} {core : List ℕ} (h : coreOf p cpu = .ok core) :
    core ≠ [] := by
  unfold coreOf at h
  split at h
  · split at h
    · rename_i hmem
      cases h
      exact List.ne_nil_of_mem hmem
    · cases h
  · cases h

theorem refuseFor_flag {P : Prop} [Decidable P] {problem : String} {u : Unit} :
    refuseFor (flag (decide P) problem) = .ok u ↔ ¬ P := by
  rw [refuseFor_eq_ok, flag_eq_nil, decide_eq_false_iff_not]

theorem checkGranted_eq_ok {mask : List ℕ} {name : String} {granted : Option (List ℕ)} {u : Unit} :
    checkGranted mask name granted = .ok u ↔
      ∀ cpus, granted = some cpus → cpus ≠ [] → cpus.toFinset = mask.toFinset := by
  rw [checkGranted, refuseFor_flag, not_and_not_right]
  cases granted with
  | none => simp
  | some cpus => simp

/-- The cores by their lowest CPU. -/
def coresInOrder (cores : List (List ℕ)) : List (List ℕ) :=
  cores.insertionSort fun a b => a.min?.getD 0 ≤ b.min?.getD 0

theorem mem_coresInOrder {cores : List (List ℕ)} {core : List ℕ} :
    core ∈ coresInOrder cores ↔ core ∈ cores :=
  (List.perm_insertionSort _ _).mem_iff

theorem nodup_coresInOrder {cores : List (List ℕ)} : (coresInOrder cores).Nodup ↔ cores.Nodup :=
  (List.perm_insertionSort _ _).nodup_iff

/-- What `_layout` checks, and what it gives. -/
theorem layoutOf_eq_ok {c : Context} {p : HostProbe} {l : Layout} :
    layoutOf c p = .ok l ↔ ∃ cores, p.affinity.mapM (coreOf p) = .ok cores ∧
      ¬ (p.online ≠ [] ∧ p.online.toFinset ⊆ p.affinity.toFinset) ∧
      (∀ core ∈ cores.eraseDups, core ⊆ p.affinity) ∧
      cores.eraseDups.length = COST_SLOTS ∧
      (∀ cpus, c.bind_cpus = some cpus → cpus ≠ [] → cpus.toFinset = p.affinity.toFinset) ∧
      (∀ cpus, c.affinity_file_cpus = some cpus → cpus ≠ [] → cpus.toFinset = p.affinity.toFinset) ∧
      ∃ monitor worker rest, coresInOrder cores.eraseDups = monitor :: worker :: rest ∧
        l = ⟨some LAYOUT, p.affinity, monitor, worker⟩ := by
  have hwhole : ∀ cores : List (List ℕ),
      ¬ cores.filter (fun core => !core.all p.affinity.contains) ≠ [] ↔
      ∀ core ∈ cores, core ⊆ p.affinity := by
    simp [List.filter_eq_nil_iff, List.subset_def]
  unfold layoutOf
  constructor
  · intro h
    obtain ⟨_, hbound, h⟩ := bind_eq_ok.mp h
    obtain ⟨cores, hcores, h⟩ := bind_eq_ok.mp h
    obtain ⟨_, hparts, h⟩ := bind_eq_ok.mp h
    obtain ⟨_, hnine, h⟩ := bind_eq_ok.mp h
    obtain ⟨_, hbind, h⟩ := bind_eq_ok.mp h
    obtain ⟨_, hfile, h⟩ := bind_eq_ok.mp h
    refine ⟨cores, hcores, refuseFor_flag.mp hbound, (hwhole _).mp (refuseFor_flag.mp hparts),
      not_not.mp (refuseFor_flag.mp hnine), checkGranted_eq_ok.mp hbind,
        checkGranted_eq_ok.mp hfile, ?_⟩
    split at h
    · rename_i monitor worker rest hordered
      cases h
      exact ⟨monitor, worker, rest, hordered, rfl⟩
    · cases h
  · rintro ⟨cores, hcores, hbound, hparts, hnine, hbind, hfile, monitor, worker,
      rest, hordered, rfl⟩
    refine bind_eq_ok.mpr ⟨(), refuseFor_flag.mpr hbound, bind_eq_ok.mpr ⟨cores, hcores, ?_⟩⟩
    refine bind_eq_ok.mpr ⟨(), refuseFor_flag.mpr ((hwhole _).mpr hparts), ?_⟩
    refine bind_eq_ok.mpr ⟨(), refuseFor_flag.mpr (not_not.mpr hnine), ?_⟩
    refine bind_eq_ok.mpr ⟨(), checkGranted_eq_ok.mpr hbind, ?_⟩
    refine bind_eq_ok.mpr ⟨(), checkGranted_eq_ok.mpr hfile, ?_⟩
    unfold coresInOrder at hordered
    rw [hordered]

theorem layoutOf_ok {c : Context} {p : HostProbe} {l : Layout} (h : layoutOf c p = .ok l) :
    l.name = some LAYOUT ∧ l.monitor ≠ [] ∧ l.worker ≠ []
      ∧ ∀ core ∈ [l.monitor, l.worker], core ⊆ l.mask := by
  obtain ⟨cores, hcores, -, hparts, -, -, -, monitor, worker, rest, hordered, rfl⟩ :=
    layoutOf_eq_ok.mp h
  have hnonempty : ∀ core ∈ cores, core ≠ [] := mapM_all (fun _ _ => coreOf_ne_nil) hcores
  have hmem : ∀ core ∈ monitor :: worker :: rest, core ∈ cores.eraseDups := fun core hcore =>
    mem_coresInOrder.mp (hordered ▸ hcore)
  have hm := hmem monitor (by simp)
  have hw := hmem worker (by simp)
  refine ⟨rfl, hnonempty monitor (List.mem_eraseDups.mp hm),
    hnonempty worker (List.mem_eraseDups.mp hw), ?_⟩
  simpa using And.intro (hparts monitor hm) (hparts worker hw)

theorem nodup_eraseDups {α : Type} [BEq α] [LawfulBEq α] (xs : List α) : xs.eraseDups.Nodup := by
  induction hn : xs.length using Nat.strong_induction_on generalizing xs with
  | h n ih =>
      cases xs with
      | nil => simp
      | cons x rest =>
          rw [List.eraseDups_cons, List.nodup_cons]
          have hlen := List.length_filter_le (fun b => !b == x) rest
          simp only [List.length_cons] at hn
          exact ⟨by simp [List.mem_eraseDups], ih _ (by omega) _ rfl⟩

theorem prepare_ok {m : CostMonitor} {required : EvidenceRequirement} {p : HostProbe}
    {pre : Preflight} (h : prepare m required p = .ok pre) : Prepared m required pre := by
  obtain ⟨_, hrequired, h⟩ := bind_eq_ok.mp h
  obtain ⟨_, hallocation, h⟩ := bind_eq_ok.mp h
  obtain ⟨layout, hlayout, h⟩ := bind_eq_ok.mp h
  obtain ⟨cores, hcores, h⟩ := bind_eq_ok.mp h
  obtain ⟨_, -, h⟩ := bind_eq_ok.mp h
  obtain ⟨idle, hidle, h⟩ := bind_eq_ok.mp h
  cases h
  obtain ⟨hcontract, hidentity, hthresholds, htier⟩ :=
    requirementProblems_eq_nil.mp (refuseFor_eq_ok.mp hrequired)
  obtain ⟨hslots, hhosts, hexclusive, hsingle, hmodel, hncpus⟩ :=
    allocationProblems_eq_nil (List.append_eq_nil_iff.mp (refuseFor_eq_ok.mp hallocation)).1
  obtain ⟨hname, hmonitor, hworker, hmask⟩ := layoutOf_ok hlayout
  have hphysical : m.tier.ncpus.isSome = true → m.tier.ncpus = some cores := by
    unfold physicalCores at hcores
    simp only at hcores
    split at hcores
    · cases hcores
    · rename_i hfits
      cases hcores
      intro hsome
      exact not_not.mp fun hne => hfits ⟨hsome, hne⟩
  have hclean : ∃ seconds busy, idle = ⟨some seconds, some busy⟩ ∧ 0 < seconds ∧ 0 ≤ busy
      ∧ (checkA busy seconds m.thresholds).1 = true := by
    unfold idleProbe at hidle
    split at hidle
    · cases hidle
    · rename_i hvalid
      obtain ⟨hseconds, hbusy⟩ := not_or.mp hvalid
      simp only at hidle
      split at hidle
      · rename_i hok
        cases hidle
        exact ⟨_, _, rfl, not_le.mp hseconds, not_lt.mp hbusy, hok⟩
      · cases hidle
  exact {
    contract := hcontract
    identity := hidentity
    thresholds := hthresholds
    tier := htier
    slots := hslots
    hosts := hhosts
    exclusive := hexclusive
    single := hsingle
    model := hmodel
    ncpus := hncpus
    physical := hphysical
    layout := hname
    monitor := hmonitor
    worker := hworker
    mask := hmask
    idle := hclean }

theorem session_agrees {m : CostMonitor} {required : EvidenceRequirement} {pre : Preflight}
    (hp : Prepared m required pre) (workers : List WorkerRecord) :
    sessionProblems (endBundle m pre workers) required = [] :=
  sessionProblems_eq_nil.mpr ⟨rfl, congrArg some hp.contract.symm, congrArg some hp.identity.symm,
    congrArg some hp.thresholds.symm, congrArg some hp.tier.symm⟩

/-- The host and the allocation of an accepted preparation are admitted when the host has a
name and the cores are separate. -/
theorem placement_iff {m : CostMonitor} {identity : String} {tier : Tier} {pre : Preflight}
    (hp : Prepared m (requirement identity tier) pre) (workers : List WorkerRecord)
    {bundle : MonitoredBundle} (hhost : bundle.host = some m.context.host) :
    placementProblems bundle (endBundle m pre workers) (requirement identity tier) = [] ↔
      m.context.host ≠ ""
        ∧ Disjoint pre.layout.worker.toFinset pre.layout.monitor.toFinset := by
  obtain ⟨seconds, busy, hidle, hseconds, hbusy, hclean⟩ := hp.idle
  have htier : (requirement identity tier).tier = m.tier := hp.tier
  have hthresholds : (requirement identity tier).thresholds = m.thresholds := hp.thresholds
  have hslots : m.context.slots = some (requirement identity tier).slots := hp.slots
  have hlayout : pre.layout.name = some (requirement identity tier).layout := hp.layout
  have hmask : pre.layout.worker.toFinset ∪ pre.layout.monitor.toFinset
      ⊆ pre.layout.mask.toFinset := by
    intro cpu hcpu
    rcases Finset.mem_union.mp hcpu with hw | hm
    · exact List.mem_toFinset.mpr (hp.mask _ (by simp) (List.mem_toFinset.mp hw))
    · exact List.mem_toFinset.mpr (hp.mask _ (by simp) (List.mem_toFinset.mp hm))
  have hmodel : (m.tier.model.isSome
      && decide (m.context.selectors.model ≠ m.tier.model)) = false := by
    cases hsome : m.tier.model.isSome
    · rfl
    · simpa using hp.model hsome
  have hncpus : (m.tier.ncpus.isSome
      && decide (m.context.selectors.ncpus ≠ m.tier.ncpus)) = false := by
    cases hsome : m.tier.ncpus.isSome
    · rfl
    · simpa using hp.ncpus hsome
  have hphysical : (m.tier.ncpus.isSome
      && decide (some pre.physical_cores ≠ m.tier.ncpus)) = false := by
    cases hsome : m.tier.ncpus.isSome
    · rfl
    · simpa using (hp.physical hsome).symm
  have hdecisive : (decide (busy < 0) || !(checkA busy seconds m.thresholds).1) = false := by
    simp [hclean, hbusy]
  simp only [placementProblems, endBundle, htier, hthresholds, hslots, hlayout, hp.hosts,
    hp.exclusive, hp.single, hhost, hidle, hmodel, hncpus, hphysical, hdecisive, hmask,
    List.append_eq_nil_iff, flag_eq_nil, not_le.mpr hseconds, hp.worker, hp.monitor,
    List.toFinset_eq_empty_iff]
  simp

/-! ## A bundle -/

/-- The orders of the arms that a plan uses: one for each group of two jobs. -/
def plannedOrders (estimator : Estimator) (cases : List String) (count : ℕ)
    (orders : ℕ → ℕ → Order) : List Order :=
  (List.range count).flatMap fun round =>
    if estimator = .timing then [orders round 0]
    else cases.zipIdx.map fun entry => orders round entry.2

section Plan
variable {digest : String → String} {estimator : Estimator} {cases : List String} {count : ℕ}
  {orders : ℕ → ℕ → Order}

theorem plannedJobs_arms :
    (plannedJobs digest estimator cases count orders).map (·.2)
      = (plannedOrders estimator cases count orders).flatMap (·.1) := by
  simp only [plannedJobs, plannedOrders, List.map_flatMap, List.flatMap_assoc]
  congr 1
  funext round
  unfold roundJobs
  by_cases h : estimator = .timing
  · simp [h, List.map_map, Function.comp_def]
  · simp [h, List.map_flatMap, List.flatMap_map, List.map_map, Function.comp_def]

theorem orders_count (os : List Order) {arm : String} (harm : arm ∈ MEASURED_ARMS) :
    (os.flatMap (·.1)).count arm = os.length := by
  induction os with
  | nil => rfl
  | cons o rest ih =>
      have hone : o.1.count arm = 1 := by
        rw [o.2.count_eq]
        rcases List.mem_cons.mp harm with rfl | harm
        · decide
        · cases List.mem_singleton.mp harm
          decide
      simp only [List.flatMap_cons, List.count_append, List.length_cons, ih, hone]
      omega

theorem orders_length (os : List Order) : (os.flatMap (·.1)).length = os.length * 2 := by
  induction os with
  | nil => rfl
  | cons o rest ih =>
      have htwo : o.1.length = 2 := o.2.length_eq
      simp only [List.flatMap_cons, List.length_append, List.length_cons, ih, htwo]
      omega

theorem plannedOrders_length :
    (plannedOrders estimator cases count orders).length
      = if estimator = .timing then count else count * cases.length := by
  by_cases h : estimator = .timing <;>
    simp [plannedOrders, h, List.length_flatMap, List.map_const', List.sum_replicate]

theorem plannedJobs_length :
    (plannedJobs digest estimator cases count orders).length
      = expectedJobs estimator count cases.length := by
  have harms : ((plannedJobs digest estimator cases count orders).map (·.2)).length = _ :=
    congrArg List.length plannedJobs_arms
  rw [List.length_map, orders_length, plannedOrders_length] at harms
  rw [harms, expectedJobs]
  split <;> rfl

theorem orders_balanced (os : List Order) :
    balanced ((os.flatMap (·.1)).map some) = true ↔ os ≠ [] := by
  have hcount : ∀ arm ∈ MEASURED_ARMS,
      ((os.flatMap (·.1)).map some).count (some arm) = os.length := by
    intro arm harm
    rw [List.count_map_of_injective _ _ (Option.some_injective _), orders_count os harm]
  have hbaseline := hcount "baseline" (by simp [MEASURED_ARMS])
  have hevolved := hcount "evolved" (by simp [MEASURED_ARMS])
  constructor
  · rintro h rfl
    simp [balanced, ARMS] at h
  · intro hne
    have hpos : 0 < os.length := List.length_pos_iff.mpr hne
    simp only [balanced, Bool.and_eq_true, List.all_eq_true, beq_iff_eq, List.contains_iff_mem]
    refine ⟨⟨?_, ?_⟩, hbaseline.trans hevolved.symm⟩
    · intro arm harm
      obtain ⟨name, hname, rfl⟩ := List.mem_map.mp harm
      obtain ⟨o, -, ho⟩ := List.mem_flatMap.mp hname
      have hmem : name ∈ MEASURED_ARMS := o.2.mem_iff.mp ho
      simpa [ARMS, MEASURED_ARMS] using hmem
    · intro arm harm
      rcases List.mem_cons.mp harm with rfl | harm
      · exact List.count_pos_iff.mp (hbaseline ▸ hpos)
      · cases List.mem_singleton.mp harm
        exact List.count_pos_iff.mp (hevolved ▸ hpos)

/-- The arms of a plan are balanced when it has a round and a case. -/
theorem plannedJobs_balanced (hcount : 0 < count) (hcases : estimator = .timing → cases ≠ []) :
    balanced ((plannedJobs digest estimator cases count orders).map fun job => some job.2) = true ↔
      cases ≠ [] := by
  have harms : (plannedJobs digest estimator cases count orders).map (fun job => some job.2)
      = ((plannedOrders estimator cases count orders).flatMap (·.1)).map some := by
    rw [← plannedJobs_arms, List.map_map]
    rfl
  rw [harms, orders_balanced, ← List.length_pos_iff, plannedOrders_length, ← List.length_pos_iff]
  split
  · rename_i htiming
    exact iff_of_true hcount (List.length_pos_iff.mpr (hcases htiming))
  · simp [hcount]

end Plan

/-! ## The records of a bundle -/

section Collect
variable {m : CostMonitor} {layout : Layout} {processes entries : ℕ}
  {runs : ℕ → JobRun entries}

theorem collect_ok {job : String × String} {s s' : Measuring}
    (hclock : (runs s.workers.length).times.Pairwise (· < ·))
    (hok : collect m layout processes runs s job = .ok s') :
    some job.1 ∉ s.worker_jobs.map (·.job)
      ∧ ∃ record, s' = ⟨s.worker_jobs ++ [⟨some job.1, some job.2⟩], s.workers ++ [record]⟩
        ∧ record.job = some job.1 ∧ record.measurements.length = entries
        ∧ (RecordAdmissible m.thresholds layout.worker record ↔
          Timely m.thresholds (runs s.workers.length)) := by
  obtain ⟨_, hnew, hok⟩ := bind_eq_ok.mp hok
  obtain ⟨record, hrecord, hok⟩ := bind_eq_ok.mp hok
  cases hok
  refine ⟨fun hmem => ?_, record, rfl, runWorker_ok hclock hrecord⟩
  simp only [newDirectory, hmem, if_true] at hnew
  cases hnew

/-- What collecting jobs adds to a bundle, by induction on the jobs. -/
theorem collect_run {jobs : List (String × String)} {s s' : Measuring}
    (hclock : ∀ i < s.workers.length + jobs.length, (runs i).times.Pairwise (· < ·))
    (hok : jobs.foldlM (collect m layout processes runs) s = .ok s') :
    s'.worker_jobs = s.worker_jobs ++ jobs.map (fun job => ⟨some job.1, some job.2⟩)
      ∧ ((s.worker_jobs.map (·.job)).Nodup → (s'.worker_jobs.map (·.job)).Nodup)
      ∧ ∃ records, s'.workers = s.workers ++ records
        ∧ records.map (·.job) = jobs.map (fun job => some job.1)
        ∧ (∀ r ∈ records, r.measurements.length = entries)
        ∧ ((∀ r ∈ records, RecordAdmissible m.thresholds layout.worker r) ↔
          ∀ i, s.workers.length ≤ i → i < s.workers.length + jobs.length →
            Timely m.thresholds (runs i)) := by
  induction jobs generalizing s with
  | nil =>
      have heq : s = s' := Except.ok.inj hok
      subst heq
      exact ⟨by simp, id, [], by simp, rfl, by simp, by simp; omega⟩
  | cons job rest ih =>
      rw [List.foldlM_cons] at hok
      obtain ⟨mid, hmid, hrest⟩ := bind_eq_ok.mp hok
      obtain ⟨hnew, record, rfl, hjob, hlen, hiff⟩ :=
        collect_ok (hclock _ (by simp)) hmid
      obtain ⟨hjobs, hnodup, records, hworkers, hlabels, hlens, hadmissible⟩ := ih (by
        intro i hi
        simp only [List.length_append, List.length_singleton] at hi
        exact hclock i (by simp only [List.length_cons]; omega)) hrest
      refine ⟨by simp [hjobs], fun hd => hnodup ?_, record :: records, by simp [hworkers],
        by simp [hlabels, hjob], List.forall_mem_cons.mpr ⟨hlen, hlens⟩, ?_⟩
      · rw [List.map_append, List.nodup_append]
        refine ⟨hd, List.nodup_singleton _, ?_⟩
        intro a ha b hb hab
        cases List.mem_singleton.mp hb
        rw [hab] at ha
        exact hnew ha
      · rw [List.forall_mem_cons, hiff, hadmissible]
        simp only [List.length_append, List.length_nil, List.length_cons]
        constructor
        · rintro ⟨hfirst, hlater⟩ i hge hlt
          rcases hge.eq_or_lt with rfl | hgt
          · exact hfirst
          · exact hlater i (by omega) (by omega)
        · intro hall
          exact ⟨hall _ (le_refl _) (by omega), fun i hge hlt => hall i (by omega) (by omega)⟩

theorem measuredEntries_eq {records : List WorkerRecord}
    (hnodup : (records.map (·.job)).Nodup)
    (hlen : ∀ r ∈ records, r.measurements.length = entries) {label : Option String}
    (hmem : label ∈ records.map (·.job)) : measuredEntries records label = entries := by
  induction records with
  | nil => simp at hmem
  | cons r rest ih =>
      obtain ⟨hr, hrest⟩ := List.nodup_cons.mp hnodup
      obtain ⟨hfirst, hlater⟩ := List.forall_mem_cons.mp hlen
      by_cases heq : r.job = label
      · have hnone : rest.filter (·.job == label) = [] := by
          rw [List.filter_eq_nil_iff]
          intro x hx hlabel
          have hsame : x.job = r.job := (beq_iff_eq.mp hlabel).trans heq.symm
          exact hr (List.mem_map.mpr ⟨x, hx, hsame⟩)
        simp [measuredEntries, heq, hnone, hfirst]
      · have hother : label ∈ rest.map (·.job) := by
          rcases List.mem_cons.mp hmem with hsame | hother
          · exact absurd hsame.symm heq
          · exact hother
        simpa [measuredEntries, heq] using ih hrest hlater hother

end Collect

theorem regimeCounts_pos {estimator : Estimator} {protocol : Protocol} {counts : Counts}
    (h : regimeCounts estimator protocol = .ok counts) {regime : Regime} {count : ℕ}
    (hr : counts.get regime = some (count : ℤ)) : 0 < count := by
  obtain ⟨screen, normal, rerun⟩ := counts
  have hbounds : 0 ≤ screen ∧ screen < normal ∧ normal < rerun := by
    unfold regimeCounts at h
    cases estimator <;>
      · simp only at h
        split_ifs at h with hvalid
        cases h
        exact hvalid
  cases regime with
  | screen =>
      simp only [Counts.get] at hr
      split at hr
      · cases hr
      · cases hr
        omega
  | normal =>
      have heq : normal = (count : ℤ) := Option.some.inj hr
      omega
  | rerun =>
      have heq : rerun = (count : ℤ) := Option.some.inj hr
      omega

/-- The evidence of a measurement that the monitor let finish is admitted exactly when the
host has a name, the panel a case, the worker and the monitor separate cores, and no window
of any job was left open for too long. -/
theorem monitor_agrees_iff (m : CostMonitor) (identity : String) (tier : Tier)
    (probe : HostProbe) (pre : Preflight)
    (hprepare : prepare m (requirement identity tier) probe = .ok pre)
    (estimator : Estimator) (protocol : Protocol) (counts : Counts)
    (hcounts : regimeCounts estimator protocol = .ok counts)
    (regime : Regime) (count : ℕ) (hregime : counts.get regime = some (count : ℤ))
    (digest : String → String) (cases : List String) (orders : ℕ → ℕ → Order)
    (processes : ℕ) (runs : ℕ → JobRun (entriesPerJob estimator cases.length))
    (hclock : ∀ i < expectedJobs estimator count cases.length,
      (runs i).times.Pairwise (· < ·))
    (bundle : MonitoredBundle)
    (hok : collectPanel m pre processes digest estimator cases count orders runs = .ok bundle) :
    problems bundle (requirement identity tier) estimator count cases.length = [] ↔
      m.context.host ≠ "" ∧ cases ≠ []
        ∧ Disjoint pre.layout.worker.toFinset pre.layout.monitor.toFinset
        ∧ ∀ i < expectedJobs estimator count cases.length, Timely m.thresholds (runs i) := by
  have hp := prepare_ok hprepare
  obtain ⟨_, hbatch, hok⟩ := bind_eq_ok.mp hok
  obtain ⟨s, hs, hok⟩ := bind_eq_ok.mp hok
  cases hok
  have hcases : estimator = .timing → cases ≠ [] := by
    rintro htiming rfl
    simp only [batchCase, htiming, and_self, if_true] at hbatch
    cases hbatch
  obtain ⟨hjobs, hnodup, records, hworkers, hlabels, hlens, hadmissible⟩ := collect_run (by
    simpa [plannedJobs_length] using hclock) hs
  simp only [List.nil_append, List.map_nil, List.nodup_nil, forall_const] at hjobs hnodup hworkers
  simp only [List.length_nil, Nat.zero_le, forall_const, Nat.zero_add, plannedJobs_length]
    at hadmissible
  have hbalanced : balanced ((plannedJobs digest estimator cases count orders).map
      fun job => some job.2) = true ↔ cases ≠ [] :=
    plannedJobs_balanced (regimeCounts_pos hcounts hregime) hcases
  have hsame : s.workers.map (·.job) = s.worker_jobs.map (·.job) := by
    rw [hworkers, hlabels, hjobs, List.map_map]
    rfl
  have hcoverage : Coverage s.worker_jobs s.workers m.thresholds pre.layout.worker estimator
      count cases.length ↔
        cases ≠ [] ∧ ∀ r ∈ records, RecordAdmissible m.thresholds pre.layout.worker r := by
    have harms : s.worker_jobs.map (·.arm)
        = (plannedJobs digest estimator cases count orders).map fun job => some job.2 := by
      rw [hjobs, List.map_map]
      rfl
    constructor
    · intro h
      exact ⟨hbalanced.mp (harms ▸ h.arms), fun r hr => h.admissible r (hworkers ▸ hr)⟩
    · rintro ⟨hne, hrecords⟩
      exact {
        count := by rw [hjobs, List.length_map, plannedJobs_length]
        distinct := hnodup
        arms := harms ▸ hbalanced.mpr hne
        monitored := fun label hlabel => hsame ▸ hlabel
        own := fun job hjob => hsame ▸ hjob
        admissible := fun r hr => hrecords r (hworkers ▸ hr)
        measured := fun label hlabel =>
          measuredEntries_eq (hsame ▸ hnodup) (hworkers ▸ hlens) (hsame ▸ hlabel) }
  rw [problems_eq_nil]
  simp only [true_and, Option.some.injEq, exists_eq_left', session_agrees hp]
  rw [placement_iff hp s.workers rfl, show (requirement identity tier).thresholds = m.thresholds
    from hp.thresholds, show (endBundle m pre s.workers).workers = s.workers from rfl,
    show (endBundle m pre s.workers).layout = pre.layout from rfl, hcoverage, hadmissible]
  tauto

/-! A host of ten cores, of which the job holds nine, and one screen round of a panel of one
case, whose worker computes without interference. -/

def sampleMonitor : CostMonitor where
  context := {
    scheduler := some "lsf"
    host := "node"
    hosts := ["node"]
    slots := some 9
    resource_request := some "affinity[core(1,exclusive=(core,alljobs))] span[hosts=1]"
    exclusive_cores_requested := true
    single_host_requested := true
    selectors := ⟨none, some 10⟩
    bind_cpus := none
    affinity_file_cpus := none }
  tier := ⟨none, some 10⟩
  attempt := "cost-a01"
  thresholds := THRESHOLDS
  identity := "measured"

def sampleProbe (siblings : ℕ → Option (List ℕ)) : HostProbe where
  unavailable := none
  affinity := List.range 9
  online := List.range 10
  siblings := siblings
  coordinator := [⟨"coordinator", 1, [0]⟩]
  idle_seconds := 2
  idle_busy := 0

def sampleReading (time : ℚ) : Reading where
  time := time
  worker := [⟨"worker", 2, [1]⟩]
  coordinator := [⟨"coordinator", 1, [0]⟩]
  counters := some (time, [(2, time)])

/-- A job whose poll inside its measured entry comes at `poll` seconds. -/
def sampleRun (poll : ℚ) : JobRun 1 where
  pid := 2
  launch := sampleReading 0
  polls := [
    ⟨sampleReading 1, some (.B, sampleReading 2)⟩,
    ⟨sampleReading poll, some (.E, sampleReading (poll + 1))⟩]
  exit := sampleReading (poll + 2)
  returncode := 0
  complete := rfl

def sampleProtocol : Protocol where
  quality_batch_size := 8
  screen_rounds := some 1
  timing_rounds := none
  companion_rounds := none
  memory_processes := none
  rerun_multiplier := none

def sampleOrder : Order := ⟨MEASURED_ARMS, List.Perm.refl _⟩

def samplePreflight : Preflight where
  physical_cores := 10
  layout := ⟨some LAYOUT, List.range 9, [0], [1]⟩
  idle_probe := ⟨some 2, some 0⟩

def sampleCollect (poll : ℚ) : Except Stop MonitoredBundle :=
  collectPanel sampleMonitor samplePreflight 0 id .timing ["case"] 1 (fun _ _ => sampleOrder)
    fun _ => sampleRun poll

theorem samplePrepared : prepare sampleMonitor (requirement "measured" ⟨none, some 10⟩)
    (sampleProbe fun cpu => some [cpu]) = .ok samplePreflight := by
  decide +kernel

theorem sampleRun_clock {poll : ℚ} (h : 2 < poll) : (sampleRun poll).times.Pairwise (· < ·) := by
  simp only [sampleRun, JobRun.times, JobRun.calls, Poll.calls, Call.time, sampleReading,
    List.flatMap_cons, List.flatMap_nil, List.map_cons, List.map_nil, List.append_nil,
    Option.map_some, Option.toList_some, List.cons_append, List.nil_append, List.pairwise_cons,
    List.mem_cons, List.not_mem_nil, or_false, forall_eq_or_imp, forall_eq, false_implies,
    implies_true, List.Pairwise.nil, and_true]
  refine ⟨⟨?_, ?_, ?_, ?_, ?_⟩, ⟨?_, ?_, ?_, ?_⟩, ⟨?_, ?_, ?_⟩, ⟨?_, ?_⟩, ?_⟩ <;> linarith

theorem monitor_agrees_iff_sample :
    ∃ bundle, sampleCollect 3 = .ok bundle
      ∧ problems bundle (requirement "measured" ⟨none, some 10⟩) .timing 1 1 = [] := by
  have hok : (sampleCollect 3).isOk = true := by decide +kernel
  cases hbundle : sampleCollect 3 with
  | error e => simp [hbundle, Except.isOk, Except.toBool] at hok
  | ok bundle =>
      refine ⟨bundle, rfl, (monitor_agrees_iff sampleMonitor "measured" ⟨none, some 10⟩
        (sampleProbe fun cpu => some [cpu]) samplePreflight samplePrepared .timing sampleProtocol
        ⟨1, 10, 20⟩ rfl .screen 1 rfl id ["case"] (fun _ _ => sampleOrder) 0
        (fun _ => sampleRun 3) (fun _ _ => sampleRun_clock (by norm_num)) bundle hbundle).mpr ?_⟩
      have htimely : Timely THRESHOLDS (sampleRun 3) := by decide +kernel
      exact ⟨by decide, by decide, by decide, fun _ _ => htimely⟩

/-- A poll that comes six seconds after the start of a measured entry leaves a window that
the monitor passes and the validator refuses. -/
theorem late_poll_refused :
    ∃ bundle, prepare sampleMonitor (requirement "measured" ⟨none, some 10⟩)
        (sampleProbe fun cpu => some [cpu]) = .ok samplePreflight
      ∧ (∀ i < expectedJobs .timing 1 1, ((fun _ => sampleRun 8) i).times.Pairwise (· < ·))
      ∧ sampleCollect 8 = .ok bundle
      ∧ problems bundle (requirement "measured" ⟨none, some 10⟩) .timing 1 1 ≠ [] := by
  have hfound : (match sampleCollect 8 with
      | .ok bundle => problems bundle (requirement "measured" ⟨none, some 10⟩) .timing 1 1
      | .error _ => []) ≠ [] := by
    decide +kernel
  cases hbundle : sampleCollect 8 with
  | error e => simp [hbundle] at hfound
  | ok bundle =>
      rw [hbundle] at hfound
      exact ⟨bundle, samplePrepared, fun _ _ => sampleRun_clock (by norm_num), rfl, hfound⟩

end TranspileBench.Lsf
