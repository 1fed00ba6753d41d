import TranspileBench.Lsf.CpuList
import Mathlib

/-!
The host that the files of Linux describe: a cost job is placed exactly when its mask is nine
whole physical cores of a host that has more.
-/
namespace TranspileBench.Lsf
open Fallible

/-! ## The host -/

/-- A host: the CPUs that are online, in order, each of which is a thread of a physical core. -/
structure Topology where
  cpus : List ℕ
  sorted : cpus.Pairwise (· < ·)
  core : ℕ → ℕ

def Topology.threads (t : Topology) (core : ℕ) : List ℕ :=
  t.cpus.filter fun cpu => t.core cpu = core

/-- The files of `/sys/devices/system/cpu`. -/
structure CpuFiles where
  online : String
  thread_siblings_list : ℕ → Option String

/-- `LinuxProbe.online_cpus` and `LinuxProbe.siblings`, of a host with these files. -/
def HostProbe.reading (p : HostProbe) (files : CpuFiles) : HostProbe :=
  { p with
    online := (parseCpuList (some files.online)).getD []
    siblings := fun cpu => (files.thread_siblings_list cpu).bind fun text =>
      parseCpuList (some text) }

/-- A text that lists these CPUs, in whatever ranges. -/
def Lists (text : String) (cpus : List ℕ) : Prop :=
  ∃ ranges ending, LineEnd ending ∧ text = String.ofList (cpuListText ending ranges) ∧
    ∀ cpu, cpu ∈ cpus ↔ cpu ∈ ranges.flatMap CpuRange.cpus

/-- The files of a host as Linux writes them. -/
structure CpuFiles.Describe (files : CpuFiles) (t : Topology) : Prop where
  online : Lists files.online t.cpus
  siblings : ∀ cpu ∈ t.cpus, ∃ text, files.thread_siblings_list cpu = some text ∧
    Lists text (t.threads (t.core cpu))

/-- A mask of nine whole physical cores of a host that has more CPUs, and the one that LSF
says it granted. -/
structure Topology.Reserves (t : Topology) (c : Context) (mask : List ℕ) : Prop where
  bound : ∃ cpu ∈ t.cpus, cpu ∉ mask
  whole : ∀ cpu ∈ mask, ∀ other ∈ t.cpus, t.core other = t.core cpu → other ∈ mask
  nine : (mask.toFinset.image t.core).card = COST_SLOTS
  bind_cpus : ∀ granted, c.bind_cpus = some granted → granted ≠ [] → granted.toFinset
    = mask.toFinset
  affinity_file_cpus : ∀ granted, c.affinity_file_cpus = some granted → granted ≠ [] →
    granted.toFinset = mask.toFinset

/-- The core of the lowest CPU is the monitor's, that of the lowest CPU outside it the worker's. -/
structure Topology.Places (t : Topology) (mask : List ℕ) (l : Layout) : Prop where
  named : l.name = some LAYOUT
  whole : l.mask = mask
  monitor : ∃ cpu ∈ mask, (∀ other ∈ mask, cpu ≤ other) ∧ l.monitor = t.threads (t.core cpu)
  worker : ∃ cpu ∈ mask, cpu ∉ l.monitor ∧ (∀ other ∈ mask, other ∉ l.monitor → cpu ≤ other) ∧
    l.worker = t.threads (t.core cpu)

section Placement
variable {t : Topology} {files : CpuFiles} {c : Context} {p : HostProbe} {mask : List ℕ}

theorem parseCpuList_lists {text : String} {cpus : List ℕ} (h : Lists text cpus)
    (hsorted : cpus.Pairwise (· < ·)) (hne : cpus ≠ []) : parseCpuList (some text) = some cpus := by
  obtain ⟨ranges, ending, hending, rfl, hmem⟩ := h
  obtain ⟨read, hread, hflat⟩ := Option.map_eq_some_iff.mp (entries_text hending ranges)
  have hsome : read.flatten ≠ [] := by
    obtain ⟨cpu, hcpu⟩ := List.exists_mem_of_ne_nil _ hne
    rw [hflat]
    exact List.ne_nil_of_mem ((hmem cpu).mp hcpu)
  have hperm : (read.flatten.dedup.insertionSort (· ≤ ·)).Perm cpus := by
    refine (List.perm_insertionSort _ _).trans ?_
    refine (List.perm_ext_iff_of_nodup (List.nodup_dedup _) (hsorted.imp Nat.ne_of_lt)).mpr
      fun cpu => ?_
    rw [List.mem_dedup, hflat, hmem]
  have hequal : read.flatten.dedup.insertionSort (· ≤ ·) = cpus :=
    hperm.eq_of_pairwise (fun _ _ _ _ => le_antisymm) (List.pairwise_insertionSort _ _)
      (hsorted.imp Nat.le_of_lt)
  rw [parseCpuList, Option.getD_some, String.toList_ofList, hread]
  simp only [Option.bind_eq_bind, Option.bind_some, if_neg hsome, hequal]

theorem Topology.mem_threads {cpu core : ℕ} :
    cpu ∈ t.threads core ↔ cpu ∈ t.cpus ∧ t.core cpu = core := by
  simp [threads]

theorem Topology.threads_sorted (core : ℕ) : (t.threads core).Pairwise (· < ·) :=
  t.sorted.filter _

theorem Topology.threads_inj {cpu core : ℕ} (hcpu : cpu ∈ t.cpus)
    (h : t.threads (t.core cpu) = t.threads core) : t.core cpu = core :=
  (t.mem_threads.mp (h ▸ t.mem_threads.mpr ⟨hcpu, rfl⟩)).2

theorem coreOf_reading (h : files.Describe t) {cpu : ℕ} (hcpu : cpu ∈ t.cpus) :
    coreOf (p.reading files) cpu = .ok (t.threads (t.core cpu)) := by
  obtain ⟨text, htext, hlists⟩ := h.siblings cpu hcpu
  have hmem : cpu ∈ t.threads (t.core cpu) := t.mem_threads.mpr ⟨hcpu, rfl⟩
  have hsiblings : (p.reading files).siblings cpu = some (t.threads (t.core cpu)) := by
    rw [HostProbe.reading]
    dsimp only
    rw [htext, Option.bind_some]
    exact parseCpuList_lists hlists (t.threads_sorted _) (List.ne_nil_of_mem hmem)
  rw [coreOf, hsiblings]
  exact if_pos hmem

theorem online_reading (h : files.Describe t) (hcpus : t.cpus ≠ []) :
    (p.reading files).online = t.cpus := by
  rw [HostProbe.reading]
  dsimp only
  rw [parseCpuList_lists h.online t.sorted hcpus, Option.getD_some]

/-- The cores of a mask, each once. -/
def Topology.cores (t : Topology) (mask : List ℕ) : List (List ℕ) :=
  (mask.map fun cpu => t.threads (t.core cpu)).eraseDups

theorem Topology.mem_cores {core : List ℕ} :
    core ∈ t.cores mask ↔ ∃ cpu ∈ mask, t.threads (t.core cpu) = core := by
  rw [cores, List.mem_eraseDups, List.mem_map]

theorem Topology.cores_length (hmask : ∀ cpu ∈ mask, cpu ∈ t.cpus) :
    (t.cores mask).length = (mask.toFinset.image t.core).card := by
  have himage : (t.cores mask).toFinset = (mask.toFinset.image t.core).image t.threads := by
    ext core
    simp [t.mem_cores]
  have hinj : Set.InjOn t.threads (mask.toFinset.image t.core : Finset ℕ) := by
    intro a ha b hb heq
    obtain ⟨cpu, hcpu, rfl⟩ := Finset.mem_image.mp ha
    exact t.threads_inj (hmask cpu (List.mem_toFinset.mp hcpu)) heq
  have hnodup : (t.cores mask).Nodup := nodup_eraseDups _
  rw [← List.toFinset_card_of_nodup hnodup, himage, Finset.card_image_of_injOn hinj]

theorem Topology.cores_whole :
    (∀ core ∈ t.cores mask, core ⊆ mask) ↔
      ∀ cpu ∈ mask, ∀ other ∈ t.cpus, t.core other = t.core cpu → other ∈ mask := by
  simp only [t.mem_cores, List.subset_def, forall_exists_index, and_imp, forall_apply_eq_imp_iff₂,
    t.mem_threads]

theorem Topology.Reserves.cpus_ne_nil (h : t.Reserves c mask) : t.cpus ≠ [] := by
  obtain ⟨cpu, hcpu, -⟩ := h.bound
  exact List.ne_nil_of_mem hcpu

theorem online_bound (h : files.Describe t) (hcpus : t.cpus ≠ []) :
    ¬ ((p.reading files).online ≠ [] ∧ (p.reading files).online.toFinset ⊆ mask.toFinset) ↔
      ∃ cpu ∈ t.cpus, cpu ∉ mask := by
  rw [online_reading h hcpus, not_and]
  simp [hcpus, Finset.not_subset]

/-- What `_layout` checks and gives on a host with these files. -/
theorem layoutOf_reading (h : files.Describe t)
    (hmask : ∀ cpu ∈ p.affinity, cpu ∈ t.cpus) {l : Layout} :
    layoutOf c (p.reading files) = .ok l ↔ t.Reserves c p.affinity ∧
      ∃ monitor worker rest, coresInOrder (t.cores p.affinity) = monitor :: worker :: rest ∧
        l = ⟨some LAYOUT, p.affinity, monitor, worker⟩ := by
  have hread : (p.reading files).affinity.mapM (coreOf (p.reading files)) =
      .ok (p.affinity.map fun cpu => t.threads (t.core cpu)) :=
    mapM_total fun cpu hcpu => coreOf_reading h (hmask cpu hcpu)
  rw [layoutOf_eq_ok]
  constructor
  · rintro ⟨cores, hcores, hbound, hparts, hnine, hbind, hfile, hlayout⟩
    obtain rfl := Except.ok.inj (hread.symm.trans hcores)
    have hnine := (t.cores_length hmask).symm.trans hnine
    obtain ⟨cpu, hcpu⟩ : ∃ cpu, cpu ∈ p.affinity.toFinset := by
      refine Finset.nonempty_iff_ne_empty.mpr ?_
      intro hempty
      rw [hempty] at hnine
      cases hnine
    have hcpus : t.cpus ≠ [] := List.ne_nil_of_mem (hmask cpu (List.mem_toFinset.mp hcpu))
    exact ⟨⟨(online_bound h hcpus).mp hbound, t.cores_whole.mp hparts, hnine, hbind, hfile⟩,
      hlayout⟩
  · rintro ⟨hreserves, hlayout⟩
    exact ⟨_, hread, (online_bound h hreserves.cpus_ne_nil).mpr hreserves.bound,
      t.cores_whole.mpr hreserves.whole, (t.cores_length hmask).trans hreserves.nine,
      hreserves.bind_cpus, hreserves.affinity_file_cpus, hlayout⟩

/-- The lowest CPU of a core is one of the mask, and gives the core its place in the order. -/
theorem Topology.Reserves.lowest (h : t.Reserves c mask) (hmask : ∀ cpu ∈ mask, cpu ∈ t.cpus)
    {core : List ℕ} (hcore : core ∈ t.cores mask) :
    ∃ cpu ∈ mask, core = t.threads (t.core cpu) ∧ core.min?.getD 0 = cpu ∧ ∀ other ∈ core,
      cpu ≤ other := by
  obtain ⟨cpu, hcpu, rfl⟩ := t.mem_cores.mp hcore
  have hmem : cpu ∈ t.threads (t.core cpu) := t.mem_threads.mpr ⟨hmask cpu hcpu, rfl⟩
  obtain ⟨least, hleast⟩ := Option.isSome_iff_exists.mp (List.isSome_min?_of_mem hmem)
  obtain ⟨hthread, hbelow⟩ := List.min?_eq_some_iff.mp hleast
  obtain ⟨hlt, hsame⟩ := t.mem_threads.mp hthread
  exact ⟨least, h.whole cpu hcpu least hlt
    hsame, by rw [hsame], by rw [hleast, Option.getD_some], hbelow⟩

theorem coresInOrder_places (h : t.Reserves c mask) (hmask : ∀ cpu ∈ mask, cpu ∈ t.cpus)
    {monitor worker : List ℕ} {rest : List (List ℕ)}
    (hordered : coresInOrder (t.cores mask) = monitor :: worker :: rest) :
    t.Places mask ⟨some LAYOUT, mask, monitor, worker⟩ := by
  have hsorted : (coresInOrder (t.cores mask)).Pairwise fun a b => a.min?.getD 0 ≤ b.min?.getD 0 :=
    List.pairwise_insertionSort _ _
  have hnodup : (coresInOrder (t.cores mask)).Nodup :=
    nodup_coresInOrder.mpr (nodup_eraseDups _)
  have hmem : ∀ cpu ∈ mask, t.threads (t.core cpu) ∈ coresInOrder (t.cores mask) := fun cpu hcpu =>
    mem_coresInOrder.mpr (t.mem_cores.mpr ⟨cpu, hcpu, rfl⟩)
  have hself : ∀ cpu ∈ mask, cpu ∈ t.threads (t.core cpu) := fun cpu hcpu =>
    t.mem_threads.mpr ⟨hmask cpu hcpu, rfl⟩
  have hin : ∀ core ∈ coresInOrder (t.cores mask), core ∈ t.cores mask := fun _ hcore =>
    mem_coresInOrder.mp hcore
  rw [hordered] at hsorted hnodup hmem hin
  obtain ⟨hfirst, hsecond⟩ := List.pairwise_cons.mp hsorted
  obtain ⟨hsecond, -⟩ := List.pairwise_cons.mp hsecond
  obtain ⟨a, ha, hmonitor, halow, habelow⟩ := h.lowest hmask (hin monitor (by simp))
  obtain ⟨b, hb, hworker, hblow, hbbelow⟩ := h.lowest hmask (hin worker (by simp))
  -- a core that is not the first comes after it, and so on
  have hlow : ∀ cpu ∈ mask, ∀ least, (t.threads (t.core cpu)).min?.getD 0
      = least → least ≤ cpu := by
    rintro cpu hcpu _ rfl
    obtain ⟨least, -, -, hleast, hbelow⟩ := h.lowest hmask (t.mem_cores.mpr ⟨cpu, hcpu, rfl⟩)
    exact hleast ▸ hbelow cpu (hself cpu hcpu)
  refine ⟨rfl, rfl, ⟨a, ha, fun other hother => ?_, hmonitor⟩, b, hb, fun hcontra => ?_,
    fun other hother hout => ?_, hworker⟩
  · rcases List.mem_cons.mp (hmem other hother) with hsame | hafter
    · exact habelow other (hsame ▸ hself other hother)
    · exact halow ▸ (hfirst _ hafter).trans (hlow other hother _ rfl)
  · have hsame : t.core b = t.core a := (t.mem_threads.mp (hmonitor ▸ hcontra)).2
    refine (List.nodup_cons.mp hnodup).1 ?_
    rw [hmonitor, ← hsame, ← hworker]
    exact List.mem_cons_self
  · rcases List.mem_cons.mp (hmem other hother) with hsame | hafter
    · exact absurd (hsame ▸ hself other hother) hout
    · rcases List.mem_cons.mp hafter with hsame | hafter
      · exact hbbelow other (hsame ▸ hself other hother)
      · exact hblow ▸ (hsecond _ hafter).trans (hlow other hother _ rfl)

theorem Topology.Places.unique {l l' : Layout} (h : t.Places mask l) (h' : t.Places mask l') :
    l = l' := by
  obtain ⟨a, ha, hleast, hmonitor⟩ := h.monitor
  obtain ⟨a', ha', hleast', hmonitor'⟩ := h'.monitor
  obtain rfl : a = a' := le_antisymm (hleast a' ha') (hleast' a ha)
  have hsame : l.monitor = l'.monitor := hmonitor.trans hmonitor'.symm
  obtain ⟨b, hb, hout, hnext, hworker⟩ := h.worker
  obtain ⟨b', hb', hout', hnext', hworker'⟩ := h'.worker
  rw [← hsame] at hout' hnext'
  obtain rfl : b = b' := le_antisymm (hnext b' hb' hout') (hnext' b hb hout)
  cases l
  cases l'
  exact Layout.mk.injEq .. ▸ ⟨h.named.trans h'.named.symm, h.whole.trans h'.whole.symm, hsame,
    hworker.trans hworker'.symm⟩

/-- On a host whose files say what its cores are, a layout is accepted exactly when the mask is
nine whole physical cores of a host that has more and the one that LSF granted, and it is the
layout that gives the lowest core to the monitor and the next to the worker. -/
theorem layout_accepted_iff (h : files.Describe t)
    (hmask : ∀ cpu ∈ p.affinity, cpu ∈ t.cpus) {l : Layout} :
    layoutOf c (p.reading files) = .ok l ↔ t.Reserves c p.affinity ∧ t.Places p.affinity l := by
  rw [layoutOf_reading h hmask]
  refine and_congr_right fun hreserves => ?_
  constructor
  · rintro ⟨monitor, worker, rest, hordered, rfl⟩
    exact coresInOrder_places hreserves hmask hordered
  · intro hplaces
    have hlength : (coresInOrder (t.cores p.affinity)).length = COST_SLOTS := by
      rw [coresInOrder, List.length_insertionSort, t.cores_length hmask, hreserves.nine]
    cases hfirst : coresInOrder (t.cores p.affinity) with
    | nil => simp [hfirst, COST_SLOTS] at hlength
    | cons monitor others =>
        cases others with
        | nil => simp [hfirst, COST_SLOTS] at hlength
        | cons worker rest =>
            exact ⟨monitor, worker, rest, rfl,
              hplaces.unique (coresInOrder_places hreserves hmask hfirst)⟩

/-- A host of ten cores with two threads each, whose second threads come after all the first.
The CPUs 10 and 11 are not online. -/
def tenCores : Topology where
  cpus := List.range 10 ++ (List.range 10).map (· + 12)
  sorted := by decide
  core := fun cpu => cpu % 12

def tenCoreFiles : CpuFiles where
  online := "0-9,12-21\n"
  thread_siblings_list := fun cpu =>
    some (toString (cpu % 12) ++ "," ++ toString (cpu % 12 + 12) ++ "\n")

theorem mem_tenCores {cpu : ℕ} : cpu ∈ tenCores.cpus ↔ cpu < 10 ∨ 12 ≤ cpu ∧ cpu < 22 := by
  simp only [tenCores, List.mem_append, List.mem_range, List.mem_map]
  constructor
  · rintro (h | ⟨first, h, rfl⟩)
    · exact .inl h
    · exact .inr (by omega)
  · rintro (h | h)
    · exact .inl h
    · exact .inr ⟨cpu - 12, by omega, by omega⟩

theorem tenCoreFiles_describe : tenCoreFiles.Describe tenCores := by
  constructor
  · refine ⟨[⟨0, 9, by decide⟩, ⟨12, 21, by decide⟩], ['\n'], .inr rfl, rfl, fun cpu => ?_⟩
    simp only [mem_tenCores, List.flatMap_cons, List.flatMap_nil, List.append_nil, List.mem_append,
      CpuRange.mem_cpus]
    omega
  · intro cpu hcpu
    refine ⟨_, rfl, [⟨cpu % 12, cpu % 12, le_refl _⟩, ⟨cpu % 12 + 12, cpu % 12 + 12, le_refl _⟩],
      ['\n'], .inr rfl, ?_, fun other => ?_⟩
    · simp [String.ext_iff, cpuListText, CpuRange.text]
    · have hcore : tenCores.core cpu = cpu % 12 := rfl
      have hother : tenCores.core other = other % 12 := rfl
      have hcpu := mem_tenCores.mp hcpu
      simp only [Topology.mem_threads, mem_tenCores, hcore, hother, List.flatMap_cons,
        List.flatMap_nil, List.append_nil, List.mem_append, CpuRange.mem_cpus]
      omega

def nineCores : List ℕ := [0, 1, 2, 3, 4, 5, 6, 7, 8, 12, 13, 14, 15, 16, 17, 18, 19, 20]

theorem layout_accepted_nine :
    layoutOf (sampleMonitor.context)
      (({ sampleProbe (fun _ => none) with affinity := nineCores }).reading
      tenCoreFiles) = .ok ⟨some LAYOUT, nineCores, [0, 12], [1, 13]⟩ := by
  refine (layout_accepted_iff tenCoreFiles_describe (by decide)).mpr
    ⟨⟨?_, ?_, ?_, ?_, ?_⟩, ⟨rfl, rfl, ?_, ?_⟩⟩
  · exact ⟨9, by decide, by decide⟩
  · decide
  · decide
  · exact fun _ h => by cases h
  · exact fun _ h => by cases h
  · exact ⟨0, by decide, by decide, by decide⟩
  · exact ⟨1, by decide, by decide, by decide, by decide⟩

end Placement

end TranspileBench.Lsf
