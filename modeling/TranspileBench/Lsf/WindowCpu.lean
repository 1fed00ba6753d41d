import TranspileBench.Lib.Assoc
import TranspileBench.Lsf.ProcessEvents
import TranspileBench.Lsf.Watching

/-!
What a worker's windows count while its process tree goes on. A sample holds the counters of
the processes in the tree, so two samples differ in total by what the tree ran between them,
wherever the time of a reaped process went.
-/
namespace TranspileBench.Lsf
open Fallible

/-! ## What `process_cpu` reads -/

namespace ProcessTable
variable {V : Type}

theorem mem_set {t : ProcessTable V} {pid p : ℕ} {value v : V} :
    (p, v) ∈ (t.set pid value).entries
      ↔ if p = pid then v = value else (p, v) ∈ t.entries := by
  have hentries : (t.set pid value).entries = put t.entries pid value := rfl
  rw [hentries, put]
  by_cases hkey : pid ∈ t.entries.map (·.1)
  · rw [if_pos hkey, List.mem_map]
    by_cases hp : p = pid
    · rw [if_pos hp]
      constructor
      · intro h
        obtain ⟨entry, _, heq⟩ := h
        by_cases hentry : entry.1 = pid
        · rw [if_pos hentry] at heq
          exact (Prod.mk.inj heq).2.symm
        · rw [if_neg hentry] at heq
          exact absurd ((congrArg Prod.fst heq).trans hp) hentry
      · intro h
        obtain ⟨entry, hmem, hentry⟩ := List.mem_map.mp hkey
        exact ⟨entry, hmem, by rw [if_pos hentry, hp, h]⟩
    · rw [if_neg hp]
      constructor
      · intro h
        obtain ⟨entry, hmem, heq⟩ := h
        by_cases hentry : entry.1 = pid
        · rw [if_pos hentry] at heq
          exact absurd (Prod.mk.inj heq).1.symm hp
        · rw [if_neg hentry] at heq
          exact heq ▸ hmem
      · intro h
        exact ⟨(p, v), h, if_neg hp⟩
  · rw [if_neg hkey, List.mem_append, List.mem_singleton, Prod.mk.injEq]
    by_cases hp : p = pid
    · have hnone : (p, v) ∉ t.entries := fun h =>
        hkey (List.mem_map.mpr ⟨(p, v), h, hp⟩)
      simp [hp, hp ▸ hnone]
    · simp [hp]

/-- Values set for a list of ids. -/
theorem mem_foldl_set (f : ℕ → V) (pids : List ℕ) (t : ProcessTable V) (p : ℕ) (v : V) :
    (p, v) ∈ (pids.foldl (fun t pid => t.set pid (f pid)) t).entries
      ↔ if p ∈ pids then v = f p else (p, v) ∈ t.entries := by
  induction pids generalizing t with
  | nil => simp
  | cons pid pids ih =>
      rw [List.foldl_cons, ih, mem_set]
      by_cases hmore : p ∈ pids
      · simp [hmore]
      · by_cases hp : p = pid
        · simp [hp]
        · simp [hmore, hp]

end ProcessTable

/-- The table is read at one moment: each process of the host is listed with its counters. -/
structure Snapshot (m : Machine) (proc : LinuxProbe.Listing) (stat : ℕ → Option Stat) :
    Prop where
  listed : ∀ entry, entry ∈ proc ↔ entry.1 ∈ m.pids ∧ entry.2 = some (m.stat entry.1)
  read : ∀ p ∈ m.pids, stat p = some (m.stat p)

namespace Snapshot
variable {m : Machine} {proc : LinuxProbe.Listing} {stat : ℕ → Option Stat} {worker : ℕ}

theorem parents_eq (h : Snapshot m proc stat) :
    LinuxProbe.parents proc
      = (proc.map (·.1)).foldl (fun t p => t.set p (m.stat p).ppid) ProcessTable.empty := by
  rw [LinuxProbe.parents, List.foldl_map]
  apply List.foldl_ext
  intro t entry hentry
  rw [((h.listed entry).mp hentry).2]

theorem mem_parents (h : Snapshot m proc stat) {p owner : ℕ} :
    (p, owner) ∈ (LinuxProbe.parents proc).entries ↔ m.Child owner p := by
  have hkeys : p ∈ proc.map (·.1) ↔ p ∈ m.pids := by
    rw [List.mem_map]
    constructor
    · intro hp
      obtain ⟨entry, hentry, heq⟩ := hp
      exact heq ▸ ((h.listed entry).mp hentry).1
    · intro hp
      exact ⟨(p, some (m.stat p)), (h.listed _).mpr ⟨hp, rfl⟩, rfl⟩
  rw [h.parents_eq, ProcessTable.mem_foldl_set, Machine.Child]
  by_cases hp : p ∈ m.pids
  · rw [if_pos (hkeys.mpr hp), eq_comm]
    exact (and_iff_right hp).symm
  · rw [if_neg (mt hkeys.mp hp)]
    exact iff_of_false List.not_mem_nil fun hchild => hp hchild.1

theorem below_iff (h : Snapshot m proc stat) {a b : ℕ} :
    (LinuxProbe.parents proc).Below id a b ↔ Relation.TransGen m.Child a b := by
  have hchild : Frontier.Child (LinuxProbe.parents proc).entries (·.1) (id ·.2) = m.Child := by
    funext a b
    apply propext
    constructor
    · intro hab
      obtain ⟨row, hrow, rfl, rfl⟩ := hab
      exact h.mem_parents.mp hrow
    · intro hab
      exact ⟨(b, a), h.mem_parents.mpr hab, rfl, rfl⟩
  rw [ProcessTable.Below, Frontier.Below, hchild]

theorem not_below (h : Snapshot m proc stat) (hroot : m.Rooted worker) :
    ¬ (LinuxProbe.parents proc).Below id worker worker := by
  rw [h.below_iff]
  intro hbelow
  obtain ⟨a, ha, hchild⟩ := Relation.TransGen.tail'_iff.mp hbelow
  exact hroot.outside (hchild.2 ▸ ha)

end Snapshot

/-- A sample has the counters, in seconds, of the processes in the tree. -/
structure Counts (tick : ℕ) (worker : ℕ) (m : Machine) (cpu : List (ℕ × ℚ)) : Prop where
  once : (cpu.map (·.1)).Nodup
  counters : ∀ p v, (p, v) ∈ cpu ↔ p ∈ m.tree worker ∧ v = (m.stat p).cpu / tick

theorem Counts.sum {tick worker : ℕ} {m : Machine} {cpu : List (ℕ × ℚ)}
    (h : Counts tick worker m cpu) : (cpu.map (·.2)).sum = (m.total worker : ℚ) / tick := by
  have hvalues : cpu.map (·.2) = (cpu.map (·.1)).map fun p => ((m.stat p).cpu : ℚ) / tick := by
    rw [List.map_map]
    apply List.map_congr_left
    intro entry hentry
    exact ((h.counters entry.1 entry.2).mp hentry).2
  have hkeys : (cpu.map (·.1)).toFinset = m.tree worker := by
    ext p
    rw [List.mem_toFinset, List.mem_map]
    constructor
    · intro hp
      obtain ⟨entry, hentry, rfl⟩ := hp
      exact ((h.counters entry.1 entry.2).mp hentry).1
    · intro hp
      exact ⟨(p, (m.stat p).cpu / tick), (h.counters p _).mpr ⟨hp, rfl⟩, rfl⟩
  rw [hvalues, ← List.sum_toFinset _ h.once, hkeys, ← Finset.sum_div, Machine.total,
    Nat.cast_sum]

theorem counted_all {tick pid : ℕ} {m : Machine} {stat : ℕ → Option Stat} {pids : List ℕ}
    (h : ∀ p ∈ pids, stat p = some (m.stat p)) (seconds : ProcessTable ℚ) :
    pids.foldlM (LinuxProbe.counted tick stat pid) seconds
      = some (pids.foldl (fun t p => t.set p ((m.stat p).cpu / tick)) seconds) := by
  induction pids generalizing seconds with
  | nil => rfl
  | cons p pids ih =>
      have hp : LinuxProbe.counted tick stat pid seconds p
          = some (seconds.set p ((m.stat p).cpu / tick)) := by
        rw [LinuxProbe.counted, h p List.mem_cons_self]
      rw [List.foldlM_cons, hp, List.foldl_cons]
      exact ih (fun q hq => h q (List.mem_cons_of_mem p hq)) _

/-- `process_cpu` counts the tree: the search of the table finds it, and nothing is gone at
the second look. -/
theorem processCpu_counts {tick fuel worker : ℕ} {m : Machine} {proc : LinuxProbe.Listing}
    {stat : ℕ → Option Stat} {seconds : ProcessTable ℚ} (hroot : m.Rooted worker)
    (h : Snapshot m proc stat)
    (hread : LinuxProbe.processCpu tick proc stat fuel worker = some (some seconds)) :
    Counts tick worker m seconds.entries := by
  obtain ⟨found, hends, _, _, hbelow⟩ :=
    (LinuxProbe.parents proc).frontierLoop_exact id (h.not_below hroot)
  rw [LinuxProbe.processCpu, LinuxProbe.descendants] at hread
  obtain ⟨below, hfound, hread⟩ := Option.map_eq_some_iff.mp hread
  obtain ⟨rows, hrows, rfl⟩ := Option.map_eq_some_iff.mp hfound
  have hsame : rows = found := Frontier.search_unique hrows (hends _ (Nat.le_refl _))
  subst hsame
  have htree : ∀ p, p ∈ worker :: rows.map (·.1) ↔ m.Tracked worker p := by
    intro p
    rw [List.mem_cons, hbelow, h.below_iff, Machine.Tracked,
      Relation.reflTransGen_iff_eq_or_transGen]
  have hall : ∀ p ∈ worker :: rows.map (·.1), stat p = some (m.stat p) :=
    fun p hp => h.read p (hroot.mem ((htree p).mp hp))
  have hfold : seconds = (worker :: rows.map (·.1)).foldl
      (fun (t : ProcessTable ℚ) p => t.set p ((m.stat p).cpu / tick)) ProcessTable.empty := by
    rw [counted_all hall] at hread
    exact (Option.some.inj hread).symm
  constructor
  · exact seconds.unique
  · intro p v
    rw [hfold, ProcessTable.mem_foldl_set, Machine.mem_tree]
    by_cases hp : p ∈ worker :: rows.map (·.1)
    · have htracked := (htree p).mp hp
      rw [if_pos hp]
      exact (and_iff_right ⟨hroot.mem htracked, htracked⟩).symm
    · rw [if_neg hp]
      exact iff_of_false List.not_mem_nil fun hmem => hp ((htree p).mpr hmem.1.2)

/-- The time between two samples, whatever processes came and went. -/
theorem cpuUsed_eq {pid : ℕ} {before after : List (ℕ × ℚ)} (hbefore : (before.map (·.1)).Nodup)
    (hafter : (after.map (·.1)).Nodup) (hpid : pid ∈ after.map (·.1)) :
    cpuUsed pid before after = (after.map (·.2)).sum - (before.map (·.2)).sum := by
  have hgone : (before.filter fun e => (after.lookup e.1).isNone && e.1 != pid)
      = before.filter fun e => e.1 ∉ after.map (·.1) := by
    apply List.filter_congr
    intro entry _
    by_cases hkey : entry.1 ∈ after.map (·.1)
    · obtain ⟨v, hv⟩ := Assoc.exists_lookup_of_key hkey
      simp [hv, hkey]
    · have hnone : after.lookup entry.1 = none := by
        apply List.lookup_eq_none_iff.mpr
        intro e he
        apply bne_iff_ne.mpr
        exact fun heq => hkey (List.mem_map.mpr ⟨e, he, heq.symm⟩)
      have hne : entry.1 ≠ pid := fun heq => hkey (heq ▸ hpid)
      simp only [hnone, Option.isNone_none, Bool.true_and, bne_iff_ne, ne_eq, hne, hkey,
        not_false_eq_true, decide_true]
  have hkept := Assoc.sum_lookup_add hafter hbefore
  have hgrown : (after.map fun e => e.2 - (before.lookup e.1).getD 0).sum
      = (after.map (·.2)).sum
        - ((after.map (·.1)).map fun p => (before.lookup p).getD 0).sum := by
    apply eq_sub_of_add_eq
    rw [List.map_map, ← List.sum_map_add]
    simp only [Function.comp_apply, sub_add_cancel]
  rw [cpuUsed, hgone, hgrown]
  linarith

/-! ## A worker under its hooks -/

/-- The counters of a reading were read at one moment of the host. -/
def Sampled (tick worker : ℕ) (m : Machine) (r : Reading) : Prop :=
  ∀ busy cpu, r.counters = some (busy, cpu) →
    ∃ proc stat fuel seconds, Snapshot m proc stat
      ∧ LinuxProbe.processCpu tick proc stat fuel worker = some (some seconds)
      ∧ cpu = seconds.entries

def Call.reading : Call → Reading
  | .progress r => r
  | .measurement _ r => r

/-- A worker from its launch on, while its tree and the host go on between the calls of its
hooks: what the tree ran since the current window began, and since the launch. -/
inductive Followed (tick : ℕ) (mon : CostMonitor) (layout : Layout) (label : String)
    (process pid : ℕ) (first : Machine) : Hooks → ℕ → ℕ → Machine → Prop
  | launched {h : Hooks} {r : Reading} : first.Rooted pid → Sampled tick pid first r →
      launched mon layout label process pid r = .ok h →
      Followed tick mon layout label process pid first h 0 0 first
  | event {h : Hooks} {spent all d : ℕ} {m m' : Machine} :
      Followed tick mon layout label process pid first h spent all m → m.Event pid d m' →
      Followed tick mon layout label process pid first h (spent + d) (all + d) m'
  | kept {h h' : Hooks} {spent all : ℕ} {m : Machine} {call : Call} :
      Followed tick mon layout label process pid first h spent all m →
      Sampled tick pid m call.reading → h.step call = .ok h' →
      h'.record.windows = h.record.windows →
      Followed tick mon layout label process pid first h' spent all m
  | closed {h h' : Hooks} {spent all : ℕ} {m : Machine} {call : Call} :
      Followed tick mon layout label process pid first h spent all m →
      Sampled tick pid m call.reading → h.step call = .ok h' →
      h'.record.windows ≠ h.record.windows →
      Followed tick mon layout label process pid first h' 0 all m

section Windows
variable {tick pid : ℕ} {first m : Machine} {h h' : Hooks} {r : Reading}

theorem sampled_counts {label : String} {end_ : Sample} (hroot : m.Rooted pid)
    (hr : Sampled tick pid m r) (hok : sampleOf label r = .ok end_) :
    Counts tick pid m end_.cpu := by
  rw [sampleOf] at hok
  cases hcounters : r.counters with
  | none => simp [hcounters] at hok
  | some counters =>
      obtain ⟨proc, stat, fuel, seconds, hsnap, hread, hcpu⟩ :=
        hr counters.1 counters.2 hcounters
      simp only [hcounters, Except.ok.injEq] at hok
      rw [← hok, hcpu]
      exact processCpu_counts hroot hsnap hread

theorem close_cpu {end_ : Sample} {c : Counters} (hok : h.close end_ = .ok c) :
    c.worker_cpu_s = max (cpuUsed h.pid h.window.cpu end_.cpu) 0
      ∧ c.foreign_s = c.busy_s - c.worker_cpu_s := by
  rw [Hooks.close] at hok
  simp only at hok
  split_ifs at hok
  cases hok
  exact ⟨rfl, rfl⟩

theorem judged_window {final : Bool} (hok : h.judged r final = .ok h') :
    ∃ end_ c, sampleOf h.label r = .ok end_ ∧ h.close end_ = .ok c
      ∧ h' = h.recorded c end_ final := by
  obtain ⟨end_, hend, hok⟩ := bind_eq_ok.mp hok
  obtain ⟨c, hclose, hok⟩ := bind_eq_ok.mp hok
  simp only at hok
  split_ifs at hok
  cases hok
  exact ⟨end_, c, hend, hclose, rfl⟩

theorem step_window {call : Call} (hok : h.step call = .ok h') :
    h'.pid = h.pid
      ∧ ((h'.window = h.window ∧ h'.record.windows = h.record.windows)
        ∨ ∃ end_ c w, sampleOf h.label call.reading = .ok end_ ∧ h.close end_ = .ok c
          ∧ h'.window = end_ ∧ h'.record.windows = h.record.windows ++ [w]
          ∧ w.worker_cpu_s = some c.worker_cpu_s) := by
  have hjudged : ∀ {r : Reading} {split : Hooks}, h.judged r false = .ok split →
      split.pid = h.pid ∧ ∃ end_ c w, sampleOf h.label r = .ok end_ ∧ h.close end_ = .ok c
        ∧ split.window = end_ ∧ split.record.windows = h.record.windows ++ [w]
        ∧ w.worker_cpu_s = some c.worker_cpu_s := by
    intro r split hsplit
    obtain ⟨end_, c, hend, hclose, rfl⟩ := judged_window hsplit
    exact ⟨rfl, end_, c, _, hend, hclose, rfl, rfl, rfl⟩
  have hsplit : ∀ {r : Reading} {split : Hooks}, h.split r = .ok split →
      split = h ∨ h.judged r false = .ok split := by
    intro r split hsplit
    obtain ⟨_, -, hsplit⟩ := bind_eq_ok.mp hsplit
    obtain ⟨_, -, hsplit⟩ := bind_eq_ok.mp hsplit
    by_cases hlt : h.window.time < r.time
    · rw [if_pos hlt] at hsplit
      exact .inr hsplit
    · rw [if_neg hlt] at hsplit
      exact .inl (Except.ok.inj hsplit).symm
  cases call with
  | progress r =>
      have hprogress : h.progress r = .ok h' := hok
      rw [Hooks.progress] at hprogress
      split_ifs at hprogress with hshort
      · cases hprogress
        exact ⟨rfl, .inl ⟨rfl, rfl⟩⟩
      · obtain ⟨_, -, hprogress⟩ := bind_eq_ok.mp hprogress
        obtain ⟨hpid, hclosed⟩ := hjudged hprogress
        exact ⟨hpid, .inr hclosed⟩
  | measurement event r =>
      have hmeasurement : h.measurement event r = .ok h' := hok
      -- both boundaries split the window and change the intervals only
      have hboundary : ∃ split, h.split r = .ok split ∧ h'.pid = split.pid
          ∧ h'.window = split.window ∧ h'.record.windows = split.record.windows := by
        unfold Hooks.measurement at hmeasurement
        cases event <;> cases hm : h.measuring <;> simp only [hm, reduceCtorEq] at hmeasurement
        all_goals
          obtain ⟨split, hs, heq⟩ := bind_eq_ok.mp hmeasurement
          cases heq
          exact ⟨split, hs, rfl, rfl, rfl⟩
      obtain ⟨split, hs, hpid, hwindow, hwindows⟩ := hboundary
      rw [hpid, hwindow, hwindows]
      cases hsplit hs with
      | inl heq =>
          subst heq
          exact ⟨rfl, .inl ⟨rfl, rfl⟩⟩
      | inr hj =>
          obtain ⟨hpid, hclosed⟩ := hjudged hj
          exact ⟨hpid, .inr hclosed⟩

/-- The totals add up: the open window starts at what the tree had run by then, and the
closed ones hold the rest since the launch. -/
structure Accounted (tick pid : ℕ) (first : Machine) (h : Hooks) (spent all : ℕ) (m : Machine) :
    Prop where
  rooted : m.Rooted pid
  worker : h.pid = pid
  total : m.total pid = first.total pid + all
  once : (h.window.cpu.map (·.1)).Nodup
  opened : (h.window.cpu.map (·.2)).sum = ((m.total pid : ℚ) - spent) / tick
  closed : ∃ cpus : List ℚ, h.record.windows.map (·.worker_cpu_s) = cpus.map some
    ∧ cpus.sum = ((all : ℚ) - spent) / tick

namespace Accounted
variable {spent all : ℕ}

theorem window (ha : Accounted tick pid first h spent all m) {label : String} {end_ : Sample}
    (hr : Sampled tick pid m r) (hok : sampleOf label r = .ok end_) :
    cpuUsed h.pid h.window.cpu end_.cpu = spent / tick := by
  have hcounts := sampled_counts ha.rooted hr hok
  have hlive : pid ∈ end_.cpu.map (·.1) := by
    apply List.mem_map.mpr
    refine ⟨(pid, (m.stat pid).cpu / tick), (hcounts.counters pid _).mpr ⟨?_, rfl⟩, rfl⟩
    exact Machine.mem_tree.mpr ⟨ha.rooted.live, .refl⟩
  rw [ha.worker, cpuUsed_eq ha.once hcounts.once hlive, hcounts.sum, ha.opened]
  ring

theorem counters (ha : Accounted tick pid first h spent all m) {label : String} {end_ : Sample}
    {c : Counters} (hr : Sampled tick pid m r) (hend : sampleOf label r = .ok end_)
    (hclose : h.close end_ = .ok c) : c.worker_cpu_s = spent / tick := by
  have hpositive : (0 : ℚ) ≤ spent / tick := div_nonneg (Nat.cast_nonneg _) (Nat.cast_nonneg _)
  rw [(close_cpu hclose).1, ha.window hr hend, max_eq_left hpositive]

/-- A window that is closed takes what the tree ran since it began. -/
theorem recorded (ha : Accounted tick pid first h spent all m) {label : String} {end_ : Sample}
    {c : Counters} {w : Window} (hr : Sampled tick pid m r) (hend : sampleOf label r = .ok end_)
    (hclose : h.close end_ = .ok c) (hpid : h'.pid = h.pid) (hwindow : h'.window = end_)
    (hwindows : h'.record.windows = h.record.windows ++ [w])
    (hw : w.worker_cpu_s = some c.worker_cpu_s) : Accounted tick pid first h' 0 all m where
  rooted := ha.rooted
  worker := hpid.trans ha.worker
  total := ha.total
  once := hwindow ▸ (sampled_counts ha.rooted hr hend).once
  opened := by
    rw [hwindow, (sampled_counts ha.rooted hr hend).sum, Nat.cast_zero, sub_zero]
  closed := by
    obtain ⟨cpus, hcpus, hsum⟩ := ha.closed
    refine ⟨cpus ++ [c.worker_cpu_s], ?_, ?_⟩
    · rw [hwindows, List.map_append, hcpus, List.map_cons, hw, List.map_append]
      rfl
    · rw [List.sum_append, hsum, List.sum_singleton, ha.counters hr hend hclose, Nat.cast_zero]
      ring

end Accounted

theorem Followed.accounted {mon : CostMonitor} {layout : Layout} {label : String}
    {process spent all : ℕ} (hf : Followed tick mon layout label process pid first h spent all m) :
    Accounted tick pid first h spent all m := by
  induction hf with
  | launched hroot hr hok =>
      obtain ⟨_, -, hok⟩ := bind_eq_ok.mp hok
      obtain ⟨window, hwindow, hok⟩ := bind_eq_ok.mp hok
      cases hok
      have hcounts := sampled_counts hroot hr hwindow
      exact {
        rooted := hroot
        worker := rfl
        total := rfl
        once := hcounts.once
        opened := by rw [hcounts.sum, Nat.cast_zero, sub_zero]
        closed := ⟨[], rfl, by simp⟩ }
  | event _ hevent ih =>
      obtain ⟨hroot, htotal⟩ := Machine.event_total hevent ih.rooted
      obtain ⟨cpus, hcpus, hsum⟩ := ih.closed
      exact {
        rooted := hroot
        worker := ih.worker
        total := by rw [htotal, ih.total, Nat.add_assoc]
        once := ih.once
        opened := by
          rw [ih.opened, htotal]
          push_cast
          ring
        closed := ⟨cpus, hcpus, by rw [hsum]; push_cast; ring⟩ }
  | kept _ hr hstep hsame ih =>
      obtain ⟨hpid, hkept | hclosed⟩ := step_window hstep
      · exact {
          rooted := ih.rooted
          worker := hpid.trans ih.worker
          total := ih.total
          once := hkept.1 ▸ ih.once
          opened := by rw [hkept.1, ih.opened]
          closed := hsame ▸ ih.closed }
      · obtain ⟨_, _, w, _, _, _, hwindows, _⟩ := hclosed
        have hlen := congrArg List.length (hwindows.symm.trans hsame)
        simp at hlen
  | closed _ hr hstep hmore ih =>
      obtain ⟨hpid, hkept | hclosed⟩ := step_window hstep
      · exact absurd hkept.2 hmore
      · obtain ⟨end_, c, w, hend, hclose, hwindow, hwindows, hw⟩ := hclosed
        exact ih.recorded hr hend hclose hpid hwindow hwindows hw

end Windows

/-- Each window counts what the tree ran in it, no less and no more, so the clamp at zero
changes nothing and the rest of the busy time is foreign; all the windows of a worker together
count what its tree ran between its launch and its exit. -/
theorem windows_count_tree {tick process pid spent all : ℕ} {mon : CostMonitor} {layout : Layout}
    {label : String} {first m : Machine} {h : Hooks} {r : Reading}
    (hf : Followed tick mon layout label process pid first h spent all m)
    (hr : Sampled tick pid m r) :
    (∀ end_, sampleOf h.label r = .ok end_ →
      0 ≤ cpuUsed h.pid h.window.cpu end_.cpu
        ∧ cpuUsed h.pid h.window.cpu end_.cpu = spent / tick
        ∧ ∀ c, h.close end_ = .ok c →
            c.worker_cpu_s = spent / tick ∧ c.foreign_s = c.busy_s - spent / tick)
    ∧ ∀ returncode record, h.ended r returncode = .ok record →
        ∃ cpus : List ℚ, record.windows.map (·.worker_cpu_s) = cpus.map some
          ∧ cpus.sum = ((m.total pid : ℚ) - first.total pid) / tick := by
  have ha := hf.accounted
  constructor
  · intro end_ hend
    refine ⟨?_, ha.window hr hend, fun c hclose => ?_⟩
    · rw [ha.window hr hend]
      exact div_nonneg (Nat.cast_nonneg _) (Nat.cast_nonneg _)
    · have hcpu := ha.counters hr hend hclose
      exact ⟨hcpu, by rw [(close_cpu hclose).2, hcpu]⟩
  · intro returncode record hended
    obtain ⟨last, hjudged, heq⟩ := bind_eq_ok.mp hended
    cases heq
    obtain ⟨end_, c, hend, hclose, rfl⟩ := judged_window hjudged
    have hlast : Accounted tick pid first (h.recorded c end_ true) 0 all m :=
      ha.recorded hr hend hclose rfl rfl rfl rfl
    obtain ⟨cpus, hcpus, hsum⟩ := hlast.closed
    refine ⟨cpus, hcpus, ?_⟩
    rw [hsum, ha.total]
    push_cast
    ring

/-- A coordinator with its worker. -/
def smallHost : Machine where
  pids := {7, 40}
  stat p := if p = 7 then ⟨1, 20, 4, 0, 0⟩ else ⟨7, 6, 4, 0, 0⟩

def smallMonitor : CostMonitor where
  context := {
    scheduler := some "lsf"
    host := "node"
    hosts := ["node"]
    slots := some 9
    resource_request := none
    exclusive_cores_requested := true
    single_host_requested := true
    selectors := ⟨none, none⟩
    bind_cpus := none
    affinity_file_cpus := none }
  tier := ⟨none, none⟩
  attempt := "attempt"
  thresholds := THRESHOLDS
  identity := "measured"

def smallLayout : Layout := ⟨some LAYOUT, List.range 9, [0], [1]⟩

def smallReading (time busy : ℚ) (proc : LinuxProbe.Listing) : Reading where
  time := time
  worker := [⟨"worker", 40, [1]⟩]
  coordinator := [⟨"coordinator", 7, [0]⟩]
  counters := (LinuxProbe.processCpu 100 proc (fun p => (proc.lookup p).join) 9 40).join.map
    fun seconds => (busy, seconds.entries)

theorem smallReading_sampled {m : Machine} {time busy : ℚ} {proc : LinuxProbe.Listing}
    (h : Snapshot m proc fun p => (proc.lookup p).join) :
    Sampled 100 40 m (smallReading time busy proc) := by
  intro busy' cpu hcounters
  obtain ⟨seconds, hread, heq⟩ := Option.map_eq_some_iff.mp hcounters
  cases heq
  exact ⟨proc, _, 9, seconds, h, Option.join_eq_some_iff.mp hread, rfl⟩

theorem smallHost_rooted : smallHost.Rooted 40 where
  live := by simp [smallHost]
  outside := by
    intro h
    have hworker : (smallHost.stat 40).ppid = 40 := by
      apply Machine.tracked_inside (S := fun p => p = 40) rfl _ h
      intro a b ha hchild
      obtain ⟨hb, hparent⟩ := hchild
      have hcases : b = 7 ∨ b = 40 := by simpa [smallHost] using hb
      cases hcases with
      | inl hb => simp [smallHost, hb, ha] at hparent
      | inr hb => exact hb
    simp [smallHost] at hworker

/-- The worker started a child, which ran for five ticks and was reaped. -/
def smallReaped : Machine := ((smallHost.started 40 41).ran 41 3 2).reaped 41 40

def smallListing : LinuxProbe.Listing := [(40, some ⟨7, 6, 4, 0, 0⟩), (7, some ⟨1, 20, 4, 0, 0⟩)]

def smallReapedListing : LinuxProbe.Listing :=
  [(40, some ⟨7, 6, 4, 3, 2⟩), (7, some ⟨1, 20, 4, 0, 0⟩)]

theorem smallListing_snapshot :
    Snapshot smallHost smallListing fun p => (smallListing.lookup p).join where
  listed := by
    intro entry
    obtain ⟨p, stat⟩ := entry
    by_cases h7 : p = 7
    · simp [smallListing, smallHost, h7]
    · by_cases h40 : p = 40
      · simp [smallListing, smallHost, h40]
      · simp [smallListing, smallHost, h7, h40]
  read := by
    intro p hp
    have hcases : p = 7 ∨ p = 40 := by simpa [smallHost] using hp
    cases hcases with
    | inl h => subst h; rfl
    | inr h => subst h; rfl

theorem smallReaped_pids {p : ℕ} : p ∈ smallReaped.pids ↔ p = 7 ∨ p = 40 := by
  have hpids : smallReaped.pids = {7, 40} := by decide
  rw [hpids, Finset.mem_insert, Finset.mem_singleton]

theorem smallReaped_snapshot :
    Snapshot smallReaped smallReapedListing fun p => (smallReapedListing.lookup p).join where
  listed := by
    intro entry
    obtain ⟨p, stat⟩ := entry
    rw [smallReaped_pids]
    have h7 : smallReaped.stat 7 = ⟨1, 20, 4, 0, 0⟩ := rfl
    have h40 : smallReaped.stat 40 = ⟨7, 6, 4, 3, 2⟩ := rfl
    by_cases hp7 : p = 7
    · simp [smallReapedListing, hp7, h7]
    · by_cases hp40 : p = 40
      · simp [smallReapedListing, hp40, h40]
      · simp [smallReapedListing, hp7, hp40]
  read := by
    intro p hp
    cases smallReaped_pids.mp hp with
    | inl h => subst h; rfl
    | inr h => subst h; rfl

theorem smallReaped_followed {h : Hooks}
    (hok : launched smallMonitor smallLayout "job" 1 40 (smallReading 0 0 smallListing) = .ok h) :
    Followed 100 smallMonitor smallLayout "job" 1 40 smallHost h 5 5 smallReaped := by
  have hlaunch : Followed 100 smallMonitor smallLayout "job" 1 40 smallHost h 0 0 smallHost :=
    .launched smallHost_rooted (smallReading_sampled smallListing_snapshot) hok
  have hstart : smallHost.Event 40 0 (smallHost.started 40 41) :=
    .start _ _ _ .refl (by decide) (by decide)
  have hchild : (smallHost.started 40 41).Tracked 40 41 :=
    Machine.tracked_child .refl (by decide) rfl
  have hrun : (smallHost.started 40 41).Event 40 5 ((smallHost.started 40 41).ran 41 3 2) :=
    .run _ 41 3 2 hchild
  have hreap : ((smallHost.started 40 41).ran 41 3 2).Event 40 0 smallReaped :=
    .reap _ _ _ (Machine.ran_tracked 41 |>.mpr hchild) (by decide) rfl (by decide)
  exact ((hlaunch.event hstart).event hrun).event hreap

/-- The child's time is counted once, though no sample saw the child. -/
theorem windows_count_reaped :
    ∃ h : Hooks, (∀ end_, sampleOf h.label (smallReading 1 1 smallReapedListing) = .ok end_ →
        0 ≤ cpuUsed h.pid h.window.cpu end_.cpu
          ∧ cpuUsed h.pid h.window.cpu end_.cpu = (5 : ℕ) / (100 : ℕ)
          ∧ ∀ c, h.close end_ = .ok c →
              c.worker_cpu_s = (5 : ℕ) / (100 : ℕ)
                ∧ c.foreign_s = c.busy_s - (5 : ℕ) / (100 : ℕ))
      ∧ ∀ returncode record,
          h.ended (smallReading 1 1 smallReapedListing) returncode = .ok record →
          ∃ cpus : List ℚ, record.windows.map (·.worker_cpu_s) = cpus.map some
            ∧ cpus.sum = ((smallReaped.total 40 : ℚ) - smallHost.total 40) / (100 : ℕ) := by
  have hok : (launched smallMonitor smallLayout "job" 1 40
      (smallReading 0 0 smallListing)).isOk = true := by decide +kernel
  cases hlaunched : launched smallMonitor smallLayout "job" 1 40
      (smallReading 0 0 smallListing) with
  | error e => simp [hlaunched, Except.isOk, Except.toBool] at hok
  | ok h =>
      exact ⟨h, windows_count_tree (smallReaped_followed hlaunched)
        (smallReading_sampled smallReaped_snapshot)⟩

end TranspileBench.Lsf
