import Mathlib.Data.Rat.Defs
import TranspileBench.Lib.Frontier

/-!
What the probe and the job read of the process table: the processes below one process, and
the CPU time of each. The table is read process by process while others start and exit, so
it need not be consistent: a parent may be missing, and ids may form cycles.
-/
namespace TranspileBench.Lsf

/-- A dictionary with process ids for keys, in the order in which they were set. -/
structure ProcessTable (V : Type) where
  entries : List (ℕ × V)
  unique : (entries.map (·.1)).Nodup

namespace ProcessTable
variable {V : Type}

def empty : ProcessTable V := ⟨[], List.Pairwise.nil⟩

def put (entries : List (ℕ × V)) (pid : ℕ) (value : V) : List (ℕ × V) :=
  if pid ∈ entries.map (·.1) then
    entries.map fun entry => if entry.1 = pid then (pid, value) else entry
  else entries ++ [(pid, value)]

theorem put_keys (entries : List (ℕ × V)) (pid : ℕ) (value : V) :
    (put entries pid value).map (·.1)
      = if pid ∈ entries.map (·.1) then entries.map (·.1) else entries.map (·.1) ++ [pid] := by
  by_cases h : pid ∈ entries.map (·.1)
  · rw [put, if_pos h, if_pos h, List.map_map]
    apply List.map_congr_left
    intro entry _
    by_cases heq : entry.1 = pid
    · simp only [Function.comp_apply, heq, if_true]
    · simp only [Function.comp_apply, if_neg heq]
  · rw [put, if_neg h, if_neg h, List.map_append, List.map_cons, List.map_nil]

def set (t : ProcessTable V) (pid : ℕ) (value : V) : ProcessTable V where
  entries := put t.entries pid value
  unique := by
    rw [put_keys]
    by_cases h : pid ∈ t.entries.map (·.1)
    · rw [if_pos h]
      exact t.unique
    · rw [if_neg h]
      exact List.nodup_append.mpr
        ⟨t.unique, List.nodup_cons.mpr ⟨List.not_mem_nil, List.Pairwise.nil⟩,
          fun k hk k' hk' heq => h (by
            rw [← List.mem_singleton.mp hk', ← heq]
            exact hk)⟩

/-- A value of the table is below `pid` by the parent it gives. -/
def Below (t : ProcessTable V) (owner : V → ℕ) : ℕ → ℕ → Prop :=
  Frontier.Below t.entries (·.1) (owner ·.2)

/-- The frontier loop, in at most `fuel` rounds. -/
def frontierLoop (t : ProcessTable V) (owner : V → ℕ) (fuel pid : ℕ) : Option (List (ℕ × V)) :=
  Frontier.search t.entries (·.1) (owner ·.2) fuel [pid] []

theorem frontierLoop_exact (t : ProcessTable V) (owner : V → ℕ) {pid : ℕ}
    (hroot : ¬ t.Below owner pid pid) :
    ∃ found, (∀ fuel, t.entries.length + 2 ≤ fuel → t.frontierLoop owner fuel pid = some found)
      ∧ (found.map (·.1)).Nodup
      ∧ (∀ entry ∈ found, entry ∈ t.entries)
      ∧ ∀ p, p ∈ found.map (·.1) ↔ t.Below owner pid p := by
  obtain ⟨found, hends, honce, hmem⟩ := Frontier.search_exact t.unique hroot
  refine ⟨found, hends, (List.nodup_cons.mp honce).2, fun entry h => ((hmem entry).mp h).1, ?_⟩
  intro p
  constructor
  · intro hp
    obtain ⟨entry, hentry, hpid⟩ := List.mem_map.mp hp
    rw [← hpid]
    exact ((hmem entry).mp hentry).2
  · intro hbelow
    obtain ⟨entry, hentry, hpid⟩ := Frontier.exists_row hbelow
    apply List.mem_map.mpr
    exact ⟨entry, (hmem entry).mpr ⟨hentry, hpid ▸ hbelow⟩, hpid⟩

end ProcessTable

/-! ## The probe of the monitor -/

/-- The fields of a process's `stat` file that are used: its parent, and the CPU times in
ticks of itself and of the children it reaped. -/
structure Stat where
  ppid : ℕ
  utime : ℕ
  stime : ℕ
  cutime : ℕ
  cstime : ℕ

def Stat.cpu (s : Stat) : ℕ := s.utime + s.stime + s.cutime + s.cstime

namespace LinuxProbe

/-- The processes that `/proc` lists, each with its `stat` when it could be read. -/
abbrev Listing := List (ℕ × Option Stat)

def parents (proc : Listing) : ProcessTable ℕ :=
  proc.foldl
    (fun table entry =>
      match entry.2 with
      | some stat => table.set entry.1 stat.ppid
      | none => table)
    ProcessTable.empty

def descendants (proc : Listing) (fuel pid : ℕ) : Option (List ℕ) :=
  ((parents proc).frontierLoop id fuel pid).map (·.map (·.1))

/-- A second look at one process. A descendant that is gone by then is left out. -/
def counted (tick : ℕ) (stat : ℕ → Option Stat) (pid : ℕ) (seconds : ProcessTable ℚ)
    (process : ℕ) : Option (ProcessTable ℚ) :=
  match stat process with
  | some s => some (seconds.set process (s.cpu / tick))
  | none => if process = pid then none else some seconds

/-- `process_cpu`: the CPU seconds of a process and of each live descendant. -/
def processCpu (tick : ℕ) (proc : Listing) (stat : ℕ → Option Stat) (fuel pid : ℕ) :
    Option (Option (ProcessTable ℚ)) :=
  (descendants proc fuel pid).map fun below =>
    (pid :: below).foldlM (counted tick stat pid) ProcessTable.empty

end LinuxProbe

/-! ## The signal handler of the job -/

/-- The lines `ps` printed, split at blanks. -/
abbrev PsListing := List (List String)

/-- `int` of a word of digits. -/
def decimal (word : String) : Option ℕ :=
  if word ≠ "" ∧ word.toList.all Char.isDigit then
    some (word.toList.foldl (fun n c => 10 * n + (c.toNat - '0'.toNat)) 0)
  else none

/-- Each process with its parent and its process group. -/
def psTable (listing : PsListing) : ProcessTable (ℕ × ℕ) :=
  listing.foldl
    (fun table parts =>
      match parts.mapM decimal with
      | some [pid, owner, group] => table.set pid (owner, group)
      | _ => table)
    ProcessTable.empty

/-- `lsf.job.descendants`: the processes below `pid`, with their process groups. -/
def descendants (listing : PsListing) (fuel pid : ℕ) : Option (List (ℕ × ℕ)) :=
  ((psTable listing).frontierLoop (·.1) fuel pid).map
    (·.map fun entry => (entry.1, entry.2.2))

/-- Both loops end, and find each process below the root once and nothing else, whatever
cycles there are among the other processes. -/
theorem descendants_exact {proc : LinuxProbe.Listing} {listing : PsListing} {pid own : ℕ}
    (hproc : ¬ (LinuxProbe.parents proc).Below id pid pid)
    (hlisting : ¬ (psTable listing).Below (·.1) own own) :
    (∃ found,
      (∀ fuel, (LinuxProbe.parents proc).entries.length + 2 ≤ fuel →
        LinuxProbe.descendants proc fuel pid = some found)
      ∧ found.Nodup
      ∧ ∀ p, p ∈ found ↔ (LinuxProbe.parents proc).Below id pid p)
    ∧ ∃ found,
      (∀ fuel, (psTable listing).entries.length + 2 ≤ fuel →
        descendants listing fuel own = some found)
      ∧ (found.map (·.1)).Nodup
      ∧ (∀ p, p ∈ found.map (·.1) ↔ (psTable listing).Below (·.1) own p)
      ∧ ∀ p group, (p, group) ∈ found →
          ∃ owner, (p, owner, group) ∈ (psTable listing).entries := by
  obtain ⟨found, hends, honce, _, hmem⟩ := (LinuxProbe.parents proc).frontierLoop_exact id hproc
  obtain ⟨found', hends', honce', htable, hmem'⟩ :=
    (psTable listing).frontierLoop_exact (·.1) hlisting
  have hpids : (found'.map fun entry => (entry.1, entry.2.2)).map (·.1) = found'.map (·.1) := by
    rw [List.map_map]
    rfl
  constructor
  · refine ⟨found.map (·.1), fun fuel hfuel => ?_, honce, hmem⟩
    rw [LinuxProbe.descendants, hends fuel hfuel, Option.map_some]
  · refine ⟨found'.map fun entry => (entry.1, entry.2.2), fun fuel hfuel => ?_, ?_, ?_, ?_⟩
    · rw [descendants, hends' fuel hfuel, Option.map_some]
    · rw [hpids]
      exact honce'
    · rw [hpids]
      exact hmem'
    · intro p group hfound
      obtain ⟨entry, hentry, heq⟩ := List.mem_map.mp hfound
      obtain ⟨rfl, rfl⟩ := Prod.mk.inj heq
      exact ⟨entry.2.1, htable entry hentry⟩

/-- A worker with two processes below it, besides two others that are each other's parent. -/
def forkedProcesses : LinuxProbe.Listing :=
  [(1, some ⟨0, 3, 1, 0, 0⟩), (40, some ⟨1, 9, 2, 4, 1⟩), (41, some ⟨40, 2, 0, 0, 0⟩), (7, none),
    (50, some ⟨51, 0, 0, 0, 0⟩), (51, some ⟨50, 0, 0, 0, 0⟩), (42, some ⟨41, 1, 1, 0, 0⟩)]

def forkedListing : PsListing :=
  [["1", "0", "1"], ["40", "1", "40"], ["41", "40", "41"], ["50", "51", "50"], ["51", "50", "50"],
    ["42", "41", "41"], ["ps:", "warning"]]

theorem forked_not_below :
    ¬ (LinuxProbe.parents forkedProcesses).Below id 40 40
      ∧ ¬ (psTable forkedListing).Below (·.1) 40 40 := by
  constructor
  · intro h
    have hinside : 40 ∈ [41, 42] := h.inside (S := (· ∈ [41, 42])) (by decide)
    exact absurd hinside (by decide)
  · intro h
    have hinside : 40 ∈ [41, 42] := h.inside (S := (· ∈ [41, 42])) (by decide)
    exact absurd hinside (by decide)

theorem forked_descendants :
    (∃ found,
      (∀ fuel, (LinuxProbe.parents forkedProcesses).entries.length + 2 ≤ fuel →
        LinuxProbe.descendants forkedProcesses fuel 40 = some found)
      ∧ found.Nodup
      ∧ ∀ p, p ∈ found ↔ (LinuxProbe.parents forkedProcesses).Below id 40 p)
    ∧ ∃ found,
      (∀ fuel, (psTable forkedListing).entries.length + 2 ≤ fuel →
        descendants forkedListing fuel 40 = some found)
      ∧ (found.map (·.1)).Nodup
      ∧ (∀ p, p ∈ found.map (·.1) ↔ (psTable forkedListing).Below (·.1) 40 p)
      ∧ ∀ p group, (p, group) ∈ found →
          ∃ owner, (p, owner, group) ∈ (psTable forkedListing).entries :=
  descendants_exact forked_not_below.1 forked_not_below.2

end TranspileBench.Lsf
