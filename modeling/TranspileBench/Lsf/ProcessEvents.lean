import Mathlib
import TranspileBench.Lsf.ProcessTree

/-!
What can happen to the processes below a worker: they start, run, exit and are reaped, while
the other processes of the host do what they like. A process that is reaped leaves its CPU
time to its parent, so the counters of the tree together grow by what its processes run and
by nothing else.
-/
namespace TranspileBench.Lsf

/-- The processes of the host, those that exited and are not yet reaped among them. -/
structure Machine where
  pids : Finset ℕ
  stat : ℕ → Stat

namespace Machine

def Child (m : Machine) (a b : ℕ) : Prop := b ∈ m.pids ∧ (m.stat b).ppid = a

/-- The worker, and what is below it. -/
def Tracked (m : Machine) (worker : ℕ) : ℕ → Prop := Relation.ReflTransGen m.Child worker

/-- The worker is there, started by a process that is not below it. -/
structure Rooted (m : Machine) (worker : ℕ) : Prop where
  live : worker ∈ m.pids
  outside : ¬ m.Tracked worker (m.stat worker).ppid

/-- A process runs for some ticks of user and of system time. -/
def ran (m : Machine) (p user system : ℕ) : Machine :=
  { m with stat := Function.update m.stat p { m.stat p with
      utime := (m.stat p).utime + user
      stime := (m.stat p).stime + system } }

/-- A child starts with its counters at zero. -/
def started (m : Machine) (p child : ℕ) : Machine where
  pids := insert child m.pids
  stat := Function.update m.stat child ⟨p, 0, 0, 0, 0⟩

/-- The children of a process that exits go to another process. -/
def exited (m : Machine) (q heir : ℕ) : Machine :=
  { m with stat := fun b =>
      if (m.stat b).ppid = q then { m.stat b with ppid := heir } else m.stat b }

/-- The parent of a process that is reaped takes over its counters. -/
def reaped (m : Machine) (q p : ℕ) : Machine where
  pids := m.pids.erase q
  stat := Function.update m.stat p { m.stat p with
    cutime := (m.stat p).cutime + (m.stat q).utime + (m.stat q).cutime
    cstime := (m.stat p).cstime + (m.stat q).stime + (m.stat q).cstime }

/-- One event, and the ticks that the tree of the worker ran in it. -/
inductive Event (worker : ℕ) : Machine → ℕ → Machine → Prop
  | run (m : Machine) (p user system : ℕ) : m.Tracked worker p →
      Event worker m (user + system) (m.ran p user system)
  /-- The id of a new process is in no use. -/
  | start (m : Machine) (p child : ℕ) : m.Tracked worker p → child ∉ m.pids →
      (∀ q ∈ m.pids, (m.stat q).ppid ≠ child) →
      Event worker m 0 (m.started p child)
  /-- What a process of the tree leaves behind stays in the tree. -/
  | exit (m : Machine) (q heir : ℕ) : m.Tracked worker q → q ≠ worker →
      m.Tracked worker heir → ¬ m.Tracked q heir →
      Event worker m 0 (m.exited q heir)
  /-- Its children were given away when it exited. -/
  | reap (m : Machine) (q p : ℕ) : m.Tracked worker q → q ≠ worker → (m.stat q).ppid = p →
      (∀ b ∈ m.pids, (m.stat b).ppid ≠ q) →
      Event worker m 0 (m.reaped q p)
  /-- Anything else on the host: no process outside the tree comes below it. -/
  | elsewhere (m m' : Machine) :
      (∀ p, m.Tracked worker p → p ∈ m'.pids ∧ m'.stat p = m.stat p) →
      (∀ p ∈ m'.pids, m.Tracked worker (m'.stat p).ppid → m.Tracked worker p) →
      Event worker m 0 m'

open Classical in
/-- The processes that a sample of the worker counts. -/
noncomputable def tree (m : Machine) (worker : ℕ) : Finset ℕ :=
  m.pids.filter (m.Tracked worker)

/-- The CPU time, in ticks, on the counters of the tree. -/
noncomputable def total (m : Machine) (worker : ℕ) : ℕ :=
  ∑ p ∈ m.tree worker, (m.stat p).cpu

section Tree
variable {m m' : Machine} {worker : ℕ}

theorem mem_tree {p : ℕ} : p ∈ m.tree worker ↔ p ∈ m.pids ∧ m.Tracked worker p := by
  simp [tree]

theorem tracked_child {p q : ℕ} (h : m.Tracked worker p) (hq : q ∈ m.pids)
    (hparent : (m.stat q).ppid = p) : m.Tracked worker q :=
  h.tail ⟨hq, hparent⟩

/-- Everything tracked but the worker has a tracked parent. -/
theorem tracked_parent {p : ℕ} (h : m.Tracked worker p) :
    p = worker ∨ p ∈ m.pids ∧ m.Tracked worker (m.stat p).ppid := by
  cases Relation.ReflTransGen.cases_tail h with
  | inl heq => exact .inl heq
  | inr hlast =>
      obtain ⟨a, ha, hp, hparent⟩ := hlast
      exact .inr ⟨hp, hparent ▸ ha⟩

theorem Rooted.mem (hroot : m.Rooted worker) {p : ℕ} (h : m.Tracked worker p) : p ∈ m.pids := by
  cases tracked_parent h with
  | inl heq => exact heq ▸ hroot.live
  | inr hlive => exact hlive.1

/-- What contains the worker and is closed under children contains the tree. -/
theorem tracked_inside {S : ℕ → Prop} (hworker : S worker)
    (hS : ∀ a b, S a → m.Child a b → S b) {p : ℕ} (h : m.Tracked worker p) : S p := by
  induction h with
  | refl => exact hworker
  | tail _ hchild ih => exact hS _ _ ih hchild

/-- Events keep the tree when they keep every child in it, and bring no other one in. -/
theorem tracked_iff (hkeeps : ∀ a b, m.Tracked worker a → m.Child a b → m'.Tracked worker a →
      m'.Tracked worker b)
    (hadds : ∀ a b, m.Tracked worker a → m'.Child a b → m.Tracked worker b) (p : ℕ) :
    m'.Tracked worker p ↔ m.Tracked worker p := by
  constructor
  · intro h
    exact tracked_inside .refl hadds h
  · intro h
    have hboth : m.Tracked worker p ∧ m'.Tracked worker p := by
      apply tracked_inside (S := fun p => m.Tracked worker p ∧ m'.Tracked worker p) _ _ h
      · exact ⟨.refl, .refl⟩
      · intro a b ha hchild
        exact ⟨ha.1.tail hchild, hkeeps a b ha.1 hchild ha.2⟩
    exact hboth.2

/-- An event that changes neither the tree nor the worker's parent, and adds `d` to the
counters of one process at most. -/
theorem total_added (htree : m'.tree worker = m.tree worker) {q d : ℕ} (hq : q ∈ m.tree worker)
    (hcpu : ∀ p ∈ m.tree worker, (m'.stat p).cpu = (m.stat p).cpu + if p = q then d else 0) :
    m'.total worker = m.total worker + d := by
  rw [total, total, htree, Finset.sum_congr rfl hcpu, Finset.sum_add_distrib,
    Finset.sum_ite_eq' _ q, if_pos hq]

theorem total_same (htree : m'.tree worker = m.tree worker)
    (hcpu : ∀ p ∈ m.tree worker, (m'.stat p).cpu = (m.stat p).cpu) :
    m'.total worker = m.total worker := by
  rw [total, total, htree]
  exact Finset.sum_congr rfl hcpu

theorem tree_same (hpids : ∀ p, m.Tracked worker p → (p ∈ m'.pids ↔ p ∈ m.pids))
    (htracked : ∀ p, m'.Tracked worker p ↔ m.Tracked worker p) :
    m'.tree worker = m.tree worker := by
  ext p
  rw [mem_tree, mem_tree, htracked]
  exact and_congr_left (hpids p)

theorem Rooted.same (hroot : m.Rooted worker) (hlive : worker ∈ m'.pids)
    (hparent : (m'.stat worker).ppid = (m.stat worker).ppid)
    (htracked : ∀ p, m'.Tracked worker p ↔ m.Tracked worker p) : m'.Rooted worker where
  live := hlive
  outside := by
    rw [hparent, htracked]
    exact hroot.outside

/-! ## Running -/

variable {p user system : ℕ}

theorem ran_ppid (b : ℕ) : ((m.ran p user system).stat b).ppid = (m.stat b).ppid := by
  by_cases h : b = p
  · subst h
    simp [ran]
  · simp [ran, Function.update_of_ne h]

theorem ran_cpu (b : ℕ) :
    ((m.ran p user system).stat b).cpu
      = (m.stat b).cpu + if b = p then user + system else 0 := by
  by_cases h : b = p
  · subst h
    simp only [ran, Function.update_self, Stat.cpu, if_true]
    omega
  · simp [ran, Function.update_of_ne h, if_neg h]

theorem ran_tracked (b : ℕ) : (m.ran p user system).Tracked worker b ↔ m.Tracked worker b := by
  have hchild : (m.ran p user system).Child = m.Child := by
    funext a c
    rw [Child, Child, ran_ppid]
    rfl
  rw [Tracked, Tracked, hchild]

/-! ## Exiting -/

section Exit
variable {q heir : ℕ}

theorem exited_ppid (b : ℕ) :
    ((m.exited q heir).stat b).ppid = if (m.stat b).ppid = q then heir else (m.stat b).ppid := by
  by_cases h : (m.stat b).ppid = q
  · simp [exited, h]
  · simp [exited, h]

theorem exited_cpu (b : ℕ) : ((m.exited q heir).stat b).cpu = (m.stat b).cpu := by
  by_cases h : (m.stat b).ppid = q
  · simp [exited, h, Stat.cpu]
  · simp [exited, h]

/-- The way from the worker to the heir does not lead through the process that exits. -/
theorem exited_tracked_heir {x : ℕ} (h : m.Tracked worker x) (hq : ¬ m.Tracked q x) :
    (m.exited q heir).Tracked worker x := by
  induction h with
  | refl => exact .refl
  | @tail a b _ hchild ih =>
      have ha : ¬ m.Tracked q a := fun hqa => hq (hqa.tail hchild)
      have hne : a ≠ q := fun heq => ha (heq ▸ .refl)
      apply tracked_child (ih ha) hchild.1
      rw [exited_ppid, hchild.2, if_neg hne]

theorem exited_tracked (hq : m.Tracked worker q) (hheir : m.Tracked worker heir)
    (happart : ¬ m.Tracked q heir) (x : ℕ) :
    (m.exited q heir).Tracked worker x ↔ m.Tracked worker x := by
  apply tracked_iff
  · intro a b _ hchild ha
    by_cases h : a = q
    · apply tracked_child (exited_tracked_heir hheir happart) hchild.1
      rw [exited_ppid, hchild.2, if_pos h]
    · apply tracked_child ha hchild.1
      rw [exited_ppid, hchild.2, if_neg h]
  · intro a b ha hchild
    have hparent := hchild.2
    rw [exited_ppid] at hparent
    by_cases h : (m.stat b).ppid = q
    · exact tracked_child hq hchild.1 h
    · rw [if_neg h] at hparent
      exact tracked_child ha hchild.1 hparent

end Exit

/-! ## Starting -/

section Start
variable {child : ℕ}

theorem started_stat {b : ℕ} (h : b ≠ child) : (m.started p child).stat b = m.stat b :=
  Function.update_of_ne h _ _

theorem started_new : (m.started p child).stat child = ⟨p, 0, 0, 0, 0⟩ :=
  Function.update_self _ _ _

theorem started_tracked (hp : m.Tracked worker p)
    (hnew : child ∉ m.pids) (hparent : ∀ q ∈ m.pids, (m.stat q).ppid ≠ child) (x : ℕ) :
    (m.started p child).Tracked worker x ↔ m.Tracked worker x ∨ x = child := by
  have hold : ∀ b, b ∈ m.pids → b ≠ child := fun b hb heq => hnew (heq ▸ hb)
  have hkept : ∀ x, m.Tracked worker x → (m.started p child).Tracked worker x := by
    intro x hx
    induction hx with
    | refl => exact .refl
    | tail _ hchild ih =>
        apply tracked_child ih (Finset.mem_insert_of_mem hchild.1)
        rw [started_stat (hold _ hchild.1), hchild.2]
  constructor
  · intro hx
    apply tracked_inside (S := fun x => m.Tracked worker x ∨ x = child) (.inl .refl) _ hx
    intro a b ha hchild
    by_cases hb : b = child
    · exact .inr hb
    · have hmem : b ∈ m.pids := Finset.mem_of_mem_insert_of_ne hchild.1 hb
      have hppid := hchild.2
      rw [started_stat hb] at hppid
      cases ha with
      | inl ha => exact .inl (tracked_child ha hmem hppid)
      | inr ha => exact absurd (hppid.trans ha) (hparent b hmem)
  · intro hx
    cases hx with
    | inl hx => exact hkept x hx
    | inr hx =>
        subst hx
        apply tracked_child (hkept p hp) (Finset.mem_insert_self x m.pids)
        rw [started_new]

theorem started_rooted (hroot : m.Rooted worker) (hp : m.Tracked worker p)
    (hnew : child ∉ m.pids) (hparent : ∀ q ∈ m.pids, (m.stat q).ppid ≠ child) :
    (m.started p child).Rooted worker where
  live := Finset.mem_insert_of_mem hroot.live
  outside := by
    have hne : worker ≠ child := fun heq => hnew (heq ▸ hroot.live)
    rw [started_tracked hp hnew hparent, started_stat hne]
    intro h
    cases h with
    | inl h => exact hroot.outside h
    | inr h => exact hparent worker hroot.live h

theorem started_total (hp : m.Tracked worker p)
    (hnew : child ∉ m.pids) (hparent : ∀ q ∈ m.pids, (m.stat q).ppid ≠ child) :
    (m.started p child).total worker = m.total worker := by
  have hfresh : child ∉ m.tree worker := fun h => hnew (mem_tree.mp h).1
  have htree : (m.started p child).tree worker = insert child (m.tree worker) := by
    ext x
    rw [mem_tree, started_tracked hp hnew hparent, Finset.mem_insert, mem_tree]
    by_cases hx : x = child
    · simp [hx, started]
    · simp [hx, started]
  rw [total, htree, Finset.sum_insert hfresh, started_new, total]
  have hsame : ∀ x ∈ m.tree worker, ((m.started p child).stat x).cpu = (m.stat x).cpu := by
    intro x hx
    have hne : x ≠ child := fun heq => hfresh (heq ▸ hx)
    rw [started_stat hne]
  rw [Finset.sum_congr rfl hsame]
  simp [Stat.cpu]

end Start

/-! ## Reaping -/

section Reap
variable {q : ℕ}

theorem reaped_ppid (b : ℕ) : ((m.reaped q p).stat b).ppid = (m.stat b).ppid := by
  by_cases h : b = p
  · subst h
    simp [reaped]
  · simp [reaped, Function.update_of_ne h]

theorem reaped_cpu (b : ℕ) :
    ((m.reaped q p).stat b).cpu = (m.stat b).cpu + if b = p then (m.stat q).cpu else 0 := by
  by_cases h : b = p
  · subst h
    simp only [reaped, Function.update_self, Stat.cpu, if_true]
    omega
  · simp [reaped, Function.update_of_ne h, if_neg h]

theorem reaped_tracked (hq : q ≠ worker) (hleaf : ∀ b ∈ m.pids, (m.stat b).ppid ≠ q) (x : ℕ) :
    (m.reaped q p).Tracked worker x ↔ m.Tracked worker x ∧ x ≠ q := by
  constructor
  · intro hx
    apply tracked_inside (S := fun x => m.Tracked worker x ∧ x ≠ q) ⟨.refl, hq.symm⟩ _ hx
    intro a b ha hchild
    have hb := Finset.mem_erase.mp hchild.1
    have hppid := hchild.2
    rw [reaped_ppid] at hppid
    exact ⟨tracked_child ha.1 hb.2 hppid, hb.1⟩
  · intro hx
    obtain ⟨hx, hne⟩ := hx
    induction hx with
    | refl => exact .refl
    | tail _ hchild ih =>
        have ha := ih fun heq => hleaf _ hchild.1 (hchild.2.trans heq)
        apply tracked_child ha (Finset.mem_erase.mpr ⟨hne, hchild.1⟩)
        rw [reaped_ppid, hchild.2]

theorem reaped_rooted (hroot : m.Rooted worker) (hq : q ≠ worker)
    (hleaf : ∀ b ∈ m.pids, (m.stat b).ppid ≠ q) : (m.reaped q p).Rooted worker where
  live := Finset.mem_erase.mpr ⟨hq.symm, hroot.live⟩
  outside := by
    rw [reaped_tracked hq hleaf, reaped_ppid]
    exact fun h => hroot.outside h.1

theorem reaped_total (hroot : m.Rooted worker) (hq : q ≠ worker) (htracked : m.Tracked worker q)
    (hparent : (m.stat q).ppid = p) (hleaf : ∀ b ∈ m.pids, (m.stat b).ppid ≠ q) :
    (m.reaped q p).total worker = m.total worker := by
  have hlive : q ∈ m.pids := hroot.mem htracked
  have hmem : q ∈ m.tree worker := mem_tree.mpr ⟨hlive, htracked⟩
  have htree : (m.reaped q p).tree worker = (m.tree worker).erase q := by
    ext x
    rw [mem_tree, reaped_tracked hq hleaf, Finset.mem_erase, mem_tree]
    by_cases hx : x = q
    · simp [hx]
    · simp [hx, reaped]
  have hp : p ∈ (m.tree worker).erase q := by
    have hup : m.Tracked worker p := by
      cases tracked_parent htracked with
      | inl heq => exact absurd heq hq
      | inr h => exact hparent ▸ h.2
    have hne : p ≠ q := fun heq => hleaf q hlive (hparent.trans heq)
    exact Finset.mem_erase.mpr ⟨hne, mem_tree.mpr ⟨hroot.mem hup, hup⟩⟩
  rw [total, htree, Finset.sum_congr rfl fun b _ => reaped_cpu b, Finset.sum_add_distrib,
    Finset.sum_ite_eq' _ p, if_pos hp, Finset.sum_erase_add _ _ hmem, total]

end Reap

/-- An event keeps the worker at the top of its tree, and adds to the counters of the tree
what ran in it. -/
theorem event_total {d : ℕ} (h : Event worker m d m') (hroot : m.Rooted worker) :
    m'.Rooted worker ∧ m'.total worker = m.total worker + d := by
  cases h with
  | run p user system hp =>
      have htracked : ∀ x, (m.ran p user system).Tracked worker x ↔ m.Tracked worker x :=
        ran_tracked
      have htree : (m.ran p user system).tree worker = m.tree worker :=
        tree_same (fun _ _ => Iff.rfl) htracked
      constructor
      · exact hroot.same hroot.live (ran_ppid worker) htracked
      · exact total_added htree (mem_tree.mpr ⟨hroot.mem hp, hp⟩) fun b _ => ran_cpu b
  | start p child hp hnew hparent =>
      exact ⟨started_rooted hroot hp hnew hparent, started_total hp hnew hparent⟩
  | exit q heir hq hne hheir happart =>
      have htracked := exited_tracked hq hheir happart
      constructor
      · have hne' : (m.stat worker).ppid ≠ q := fun heq => hroot.outside (heq ▸ hq)
        have hparent : ((m.exited q heir).stat worker).ppid = (m.stat worker).ppid := by
          rw [exited_ppid, if_neg hne']
        exact hroot.same hroot.live hparent htracked
      · have htree : (m.exited q heir).tree worker = m.tree worker :=
          tree_same (fun _ _ => Iff.rfl) htracked
        exact total_same htree fun b _ => exited_cpu b
  | reap q p hq hne hparent hleaf =>
      exact ⟨reaped_rooted hroot hne hleaf, reaped_total hroot hne hq hparent hleaf⟩
  | elsewhere _ hsame hnone =>
      have htracked : ∀ x, m'.Tracked worker x ↔ m.Tracked worker x := by
        apply tracked_iff
        · intro a b ha hchild ha'
          have hb := hsame b (ha.tail hchild)
          apply tracked_child ha' hb.1
          rw [hb.2, hchild.2]
        · intro a b ha hchild
          exact hnone b hchild.1 (hchild.2.symm ▸ ha)
      constructor
      · exact hroot.same (hsame worker .refl).1 (by rw [(hsame worker .refl).2]) htracked
      · have htree : m'.tree worker = m.tree worker :=
          tree_same (fun b hb => iff_of_true (hsame b hb).1 (hroot.mem hb)) htracked
        apply total_same htree
        intro b hb
        rw [(hsame b (mem_tree.mp hb).2).2]

end Tree

end Machine
end TranspileBench.Lsf
