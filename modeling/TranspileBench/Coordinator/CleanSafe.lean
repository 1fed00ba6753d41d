import TranspileBench.Coordinator.CleanPlan
import Mathlib

/-!
What `clean` deletes, over any number of invocations that are killed or fail anywhere: the
plan saved before the first deletion and nothing else, and all of it once `clean` is complete.
-/
namespace TranspileBench.Coordinator
open Fallible

variable {C : Type}

/-! ## Invocations -/

/-- What `decide` writes into a session, cleaned or not. -/
def DECISION_FILES : List String := ["decision.json", "evidence.json", "report.md", "progress.log"]

def IsDecisionFile (root p : TreePath) : Prop := ∃ name ∈ DECISION_FILES, p = root ++ [name]

/-- What happens to a session, one command at a time under the lifecycle lock. -/
inductive Tends (host : Host C) (root : TreePath) : SessionTree C → SessionTree C → Prop
  /-- An invocation of `clean`, completed, failed or killed anywhere. -/
  | clean {w w' : SessionTree C} {o : Option (Except Exn Nat)}
      (run : Exec (cleanTree host root) w o w') : Tends host root w w'
  /-- A write of `decide`. -/
  | decide {w w' : SessionTree C} {name : String} {content : C} (written : name ∈ DECISION_FILES)
      (dir : w.tree.get root = some .directory)
      (free : w.tree.get (root ++ [name]) ≠ some .directory)
      (tree : w'.tree = w.tree.write root name content dir free) (clean : w'.clean = w.clean) :
      Tends host root w w'
  /-- Any other command, which is refused once there is a `clean.json`. -/
  | other {w w' : SessionTree C} (fresh : w.clean = none) (clean : w'.clean = none) :
      Tends host root w w'

/-- Only what is planned goes, and only what `decide` writes changes. -/
structure Deletes (root : TreePath) (planned : Plan) (t t' : FileTree C) : Prop where
  changes : ∀ p, ¬ IsDecisionFile root p →
    t'.get p = t.get p ∨ (Doomed planned p ∧ t'.get p = none)
  stays : ∀ p, ¬ Doomed planned p → t.get p ≠ none → t'.get p ≠ none

theorem Deletes.refl (root : TreePath) (planned : Plan) (t : FileTree C) :
    Deletes root planned t t where
  changes _ _ := .inl rfl
  stays _ _ h := h

theorem Deletes.write {root : TreePath} {planned : Plan} {t t' : FileTree C} {name : String}
    {content : C} (h : Deletes root planned t t') (written : name ∈ DECISION_FILES)
    (dir : t'.get root = some .directory) (free : t'.get (root ++ [name]) ≠ some .directory) :
    Deletes root planned t (t'.write root name content dir free) where
  changes p hp := by
    rw [FileTree.get_write_other dir free fun heq => hp ⟨name, written, heq⟩]
    exact h.changes p hp
  stays p hp hexists := by
    by_cases heq : p = root ++ [name]
    · rw [heq, FileTree.get_write_same]
      simp
    · rw [FileTree.get_write_other dir free heq]
      exact h.stays p hp hexists

theorem Deletes.erase {root : TreePath} {planned : Plan} {t t' : FileTree C}
    (h : Deletes root planned t t') {p : TreePath} (hp : Doomed planned p) (leaf : t'.Leaf p) :
    Deletes root planned t (t'.erase p leaf) where
  changes q hq := by
    by_cases heq : q = p
    · rw [heq]
      exact .inr ⟨hp, FileTree.get_erase_same leaf⟩
    · rw [FileTree.get_erase_other leaf heq]
      exact h.changes q hq
  stays q hq hexists := by
    have hne : q ≠ p := fun heq => hq (heq ▸ hp)
    rw [FileTree.get_erase_other leaf hne]
    exact h.stays q hq hexists

/-- Everything planned is gone. -/
def AllGone (root : TreePath) (planned : Plan) (t : FileTree C) : Prop :=
  ∀ p, ¬ IsDecisionFile root p → Doomed planned p → t.get p = none

/-- Nothing that exists is below what is gone. -/
theorem allGone_of_targets {root : TreePath} {planned : Plan} {t : FileTree C}
    (h : ∀ entry ∈ planned, t.get entry.1 = none) : AllGone root planned t := by
  intro p _ ⟨k, hk, hprefix⟩
  obtain ⟨entry, hentry, rfl⟩ := List.mem_map.mp hk
  by_contra hp
  exact FileTree.get_prefix hp hprefix (h entry hentry)

/-! ## One invocation -/

/-- Entries that are gone stay gone while others are deleted. -/
def Cleared (root : TreePath) (planned done : Plan) (t t' : FileTree C) : Prop :=
  Deletes root planned t t' ∧ ∀ entry ∈ done, t'.get entry.1 = none

theorem Cleared.erase {root : TreePath} {planned done : Plan} {t t' : FileTree C}
    (h : Cleared root planned done t t') {p : TreePath} (hp : Doomed planned p) (leaf : t'.Leaf p) :
    Cleared root planned done t (t'.erase p leaf) := by
  refine ⟨h.1.erase hp leaf, fun entry hentry => ?_⟩
  by_cases heq : entry.1 = p
  · rw [heq, FileTree.get_erase_same]
  · rw [FileTree.get_erase_other leaf heq]
    exact h.2 entry hentry

theorem Cleared.snoc {root : TreePath} {planned done : Plan} {t t' : FileTree C}
    {entry : TreePath × Deletion} (h : Cleared root planned done t t')
    (hgone : t'.get entry.1 = none) :
    Cleared root planned (done ++ [entry]) t t' := by
  refine ⟨h.1, fun other hother => ?_⟩
  rcases List.mem_append.mp hother with hdone | hlast
  · exact h.2 other hdone
  · rwa [List.mem_singleton.mp hlast]

section Delete
variable {root : TreePath} {planned : Plan} {t : FileTree C}

theorem wp_deleteEntry {done : Plan} {entry : TreePath × Deletion} (hentry : entry ∈ planned)
    {t' : FileTree C} (h : Cleared root planned done t t') :
    (deleteEntry entry).wp (.alone (Deletes root planned t) fun _ _ => True)
      (fun _ => Cleared root planned (done ++ [entry]) t) (fun _ _ => True) t' := by
  have doomed : ∀ {p}, entry.1 <+: p → Doomed planned p :=
    fun hp => ⟨entry.1, List.mem_map_of_mem hentry, hp⟩
  have strong : ∀ t', Cleared root planned done t t' → Deletes root planned t t' := fun _ h => h.1
  unfold deleteEntry
  split
  case h_1 =>
    rw [Prog.wp_bind]
    refine Prog.wp_read (fun _ => trivial) ?_
    rintro _ rfl -
    split
    case isTrue =>
      exact Prog.wp_mono (FileTree.wp_rmtree strong
        (fun _ _ leaf h hp => h.erase (doomed hp) leaf) h)
        (fun _ _ h => h.1.snoc h.2) fun _ _ _ => trivial
    case isFalse hfound =>
      exact h.snoc (by simpa using hfound)
  case h_2 =>
    exact Prog.wp_mono (FileTree.wp_unlink strong
      (fun _ leaf h => h.erase (doomed List.prefix_rfl) leaf) h)
      (fun _ _ h => h.1.snoc h.2) fun _ _ _ => trivial

/-- Killed anywhere, the deletion has taken only what is planned; completed, all of it. -/
theorem wp_deleteAll {t' : FileTree C} (h : Deletes root planned t t') :
    (Prog.each deleteEntry planned).wp (.alone (Deletes root planned t) fun _ _ => True)
      (fun _ t' => Deletes root planned t t' ∧ AllGone root planned t') (fun _ _ => True) t' := by
  let J (rest : Plan) (t' : FileTree C) : Prop :=
    ∃ done, planned = done ++ rest ∧ Cleared root planned done t t'
  have hround : ∀ entry rest t', J (entry :: rest) t' →
      (deleteEntry entry).wp (.alone (Deletes root planned t) fun _ _ => True) (fun _ => J rest)
        (fun _ _ => True) t' := by
    rintro entry rest t' ⟨done, hdone, hcleared⟩
    have hentry : entry ∈ planned := by simp [hdone]
    refine Prog.wp_mono (wp_deleteEntry hentry hcleared) (fun _ _ h => ?_) fun _ _ h => h
    exact ⟨done ++ [entry], by simp [hdone], h⟩
  have hstart : J planned t' := ⟨[], rfl, h, by simp⟩
  refine Prog.wp_mono (Prog.wp_each J hround hstart) ?_ fun _ _ h => h
  rintro _ t' ⟨done, hdone, hcleared⟩
  obtain rfl : done = planned := by simpa using hdone.symm
  exact ⟨hcleared.1, allGone_of_targets hcleared.2⟩

end Delete

/-- The files of a session since the plan of its `clean.json` was made of the tree `t`. -/
structure Underway (host : Host C) (root : TreePath) (t : FileTree C) (state : CleanState)
    (w : SessionTree C) : Prop where
  started : startClean host root t = .ok state
  deletes : Deletes root state.planned t w.tree
  saved : w.clean = some state ∨ w.clean = some state.finished ∧ AllGone root state.planned w.tree

/-- No plan yet, or the one of the tree found. -/
def CleanBegun (host : Host C) (root : TreePath) (t : FileTree C) (w : SessionTree C) : Prop :=
  (w.clean = none ∧ w.tree = t) ∨ ∃ state, Underway host root t state w

section Invocation
variable {host : Host C} {root : TreePath} {t : FileTree C} {state : CleanState}

theorem startClean_eq_ok (h : startClean host root t = .ok state) :
    state.status = .cleaning ∧ plannedDeletions host t root = .ok state.planned := by
  obtain ⟨states, -, h⟩ := bind_eq_ok.mp h
  dsimp only at h
  split at h
  case isTrue => cases h
  case isFalse =>
    split at h
    case h_1 => cases h
    case h_2 =>
      obtain ⟨recorded, -, h⟩ := bind_eq_ok.mp h
      split at h
      case isTrue => cases h
      case isFalse =>
        obtain ⟨planned, hplanned, h⟩ := bind_eq_ok.mp h
        cases h
        exact ⟨rfl, hplanned⟩

theorem wp_deletePlan {I : SessionTree C → Prop} (strong : ∀ w, Underway host root t state w → I w)
    {w : SessionTree C} (h : Underway host root t state w) (hsaved : w.clean = some state) :
    (deletePlan state).wp (.alone I fun _ _ => True) (fun _ _ => True) (fun _ _ => True) w := by
  unfold deletePlan
  rw [Prog.wp_bind]
  have hdelete : ((Prog.each deleteEntry state.planned).zoom (SessionTree.treeLens C)).wp
      (.alone I fun _ _ => True)
      (fun _ w => w.clean = some state ∧ Deletes root state.planned t w.tree ∧
        AllGone root state.planned w.tree)
      (fun _ w => w.clean = some state ∧ True) w := by
    refine Prog.wp_zoom (SessionTree.treeLens C)
      (fun w => w.clean = some state) ?_ ?_ hsaved h.deletes
      (wp_deleteAll h.deletes)
    · rintro w _ hw rfl -
      exact ⟨hw, rfl⟩
    · intro w tree hw _ _ _ hdeletes
      exact ⟨trivial, strong _ ⟨h.started, hdeletes, .inl hw⟩, hw⟩
  refine Prog.wp_mono hdelete ?_ fun _ _ _ => trivial
  rintro _ w₁ ⟨hsaved₁, hdeletes, hgone⟩
  rw [Prog.wp_bind]
  refine Prog.wp_fallible (fun _ => trivial) ?_ fun _ _ _ _ _ => trivial
  rintro _ rfl - _ _ rfl
  exact ⟨trivial, strong _ ⟨h.started, hdeletes, .inr ⟨rfl, hgone⟩⟩, trivial⟩

/-- An invocation that finds a plan follows it. -/
theorem Underway.clean {w w' : SessionTree C} {o : Option (Except Exn Nat)}
    (h : Underway host root t state w) (run : Exec (cleanTree host root) w o w') :
    Underway host root t state w' := by
  suffices hwp : (cleanTree host root).wp (.alone (Underway host root t state) fun _ _ => True)
      (fun _ _ => True) (fun _ _ => True) w from (run.sound h hwp).1
  unfold cleanTree
  rw [Prog.wp_bind]
  refine Prog.wp_fallible (fun _ => trivial) ?_ fun _ _ _ _ _ => trivial
  rintro _ rfl - found _ ⟨rfl, rfl⟩
  refine ⟨trivial, h, ?_⟩
  rcases h.saved with hsaved | ⟨hsaved, -⟩
  · simp only [hsaved, (startClean_eq_ok h.started).1]
    exact wp_deletePlan (fun _ h => h) h hsaved
  · simp only [hsaved]
    trivial

/-- An invocation that finds none makes its plan of what it finds. -/
theorem cleanBegun_clean {w w' : SessionTree C} {o : Option (Except Exn Nat)}
    (fresh : w.clean = none)
    (run : Exec (cleanTree host root) w o w') : CleanBegun host root w.tree w' := by
  suffices hwp : (cleanTree host root).wp (.alone (CleanBegun host root w.tree) fun _ _ => True)
      (fun _ _ => True) (fun _ _ => True) w from (run.sound (.inl ⟨fresh, rfl⟩) hwp).1
  unfold cleanTree
  rw [Prog.wp_bind]
  refine Prog.wp_fallible (fun _ => trivial) ?_ fun _ _ _ _ _ => trivial
  rintro _ rfl - found w₁ ⟨hfound, hw₁⟩
  rw [hfound, hw₁, fresh]
  refine ⟨trivial, .inl ⟨fresh, rfl⟩, ?_⟩
  rw [Prog.wp_bind]
  refine Prog.wp_fallible (fun _ => trivial) ?_ fun _ _ _ _ _ => trivial
  rintro _ rfl hbegun started w₂ ⟨hstarted, hw₂⟩
  rw [hw₂]
  refine ⟨trivial, hbegun, ?_⟩
  cases hstart : started with
  | error e => trivial
  | ok state =>
      have hstate : startClean host root w.tree = .ok state := hstarted.symm.trans hstart
      change ((writeCleanState state >>= fun _ => deletePlan state).wp _ _ _ _)
      rw [Prog.wp_bind]
      refine Prog.wp_fallible (fun _ => trivial) ?_ fun _ _ _ _ _ => trivial
      rintro _ rfl - _ _ rfl
      have hunderway : Underway host root w.tree state { w with clean := some state } :=
        ⟨hstate, .refl root state.planned w.tree, .inl rfl⟩
      exact ⟨trivial, .inr ⟨state, hunderway⟩,
        wp_deletePlan (fun _ h => .inr ⟨state, h⟩) hunderway rfl⟩

theorem AllGone.write {planned : Plan} {name : String} {content : C} (h : AllGone root planned t)
    (written : name ∈ DECISION_FILES) (dir : t.get root = some .directory)
    (free : t.get (root ++ [name]) ≠ some .directory) :
    AllGone root planned (t.write root name content dir free) := by
  intro p hp hdoomed
  rw [FileTree.get_write_other dir free fun heq => hp ⟨name, written, heq⟩]
  exact h p hp hdoomed

theorem Underway.saved_ne_none {w : SessionTree C} (h : Underway host root t state w) :
    w.clean ≠ none := by
  rcases h.saved with hsaved | ⟨hsaved, -⟩ <;> simp [hsaved]

theorem Underway.tends {w w' : SessionTree C} (h : Underway host root t state w)
    (step : Tends host root w w') : Underway host root t state w' := by
  cases step with
  | clean run => exact h.clean run
  | decide written dir free tree clean =>
      refine ⟨h.started, tree ▸ h.deletes.write written dir free, ?_⟩
      rw [clean, tree]
      exact h.saved.imp id fun ⟨hsaved, hgone⟩ => ⟨hsaved, hgone.write written dir free⟩
  | other fresh => exact absurd fresh h.saved_ne_none

theorem cleanBegun_tends {w w' : SessionTree C} (fresh : w.clean = none)
    (step : Tends host root w w') :
    w'.clean = none ∨ ∃ state, Underway host root w.tree state w' := by
  cases step with
  | clean run => exact (cleanBegun_clean fresh run).imp (fun h => h.1) id
  | decide written dir free tree clean => exact .inl (clean.trans fresh)
  | other _ clean => exact .inl clean

/-- The plan is the one of the first invocation that came to save it. -/
theorem tends_run {w₀ w : SessionTree C} (fresh : w₀.clean = none)
    (run : Relation.ReflTransGen (Tends host root) w₀ w) :
    w.clean = none ∨ ∃ w₁ state, Relation.ReflTransGen (Tends host root) w₀ w₁ ∧ w₁.clean = none ∧
      Relation.ReflTransGen (Tends host root) w₁ w ∧ Underway host root w₁.tree state w := by
  induction run with
  | refl => exact .inl fresh
  | @tail w w' run step ih =>
      rcases ih with hnone | ⟨w₁, state, hbefore, hnone, hafter, hunderway⟩
      · rcases cleanBegun_tends hnone step with hnone' | ⟨state, hunderway⟩
        · exact .inl hnone'
        · exact .inr ⟨w, state, run, hnone, .single step, hunderway⟩
      · exact .inr ⟨w₁, state, hbefore, hnone, hafter.tail step, hunderway.tends step⟩

end Invocation

/-! ## Whole runs -/

/-- What a cleanup of the tree `t` that has come to `t'` has done. -/
structure CleanedTo (host : Host C) (root : TreePath) (t t' : FileTree C) (status : CleanStatus) :
    Prop where
  changes : ∀ p, ¬ IsDecisionFile root p →
    t'.get p = t.get p ∨ (Bulk host t root p ∧ t'.get p = none)
  stays : ∀ p, ¬ Bulk host t root p → t.get p ≠ none → t'.get p ≠ none
  gone : status = .complete → ∀ p, ¬ IsDecisionFile root p → Bulk host t root p → t'.get p = none

theorem Underway.cleanedTo {host : Host C} {root : TreePath} {t : FileTree C}
    {state saved : CleanState}
    {w : SessionTree C} (h : Underway host root t state w) (hclean : w.clean = some saved) :
    saved.planned = state.planned ∧ CleanedTo host root t w.tree saved.status := by
  obtain ⟨hstatus, hplanned⟩ := startClean_eq_ok h.started
  have hsaved : saved.planned = state.planned ∧
      (saved.status = .complete → AllGone root state.planned w.tree) := by
    rcases h.saved with hsame | ⟨hsame, hgone⟩
    · obtain rfl := Option.some.inj (hclean.symm.trans hsame)
      exact ⟨rfl, fun hcomplete => absurd (hstatus.symm.trans hcomplete) (by decide)⟩
    · obtain rfl := Option.some.inj (hclean.symm.trans hsame)
      exact ⟨rfl, fun _ => hgone⟩
  refine ⟨hsaved.1, ?_, ?_, ?_⟩
  · intro p hp
    rcases h.deletes.changes p hp with hsame | ⟨hdoomed, hnone⟩
    · exact .inl hsame
    · by_cases hexists : t.get p = none
      · exact .inl (hnone.trans hexists.symm)
      · exact .inr ⟨(doomed_iff hplanned hexists).mp hdoomed, hnone⟩
  · intro p hbulk hexists
    exact h.deletes.stays p (fun hdoomed => hbulk ((doomed_iff hplanned hexists).mp hdoomed))
      hexists
  · intro hcomplete p hp hbulk
    by_cases hexists : t.get p = none
    · rcases h.deletes.changes p hp with hsame | ⟨-, hnone⟩
      · exact hsame.trans hexists
      · exact hnone
    · exact hsaved.2 hcomplete p hp ((doomed_iff hplanned hexists).mpr hbulk)

/-- Killed, failed and resumed in any order, `clean` deletes the bulk of the session it first
planned for, nothing else at any moment and all of it once it is complete. -/
theorem clean_exact {host : Host C} {root : TreePath} {w₀ w : SessionTree C}
    (fresh : w₀.clean = none)
    (run : Relation.ReflTransGen (Tends host root) w₀ w) {saved : CleanState}
    (hclean : w.clean = some saved) :
    ∃ w₁, Relation.ReflTransGen (Tends host root) w₀ w₁ ∧ w₁.clean = none ∧
      Relation.ReflTransGen (Tends host root) w₁ w ∧
      plannedDeletions host w₁.tree root = .ok saved.planned ∧
      CleanedTo host root w₁.tree w.tree saved.status := by
  rcases tends_run fresh run with hnone | ⟨w₁, state, hbefore, hnone, hafter, hunderway⟩
  · cases hnone.symm.trans hclean
  · obtain ⟨hplanned, hcleaned⟩ := hunderway.cleanedTo hclean
    exact ⟨w₁, hbefore, hnone, hafter, hplanned ▸ (startClean_eq_ok hunderway.started).2, hcleaned⟩

/-! ## A session -/

/-- A decided session: its verifier, an output that verified and is large, one that did not
verify, a small one, and a verified prefix next to the job that compiled it. The content of a
file is its size. -/
def decidedTree : FileTree Nat where
  nodes := ⟨[⟨[], .directory⟩, ⟨["s"], .directory⟩, ⟨["s", "policy.json"], .file 1⟩,
    ⟨["s", "decision.json"], .file 1⟩, ⟨["s", "observations.jsonl"], .file 9⟩,
    ⟨["s", "verifier"], .directory⟩, ⟨["s", "verifier", "python"], .file 2⟩,
    ⟨["s", "large.qpy"], .file 9⟩, ⟨["s", "violation.qpy"], .file 9⟩, ⟨["s", "small.qpy"], .file 2⟩,
    ⟨["s", "jobs"], .directory⟩, ⟨["s", "jobs", "c6"], .directory⟩,
    ⟨["s", "jobs", "c6", "job.json"], .file 1⟩, ⟨["s", "jobs", "c6", "out"], .directory⟩,
    ⟨["s", "jobs", "c6", "out", "prefix.qpy"], .file 8⟩], by simp [List.NodupKeys, List.keys]⟩
  parent p name h := by
    obtain ⟨entry, hentry, heq⟩ := List.mem_map.mp (AList.mem_keys.mpr h)
    simp only [List.mem_cons, List.not_mem_nil, or_false] at hentry
    rcases hentry with rfl | rfl | rfl | rfl | rfl | rfl | rfl | rfl | rfl | rfl | rfl | rfl | rfl |
      rfl | rfl
    · simp at heq
    all_goals
      obtain ⟨rfl, -⟩ := List.append_inj'
        (heq.symm.trans (List.dropLast_append_getLast (by simp)).symm) rfl
      rfl

def sampleRows : List OutputRow :=
  [⟨"o0", 0, some "large.qpy", "h0", [⟨"C0", "verified", []⟩,
      ⟨"C6", "verified", [⟨"layout", some "prefix.qpy", some "p0", some "job.json"⟩]⟩]⟩,
    ⟨"o1", 1, some "violation.qpy", "h1", [⟨"C0", "violation", []⟩]⟩,
    ⟨"o2", 2, some "small.qpy", "h2", [⟨"C0", "verified", []⟩]⟩]

def plainHost : Host Nat where
  resolve name :=
    if name = "prefix.qpy" then ["s", "jobs", "c6", "out", "prefix.qpy"]
    else if name = "job.json" then ["s", "jobs", "c6", "job.json"]
    else ["s", name]
  size content := content
  block := 1
  sha256 _ := "sha256"
  digest _ := "digest"
  state _ := .error (.other "not a state")
  decision _ := .ok fun _ => none
  limit _ := .ok 4
  rows _ := .ok sampleRows
  job _ := .ok ⟨"prefix", [0]⟩

theorem bulk_decidedTree : bulkDirectories decidedTree ["s"] =
    [["s", "builds", "evolved-build"], ["s", "verifier"], ["s", "verifier-cache"],
      ["s", "oracle-jobs"]] := by
  have hbuilds : subdirectories decidedTree ["s", "builds"] (fun _ => true) = [] :=
    List.mergeSort_nil
  have hscratch : scratchPaths decidedTree ["s"] = [] := List.mergeSort_nil
  have hupstream : subdirectories decidedTree ["s"] (startsWith · "upstream-") = [] :=
    List.mergeSort_nil
  rw [bulkDirectories, upstreamPaths, hscratch, hupstream]
  change _ ++ subdirectories decidedTree ["s", "builds"] (fun _ => true) ++ _ ++ _ = _
  rw [hbuilds]
  rfl

def largeOutput : Provenance where
  output_hash := "h0"
  observation_id := "o0"
  compressed_sha256 := "sha256"
  compressed_bytes := 9

def verifiedPrefix : Provenance where
  oracle := some "C6"
  stage := some "layout"
  output_hash := "p0"
  observation_id := "o0"
  compressed_sha256 := "sha256"
  job_file := some ["s", "jobs", "c6", "job.json"]
  compressed_bytes := 8

def decidedPlan : Plan :=
  [(["s", "verifier"], .directory 1 2 "digest"), (["s", "large.qpy"], .file 9 largeOutput),
    (["s", "jobs", "c6", "out", "prefix.qpy"], .file 8 verifiedPrefix)]

theorem planned_decided : plannedDeletions plainHost decidedTree ["s"] = .ok decidedPlan := by
  have hlimit : required decidedTree plainHost.limit (["s"] ++ ["policy.json"]) = .ok 4 := rfl
  have hrows : sessionRows plainHost decidedTree ["s"] = .ok sampleRows := rfl
  have houtputs : outputDeletions plainHost decidedTree ["s"] 4 sampleRows =
      .ok [(["s", "large.qpy"], largeOutput)] := rfl
  have hprefixes : prefixOutputDeletions plainHost decidedTree ["s"] 4 sampleRows =
      .ok [(["s", "jobs", "c6", "out", "prefix.qpy"], verifiedPrefix)] := rfl
  simp only [plannedDeletions, hlimit, hrows, houtputs, hprefixes, bulk_decidedTree, bind,
    Except.bind]
  rfl

theorem start_decided : ∃ state, startClean plainHost ["s"] decidedTree = .ok state ∧
    state.planned = decidedPlan := by
  have hstates : stageStates plainHost ["s"] decidedTree = .ok
      (STAGE_ORDER.map fun s => (s, none)) := rfl
  have hdecision : decidedTree.read (["s"] ++ ["decision.json"]) = some 1 := rfl
  have hrecorded : plainHost.decision 1 = .ok fun _ => none := rfl
  simp only [startClean, hstates, planned_decided, hdecision, hrecorded, bind, Except.bind]
  rw [if_neg (by decide), if_neg (by decide)]
  exact ⟨_, rfl, rfl⟩

/-- The verifier without what was in it. -/
def emptiedTree : FileTree Nat :=
  decidedTree.erase ["s", "verifier", "python"] (FileTree.leaf_of_keys (by decide))

def unverifiedTree : FileTree Nat :=
  emptiedTree.erase ["s", "verifier"] (FileTree.leaf_of_keys (by decide))

def withoutOutput : FileTree Nat :=
  unverifiedTree.erase ["s", "large.qpy"] (FileTree.leaf_of_keys (by decide))

def cleanedTree : FileTree Nat :=
  withoutOutput.erase ["s", "jobs", "c6", "out", "prefix.qpy"] (FileTree.leaf_of_keys (by decide))

/-- The session once its plan is saved. -/
def plannedSession (state : CleanState) :
    SessionTree Nat := { tree := decidedTree, clean := some state }

def cleanedSession (state : CleanState) : SessionTree Nat :=
  { tree := cleanedTree, clean := some state.finished }

theorem decided_killed {state : CleanState}
    (hstart : startClean plainHost ["s"] decidedTree = .ok state) :
    Exec (cleanTree plainHost ["s"]) { tree := decidedTree } none (plannedSession state) := by
  have hfound : Exec (Prog.fallible crash fun w (found : Option CleanState) w' =>
      found = w.clean ∧ w' = w) ({ tree := decidedTree } : SessionTree Nat) (some (.ok none))
      { tree := decidedTree } := .fallible ⟨rfl, rfl⟩
  have hstarted : Exec (Prog.fallible crash fun w (started : Except Exn CleanState) w' =>
      started = startClean plainHost ["s"] w.tree ∧ w' = w)
        ({ tree := decidedTree } : SessionTree Nat)
      (some (.ok (.ok state))) { tree := decidedTree } := .fallible ⟨hstart.symm, rfl⟩
  have hwritten : Exec (writeCleanState state) { tree := decidedTree } none
      (plannedSession state) :=
    .killed (b := ()) rfl
  exact hfound.bind (hstarted.bind hwritten.stopped)

theorem verifier_removed : Exec (FileTree.rmtree crash ["s", "verifier"]) decidedTree
    (some (.ok ()))
    unverifiedTree := by
  have hcontent : Exec (Prog.fallible crash fun t (_ : Unit) t' =>
      FileTree.RemovesOne ["s", "verifier"] t t') decidedTree (some (.ok ())) emptiedTree :=
    .fallible ⟨rfl, _, ⟨["python"], rfl⟩, FileTree.leaf_of_keys (by decide), rfl⟩
  have hitself : Exec (Prog.fallible crash fun t (_ : Unit) t' =>
      FileTree.RemovesOne ["s", "verifier"] t t') emptiedTree (some (.ok ())) unverifiedTree :=
    .fallible ⟨rfl, _, List.prefix_rfl, FileTree.leaf_of_keys (by decide), rfl⟩
  have hrounds := (Exec.answer (P := fun _ : ℕ => True) (b := 2) trivial).bind
    (f := fun n => Prog.each (fun _ => Prog.fallible crash fun t (_ : Unit) t' =>
      FileTree.RemovesOne ["s", "verifier"] t t') (List.replicate n ()))
    (hcontent.bind (hitself.bind (.ret () _)))
  exact hrounds.bind (.fallible ⟨rfl, rfl⟩)

theorem decided_deleted : Exec (Prog.each deleteEntry decidedPlan) decidedTree (some (.ok ()))
    cleanedTree := by
  have hverifier : Exec (deleteEntry (["s", "verifier"], .directory 1 2 "digest")) decidedTree
      (some (.ok ())) unverifiedTree := (Exec.read _).bind verifier_removed
  have houtput : Exec (deleteEntry (["s", "large.qpy"], .file 9 largeOutput)) unverifiedTree
      (some (.ok ())) withoutOutput :=
    .fallible (.inr ⟨⟨9, rfl⟩, FileTree.leaf_of_keys (by decide), rfl⟩)
  have hremoved : Exec (deleteEntry
      (["s", "jobs", "c6", "out", "prefix.qpy"], .file 8 verifiedPrefix))
      withoutOutput (some (.ok ())) cleanedTree :=
    .fallible (.inr ⟨⟨8, rfl⟩, FileTree.leaf_of_keys (by decide), rfl⟩)
  exact hverifier.bind (houtput.bind (hremoved.bind (.ret () _)))

theorem decided_resumed {state : CleanState}
    (hstart : startClean plainHost ["s"] decidedTree = .ok state)
    (hplanned : state.planned = decidedPlan) :
    Exec (cleanTree plainHost ["s"]) (plannedSession state) (some (.ok EXIT_OK))
      (cleanedSession state) := by
  have hfound : Exec (Prog.fallible crash fun w (found : Option CleanState) w' =>
      found = w.clean ∧ w' = w) (plannedSession state) (some (.ok (some state)))
        (plannedSession state) :=
    .fallible ⟨rfl, rfl⟩
  have hplan : Exec (deletePlan state) (plannedSession state) (some (.ok EXIT_OK))
      (cleanedSession state) := by
    have hwritten : Exec (writeCleanState state.finished)
        { tree := cleanedTree, clean := some state }
        (some (.ok ())) (cleanedSession state) := .fallible rfl
    have hdeleted := decided_deleted
    rw [← hplanned] at hdeleted
    exact (hdeleted.zoom (SessionTree.treeLens Nat) rfl).bind (hwritten.bind (.ret _ _))
  refine hfound.bind ?_
  simp only [(startClean_eq_ok hstart).1]
  exact hplan

/-- `clean` is killed once its plan is saved, and completed by the next invocation: the
verifier, the large output and the prefix are gone, and all else is there. -/
theorem clean_exact_resumed : ∃ (w₁ : SessionTree Nat) (saved : CleanState),
    plannedDeletions plainHost w₁.tree ["s"] = .ok saved.planned ∧ saved.status = .complete ∧
    CleanedTo plainHost ["s"] w₁.tree (cleanedSession saved).tree saved.status ∧
    (cleanedSession saved).tree.nodes.keys =
      [[], ["s"], ["s", "policy.json"], ["s", "decision.json"], ["s", "observations.jsonl"],
        ["s", "violation.qpy"], ["s", "small.qpy"], ["s", "jobs"], ["s", "jobs", "c6"],
        ["s", "jobs", "c6", "job.json"], ["s", "jobs", "c6", "out"]] := by
  obtain ⟨state, hstart, hplanned⟩ := start_decided
  have hkilled := decided_killed hstart
  have hresumed := decided_resumed hstart hplanned
  obtain ⟨w₁, -, -, -, h⟩ := clean_exact rfl
    ((Relation.ReflTransGen.single (.clean hkilled)).tail (.clean hresumed)) rfl
  exact ⟨w₁, state.finished, h.1, rfl, h.2, rfl⟩

end TranspileBench.Coordinator
