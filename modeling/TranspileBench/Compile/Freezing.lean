import TranspileBench.Compile.Frozen

/-!
Taking the snapshots: a manifest is committed over the whole copy it describes, and a
killed copy is removed before the next one.
-/
namespace TranspileBench.Compile
open Evaluator (Revision)
open Prog

section Snapshots
variable {K : Type} {P : Platform K} {p : ℕ} {r : Revision} {v v' : Compiling K}

/-! ## What one write does to the invariant -/

@[simp]
theorem setTree_store (tree : Option Tree) : (v.setTree r tree).store = v.store := rfl

@[simp]
theorem setTree_manifest (tree : Option Tree) :
    (v.setTree r tree).session.manifest = v.session.manifest := rfl

theorem setTree_same (tree : Option Tree) : (v.setTree r tree).session.tree r = tree :=
  Function.update_self ..

theorem setTree_other {r' : Revision} (tree : Option Tree) (hne : r' ≠ r) :
    (v.setTree r tree).session.tree r' = v.session.tree r' := Function.update_of_ne hne ..

theorem setManifest_same (m : Manifest) :
    (v.setManifest r m).session.manifest r = some m := Function.update_self ..

theorem setManifest_other {r' : Revision} (m : Manifest) (hne : r' ≠ r) :
    (v.setManifest r m).session.manifest r' = v.session.manifest r' :=
  Function.update_of_ne hne ..

/-- A committed manifest is not the one still to be written. -/
theorem ne_of_committed {r' : Revision} {m : Manifest} (hnone : v.session.manifest r = none)
    (h : v.session.manifest r' = some m) : r' ≠ r := by
  rintro rfl
  cases hnone.symm.trans h

theorem Resolves.setTree {host : Host} {x : Resolved} (h : Resolves P host x v.session)
    (hnone : v.session.manifest r = none) (tree : Option Tree) :
    Resolves P host x (v.setTree r tree).session := by
  refine ⟨h.baseline, h.evolved, ?_, h.baselineIdentity, h.evolvedIdentity⟩
  rw [setTree_other tree (ne_of_committed hnone h.baseline)]
  exact h.toolchain

/-- Nothing rests on a tree whose manifest is not committed. -/
theorem Compiling.Sound.setTree (h : v.Sound P) (hnone : v.session.manifest r = none)
    (tree : Option Tree) : (v.setTree r tree).Sound P := by
  refine ⟨⟨fun r' m hm => ?_, fun d b hd hb => ?_, h.session.copied, h.session.recorded,
    fun hcomplete => ?_⟩, h.store⟩
  · rw [setTree_other tree (ne_of_committed hnone hm)]
    exact h.session.snapshot r' m hm
  · obtain ⟨hwhole, hevolved, hbaseline, hchannel⟩ := h.session.evolved d b hd hb
    obtain ⟨m, hm⟩ := Option.isSome_iff_exists.mp hbaseline
    refine ⟨hwhole, hevolved, hbaseline, ?_⟩
    rw [setTree_other tree (ne_of_committed hnone hm)]
    exact hchannel
  · obtain ⟨host, x, hhost, hresolves, hends⟩ := h.session.complete hcomplete
    exact ⟨host, x, hhost, hresolves.setTree hnone tree, hends⟩

theorem Compiling.Sound.setManifest (h : v.Sound P) (hnone : v.session.manifest r = none)
    {m : Manifest} {tree : Tree} (hash : m.tree_hash = P.tree_hash m.files)
    (htree : v.session.tree r = some tree) (hrecords : P.Records tree m.files) :
    (v.setManifest r m).Sound P := by
  have kept : ∀ {r' m'}, v.session.manifest r' = some m' →
      (v.setManifest r m).session.manifest r' = some m' := fun {r' m'} hm => by
    rw [setManifest_other m (ne_of_committed hnone hm)]
    exact hm
  refine ⟨⟨fun r' m' hm => ?_, fun d b hd hb => ?_, fun x hx => ?_, h.session.recorded,
    fun hcomplete => ?_⟩, h.store⟩
  · by_cases hr : r' = r
    · subst hr
      cases (setManifest_same m).symm.trans hm
      exact ⟨hash, tree, htree, hrecords⟩
    · rw [setManifest_other m hr] at hm
      exact h.session.snapshot r' m' hm
  · obtain ⟨hwhole, hevolved, hbaseline, hchannel⟩ := h.session.evolved d b hd hb
    obtain ⟨m', hm'⟩ := Option.isSome_iff_exists.mp hbaseline
    exact ⟨hwhole, kept hevolved, by rw [kept hm']; rfl, hchannel⟩
  · obtain ⟨m', hm', hrecords'⟩ := h.session.copied x hx
    exact ⟨m', kept hm', hrecords'⟩
  · obtain ⟨host, x, hhost, hresolves, hends⟩ := h.session.complete hcomplete
    exact ⟨host, x, hhost, ⟨kept hresolves.baseline, kept hresolves.evolved, hresolves.toolchain,
      hresolves.baselineIdentity, hresolves.evolvedIdentity⟩, hends⟩

theorem Goes.setTree (tree : Option Tree) : Goes p v (v.setTree r tree) :=
  ⟨fun _ _ => id, .refl p _⟩

theorem Goes.setManifest (hnone : v.session.manifest r = none) (m : Manifest) :
    Goes p v (v.setManifest r m) := by
  refine ⟨fun r' m' hm => ?_, .refl p _⟩
  rw [setManifest_other m (ne_of_committed hnone hm)]
  exact hm

/-! ## The programs -/

/-- What taking a snapshot of `r` leaves alone. -/
structure Keeping (p : ℕ) (r : Revision) (A : Compiling K → Prop) : Prop where
  stable : ∀ v v', A v → Around p v v' → A v'
  tree : ∀ v tree, A v → A (v.setTree r tree)
  manifest : ∀ v m, A v → v.session.manifest r = none → A (v.setManifest r m)

/-- While the manifest is not committed. -/
structure Snapping (r : Revision) (A : Compiling K → Prop) (v : Compiling K) : Prop where
  kept : A v
  uncommitted : v.session.manifest r = none

/-- The copy has the files recorded so far. -/
structure Copying (P : Platform K) (r : Revision) (A : Compiling K → Prop) (files : Files)
    (v : Compiling K) : Prop extends Snapping r A v where
  tree : ∃ tree, v.session.tree r = some tree ∧ P.Records tree files

variable {A : Compiling K → Prop}

theorem Snapping.stable (keeping : Keeping p r A) (h : Snapping r A v) (around : Around p v v') :
    Snapping r A v' :=
  ⟨keeping.stable v v' h.kept around, by rw [around.inputs.manifest]; exact h.uncommitted⟩

theorem Copying.stable {files : Files} (keeping : Keeping p r A) (h : Copying P r A files v)
    (around : Around p v v') : Copying P r A files v' :=
  ⟨h.toSnapping.stable keeping around, by rw [around.inputs.tree]; exact h.tree⟩

theorem Snapping.setTree (keeping : Keeping p r A) (h : Snapping r A v) (tree : Option Tree) :
    Snapping r A (v.setTree r tree) :=
  ⟨keeping.tree v tree h.kept, h.uncommitted⟩

theorem Records_empty : P.Records ∅ ∅ := fun name => by simp

theorem Records_insert {tree : Tree} {files : Files} {name : String} {node : Node}
    {entry : FileEntry} (h : P.Records tree files) (hentry : P.entry node = some entry) :
    P.Records (tree.insert name node) (files.insert name entry) := by
  intro other
  by_cases hname : other = name
  · subst hname
    rw [Finmap.lookup_insert, Finmap.lookup_insert]
    exact hentry.symm
  · rw [Finmap.lookup_insert_of_ne _ hname, Finmap.lookup_insert_of_ne _ hname]
    exact h other

theorem wp_inTree (keeping : Keeping p r A) (h : Snapping r A v) {B : Tree → Option Tree → Prop}
    {Q : Unit → Compiling K → Prop}
    (ok : ∀ v₁ tree tree', Snapping r A v₁ → Around p v v₁ → v₁.session.tree r = some tree →
      B tree tree' → Q () (v₁.setTree r tree')) :
    wp (compiling P p) (inTree r B) Q (fun _ => Snapping r A) v := by
  refine wp_fallible (Goes.refl p) ?_ fun v₁ around _ _ _ => h.stable keeping around
  rintro v₁ around hinv - _ ⟨tree, tree', htree, hB, rfl⟩
  have h₁ := h.stable keeping around
  exact ⟨.setTree tree', hinv.setTree h₁.uncommitted tree', ok v₁ tree tree' h₁ around htree hB⟩

theorem keeps_inTree (keeping : Keeping p r A) (B : Tree → Option Tree → Prop) :
    Keeps (compiling P p) (Snapping r A) (inTree r B) :=
  fun _ h => wp_inTree keeping h fun _ _ tree' h₁ _ _ _ => h₁.setTree keeping tree'

theorem wp_copyNode (keeping : Keeping p r A) {files : Files} (name : String) (node : Node)
    (h : Copying P r A files v) :
    wp (compiling P p) (copyNode P r files name node) (Copying P r A) (fun _ => Snapping r A)
      v := by
  have copy : wp (compiling P p) (do
      request (fun _ => True) fun _ : Unit => True
      inTree r fun tree tree' => tree' = some (tree.insert name node)
      let entry ← entryOf P r name
      pure (files.insert name entry)) (Copying P r A) (fun _ => Snapping r A) v := by
    rw [wp_bind]
    refine wp_request (Goes.refl p) (fun v₁ around _ _ _ => ?_)
      fun v₁ around _ _ _ => h.toSnapping.stable keeping around
    have h₁ := h.stable keeping around
    rw [wp_bind]
    refine wp_inTree keeping h₁.toSnapping ?_
    rintro v₂ tree tree' h₂ around₂ htree rfl
    have h₃ := h₂.setTree keeping (some (tree.insert name node))
    have hsame : (v₂.setTree r (some (tree.insert name node))).session.tree r = _ := setTree_same _
    rw [wp_bind]
    refine wp_fallible (Goes.refl p) ?_ fun v₃ around _ _ _ => h₃.stable keeping around
    rintro v₃ around₃ hinv₃ entry _ ⟨rfl, copied, hcopied, hentry⟩
    rw [around₃.inputs.tree, hsame] at hcopied
    cases hcopied
    rw [Finmap.lookup_insert] at hentry
    obtain ⟨tree₀, htree₀, hrecords⟩ := (h₁.stable keeping around₂).tree
    cases htree.symm.trans htree₀
    refine ⟨Goes.refl p _, hinv₃, h₃.stable keeping around₃, tree.insert name node, ?_, ?_⟩
    · rw [around₃.inputs.tree, hsame]
    · exact Records_insert hrecords hentry
  cases node with
  | directory => exact h.toSnapping
  | file content executable => exact copy
  | symlink target => exact copy

theorem wp_copyFile (keeping : Keeping p r A) {files : Files} (name : String)
    (h : Copying P r A files v) :
    wp (compiling P p) (copyFile P r files name) (Copying P r A) (fun _ => Snapping r A) v := by
  unfold copyFile
  split
  · exact h.toSnapping
  · split
    · exact h
    · rw [wp_bind]
      refine wp_read (Goes.refl p) fun v₁ around hinv => ?_
      have h₁ := h.stable keeping around
      cases (v₁.session.source r).lookup name with
      | none => exact h₁
      | some node => exact wp_copyNode keeping name node h₁

theorem wp_commitSnapshot (keeping : Keeping p r A) (listing : Listing) {files : Files}
    (h : Copying P r A files v) :
    wp (compiling P p) (commitSnapshot P r listing files)
      (fun m v => A v ∧ v.session.manifest r = some m) (fun _ => A) v := by
  unfold commitSnapshot
  split
  · exact h.kept
  · rw [wp_bind]
    refine wp_fallible (Goes.refl p) ?_ fun v₁ around _ _ _ => (h.stable keeping around).kept
    rintro v₁ around hinv - _ rfl
    have h₁ := h.stable keeping around
    obtain ⟨tree, htree, hrecords⟩ := h₁.tree
    exact ⟨.setManifest h₁.uncommitted _, hinv.setManifest h₁.uncommitted rfl htree hrecords,
      keeping.manifest _ _ h₁.kept h₁.uncommitted, setManifest_same _⟩

theorem wp_snapshot (keeping : Keeping p r A) (h : Snapping r A v) :
    wp (compiling P p) (snapshot P r) (fun m v => A v ∧ v.session.manifest r = some m)
      (fun _ => A) v := by
  unfold snapshot
  rw [wp_bind]
  refine wp_request (Goes.refl p) (fun v₁ around _ listing _ => ?_)
    fun v₁ around _ _ _ => (h.stable keeping around).kept
  have h₁ := h.stable keeping around
  rw [wp_bind]
  refine wp_fallible (Goes.refl p) ?_ fun v₂ around₂ _ _ _ => (h₁.stable keeping around₂).kept
  rintro v₂ around₂ hinv - _ ⟨-, rfl⟩
  have h₂ := (h₁.stable keeping around₂).setTree keeping (some ∅)
  refine ⟨.setTree _, hinv.setTree (h₁.stable keeping around₂).uncommitted _, ?_⟩
  rw [wp_bind]
  have copied : wp (compiling P p) (fold (copyFile P r) ∅ listing.names) (Copying P r A)
      (fun _ => Snapping r A) (v₂.setTree r (some ∅)) :=
    wp_fold (fun files _ => Copying P r A files)
      (fun files name _ v h => wp_copyFile keeping name h) ⟨h₂, ∅, setTree_same _, Records_empty⟩
  exact wp_mono copied (fun _ _ h => wp_commitSnapshot keeping listing h) fun _ _ h => h.kept

theorem wp_clearTree (keeping : Keeping p r A) (h : Snapping r A v) :
    wp (compiling P p) (clearTree r) (fun _ => Snapping r A) (fun _ => Snapping r A) v := by
  unfold clearTree
  rw [wp_bind]
  refine wp_read (Goes.refl p) fun v₁ around _ => ?_
  have h₁ := h.stable keeping around
  split
  · unfold removeTree
    rw [wp_bind]
    refine wp_mono (wp_repeatedly (Goes.refl p) (fun v v' h around _ => h.stable keeping around)
      (keeps_inTree keeping _) h₁) (fun _ v₂ h₂ => keeps_inTree keeping _ v₂ h₂) fun _ _ => id
  · exact h₁

/-- Afterwards the manifest is committed, and what does not depend on it is as before. -/
theorem wp_snapshotOf (keeping : Keeping p r A) (h : A v) :
    wp (compiling P p) (snapshotOf P r) (fun m v => A v ∧ v.session.manifest r = some m)
      (fun _ => A) v := by
  unfold snapshotOf
  rw [wp_bind]
  refine wp_read (Goes.refl p) fun v₁ around _ => ?_
  have h₁ := keeping.stable v v₁ h around
  cases hm : v₁.session.manifest r with
  | some m => exact ⟨h₁, hm⟩
  | none =>
      change wp _ (clearTree r >>= fun _ => snapshot P r) _ _ v₁
      rw [wp_bind]
      exact wp_mono (wp_clearTree keeping ⟨h₁, hm⟩) (fun _ v₂ h₂ => wp_snapshot keeping h₂)
        fun _ _ h => h.kept

end Snapshots

end TranspileBench.Compile
