import TranspileBench.Lib.Program
import Mathlib

/-!
File trees: what stands at each path, given by the names on the way to it. Whatever stands
somewhere stands in a directory, so that nothing is left below a path that is gone.
-/

/-- A path from the root of the file system. -/
abbrev TreePath := List String

inductive FileNode (C : Type) where
  | directory
  | file (content : C)

structure FileTree (C : Type) where
  nodes : AList fun _ : TreePath => FileNode C
  parent : ∀ p name, p ++ [name] ∈ nodes → nodes.lookup p = some .directory

namespace FileTree
variable {C : Type}

def get (t : FileTree C) (p : TreePath) : Option (FileNode C) := t.nodes.lookup p

def isDir (t : FileTree C) (p : TreePath) : Bool :=
  match t.get p with
  | some .directory => true
  | _ => false

def read (t : FileTree C) (p : TreePath) : Option C :=
  match t.get p with
  | some (.file content) => some content
  | _ => none

/-- Everything that exists below a path, itself included. -/
def below (t : FileTree C) (p : TreePath) :
    List TreePath := t.nodes.keys.filter fun q => p.isPrefixOf q

def Leaf (t : FileTree C) (p : TreePath) : Prop := ∀ name, t.get (p ++ [name]) = none

theorem isDir_iff {t : FileTree C} {p : TreePath} :
    t.isDir p = true ↔ t.get p = some .directory := by
  unfold isDir
  split <;> simp_all

theorem mem_iff {t : FileTree C} {p : TreePath} : p ∈ t.nodes ↔ t.get p ≠ none := by
  rw [get, ← Option.isSome_iff_ne_none, AList.lookup_isSome]

theorem mem_below {t : FileTree C} {p q : TreePath} : q ∈ t.below p ↔ p <+: q ∧ t.get q ≠ none := by
  rw [below, List.mem_filter, ← AList.mem_keys, mem_iff, List.isPrefixOf_iff_prefix, and_comm]

theorem get_parent {t : FileTree C} {p : TreePath} {name : String}
    (h : t.get (p ++ [name]) ≠ none) :
    t.get p = some .directory :=
  t.parent p name (mem_iff.mpr h)

/-- On the way to what exists there are directories. -/
theorem get_above {t : FileTree C} {p q : TreePath} (h : t.get (p ++ q) ≠ none) (hq : q ≠ []) :
    t.get p = some .directory := by
  induction q using List.reverseRecOn with
  | nil => exact absurd rfl hq
  | append_singleton q name ih =>
      rw [← List.append_assoc] at h
      have hdir := get_parent h
      by_cases hempty : q = []
      · simpa [hempty] using hdir
      · exact ih (by simp [hdir]) hempty

theorem get_prefix {t : FileTree C} {p q : TreePath} (h : t.get q ≠ none) (hp : p <+: q) :
    t.get p ≠ none := by
  obtain ⟨rest, rfl⟩ := hp
  by_cases hrest : rest = []
  · simpa [hrest] using h
  · simp [get_above h hrest]

/-- Nothing is below a file. -/
theorem file_prefix {t : FileTree C} {p q : TreePath} {content : C}
    (hfile : t.get p = some (.file content))
    (hp : p <+: q) (h : t.get q ≠ none) : q = p := by
  obtain ⟨rest, rfl⟩ := hp
  by_cases hrest : rest = []
  · simp [hrest]
  · rw [get_above h hrest] at hfile
    cases hfile

/-- Nothing stands in a path that no other one extends by a name. -/
theorem leaf_of_keys {t : FileTree C} {p : TreePath}
    (h : ∀ q ∈ t.nodes.keys, q.dropLast = p → q = []) : t.Leaf p := by
  intro name
  by_contra hname
  have hkey := AList.mem_keys.mp (mem_iff.mpr hname)
  have hempty := h _ hkey (by simp)
  simp at hempty

/-! ## Changes -/

/-- Remove a file or an empty directory. -/
def erase (t : FileTree C) (p : TreePath) (leaf : t.Leaf p) : FileTree C where
  nodes := t.nodes.erase p
  parent q name h := by
    have hmem := (AList.mem_erase.mp h).2
    have hdir := t.parent q name hmem
    have hne : q ≠ p := fun heq => mem_iff.mp hmem (heq ▸ leaf name)
    rwa [AList.lookup_erase_ne hne]

theorem get_erase_same {t : FileTree C} {p : TreePath} (leaf : t.Leaf p) :
    (t.erase p leaf).get p = none :=
  AList.lookup_erase p t.nodes

theorem get_erase_other {t : FileTree C} {p q : TreePath} (leaf : t.Leaf p) (h : q ≠ p) :
    (t.erase p leaf).get q = t.get q :=
  AList.lookup_erase_ne h

def write (t : FileTree C) (p : TreePath) (name : String) (content : C)
    (dir : t.get p = some .directory)
      (free : t.get (p ++ [name]) ≠ some .directory) : FileTree C where
  nodes := t.nodes.insert (p ++ [name]) (.file content)
  parent q other h := by
    rcases (AList.mem_insert _).mp h with heq | hmem
    · obtain ⟨rfl, -⟩ := List.append_inj' heq rfl
      rw [AList.lookup_insert_ne (by simp)]
      exact dir
    · have hdir := t.parent q other hmem
      have hne : q ≠ p ++ [name] := fun heq => free (heq ▸ hdir)
      rwa [AList.lookup_insert_ne hne]

theorem get_write_same {t : FileTree C} {p : TreePath} {name : String} {content : C}
    (dir : t.get p = some .directory) (free : t.get (p ++ [name]) ≠ some .directory) :
    (t.write p name content dir free).get (p ++ [name]) = some (.file content) :=
  AList.lookup_insert t.nodes

theorem get_write_other {t : FileTree C} {p q : TreePath} {name : String} {content : C}
    (dir : t.get p = some .directory) (free : t.get (p ++ [name]) ≠ some .directory)
    (h : q ≠ p ++ [name]) : (t.write p name content dir free).get q = t.get q :=
  AList.lookup_insert_ne h

/-! ## Removing a whole tree -/

/-- One step of `shutil.rmtree` of a directory: something below it, or at last itself, that
has nothing in it goes. -/
def RemovesOne (target : TreePath) (t t' : FileTree C) : Prop :=
  t.isDir target = true ∧ ∃ p, target <+: p ∧ ∃ leaf : t.Leaf p, t' = t.erase p leaf

/-- `shutil.rmtree`: the contents go before their directory, in any order; any step may fail. -/
def rmtree {ε : Type} (errors : ε → Prop) (target : TreePath) : Prog (FileTree C) ε Unit := do
  Prog.repeatedly (Prog.fallible errors fun t (_ : Unit) t' => RemovesOne target t t')
  Prog.fallible errors fun t _ t' => t' = t ∧ t.get target = none

/-- `Path.unlink(missing_ok=True)`: a directory is not unlinked. -/
def unlink {ε : Type} (errors : ε → Prop) (target : TreePath) : Prog (FileTree C) ε Unit :=
  Prog.fallible errors fun t _ t' =>
    (t.get target = none ∧ t' = t) ∨
      (∃ content, t.get target = some (.file content)) ∧
        ∃ leaf : t.Leaf target, t' = t.erase target leaf

section Specs
variable {ε : Type} {errors : ε → Prop} {target : TreePath} {inv A : FileTree C → Prop}
  {t : FileTree C}

/-- Whatever removing single entries below the target keeps holds when it is killed, too. -/
theorem wp_rmtree (strong : ∀ t, A t → inv t)
    (keeps : ∀ t p (leaf : t.Leaf p), A t → target <+: p → A (t.erase p leaf)) (h : A t) :
    (rmtree errors target).wp (Contract.alone inv fun _ _ => True)
      (fun _ t => A t ∧ t.get target = none) (fun _ => A) t := by
  unfold rmtree
  rw [Prog.wp_bind]
  refine Prog.wp_mono (Prog.wp_repeatedly (E := fun _ => A) (fun _ => trivial)
    (fun _ _ hA heq _ => heq ▸ hA) ?_ h) ?_ fun _ _ he => he
  · intro t ht
    refine Prog.wp_fallible (fun _ => trivial) ?_ fun _ heq _ _ _ => heq ▸ ht
    rintro _ rfl - _ _ ⟨-, p, hp, leaf, rfl⟩
    have hA := keeps _ p leaf ht hp
    exact ⟨trivial, strong _ hA, hA⟩
  · intro _ t ht
    refine Prog.wp_fallible (fun _ => trivial) ?_ fun _ heq _ _ _ => heq ▸ ht
    rintro _ rfl hinv _ _ ⟨rfl, hgone⟩
    exact ⟨trivial, hinv, ht, hgone⟩

theorem wp_unlink (strong : ∀ t, A t → inv t)
    (keeps : ∀ t (leaf : t.Leaf target), A t → A (t.erase target leaf)) (h : A t) :
    (unlink errors target).wp (Contract.alone inv fun _ _ => True)
      (fun _ t => A t ∧ t.get target = none) (fun _ => A) t := by
  refine Prog.wp_fallible (fun _ => trivial) ?_ fun _ heq _ _ _ => heq ▸ h
  rintro _ rfl hinv _ _ (⟨hgone, rfl⟩ | ⟨-, leaf, rfl⟩)
  · exact ⟨trivial, hinv, h, hgone⟩
  · have hA := keeps _ leaf h
    exact ⟨trivial, strong _ hA, hA, get_erase_same leaf⟩

end Specs
end FileTree
