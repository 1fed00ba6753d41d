import TranspileBench.Compile.Freezing

/-!
Making a build: whole copies of the snapshot, `build.json` over a finished build, and for a
baseline build `READY` over that.
-/
namespace TranspileBench.Compile
open Evaluator (Revision)
open Prog

theorem build_identity_ok {host : Host} {tree_hash toolchain : String} {i : Identity} :
    build_identity host tree_hash toolchain = .ok i ↔
      environment host toolchain = .ok i.toEnvironment ∧ i.snapshot = tree_hash := by
  cases h : environment host toolchain with
  | error e => simp [build_identity, h, bind, Except.bind]
  | ok resolved =>
      cases i
      simp [build_identity, h, bind, Except.bind, pure, Except.pure, eq_comm]

section BuildInto
variable {K : Type} [DecidableEq K] {P : Platform K} {p : ℕ} {v v' : Compiling K}

@[simp]
theorem setDir_dir (place : Place K) (d : Option (BuildDir K)) :
    (v.setDir place d).dir place = d := by
  cases place with
  | evolved => rfl
  | entry key => exact Function.update_self ..

@[simp]
theorem setDir_tree (place : Place K) (d : Option (BuildDir K)) :
    (v.setDir place d).session.tree = v.session.tree := by
  cases place <;> rfl

/-- A contract under which a build can be made in a place while `H` holds: nobody else
changes the place or the snapshot, and an unfinished build or the one made may be there. -/
structure Workshop (P : Platform K) (C : Contract (Compiling K)) (r : Revision) (info : Manifest)
    (place : Place K) (build : Build K) (H : Compiling K → Prop) : Prop where
  refl : ∀ v, C.guar v v
  stable : ∀ v v', H v → C.rely v v' → C.inv v' →
    H v' ∧ v'.dir place = v.dir place ∧ v'.session.tree = v.session.tree
  whole : ∀ v, H v → C.inv v → ∃ tree, v.session.tree r = some tree ∧ P.Records tree info.files
  write : ∀ v d, H v → C.inv v → d.ready = false → (∀ b, d.record = some b → b = build ∧
    Whole P d b) → C.guar v (v.setDir place (some d)) ∧ C.inv (v.setDir place (some d)) ∧
      H (v.setDir place (some d))
  note : ∀ v tree, H v → C.inv v → v.session.tree r = some tree →
    C.guar v (v.note r tree) ∧ C.inv (v.note r tree) ∧ H (v.note r tree)

/-- The copy has every file that is not still to be copied. -/
structure Filling (place : Place K) (r : Revision) (host : Host) (H : Compiling K → Prop)
    (rest : List String) (v : Compiling K) : Prop where
  kept : H v
  dir : ∃ d tree, v.dir place = some d ∧ d.record = none ∧ d.ready = false ∧ d.host = host ∧
    v.session.tree r = some tree ∧
    ∀ name ∉ rest, d.source.lookup name = tree.lookup name

variable {C : Contract (Compiling K)} {r : Revision} {info : Manifest} {place : Place K}
  {build : Build K} {H : Compiling K → Prop} {host : Host}

theorem Filling.stable {rest : List String} (shop : Workshop P C r info place build H)
    (h : Filling place r host H rest v) (rely : C.rely v v') (inv : C.inv v') :
    Filling place r host H rest v' := by
  obtain ⟨kept, hdir, htree⟩ := shop.stable v v' h.kept rely inv
  refine ⟨kept, ?_⟩
  rw [hdir, htree]
  exact h.dir

theorem wp_inDir (shop : Workshop P C r info place build H) {A : BuildDir K →
    Option (BuildDir K) → Prop} {Q : Unit → Compiling K → Prop} (h : H v)
    (ok : ∀ v₁ d d', C.rely v v₁ → C.inv v₁ → v₁.dir place = some d → A d d' →
      C.guar v₁ (v₁.setDir place d') ∧ C.inv (v₁.setDir place d') ∧ Q () (v₁.setDir place d')) :
    wp C (inDir place A) Q (fun _ => H) v := by
  refine wp_fallible shop.refl ?_ ?_
  · rintro v₁ rely inv - _ ⟨d, d', hd, hA, rfl⟩
    exact ok v₁ d d' rely inv hd hA
  · exact fun v₁ rely inv _ _ => (shop.stable v v₁ h rely inv).1

theorem wp_copyInto (shop : Workshop P C r info place build H) {name : String}
    {rest : List String} (h : Filling place r host H (name :: rest) v) :
    wp C (copyInto r place name) (fun _ => Filling place r host H rest) (fun _ => H) v := by
  unfold copyInto
  rw [wp_bind]
  refine wp_fallible shop.refl ?_ ?_
  · rintro v₁ rely inv node _ ⟨rfl, tree, htree, hnode⟩
    have h₁ := h.stable shop rely inv
    refine ⟨shop.refl _, inv, wp_inDir shop h₁.kept ?_⟩
    rintro v₂ d _ rely₂ inv₂ hd rfl
    have h₂ := h₁.stable shop rely₂ inv₂
    obtain ⟨d₀, tree₀, hd₀, hrecord, hready, hhost, htree₀, hcopied⟩ := h₂.dir
    cases hd.symm.trans hd₀
    rw [(shop.stable _ v₂ h₁.kept rely₂ inv₂).2.2, htree] at htree₀
    cases htree₀
    obtain ⟨guar, inv₃, h₃⟩ := shop.write v₂ { d with source := d.source.insert name node }
      h₂.kept inv₂ hready fun b hb => by cases hrecord.symm.trans hb
    refine ⟨guar, inv₃, h₃, _, tree, setDir_dir .., hrecord, hready, hhost, ?_, ?_⟩
    · rw [setDir_tree, (shop.stable _ v₂ h₁.kept rely₂ inv₂).2.2]
      exact htree
    · intro other hother
      by_cases hname : other = name
      · subst hname
        rw [Finmap.lookup_insert, hnode]
      · rw [Finmap.lookup_insert_of_ne _ hname]
        exact hcopied other (by simp [hname, hother])
  · exact fun v₁ rely inv _ _ => (h.stable shop rely inv).kept

theorem wp_copytree (shop : Workshop P C r info place build H)
    (h : H v) (dir : v.dir place = some ⟨∅, none, false, host⟩) :
    wp C (copytree r place) (fun _ v => Filling place r host H [] v) (fun _ => H) v := by
  unfold copytree
  rw [wp_bind]
  refine wp_fallible shop.refl ?_ ?_
  · rintro v₁ rely inv names _ ⟨tree, htree, hnames, rfl⟩
    obtain ⟨h₁, hdir, -⟩ := shop.stable v v₁ h rely inv
    obtain ⟨guar, inv₂, h₂⟩ := shop.note v₁ tree h₁ inv htree
    refine ⟨guar, inv₂, wp_each (Filling place r host H)
      (fun _ _ _ h => wp_copyInto shop h)
      ⟨h₂, ⟨∅, none, false, host⟩, tree, ?_, rfl, rfl, rfl, htree, ?_⟩⟩
    · rw [← dir, ← hdir]
      cases place <;> rfl
    · intro name hname
      rw [Finmap.lookup_empty, eq_comm, ← Option.not_isSome_iff_eq_none, Finmap.lookup_isSome,
        ← hnames]
      exact hname
  · exact fun v₁ rely inv _ _ => (shop.stable v v₁ h rely inv).1

structure Made (P : Platform K) (place : Place K) (build : Build K) (H : Compiling K → Prop)
    (v : Compiling K) : Prop where
  kept : H v
  dir : ∃ d, v.dir place = some d ∧ d.record = some build ∧ d.ready = false ∧ Whole P d build

theorem Made.stable (shop : Workshop P C r info place build H) (h : Made P place build H v)
    (rely : C.rely v v') (inv : C.inv v') : Made P place build H v' := by
  obtain ⟨kept, hdir, -⟩ := shop.stable v v' h.kept rely inv
  exact ⟨kept, by rw [hdir]; exact h.dir⟩

theorem wp_build_into {identity : Identity} {toolchain : String}
    (hid : build_identity host info.tree_hash toolchain = .ok identity)
    (shop : Workshop P C r info place (built P info identity toolchain) H) (h : H v) :
    wp C (build_into P r info place identity toolchain host)
      (fun b v => b = built P info identity toolchain ∧
        Made P place (built P info identity toolchain) H v) (fun _ => H) v := by
  unfold build_into
  rw [wp_bind]
  refine wp_fallible shop.refl ?_ ?_
  swap
  · exact fun v₁ rely inv _ _ => (shop.stable v v₁ h rely inv).1
  rintro v₁ rely inv - _ ⟨-, rfl⟩
  have h₁ := (shop.stable v v₁ h rely inv).1
  obtain ⟨guar, inv₂, h₂⟩ := shop.write v₁ ⟨∅, none, false, host⟩ h₁ inv rfl nofun
  refine ⟨guar, inv₂, ?_⟩
  rw [wp_bind]
  refine wp_mono (wp_copytree shop h₂ (setDir_dir ..)) (fun _ v₃ h₃ => ?_) fun _ _ => id
  rw [wp_bind]
  refine wp_request shop.refl (fun v₄ rely₄ inv₄ _ _ => ?_)
    fun v₄ rely₄ inv₄ _ _ => (h₃.stable shop rely₄ inv₄).kept
  have h₄ := h₃.stable shop rely₄ inv₄
  rw [wp_bind]
  refine wp_inDir shop h₄.kept ?_
  rintro v₅ d _ rely₅ inv₅ hd rfl
  have h₅ := h₄.stable shop rely₅ inv₅
  obtain ⟨d₀, tree, hd₀, -, hready, hhost, htree, hcopied⟩ := h₅.dir
  cases hd.symm.trans hd₀
  -- the copy is whole as the snapshot is
  have whole : Whole P { d with record := some (built P info identity toolchain) }
      (built P info identity toolchain) := by
    obtain ⟨tree₀, htree₀, hrecords⟩ := shop.whole v₅ h₅.kept inv₅
    cases htree.symm.trans htree₀
    obtain ⟨henv, hsnapshot⟩ := build_identity_ok.mp hid
    refine ⟨rfl, fun name => ?_, hsnapshot, hhost.symm ▸ henv⟩
    exact (hrecords name).trans (by rw [hcopied name (List.not_mem_nil)])
  obtain ⟨guar₆, inv₆, h₆⟩ := shop.write v₅
    { d with record := some (built P info identity toolchain) } h₅.kept inv₅ hready
    fun b hb => by cases hb; exact ⟨rfl, whole⟩
  refine ⟨guar₆, inv₆, ?_⟩
  have made : Made P place (built P info identity toolchain) H
      (v₅.setDir place (some { d with record := some (built P info identity toolchain) })) :=
    ⟨h₆, _, setDir_dir .., rfl, hready, whole⟩
  rw [wp_bind]
  refine wp_request shop.refl (fun v₇ rely₇ inv₇ _ _ => ⟨rfl, made.stable shop rely₇ inv₇⟩)
    fun v₇ rely₇ inv₇ _ _ => (made.stable shop rely₇ inv₇).kept

end BuildInto

end TranspileBench.Compile
