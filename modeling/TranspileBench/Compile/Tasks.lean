import TranspileBench.Compile.Building

/-!
The two builds of an invocation: the baseline's from the store, under its key's lock, and
the evolved one in the session.
-/
namespace TranspileBench.Compile
open Evaluator (Revision)
open Prog

section Baseline
variable {K : Type} [DecidableEq K] {P : Platform K} {p : ℕ} {v v' : Compiling K} {x : Resolved}
  {host : Host} {key : K}

def Ready (key : K) (b : Build K) (v : Compiling K) : Prop :=
  ∃ d, v.store.entry key = some d ∧ d.ready ∧ d.record = some b

def Unready (key : K) (v : Compiling K) : Prop :=
  ∀ d, v.store.entry key = some d → d.ready = false

/-- The key's lock is held and nothing is ready under it. -/
structure Holds (p : ℕ) (key : K) (info : Manifest) (v : Compiling K) : Prop where
  lock : v.store.lock key = some p
  unready : Unready key v
  manifest : v.session.manifest .baseline = some info

/-- The key's lock is held. -/
structure Locked (p : ℕ) (key : K) (info : Manifest) (v : Compiling K) : Prop where
  lock : v.store.lock key = some p
  manifest : v.session.manifest .baseline = some info

omit [DecidableEq K] in
theorem BaselinePromises.refl (p : ℕ) (v : Compiling K) : BaselinePromises p v v :=
  ⟨.refl _, rfl, .refl p _⟩

omit [DecidableEq K] in
theorem Ready.rely {b : Build K} (h : Ready key b v) (rely : BaselineRelies p v v') :
    Ready key b v' := by
  obtain ⟨d, hd, hready, hrecord⟩ := h
  exact ⟨d, rely.store.steady key d hd hready, hready, hrecord⟩

omit [DecidableEq K] in
theorem Locked.rely {info : Manifest} (h : Locked p key info v) (rely : BaselineRelies p v v') :
    Locked p key info v' :=
  ⟨(rely.store.held key h.lock).1, by rw [rely.inputs.manifest]; exact h.manifest⟩

omit [DecidableEq K] in
theorem Holds.rely {info : Manifest} (h : Holds p key info v) (rely : BaselineRelies p v v') :
    Holds p key info v' := by
  obtain ⟨hlock, hentry⟩ := rely.store.held key h.lock
  refine ⟨hlock, ?_, by rw [rely.inputs.manifest]; exact h.manifest⟩
  rw [Unready, hentry]
  exact h.unready

omit [DecidableEq K] in
theorem Holds.locked {info : Manifest} (h : Holds p key info v) : Locked p key info v :=
  ⟨h.lock, h.manifest⟩

theorem setDir_entry_same (d : Option (BuildDir K)) :
    (v.setDir (.entry key) d).store.entry key = d := Function.update_self ..

theorem setDir_entry_other {other : K} (d : Option (BuildDir K)) (hne : other ≠ key) :
    (v.setDir (.entry key) d).store.entry other = v.store.entry other :=
  Function.update_of_ne hne ..

/-- An entry that is not ready may become anything. -/
theorem Unready.steady (h : Unready key v) (d : Option (BuildDir K)) :
    v.store.Steady (v.setDir (.entry key) d).store := by
  intro other d' hd' hready
  rw [setDir_entry_other d fun heq => ?_]
  · exact hd'
  · subst heq
    rw [h d' hd'] at hready
    cases hready

/-- The holder of a lock writes the entry: it stays unready, or a finished build gets ready. -/
theorem Holds.write {info : Manifest} (h : Holds p key info v) (hinv : v.Sound P)
    (d : Option (BuildDir K)) (hd : ∀ d', d = some d' → d'.ready → ∃ b harness,
      d'.record = some b ∧ Whole P d' b ∧ key = P.build_key b.identity harness) :
    BaselinePromises p v (v.setDir (.entry key) d) ∧ (v.setDir (.entry key) d).Sound P ∧
      Locked p key info (v.setDir (.entry key) d) := by
  have steady := h.unready.steady d
  refine ⟨⟨.refl _, rfl, steady, fun other hother => ?_, fun _ _ _ => id⟩, ⟨?_, ?_⟩,
    h.lock, h.manifest⟩
  · exact setDir_entry_other d fun heq => hother (heq ▸ h.lock)
  · exact hinv.session.same (.refl _) rfl rfl steady
  · intro other d' hd' hready
    by_cases hkey : other = key
    · subst hkey
      rw [setDir_entry_same] at hd'
      exact hd d' hd' hready
    · rw [setDir_entry_other d hkey] at hd'
      exact hinv.store other d' hd' hready

theorem Holds.write_unready {info : Manifest} (h : Holds p key info v) (hinv : v.Sound P)
    (d : Option (BuildDir K)) (hd : ∀ d', d = some d' → d'.ready = false) :
    BaselinePromises p v (v.setDir (.entry key) d) ∧ (v.setDir (.entry key) d).Sound P ∧
      Holds p key info (v.setDir (.entry key) d) := by
  obtain ⟨guar, inv, locked⟩ := h.write hinv d fun d' hd' hready => by
    rw [hd d' hd'] at hready
    cases hready
  refine ⟨guar, inv, locked.lock, fun d' hd' => ?_, locked.manifest⟩
  rw [setDir_entry_same] at hd'
  exact hd d' hd'

omit [DecidableEq K] in
theorem SameInputs.note (r : Revision) (tree : Tree) :
    SameInputs v.session (v.note r tree).session := ⟨rfl, rfl, rfl, rfl, rfl, rfl⟩

omit [DecidableEq K] in
/-- Noting a copy of a committed snapshot. -/
theorem Compiling.Sound.note (hinv : v.Sound P) {r : Revision} {info : Manifest} {tree : Tree}
    (hm : v.session.manifest r = some info) (htree : v.session.tree r = some tree) :
    (v.note r tree).Sound P := by
  refine ⟨⟨hinv.session.snapshot, hinv.session.evolved, fun y hy => ?_, hinv.session.recorded,
    fun hcomplete => ?_⟩, hinv.store⟩
  · cases List.mem_append.mp hy with
    | inl hy => exact hinv.session.copied y hy
    | inr hy =>
        obtain rfl := List.mem_singleton.mp hy
        obtain ⟨-, tree', htree', hrecords⟩ := hinv.session.snapshot r info hm
        cases htree.symm.trans htree'
        exact ⟨info, hm, hrecords⟩
  · obtain ⟨host, x, hhost, hresolves, hends⟩ := hinv.session.complete hcomplete
    exact ⟨host, x, hhost, hresolves.same (.note r tree), hends⟩

theorem baseline_workshop {info : Manifest} {build : Build K} :
    Workshop P (basing P p) .baseline info (.entry key) build (Holds p key info) where
  refl := BaselinePromises.refl p
  stable v v' h rely _ :=
    ⟨h.rely rely, (rely.store.held key h.lock).2, rely.inputs.tree⟩
  whole v h inv := (inv.session.snapshot _ _ h.manifest).2
  write v d h inv hready _ := h.write_unready inv (some d) fun d' hd' => by cases hd'; exact hready
  note v tree h inv htree :=
    ⟨⟨.note _ tree, rfl, .refl p _⟩, inv.note h.manifest htree, h.lock, h.unready, h.manifest⟩

omit [DecidableEq K] in
theorem wp_ready_build {A : Compiling K → Prop}
    (stable : ∀ v v', A v → BaselineRelies p v v' → A v') (h : A v) :
    wp (basing P p) (ready_build key)
      (fun found v => A v ∧ (∀ b, found = some b → Ready key b v) ∧ (found = none → Unready key v))
      (fun _ => A) v := by
  unfold ready_build
  rw [wp_bind]
  refine wp_read (BaselinePromises.refl p) fun v₁ rely _ => ?_
  have h₁ := stable v v₁ h rely
  split
  · rename_i hready
    rw [wp_map]
    refine wp_fallible (BaselinePromises.refl p) ?_ fun v₂ rely₂ _ _ _ => stable _ v₂ h₁ rely₂
    rintro v₂ rely₂ inv₂ b _ ⟨rfl, d, hd, hrecord⟩
    obtain ⟨d₁, hd₁, hready₁⟩ := (Option.any_eq_true ..).mp hready
    cases hd.symm.trans (rely₂.store.steady key d₁ hd₁ hready₁)
    exact ⟨BaselinePromises.refl p _, inv₂, stable _ _ h₁ rely₂,
      fun b' hb' => by cases hb'; exact ⟨d, hd, hready₁, hrecord⟩, nofun⟩
  · rename_i hready
    refine ⟨h₁, nofun, fun _ d hd => ?_⟩
    simpa [hd] using hready

theorem keeps_inEntry {info : Manifest} {A : BuildDir K → Option (BuildDir K) → Prop}
    (hA : ∀ d d', d.ready = false → A d (some d') → d'.ready = false) :
    Keeps (basing P p) (Holds p key info) (inDir (.entry key) A) := by
  refine Keeps.fallible (BaselinePromises.refl p) (fun v v' h rely => h.rely rely) ?_
  rintro v - _ inv h ⟨d, d', hd, hd', rfl⟩
  refine h.write_unready inv d' fun d₁ hd₁ => hA d d₁ (h.unready d hd) (hd₁ ▸ hd')

theorem wp_repair {info : Manifest} (h : Holds p key info v) :
    wp (basing P p) (repair key) (fun _ => Holds p key info) (fun _ => Holds p key info) v := by
  have emptied : Keeps (basing P p) (Holds p key info) (inDir (.entry key) fun d d' =>
      ∃ source record, ∃ ready : Bool, (ready → d.ready) ∧
        d' = some ⟨source, record, ready, d.host⟩) := by
    refine keeps_inEntry ?_
    rintro d d' hready ⟨source, record, ready, hle, heq⟩
    cases heq
    rw [hready] at hle
    simpa using hle
  have removed : Keeps (basing P p) (Holds p key info) (inDir (.entry key) fun _ d' => d' = none) :=
    keeps_inEntry fun _ _ _ h => by cases h
  unfold repair
  rw [wp_bind]
  refine wp_read (BaselinePromises.refl p) fun v₁ rely _ => ?_
  have h₁ := h.rely rely
  split
  · rw [wp_bind]
    have rounds := wp_repeatedly (BaselinePromises.refl p) (fun v v' h rely _ => h.rely rely)
      emptied h₁
    exact wp_mono rounds (fun _ v₂ h₂ => removed v₂ h₂) fun _ _ => id
  · exact h₁

theorem wp_makeBaseline (hid : build_identity host x.baseline.tree_hash x.toolchain =
      .ok x.baselineIdentity) (hkey : key = P.build_key x.baselineIdentity x.harness)
    (h : Holds p key x.baseline v) :
    wp (basing P p) (makeBaseline P host x.baseline x.baselineIdentity x.toolchain key)
      (fun b v => Locked p key x.baseline v ∧ Ready key b v) (fun _ => Locked p key x.baseline)
      v := by
  unfold makeBaseline
  rw [wp_bind]
  refine wp_mono (wp_repair h) (fun _ v₁ h₁ => ?_) fun _ _ h => h.locked
  rw [wp_bind]
  refine wp_mono (wp_build_into hid baseline_workshop h₁) ?_ fun _ _ h => h.locked
  rintro _ v₂ ⟨rfl, h₂⟩
  rw [wp_bind]
  refine wp_fallible (BaselinePromises.refl p) ?_ ?_
  · rintro v₃ rely₃ inv₃ - _ ⟨d, _, hd, rfl, rfl⟩
    have h₃ := h₂.stable baseline_workshop rely₃ inv₃
    obtain ⟨d₀, hd₀, hrecord, -, whole⟩ := h₃.dir
    cases hd.symm.trans hd₀
    obtain ⟨guar, inv₄, locked⟩ := h₃.kept.write inv₃ (some { d with ready := true })
      fun d' hd' _ => by
        cases hd'
        exact ⟨_, x.harness, hrecord, ⟨whole.id, whole.source, whole.snapshot,
          whole.environment⟩, hkey⟩
    exact ⟨guar, inv₄, locked, _, setDir_entry_same _, rfl, hrecord⟩
  · exact fun v₃ rely₃ inv₃ _ _ => (h₂.stable baseline_workshop rely₃ inv₃).kept.locked

theorem wp_underLock (hid : build_identity host x.baseline.tree_hash x.toolchain =
      .ok x.baselineIdentity) (hkey : key = P.build_key x.baselineIdentity x.harness)
    (h : Locked p key x.baseline v) :
    wp (basing P p) (underLock P host x.baseline x.baselineIdentity x.toolchain key)
      (fun b v => Locked p key x.baseline v ∧ Ready key b.1 v) (fun _ => Locked p key x.baseline)
      v := by
  unfold underLock
  rw [wp_bind]
  refine wp_mono (wp_ready_build (fun v v' h rely => h.rely rely) h) ?_ fun _ _ => id
  rintro found v₁ ⟨h₁, hfound, hnone⟩
  cases found with
  | some b => exact ⟨h₁, hfound b rfl⟩
  | none =>
      rw [wp_bind]
      exact wp_mono (wp_makeBaseline hid hkey ⟨h₁.lock, hnone rfl, h₁.manifest⟩)
        (fun _ _ h => h) fun _ _ => id

omit [DecidableEq K] in
/-- What the task holds when it holds no lock. -/
theorem manifest_rely {info : Manifest} (h : v.session.manifest .baseline = some info)
    (rely : BaselineRelies p v v') : v'.session.manifest .baseline = some info := by
  rw [rely.inputs.manifest]
  exact h

theorem wp_acquire {info : Manifest} (h : v.session.manifest .baseline = some info) :
    wp (basing P p) (acquire p key) (fun _ => Locked p key info) (fun _ _ => False) v := by
  rintro v₁ rely inv b _ ⟨hfree, rfl⟩
  have hm := manifest_rely h rely
  refine ⟨⟨.refl _, rfl, fun _ _ h _ => h, fun _ _ => rfl, fun other q hq hlock => ?_⟩,
    ⟨inv.session.same (.refl _) rfl rfl fun _ _ h _ => h, inv.store⟩, ?_, hm⟩
  · change Function.update v₁.store.lock key (some p) other = some q
    rw [Function.update_of_ne]
    · exact hlock
    · rintro rfl
      cases hfree.symm.trans hlock
  · exact Function.update_self ..

theorem wp_unlock {info : Manifest} {Q : Compiling K → Prop} (h : Locked p key info v)
    (ok : ∀ v₁, BaselineRelies p v v₁ → v₁.session.manifest .baseline = some info →
      Q { v₁ with store := { v₁.store with lock := Function.update v₁.store.lock key none } }) :
    wp (basing P p) (unlock key) (fun _ => Q) (fun _ _ => False) v := by
  refine wp_modify fun v₁ rely inv => ?_
  have h₁ := h.rely rely
  refine ⟨⟨.refl _, rfl, fun _ _ h _ => h, fun _ _ => rfl, fun other q hq hlock => ?_⟩,
    ⟨inv.session.same (.refl _) rfl rfl fun _ _ h _ => h, inv.store⟩, ok v₁ rely h₁.manifest⟩
  change Function.update v₁.store.lock key none other = some q
  rw [Function.update_of_ne]
  · exact hlock
  · rintro rfl
    exact hq (Option.some.inj (hlock.symm.trans h₁.lock))

theorem wp_lookUp (hid : build_identity host x.baseline.tree_hash x.toolchain =
      .ok x.baselineIdentity) (hkey : key = P.build_key x.baselineIdentity x.harness)
    (h : v.session.manifest .baseline = some x.baseline) :
    wp (basing P p) (lookUp P p host x.baseline x.baselineIdentity x.toolchain key)
      (fun b => Ready key b.1) (fun _ _ => True) v := by
  unfold lookUp
  rw [wp_bind]
  refine wp_mono (wp_ready_build (fun v v' h rely => manifest_rely h rely) h) ?_
    fun _ _ _ => trivial
  rintro found v₁ ⟨h₁, hfound, -⟩
  cases found with
  | some b => exact hfound b rfl
  | none =>
      change wp _ (acquire p key >>= fun _ => _) _ _ v₁
      rw [wp_bind]
      refine wp_mono (wp_acquire h₁) (fun _ v₂ h₂ => ?_) fun _ _ h => h.elim
      rw [wp_bind, wp_attempt]
      refine wp_mono (wp_underLock hid hkey h₂) ?_ ?_
      · rintro b v₃ ⟨h₃, hready⟩
        rw [wp_bind]
        exact wp_mono (wp_unlock h₃ fun v₄ rely _ => (hready.rely rely : Ready key b.1 v₄))
          (fun _ _ h => h)
          fun _ _ h => h.elim
      · intro e v₃ h₃
        rw [wp_bind]
        exact wp_mono (wp_unlock h₃ fun _ _ _ => trivial) (fun _ _ h => h) fun _ _ h => h.elim

theorem wp_baseline_build (hid : build_identity host x.baseline.tree_hash x.toolchain =
      .ok x.baselineIdentity) (h : v.session.manifest .baseline = some x.baseline) :
    wp (basing P p)
      (baseline_build P p host x.baseline x.baselineIdentity x.toolchain x.harness)
      (fun b v => b.store_key = P.build_key x.baselineIdentity x.harness ∧
        Ready b.store_key b.toBuild v) (fun _ _ => True) v := by
  unfold baseline_build
  rw [wp_bind]
  refine wp_mono (wp_lookUp hid rfl h) (fun b v₁ h₁ => ?_) fun _ _ => id
  rw [wp_bind]
  exact wp_request (BaselinePromises.refl p)
    (fun v₂ rely _ _ _ => ⟨rfl, Ready.rely h₁ rely⟩) fun _ _ _ _ _ => trivial

end Baseline

end TranspileBench.Compile
