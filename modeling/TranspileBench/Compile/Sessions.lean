import TranspileBench.Compile.Invocation

/-!
Sessions over one store: what compile commits stays, and only whole snapshots and finished
builds are used.
-/
namespace TranspileBench.Compile
open Evaluator (Revision)
open Prog

section World
variable {S K : Type} (P : Platform K)

structure World.Sound (w : World S K) : Prop where
  session : ∀ σ, (w.session σ).Sound P w.store
  store : w.store.Sound P

/-- What the other processes and the users do to process `q`. -/
structure Others (q : ℕ) (w w' : World S K) : Prop where
  session : ∀ σ, w.stage σ = some q → w'.stage σ = some q ∧
    SameInputs (w.session σ) (w'.session σ) ∧ (w'.session σ).evolved = (w.session σ).evolved
  store : StoreRelies q w.store w'.store

/-- What process `p` promises: it works on the sessions it holds. -/
structure Does (p : ℕ) (w w' : World S K) : Prop where
  manifest : ∀ σ r m, (w.session σ).manifest r = some m → (w'.session σ).manifest r = some m
  session : ∀ σ, w.stage σ ≠ some p → w'.session σ = w.session σ
  stage : ∀ σ q, q ≠ p → w.stage σ = some q → w'.stage σ = some q
  store : StorePromises p w.store w'.store

theorem Others.refl (q : ℕ) (w : World S K) : Others q w w :=
  ⟨fun _ h => ⟨h, .refl _, rfl⟩, .refl q _⟩

theorem Others.trans {q : ℕ} {w w' w'' : World S K} (h : Others q w w') (h' : Others q w' w'') :
    Others q w w'' := by
  refine ⟨fun σ hσ => ?_, h.store.trans h'.store⟩
  obtain ⟨hstage, same, evolved⟩ := h.session σ hσ
  obtain ⟨hstage', same', evolved'⟩ := h'.session σ hstage
  exact ⟨hstage', same.trans same', evolved'.trans evolved⟩

theorem Does.others {p q : ℕ} {w w' : World S K} (hne : p ≠ q) (h : Does p w w') :
    Others q w w' := by
  refine ⟨fun σ hσ => ?_, h.store.relies hne⟩
  have hsame := h.session σ fun hp => hne (Option.some.inj (hp.symm.trans hσ))
  rw [hsame]
  exact ⟨h.stage σ q hne.symm hσ, .refl _, rfl⟩

variable {P}

/-- The invariant depends on ready entries only. -/
theorem Session.Sound.steady {s : Session K} {store store' : Store K} (h : s.Sound P store)
    (steady : store.Steady store') : s.Sound P store' :=
  h.same (.refl s) rfl rfl steady

theorem Session.Sound.created (source : Revision → Tree) (store : Store K) :
    (Session.created source : Session K).Sound P store := by
  refine ⟨fun _ _ h => ?_, fun _ _ h _ => ?_, fun _ h => ?_, ⟨fun _ h => ?_, fun _ h => ?_⟩,
    fun h => ?_⟩
  all_goals cases h

variable [DecidableEq S]

theorem World.Sound.edit {w : World S K} (h : w.Sound P) (σ : S) (source : Revision → Tree) :
    (w.edit σ source).Sound P := by
  refine ⟨fun τ => ?_, h.store⟩
  by_cases hτ : τ = σ
  · subst hτ
    have same : SameInputs (w.session τ) { w.session τ with source := source } :=
      ⟨rfl, rfl, rfl, rfl, rfl, rfl⟩
    simpa [World.edit] using (h.session τ).same same rfl rfl (.refl w.store)
  · simpa [World.edit, hτ] using h.session τ

theorem Others.edit (q : ℕ) (w : World S K) (σ : S) (source : Revision → Tree) :
    Others q w (w.edit σ source) := by
  refine ⟨fun τ hτ => ⟨hτ, ?_⟩, .refl q _⟩
  by_cases heq : τ = σ
  · subst heq
    simp only [World.edit, Function.update_self]
    exact ⟨⟨rfl, rfl, rfl, rfl, rfl, rfl⟩, trivial⟩
  · simp only [World.edit, Function.update_of_ne heq]
    exact ⟨.refl _, trivial⟩

variable [DecidableEq K]

omit [DecidableEq S] [DecidableEq K] in
theorem World.Sound.release {w : World S K} (h : w.Sound P) (p : ℕ) : (w.release p).Sound P :=
  ⟨fun σ => (h.session σ).steady fun _ _ h _ => h, h.store⟩

omit [DecidableEq S] [DecidableEq K] in
theorem Others.release {p q : ℕ} (hne : q ≠ p) (w : World S K) : Others q w (w.release p) := by
  refine ⟨fun σ hσ => ⟨?_, .refl _, rfl⟩, fun _ _ h _ => h, fun key hkey => ⟨?_, rfl⟩⟩
  · simp [World.release, hσ, hne]
  · simp [World.release, hkey, hne]

/-- While a process holds a session's stage, its invocation runs there as if alone. -/
theorem wp_run_compile {p : ℕ} (σ : S) (host : Host) (w : World S K) :
    wp ⟨Others p, Does p, World.Sound P, Others.refl p, Others.trans⟩ (run_compile P σ p host)
      (fun _ _ => True) (fun _ _ => True) w := by
  unfold run_compile
  rw [wp_bind]
  refine wp_fallible (fun w => ⟨fun _ _ _ => id, fun _ _ => rfl, fun _ _ _ => id, .refl p _⟩) ?_
    fun _ _ _ _ _ => trivial
  rintro w₁ - inv - _ ⟨hfree, rfl⟩
  refine ⟨⟨fun _ _ _ => id, fun _ _ => rfl, fun τ q _ hτ => ?_, .refl p _⟩,
    ⟨inv.session, inv.store⟩, ?_⟩
  · change Function.update w₁.stage σ (some p) τ = some q
    rw [Function.update_of_ne]
    · exact hτ
    · rintro rfl
      cases hfree.symm.trans hτ
  · refine wp_mono (wp_within (sessionLens σ) (D := compiling P p) (fun w => w.stage σ = some p)
      ?_ ?_ (Function.update_self ..) ⟨inv.session σ, inv.store⟩ wp_compile_stage)
      (fun _ _ _ => trivial) fun _ _ _ => trivial
    · intro w w' hw _ others inv'
      obtain ⟨hstage, same, evolved⟩ := others.session σ hw
      exact ⟨hstage, ⟨same, evolved, others.store⟩, inv'.session σ, inv'.store⟩
    · intro w v hw inv _ goes inv'
      refine ⟨⟨fun τ r m hm => ?_, fun τ hτ => ?_, fun _ _ _ => id, goes.store⟩,
        ⟨fun τ => ?_, inv'.store⟩, hw⟩
      · by_cases heq : τ = σ
        · subst heq
          simpa [sessionLens] using goes.manifest r m hm
        · simpa [sessionLens, heq] using hm
      · exact Function.update_of_ne (fun heq => hτ (by rw [heq]; exact hw)) ..
      · by_cases heq : τ = σ
        · subst heq
          simpa [sessionLens] using inv'.session
        · simpa [sessionLens, heq] using (inv.session τ).steady goes.store.steady

/-- The proof outline of sessions that compile. -/
def compileOutline (S : Type) [DecidableEq S] (P : Platform K) :
    (compileSystem S P).Outline where
  inv := World.Sound P
  guar := Does
  rely := Others
  idle _ _ := True
  rely_refl := Others.refl
  rely_trans _ := Others.trans
  init w h := by
    obtain ⟨hcreated, -, hstore, -⟩ := h
    refine ⟨⟨fun σ => ?_, fun key d hd => by rw [hstore] at hd; cases hd⟩, fun _ => trivial⟩
    obtain ⟨source, hsource⟩ := hcreated σ
    rw [hsource]
    exact .created source _
  compatible _ _ _ _ hne _ does := does.others hne
  release p w inv := ⟨inv.release p, trivial, fun q hq => .release hq w⟩
  env w w' inv h := by
    obtain ⟨σ, source, rfl⟩ := h
    exact ⟨inv.edit σ source, fun q => .edit q w σ source⟩
  idle_rely _ _ _ _ _ := trivial
  safe p prog w entry _ _ := by
    obtain ⟨σ, host, rfl⟩ := entry
    exact wp_run_compile σ host w

end World

/-! ## The builds that a `run.json` records -/

section Recorded
variable {K : Type} {P : Platform K}

/-- Different identities or harnesses have different keys. -/
def Platform.CollisionFree {K : Type} (P : Platform K) : Prop :=
  ∀ i h i' h', P.build_key i h = P.build_key i' h' → i = i' ∧ h = h'

theorem Recorded.ready {s : Session K} {store : Store K} (h : s.Sound P store)
    (hstore : store.Sound P) {b : StoredBuild K} (hb : s.run.builds.baseline = some b) :
    ∃ d harness, store.entry b.store_key = some d ∧ d.ready ∧ d.record = some b.toBuild ∧
      Whole P d b.toBuild ∧ b.store_key = P.build_key b.identity harness := by
  obtain ⟨d, hd, hready, hrecord⟩ := h.recorded.baseline b hb
  obtain ⟨b', harness, hrecord', whole, hkey⟩ := hstore _ d hd hready
  cases hrecord.symm.trans hrecord'
  exact ⟨d, harness, hd, hready, hrecord, whole, hkey⟩

/-- The baseline build of an invocation that got to its end has the identity it resolved. -/
theorem Completes.identity {s : Session K} {store : Store K} (hash : P.CollisionFree)
    (h : s.Sound P store) (hstore : store.Sound P) {x : Resolved} {b : StoredBuild K}
    (hb : s.run.builds.baseline = some b)
    (hkey : b.store_key = P.build_key x.baselineIdentity x.harness) :
    b.identity = x.baselineIdentity := by
  obtain ⟨d, harness, -, -, -, -, hkey'⟩ := Recorded.ready h hstore hb
  exact (hash _ _ _ _ (hkey'.symm.trans hkey)).1

end Recorded

end TranspileBench.Compile
