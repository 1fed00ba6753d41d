import TranspileBench.Compile.Builds

/-!
What an invocation of compile keeps: committed manifests and the snapshots they describe,
finished builds and the `run.json` that records them.
-/
namespace TranspileBench.Compile
open Evaluator (Revision)
open Prog

section Invariant
variable {K : Type} (P : Platform K)

/-- A finished build: made from the whole snapshot, with the identity of its host. -/
structure Whole (d : BuildDir K) (b : Build K) : Prop where
  id : b.id = P.identity_hash b.identity
  source : P.Records d.source b.snapshot.files
  snapshot : b.identity.snapshot = b.snapshot.tree_hash
  environment : environment d.host b.toolchain_channel = .ok b.identity.toEnvironment

/-- `READY` is over finished builds of the entry's key. -/
def Store.Sound (store : Store K) : Prop :=
  ∀ key d, store.entry key = some d → d.ready →
    ∃ b harness, d.record = some b ∧ Whole P d b ∧ key = P.build_key b.identity harness

/-- The builds of a `run.json` are finished ones. -/
structure Recorded (builds : Builds K) (evolved : Option (BuildDir K)) (store : Store K) :
    Prop where
  baseline : ∀ b, builds.baseline = some b →
    ∃ d, store.entry b.store_key = some d ∧ d.ready ∧ d.record = some b.toBuild
  evolved : ∀ b, builds.evolved = some b → ∃ d, evolved = some d ∧ d.record = some b

/-- What an invocation on a host resolves from the committed snapshots. -/
structure Resolves (host : Host) (x : Resolved) (s : Session K) : Prop where
  baseline : s.manifest .baseline = some x.baseline
  evolved : s.manifest .evolved = some x.evolved
  toolchain : (s.tree .baseline).bind P.channel = some x.toolchain
  baselineIdentity :
    build_identity host x.baseline.tree_hash x.toolchain = .ok x.baselineIdentity
  evolvedIdentity : build_identity host x.evolved.tree_hash x.toolchain = .ok x.evolvedIdentity

/-- The `run.json` of an invocation that got to its end. -/
structure Completes (x : Resolved) (run : Run K) : Prop where
  baseline : ∃ b, run.builds.baseline = some b ∧
    b.store_key = P.build_key x.baselineIdentity x.harness
  evolved : ∃ b, run.builds.evolved = some b ∧ b.snapshot.tree_hash = x.evolved.tree_hash
  changed_paths : run.changed_paths = some (diff_snapshots x.baseline x.evolved)
  scope : run.scope = some (scopes P.normal (diff_snapshots x.baseline x.evolved))

structure Session.Sound (s : Session K) (store : Store K) : Prop where
  snapshot : ∀ r m, s.manifest r = some m →
    m.tree_hash = P.tree_hash m.files ∧ ∃ tree, s.tree r = some tree ∧ P.Records tree m.files
  evolved : ∀ d b, s.evolved = some d → d.record = some b →
    Whole P d b ∧ s.manifest .evolved = some b.snapshot ∧ (s.manifest .baseline).isSome ∧
      (s.tree .baseline).bind P.channel = some b.toolchain_channel
  copied : ∀ x ∈ s.copied, ∃ m, s.manifest x.1 = some m ∧ P.Records x.2 m.files
  recorded : Recorded s.run.builds s.evolved store
  complete : s.complete = true → ∃ host x, s.completedOn = some host ∧ Resolves P host x s ∧
    Completes P x s.run

end Invariant

/-! ## What holds between two moments -/

section Relations
variable {K : Type}

/-- Ready entries stay as they are. -/
def Store.Steady (s s' : Store K) : Prop :=
  ∀ key d, s.entry key = some d → d.ready → s'.entry key = some d

/-- What process `q` may count on in the store. -/
structure StoreRelies (q : ℕ) (s s' : Store K) : Prop where
  steady : s.Steady s'
  held : ∀ key, s.lock key = some q → s'.lock key = some q ∧ s'.entry key = s.entry key

/-- What process `p` promises there: it changes only entries whose lock it holds. -/
structure StorePromises (p : ℕ) (s s' : Store K) : Prop where
  steady : s.Steady s'
  entry : ∀ key, s.lock key ≠ some p → s'.entry key = s.entry key
  lock : ∀ key q, q ≠ p → s.lock key = some q → s'.lock key = some q

theorem Store.Steady.refl (s : Store K) : s.Steady s := fun _ _ h _ => h

theorem Store.Steady.trans {s s' s'' : Store K} (h : s.Steady s') (h' : s'.Steady s'') :
    s.Steady s'' := fun key d hd hready => h' key d (h key d hd hready) hready

theorem StoreRelies.refl (q : ℕ) (s : Store K) : StoreRelies q s s :=
  ⟨.refl s, fun _ h => ⟨h, rfl⟩⟩

theorem StoreRelies.trans {q : ℕ} {s s' s'' : Store K} (h : StoreRelies q s s')
    (h' : StoreRelies q s' s'') : StoreRelies q s s'' := by
  refine ⟨h.steady.trans h'.steady, fun key hkey => ?_⟩
  obtain ⟨hlock, hentry⟩ := h.held key hkey
  obtain ⟨hlock', hentry'⟩ := h'.held key hlock
  exact ⟨hlock', hentry'.trans hentry⟩

theorem StorePromises.refl (p : ℕ) (s : Store K) : StorePromises p s s :=
  ⟨.refl s, fun _ _ => rfl, fun _ _ _ => id⟩

theorem StorePromises.relies {p q : ℕ} {s s' : Store K} (h : StorePromises p s s') (hne : p ≠ q) :
    StoreRelies q s s' := by
  refine ⟨h.steady, fun key hkey => ⟨h.lock key q hne.symm hkey, h.entry key fun hp => ?_⟩⟩
  exact hne (Option.some.inj (hp.symm.trans hkey))

/-- Everything that others leave alone in a session, but for its evolved build. -/
structure SameInputs (s s' : Session K) : Prop where
  tree : s'.tree = s.tree
  manifest : s'.manifest = s.manifest
  wheel : s'.wheel = s.wheel
  run : s'.run = s.run
  complete : s'.complete = s.complete
  completedOn : s'.completedOn = s.completedOn

theorem SameInputs.refl (s : Session K) : SameInputs s s := ⟨rfl, rfl, rfl, rfl, rfl, rfl⟩

theorem SameInputs.trans {s s' s'' : Session K} (h : SameInputs s s') (h' : SameInputs s' s'') :
    SameInputs s s'' :=
  ⟨h'.tree.trans h.tree, h'.manifest.trans h.manifest, h'.wheel.trans h.wheel,
    h'.run.trans h.run, h'.complete.trans h.complete, h'.completedOn.trans h.completedOn⟩

variable {P : Platform K}

theorem Recorded.steady {builds : Builds K} {evolved : Option (BuildDir K)} {s s' : Store K}
    (h : Recorded builds evolved s) (steady : s.Steady s') : Recorded builds evolved s' := by
  refine ⟨fun b hb => ?_, h.evolved⟩
  obtain ⟨d, hd, hready, hrecord⟩ := h.baseline b hb
  exact ⟨d, steady _ d hd hready, hready, hrecord⟩

theorem Resolves.same {host : Host} {x : Resolved} {s s' : Session K} (h : Resolves P host x s)
    (same : SameInputs s s') : Resolves P host x s' :=
  ⟨by rw [same.manifest]; exact h.baseline, by rw [same.manifest]; exact h.evolved,
    by rw [same.tree]; exact h.toolchain, h.baselineIdentity, h.evolvedIdentity⟩

/-- The invariant of a session survives what changes in the store and in its sources. -/
theorem Session.Sound.same {s s' : Session K} {store store' : Store K} (h : s.Sound P store)
    (same : SameInputs s s') (evolved : s'.evolved = s.evolved) (copied : s'.copied = s.copied)
    (steady : store.Steady store') : s'.Sound P store' := by
  refine ⟨?_, ?_, ?_, ?_, ?_⟩
  · rw [same.manifest, same.tree]
    exact h.snapshot
  · rw [evolved, same.manifest, same.tree]
    exact h.evolved
  · rw [copied, same.manifest]
    exact h.copied
  · rw [same.run, evolved]
    exact h.recorded.steady steady
  · rw [same.complete, same.completedOn, same.run]
    intro hcomplete
    obtain ⟨host, x, hhost, hresolves, hends⟩ := h.complete hcomplete
    exact ⟨host, x, hhost, hresolves.same same, hends⟩

end Relations

/-! ## Contracts -/

section Contracts
variable {K : Type} (P : Platform K)

structure Compiling.Sound (v : Compiling K) : Prop where
  session : v.session.Sound P v.store
  store : v.store.Sound P

/-- What the others do to an invocation. -/
structure Around (p : ℕ) (v v' : Compiling K) : Prop where
  inputs : SameInputs v.session v'.session
  evolved : v'.session.evolved = v.session.evolved
  store : StoreRelies p v.store v'.store

/-- What an invocation promises. -/
structure Goes (p : ℕ) (v v' : Compiling K) : Prop where
  manifest : ∀ r m, v.session.manifest r = some m → v'.session.manifest r = some m
  store : StorePromises p v.store v'.store

theorem Goes.refl (p : ℕ) (v : Compiling K) : Goes p v v := ⟨fun _ _ => id, .refl p _⟩

def compiling (p : ℕ) : Contract (Compiling K) where
  rely := Around p
  guar := Goes p
  inv := Compiling.Sound P
  rely_refl _ := ⟨.refl _, rfl, .refl p _⟩
  rely_trans h h' := ⟨h.inputs.trans h'.inputs, h'.evolved.trans h.evolved, h.store.trans h'.store⟩

/-- The task that makes the evolved build. -/
structure EvolvedRelies (v v' : Compiling K) : Prop where
  inputs : SameInputs v.session v'.session
  evolved : v'.session.evolved = v.session.evolved
  steady : v.store.Steady v'.store

structure EvolvedPromises (v v' : Compiling K) : Prop where
  inputs : SameInputs v.session v'.session
  store : v'.store = v.store

def evolving : Contract (Compiling K) where
  rely := EvolvedRelies
  guar := EvolvedPromises
  inv := Compiling.Sound P
  rely_refl _ := ⟨.refl _, rfl, .refl _⟩
  rely_trans h h' :=
    ⟨h.inputs.trans h'.inputs, h'.evolved.trans h.evolved, h.steady.trans h'.steady⟩

/-- The task that gets the baseline build from the store. -/
structure BaselineRelies (p : ℕ) (v v' : Compiling K) : Prop where
  inputs : SameInputs v.session v'.session
  store : StoreRelies p v.store v'.store

structure BaselinePromises (p : ℕ) (v v' : Compiling K) : Prop where
  inputs : SameInputs v.session v'.session
  evolved : v'.session.evolved = v.session.evolved
  store : StorePromises p v.store v'.store

def basing (p : ℕ) : Contract (Compiling K) where
  rely := BaselineRelies p
  guar := BaselinePromises p
  inv := Compiling.Sound P
  rely_refl _ := ⟨.refl _, .refl p _⟩
  rely_trans h h' := ⟨h.inputs.trans h'.inputs, h.store.trans h'.store⟩

theorem SameInputs.goes {p : ℕ} {v v' : Compiling K} (same : SameInputs v.session v'.session)
    (store : StorePromises p v.store v'.store) : Goes p v v' :=
  ⟨fun r m hm => by rw [same.manifest]; exact hm, store⟩

theorem StorePromises.of_eq {p : ℕ} {s s' : Store K} (h : s' = s) : StorePromises p s s' :=
  h ▸ .refl p s

theorem StoreRelies.of_eq {q : ℕ} {s s' : Store K} (h : s' = s) : StoreRelies q s s' :=
  h ▸ .refl q s

/-- Each of the two tasks may assume what the other promises. -/
theorem tasks_beside (p : ℕ) : Beside (compiling P p) (evolving P) (basing P p) where
  inv₁ := rfl
  inv₂ := rfl
  rely₁ _ _ h := ⟨h.inputs, h.evolved, h.store.steady⟩
  rely₂ _ _ h := ⟨h.inputs, h.store⟩
  guar₁ _ _ h := ⟨h.inputs.goes (.of_eq h.store), h.inputs, .of_eq h.store⟩
  guar₂ _ _ h := ⟨h.inputs.goes h.store, h.inputs, h.evolved, h.store.steady⟩

end Contracts

end TranspileBench.Compile
