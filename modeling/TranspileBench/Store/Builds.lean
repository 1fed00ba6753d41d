import TranspileBench.Evaluator.Verdict
import TranspileBench.Lib.Interleaving

/-!
The baseline builds of a store. Sessions on any number of hosts look one up, and on a
miss one of them makes it at its final path, under the key's lock, `READY` last. The commands
of a build run in a session of their own: those of a killed builder run on.
-/
namespace TranspileBench.Store
open Prog

/-- A directory `builds/KEY`: which one it is, its `build.json`, whether `READY` is in it,
and everything else. -/
structure BuildEntry (R T : Type) where
  inode : ℕ
  tree : T
  record : Option R
  ready : Bool

/-- A `build_into` that returned: the key, the directory, its result and what it left there. -/
structure FinishedBuild (R T : Type) where
  key : String
  inode : ℕ
  result : R
  tree : T

/-- A session that got past `baseline_build`. -/
structure UsedBuild (R : Type) where
  session : ℕ
  key : String
  build : R

/-- The builds of a store, with the locks `builds/KEY.lock`. The rest is history: how many
directories were made, whose build a session works on, which directory it has made for it,
the builds that finished and those that sessions use. -/
structure BuildStore (R T : Type) where
  entry : String → Option (BuildEntry R T)
  lock : String → Option ℕ
  made : ℕ
  working : ℕ → Option String
  making : ℕ → Option (String × ℕ)
  finished : List (FinishedBuild R T)
  used : List (UsedBuild R)

section Programs
variable {R T : Type}

def BuildStore.setEntry (w : BuildStore R T) (key : String) (e : Option (BuildEntry R T)) :
    BuildStore R T :=
  { w with entry := Function.update w.entry key e }

def BuildStore.newEntry (w : BuildStore R T) (key : String) (tree : T) : BuildStore R T :=
  { w.setEntry key (some ⟨w.made, tree, none, false⟩) with made := w.made + 1 }

/-- An operation in the directory: it takes effect or raises. -/
def inEntry (key : String) (A : BuildEntry R T → Option (BuildEntry R T) → Prop) :
    Prog (BuildStore R T) Exn Unit :=
  fallible (fun _ => True) fun w _ w' =>
    ∃ e e', w.entry key = some e ∧ A e e' ∧ w' = w.setEntry key e'

/-- Any number of times. -/
def some_times (p : Prog (BuildStore R T) Exn Unit) : Prog (BuildStore R T) Exn Unit := do
  let n ← answer fun _ : ℕ => True
  each (fun _ => p) (List.replicate n ())

/-! ## The lookup -/

/-- `build.json`, when it can be read and points only inside its entry. -/
def readBuild (key : String) : Prog (BuildStore R T) Exn R :=
  fallible (fun e => ∃ message, e = .harness message) fun w build w' =>
    w' = w ∧ ∃ e, w.entry key = some e ∧ e.record = some build

def ready_build (key : String) : Prog (BuildStore R T) Exn (Option R) := do
  let ready ← read fun w => (w.entry key).any (·.ready)
  if ready then some <$> readBuild key else pure none

/-! ## Making a build -/

/-- `rmtree`: files go one by one, in any order, and the directory last. -/
def removeEntry (key : String) : Prog (BuildStore R T) Exn Unit := do
  some_times (inEntry key fun e e' => ∃ tree record, ∃ ready : Bool,
    (record = e.record ∨ record = none) ∧ (ready → e.ready) ∧
      e' = some ⟨e.inode, tree, record, ready⟩)
  inEntry key fun _ e' => e' = none

def repair (key : String) : Prog (BuildStore R T) Exn Unit := do
  let there ← read fun w => (w.entry key).isSome
  if there then removeEntry key else pure ()

/-- `mkdir` of a directory that is there raises. -/
def makeEntry (p : ℕ) (key : String) : Prog (BuildStore R T) Exn Unit :=
  fallible (fun _ => True) fun w _ w' =>
    w.entry key = none ∧ ∃ tree, w' = { w.newEntry key tree with
      making := Function.update w.making p (some (key, w.made)) }

/-- What the commands of a build do in its directory. -/
def writeTree (key : String) : Prog (BuildStore R T) Exn Unit :=
  inEntry key fun e e' => ∃ tree, e' = some { e with tree := tree }

def noteFinished (key : String) (result : R) : Prog (BuildStore R T) Exn Unit :=
  modify fun w => match w.entry key with
    | some e => { w with finished := w.finished ++ [⟨key, e.inode, result, e.tree⟩] }
    | none => w

/-- `build_into`: the commands, `build.json` with what they have made, its verification and
the removal of what nothing reads again. -/
def build_into (p : ℕ) (key : String) : Prog (BuildStore R T) Exn R := do
  makeEntry p key
  some_times (writeTree key)
  let result ← request (fun _ => True) fun _ : R => True
  inEntry key fun e e' => e' = some { e with record := some result }
  request (fun _ => True) fun _ : Unit => True
  some_times (writeTree key)
  noteFinished key result
  pure result

/-- `atomic_bytes(entry / "READY")`. -/
def writeReady (key : String) : Prog (BuildStore R T) Exn Unit :=
  inEntry key fun e e' => e' = some { e with ready := true }

def noteWorking (p : ℕ) (key : String) : Prog (BuildStore R T) Exn Unit :=
  modify fun w => { w with working := Function.update w.working p (some key) }

def makeBuild (p : ℕ) (key : String) : Prog (BuildStore R T) Exn R := do
  noteWorking p key
  repair key
  let build ← build_into p key
  writeReady key
  pure build

/-- `flock` waits until nobody else has the lock. -/
def acquire (p : ℕ) (key : String) : Prog (BuildStore R T) Exn Unit :=
  perform fun w _ w' =>
    w.lock key = none ∧ w' = { w with lock := Function.update w.lock key (some p) }

def unlock (p : ℕ) (key : String) : Prog (BuildStore R T) Exn Unit :=
  modify fun w => { w with
    lock := Function.update w.lock key none
    working := Function.update w.working p none
    making := Function.update w.making p none }

/-- The second look, and the build if nobody else has made it meanwhile. -/
def underLock (p : ℕ) (key : String) : Prog (BuildStore R T) Exn (R × Bool) := do
  let found ← ready_build key
  match found with
  | some build => pure (build, true)
  | none => do
      let build ← makeBuild p key
      pure (build, false)

def lockedBuild (p : ℕ) (key : String) : Prog (BuildStore R T) Exn (R × Bool) := do
  acquire p key
  let result ← (underLock p key).attempt
  unlock p key
  match result with
  | .ok build => pure build
  | .error e => throw e

def lookUp (p : ℕ) (key : String) : Prog (BuildStore R T) Exn (R × Bool) := do
  let found ← ready_build key
  match found with
  | some build => pure (build, true)
  | none => lockedBuild p key

/-- `baseline_build`: the build of the key, and whether it is reused. -/
def baseline_build (p : ℕ) (key : String) : Prog (BuildStore R T) Exn (R × Bool) := do
  let build ← lookUp p key
  -- verify_build
  request (fun _ => True) fun _ : Unit => True
  modify fun w => { w with used := w.used ++ [⟨p, key, build.1⟩] }
  pure build

/-- A session ends or is killed: its locks are free. -/
def BuildStore.release (p : ℕ) (w : BuildStore R T) : BuildStore R T :=
  { w with
    lock := fun key => if w.lock key = some p then none else w.lock key
    working := Function.update w.working p none
    making := Function.update w.making p none }

/-- No session is at work on the key, and its build is not ready. -/
def Unattended (key : String) (w : BuildStore R T) : Prop :=
  w.lock key = none ∧ ∀ e, w.entry key = some e → e.ready = false

/-- Commands that a killed session has left behind may still write in a build's tree, or
make its directory anew; the quiet ones are over before another session takes the lock. -/
inductive Leftover (quiet : Prop) : BuildStore R T → BuildStore R T → Prop
  | write {w : BuildStore R T} (key : String) (e : BuildEntry R T) (tree : T)
      (there : w.entry key = some e) (unattended : quiet → Unattended key w) :
      Leftover quiet w (w.setEntry key (some { e with tree := tree }))
  | make {w : BuildStore R T} (key : String) (tree : T) (missing : w.entry key = none)
      (unattended : quiet → Unattended key w) : Leftover quiet w (w.newEntry key tree)

/-- Sessions that compile over one store. -/
def buildStore (quiet : Prop) (R T : Type) : System (BuildStore R T) Exn where
  init w := (∀ key, w.entry key = none) ∧ (∀ key, w.lock key = none) ∧
    (∀ p, w.working p = none) ∧ (∀ p, w.making p = none) ∧ w.finished = [] ∧ w.used = []
  entry p prog := ∃ key, prog = (do let _ ← baseline_build p key)
  release := BuildStore.release
  env := Leftover quiet

/-! ## What holds between two moments -/

variable {quiet : Prop}

/-- The same directory with the same build; only what is not quiet writes in its tree. -/
structure SameBuild (quiet : Prop) (e e' : BuildEntry R T) : Prop where
  inode : e'.inode = e.inode
  record : e'.record = e.record
  ready : e'.ready = e.ready
  tree : quiet → e'.tree = e.tree

theorem SameBuild.refl (e : BuildEntry R T) : SameBuild quiet e e := ⟨rfl, rfl, rfl, fun _ => rfl⟩

theorem SameBuild.trans {e e' e'' : BuildEntry R T} (h : SameBuild quiet e e')
    (h' : SameBuild quiet e' e'') : SameBuild quiet e e'' :=
  ⟨h'.inode.trans h.inode, h'.record.trans h.record, h'.ready.trans h.ready,
    fun hquiet => (h'.tree hquiet).trans (h.tree hquiet)⟩

/-- A directory of this key that nobody works on and that is not ready. -/
def Abandoned (w : BuildStore R T) (key : String) (inode : ℕ) : Prop :=
  inode < w.made ∧ (∀ p, w.making p ≠ some (key, inode)) ∧
    ∀ e, w.entry key = some e → e.inode = inode → e.ready = false

/-- What every step keeps: ready builds stay, abandoned ones are never marked ready, and
history grows. -/
structure Steady (quiet : Prop) (w w' : BuildStore R T) : Prop where
  ready : ∀ key e, w.entry key = some e → e.ready →
    ∃ e', w'.entry key = some e' ∧ SameBuild quiet e e'
  abandoned : ∀ key inode, Abandoned w key inode → Abandoned w' key inode
  finished : w.finished ⊆ w'.finished
  used : w.used ⊆ w'.used

theorem Steady.refl (w : BuildStore R T) : Steady quiet w w :=
  ⟨fun _ e he _ => ⟨e, he, .refl e⟩, fun _ _ => id, fun _ => id, fun _ => id⟩

theorem Steady.trans {w w' w'' : BuildStore R T} (h : Steady quiet w w')
    (h' : Steady quiet w' w'') : Steady quiet w w'' := by
  refine ⟨fun key e he hready => ?_, fun key inode ha => h'.abandoned _ _ (h.abandoned _ _ ha),
    fun x hx => h'.finished (h.finished hx), fun x hx => h'.used (h.used hx)⟩
  obtain ⟨e', he', hsame⟩ := h.ready key e he hready
  obtain ⟨e'', he'', hsame'⟩ := h'.ready key e' he' (hsame.ready.trans hready)
  exact ⟨e'', he'', hsame.trans hsame'⟩

/-- Steps that leave the directories alone keep it. -/
theorem Steady.of_entries {w w' : BuildStore R T} (entry : w'.entry = w.entry)
    (made : w'.made = w.made) (making : ∀ p x, w'.making p = some x → w.making p = some x)
    (finished : w.finished ⊆ w'.finished) (used : w.used ⊆ w'.used) : Steady quiet w w' := by
  refine ⟨fun key e he _ => ⟨e, by rw [entry, he], .refl e⟩, fun key inode ha => ?_, finished, used⟩
  exact ⟨made ▸ ha.1, fun p hp => ha.2.1 p (making p _ hp), fun e he => ha.2.2 e (entry ▸ he)⟩

/-- What becomes of an entry while someone holds its lock and leaves it alone: it stays as
it is but for its tree, and a directory made anew is not ready. -/
def Undisturbed (quiet : Prop) : Option (BuildEntry R T) → Option (BuildEntry R T) → Prop
  | some e, o => ∃ e', o = some e' ∧ SameBuild quiet e e'
  | none, o => ∀ e', o = some e' → e'.ready = false

theorem Undisturbed.refl (o : Option (BuildEntry R T)) : Undisturbed quiet o o := by
  cases o with
  | none => exact fun _ h => by cases h
  | some e => exact ⟨e, rfl, .refl e⟩

theorem Undisturbed.trans {o o' o'' : Option (BuildEntry R T)} (h : Undisturbed quiet o o')
    (h' : Undisturbed quiet o' o'') : Undisturbed quiet o o'' := by
  cases o with
  | some e =>
      obtain ⟨e', rfl, hsame⟩ := h
      obtain ⟨e'', rfl, hsame'⟩ := h'
      exact ⟨e'', rfl, hsame.trans hsame'⟩
  | none =>
      intro e'' he''
      cases o' with
      | none => exact h' e'' he''
      | some e' =>
          obtain ⟨e₂, heq, hsame⟩ := h'
          cases he''.symm.trans heq
          exact hsame.ready.trans (h e' rfl)

/-- What session `q` may count on. -/
structure BuildRelies (quiet : Prop) (q : ℕ) (w w' : BuildStore R T) : Prop where
  steady : Steady quiet w w'
  lock : ∀ key, w.lock key = some q → w'.lock key = some q
  held : ∀ key, w.lock key = some q → Undisturbed quiet (w.entry key) (w'.entry key)
  working : w'.working q = w.working q
  making : w'.making q = w.making q

theorem BuildRelies.refl (q : ℕ) (w : BuildStore R T) : BuildRelies quiet q w w :=
  ⟨.refl w, fun _ => id, fun _ _ => .refl _, rfl, rfl⟩

theorem BuildRelies.trans {q : ℕ} {w w' w'' : BuildStore R T} (h : BuildRelies quiet q w w')
    (h' : BuildRelies quiet q w' w'') : BuildRelies quiet q w w'' :=
  ⟨h.steady.trans h'.steady, fun key hk => h'.lock key (h.lock key hk),
    fun key hk => (h.held key hk).trans (h'.held key (h.lock key hk)),
    h'.working.trans h.working, h'.making.trans h.making⟩

/-- What session `p` promises: it changes only entries whose lock it holds, and none that is
ready. -/
structure BuildPromises (quiet : Prop) (p : ℕ) (w w' : BuildStore R T) : Prop where
  steady : Steady quiet w w'
  entry : ∀ key, w.lock key ≠ some p → w'.entry key = w.entry key
  lock : ∀ key q, q ≠ p → w.lock key = some q → w'.lock key = some q
  working : ∀ q, q ≠ p → w'.working q = w.working q
  making : ∀ q, q ≠ p → w'.making q = w.making q
  kept : ∀ key e, w.entry key = some e → e.ready → w'.entry key = some e

theorem BuildPromises.refl (p : ℕ) (w : BuildStore R T) : BuildPromises quiet p w w :=
  ⟨.refl w, fun _ _ => rfl, fun _ _ _ => id, fun _ _ => rfl, fun _ _ => rfl, fun _ _ h _ => h⟩

theorem BuildPromises.relies {p q : ℕ} {w w' : BuildStore R T} (h : BuildPromises quiet p w w')
    (hne : p ≠ q) : BuildRelies quiet q w w' := by
  refine ⟨h.steady, fun key => h.lock key q hne.symm, fun key hk => ?_, h.working q hne.symm,
    h.making q hne.symm⟩
  rw [h.entry key fun hp => hne (Option.some.inj (hp.symm.trans hk))]
  exact .refl _

/-- The invariant: `READY` is over a finished build, a session works on a build under its
lock, and what sessions use is ready. -/
structure BuildsSound (quiet : Prop) (w : BuildStore R T) : Prop where
  ready : ∀ key e, w.entry key = some e → e.ready →
    ∃ build tree, e.record = some build ∧ ⟨key, e.inode, build, tree⟩ ∈ w.finished ∧
      (quiet → tree = e.tree)
  working : ∀ p key, w.working p = some key → w.lock key = some p
  making : ∀ p key inode, w.making p = some (key, inode) → w.lock key = some p
  made : ∀ key e, w.entry key = some e → e.inode < w.made
  used : ∀ x ∈ w.used, ∃ e, w.entry x.key = some e ∧ e.ready ∧ e.record = some x.build

section Outline
variable {p : ℕ} {key : String} {w w' : BuildStore R T}

def builder (quiet : Prop) (p : ℕ) : Contract (BuildStore R T) where
  rely := BuildRelies quiet p
  guar := BuildPromises quiet p
  inv := BuildsSound quiet
  rely_refl := BuildRelies.refl p
  rely_trans := BuildRelies.trans

/-- The key's lock is held, and what is there is not ready. -/
structure Holds (p : ℕ) (key : String) (w : BuildStore R T) : Prop where
  lock : w.lock key = some p
  unready : ∀ e, w.entry key = some e → e.ready = false

/-- The session has made the directory that is there. -/
structure Making (p : ℕ) (key : String) (e : BuildEntry R T) (w : BuildStore R T) : Prop where
  lock : w.lock key = some p
  entry : w.entry key = some e
  making : w.making p = some (key, e.inode)
  unready : e.ready = false

/-- A build that can be used. -/
def Ready (key : String) (build : R) (w : BuildStore R T) : Prop :=
  ∃ e, w.entry key = some e ∧ e.ready ∧ e.record = some build

theorem Holds.rely (h : Holds p key w) (hrely : BuildRelies quiet p w w') : Holds p key w' := by
  refine ⟨hrely.lock key h.lock, fun e' he' => ?_⟩
  have held := hrely.held key h.lock
  cases he : w.entry key with
  | none =>
      rw [he] at held
      exact held e' he'
  | some e =>
      rw [he] at held
      obtain ⟨e₁, heq, hsame⟩ := held
      cases he'.symm.trans heq
      exact hsame.ready.trans (h.unready e he)

theorem Making.holds {e : BuildEntry R T} (h : Making p key e w) : Holds p key w :=
  ⟨h.lock, fun e' he' => by cases h.entry.symm.trans he'; exact h.unready⟩

theorem Making.rely {e : BuildEntry R T} (h : Making p key e w) (hrely : BuildRelies quiet p w w') :
    ∃ e', SameBuild quiet e e' ∧ Making p key e' w' := by
  have held := hrely.held key h.lock
  rw [h.entry] at held
  obtain ⟨e', he', hsame⟩ := held
  exact ⟨e', hsame, hrely.lock key h.lock, he', by rw [hrely.making, h.making, hsame.inode],
    hsame.ready.trans h.unready⟩

theorem Ready.rely {build : R} (h : Ready key build w) (hrely : BuildRelies quiet p w w') :
    Ready key build w' := by
  obtain ⟨e, he, hready, hrecord⟩ := h
  obtain ⟨e', he', hsame⟩ := hrely.steady.ready key e he hready
  exact ⟨e', he', hsame.ready.trans hready, hsame.record.trans hrecord⟩

@[simp]
theorem BuildStore.setEntry_same (w : BuildStore R T) (o : Option (BuildEntry R T)) :
    (w.setEntry key o).entry key = o := by
  simp [BuildStore.setEntry]

theorem BuildStore.setEntry_other (w : BuildStore R T) (o : Option (BuildEntry R T))
    {key' : String} (h : key' ≠ key) : (w.setEntry key o).entry key' = w.entry key' := by
  simp [BuildStore.setEntry, h]

theorem BuildStore.newEntry_entry (w : BuildStore R T) (tree : T) :
    (w.newEntry key tree).entry = (w.setEntry key (some ⟨w.made, tree, none, false⟩)).entry := rfl

@[simp]
theorem BuildStore.newEntry_making (w : BuildStore R T) (tree : T) :
    (w.newEntry key tree).making = w.making := rfl

/-- A ready entry is none that a session works on. -/
theorem Holds.ne (h : Holds p key w) {key' : String} {e : BuildEntry R T}
    (he : w.entry key' = some e) (hready : e.ready) : key' ≠ key := by
  rintro rfl
  rw [h.unready e he] at hready
  cases hready

/-- Whoever holds the lock of what is not ready may change it, but marks ready only what
it has made. -/
theorem Holds.promises (h : Holds p key w) {o : Option (BuildEntry R T)}
    (mine : ∀ e, o = some e → e.ready → w.making p = some (key, e.inode)) :
    BuildPromises quiet p w (w.setEntry key o) := by
  have kept : ∀ key' e, w.entry key' = some e → e.ready → (w.setEntry key o).entry key' = some e :=
    fun key' e he hready => (w.setEntry_other o (h.ne he hready)).trans he
  refine ⟨⟨fun key' e he hready => ?_, fun key' inode ha => ⟨ha.1, ha.2.1, fun e he hi => ?_⟩,
    fun _ => id, fun _ => id⟩, fun key' hk => ?_, fun _ _ _ => id, fun _ _ => rfl, fun _ _ => rfl,
    kept⟩
  · exact ⟨e, kept key' e he hready, .refl e⟩
  · by_cases hkey : key' = key
    · subst hkey
      rw [w.setEntry_same] at he
      cases hready : e.ready with
      | false => rfl
      | true => exact absurd (hi ▸ mine e he hready) (ha.2.1 p)
    · exact ha.2.2 e ((w.setEntry_other o hkey).symm.trans he) hi
  · refine w.setEntry_other o ?_
    rintro rfl
    exact hk h.lock

theorem Holds.sound (h : Holds p key w) (hinv : BuildsSound quiet w) {o : Option (BuildEntry R T)}
    (made : ∀ e, o = some e → e.inode < w.made)
    (ready : ∀ e, o = some e → e.ready →
      ∃ build tree, e.record = some build ∧ ⟨key, e.inode, build, tree⟩ ∈ w.finished ∧
        (quiet → tree = e.tree)) :
    BuildsSound quiet (w.setEntry key o) := by
  refine ⟨fun key' e he => ?_, hinv.working, hinv.making, fun key' e he => ?_, fun x hx => ?_⟩
  · by_cases hkey : key' = key
    · subst hkey
      exact ready e ((w.setEntry_same o).symm.trans he)
    · exact hinv.ready key' e ((w.setEntry_other o hkey).symm.trans he)
  · by_cases hkey : key' = key
    · subst hkey
      exact made e ((w.setEntry_same o).symm.trans he)
    · exact hinv.made key' e ((w.setEntry_other o hkey).symm.trans he)
  · obtain ⟨e, he, hready, hrecord⟩ := hinv.used x hx
    exact ⟨e, (w.setEntry_other o (h.ne he hready)).trans he, hready, hrecord⟩

/-- An operation in a directory that is not ready and does not make it so. -/
theorem wp_inEntry {A : BuildEntry R T → Option (BuildEntry R T) → Prop}
    {Q : Unit → BuildStore R T → Prop} {E : Exn → BuildStore R T → Prop} (h : Holds p key w)
    (unready : ∀ e e', e.ready = false → A e (some e') → e'.inode = e.inode ∧ e'.ready = false)
    (ok : ∀ w₁ e o, BuildRelies quiet p w w₁ → w₁.entry key = some e → A e o →
      Q () (w₁.setEntry key o))
    (fails : ∀ w₁ e, Holds p key w₁ → E e w₁) :
    wp (builder quiet p) (inEntry key A) Q E w := by
  refine wp_fallible (BuildPromises.refl p) ?_ fun w₁ hrely _ e _ => fails w₁ e (h.rely hrely)
  rintro w₁ hrely hinv _ _ ⟨e, o, he, hA, rfl⟩
  have h₁ := h.rely hrely
  have hquiet : ∀ e', o = some e' → e'.inode = e.inode ∧ e'.ready = false := by
    rintro e' rfl
    exact unready e e' (h₁.unready e he) hA
  refine ⟨h₁.promises fun e' ho hready => ?_,
    h₁.sound hinv (fun e' ho => ?_) fun e' ho hready => ?_, ok w₁ e o hrely he hA⟩
  · rw [(hquiet e' ho).2] at hready
    cases hready
  · rw [(hquiet e' ho).1]
    exact hinv.made key e he
  · rw [(hquiet e' ho).2] at hready
    cases hready

theorem keeps_some_times {A : BuildStore R T → Prop} {prog : Prog (BuildStore R T) Exn Unit}
    (stable : ∀ w w', A w → BuildRelies quiet p w w' → A w') (h : Keeps (builder quiet p) A prog) :
    Keeps (builder quiet p) A (some_times prog) := by
  intro w hw
  rw [some_times, wp_bind]
  refine wp_answer (BuildPromises.refl p) fun w₁ hrely _ n _ => ?_
  exact Keeps.each (fun _ => h) w₁ (stable w w₁ hw hrely)

/-- The lookup finds a build that can be used, or the entry was not ready. -/
theorem wp_ready_build {E : Exn → BuildStore R T → Prop}
    (fails : ∀ w₁ e, BuildRelies quiet p w w₁ → E e w₁) :
    wp (builder quiet p) (ready_build key)
      (fun found w' => (∀ build, found = some build → Ready key build w') ∧
        (w.lock key = some p → w'.lock key = some p ∧ (found = none → Holds p key w'))) E w := by
  rw [ready_build, wp_bind]
  refine wp_read (BuildPromises.refl p) fun w₁ hrely _ => ?_
  by_cases hready : (w₁.entry key).any (·.ready) = true
  · rw [if_pos hready, wp_map]
    obtain ⟨e₁, he₁, hready⟩ : ∃ e, w₁.entry key = some e ∧ e.ready := by
      cases he : w₁.entry key with
      | none => simp [he] at hready
      | some e => exact ⟨e, rfl, by simpa [he] using hready⟩
    refine wp_fallible (BuildPromises.refl p) ?_ fun w₂ hrely' _ e _ =>
      fails w₂ e (hrely.trans hrely')
    rintro w₂ hrely' hinv build _ ⟨rfl, e, he, hrecord⟩
    refine ⟨.refl p _, hinv, fun b hb => ?_, fun hlock =>
      ⟨(hrely.trans hrely').lock key hlock, fun hnone => by cases hnone⟩⟩
    obtain rfl : build = b := Option.some.inj hb
    obtain ⟨e₂, he₂, hsame⟩ := hrely'.steady.ready key e₁ he₁ hready
    cases he.symm.trans he₂
    exact ⟨e, he, hsame.ready.trans hready, hrecord⟩
  · rw [if_neg hready, wp_pure]
    refine ⟨fun b hb => (by cases hb), fun hlock => ?_⟩
    refine ⟨hrely.lock key hlock, fun _ => ⟨hrely.lock key hlock, fun e he => ?_⟩⟩
    simpa [he] using hready

theorem stays_unready {ready ready' : Bool} (h : ready' → ready) (hready : ready = false) :
    ready' = false := by
  cases ready' with
  | false => rfl
  | true => exact absurd (h rfl) (by simp [hready])

theorem wp_repair (h : Holds p key w) :
    wp (builder quiet p) (repair key) (fun _ w' => Holds p key w')
      (fun _ w' => w'.lock key = some p) w := by
  rw [repair, wp_bind]
  refine wp_read (BuildPromises.refl p) fun w₁ hrely _ => ?_
  have h₁ := h.rely hrely
  cases (w₁.entry key).isSome with
  | false => exact h₁
  | true =>
      change wp _ (removeEntry key) _ _ _
      rw [removeEntry, wp_bind]
      have unlink : Keeps (builder quiet p) (Holds p key) (inEntry (R := R) (T := T) key fun e e' =>
          ∃ tree record, ∃ ready : Bool, (record = e.record ∨ record = none) ∧
            (ready → e.ready) ∧ e' = some ⟨e.inode, tree, record, ready⟩) := by
        intro w h
        refine wp_inEntry h ?_ ?_ fun _ _ => id
        · rintro e e' hunready ⟨tree, record, ready, -, hready, heq⟩
          cases heq
          exact ⟨rfl, stays_unready hready hunready⟩
        · rintro w₁ e _ hrely he ⟨tree, record, ready, -, hready, rfl⟩
          have h₁ := h.rely hrely
          refine ⟨h₁.lock, fun e' he' => ?_⟩
          cases (w₁.setEntry_same _).symm.trans he'
          exact stays_unready hready (h₁.unready e he)
      refine wp_mono (keeps_some_times (fun _ _ h => h.rely) unlink w₁ h₁) (fun _ w h => ?_)
        fun _ _ h => h.lock
      refine wp_inEntry h (fun e e' _ h => by cases h) (fun w₁ e o hrely _ ho => ?_)
        fun _ _ h => h.lock
      subst ho
      refine ⟨(h.rely hrely).lock, fun e' he' => ?_⟩
      cases (w₁.setEntry_same _).symm.trans he'

theorem Abandoned.newEntry (hnone : w.entry key = none) (tree : T) {key' : String} {inode : ℕ}
    (h : Abandoned w key' inode) : Abandoned (w.newEntry key tree) key' inode := by
  refine ⟨Nat.lt_succ_of_lt h.1, h.2.1, fun e he hi => ?_⟩
  rw [w.newEntry_entry] at he
  by_cases hkey : key' = key
  · subst hkey
    cases (w.setEntry_same _).symm.trans he
    rfl
  · exact h.2.2 e ((w.setEntry_other _ hkey).symm.trans he) hi

/-- A directory made where none was replaces nothing. -/
theorem newEntry_other (hnone : w.entry key = none) (tree : T) {key' : String}
    {e : BuildEntry R T} (he : w.entry key' = some e) :
    (w.newEntry key tree).entry key' = some e := by
  rw [w.newEntry_entry, w.setEntry_other _ (by rintro rfl; cases hnone.symm.trans he), he]

theorem Steady.newEntry (hnone : w.entry key = none) (tree : T) :
    Steady quiet w (w.newEntry key tree) :=
  ⟨fun _ e he _ => ⟨e, newEntry_other hnone tree he, .refl e⟩, fun _ _ => .newEntry hnone tree,
    fun _ => id, fun _ => id⟩

theorem BuildsSound.newEntry (h : BuildsSound quiet w) (hnone : w.entry key = none) (tree : T) :
    BuildsSound quiet (w.newEntry key tree) := by
  refine ⟨fun key' e he hready => ?_, h.working, h.making, fun key' e he => ?_, fun x hx => ?_⟩
  · rw [w.newEntry_entry] at he
    by_cases hkey : key' = key
    · subst hkey
      cases (w.setEntry_same _).symm.trans he
      cases hready
    · exact h.ready key' e ((w.setEntry_other _ hkey).symm.trans he) hready
  · rw [w.newEntry_entry] at he
    by_cases hkey : key' = key
    · subst hkey
      cases (w.setEntry_same _).symm.trans he
      exact Nat.lt_succ_self _
    · exact Nat.lt_succ_of_lt (h.made key' e ((w.setEntry_other _ hkey).symm.trans he))
  · obtain ⟨e, he, hready, hrecord⟩ := h.used x hx
    exact ⟨e, newEntry_other hnone tree he, hready, hrecord⟩

theorem wp_makeEntry (h : Holds p key w) :
    wp (builder quiet p) (makeEntry p key) (fun _ w' => ∃ e, Making p key e w')
      (fun _ w' => w'.lock key = some p) w := by
  refine wp_fallible (BuildPromises.refl p) ?_ fun w₁ hrely _ _ _ => (h.rely hrely).lock
  rintro w₁ hrely hinv _ _ ⟨hnone, tree, rfl⟩
  have hlock := (h.rely hrely).lock
  have steady : Steady quiet w₁ (w₁.newEntry key tree) := .newEntry hnone tree
  have sound := hinv.newEntry hnone tree
  refine ⟨⟨⟨steady.ready, fun key' inode ha => ?_, fun _ => id, fun _ => id⟩,
    fun key' hk => ?_, fun _ _ _ => id, fun _ _ => rfl, fun q hq => ?_,
    fun _ _ he _ => newEntry_other hnone tree he⟩,
    ⟨sound.ready, sound.working, fun q key' inode hq => ?_, sound.made, sound.used⟩,
    ⟨w₁.made, tree, none, false⟩, hlock, w₁.setEntry_same _, by simp, rfl⟩
  · have kept := steady.abandoned key' inode ha
    refine ⟨kept.1, fun q hq => ?_, kept.2.2⟩
    by_cases hqp : q = p
    · subst hqp
      have heq : (key, w₁.made) = (key', inode) := by simpa using hq
      exact absurd (Prod.mk.inj heq).2 (Nat.ne_of_gt ha.1)
    · exact kept.2.1 q (by simpa [hqp] using hq)
  · refine w₁.setEntry_other _ ?_
    rintro rfl
    exact hk hlock
  · simp [hq]
  · by_cases hqp : q = p
    · subst hqp
      have heq : (key, w₁.made) = (key', inode) := by simpa using hq
      exact (Prod.mk.inj heq).1 ▸ hlock
    · exact sound.making q key' inode (by simpa [hqp] using hq)

/-- What a session knows of the directory it has made: its `build.json`, and the build
once it has finished. -/
def Recorded (p : ℕ) (key : String) (record : Option R) (w : BuildStore R T) : Prop :=
  ∃ e, Making p key e w ∧ e.record = record

def BuildMade (quiet : Prop) (p : ℕ) (key : String) (build : R) (w : BuildStore R T) : Prop :=
  ∃ e tree, Making p key e w ∧ e.record = some build ∧
    ⟨key, e.inode, build, tree⟩ ∈ w.finished ∧ (quiet → tree = e.tree)

theorem Recorded.rely {record : Option R} (h : Recorded p key record w)
    (hrely : BuildRelies quiet p w w') : Recorded p key record w' := by
  obtain ⟨e, hmaking, hrecord⟩ := h
  obtain ⟨e', hsame, hmaking'⟩ := hmaking.rely hrely
  exact ⟨e', hmaking', hsame.record.trans hrecord⟩

theorem Recorded.lock {record : Option R} (h : Recorded p key record w) :
    w.lock key = some p := by
  obtain ⟨e, hmaking, -⟩ := h
  exact hmaking.lock

/-- A step in the directory that a session makes leaves it unready, under its name. -/
theorem wp_recorded {A : BuildEntry R T → Option (BuildEntry R T) → Prop}
    {record record' : Option R} (h : Recorded p key record w)
    (step : ∀ e o, A e o → e.ready = false → e.record = record →
      ∃ e', o = some e' ∧ e'.inode = e.inode ∧ e'.ready = false ∧ e'.record = record') :
    wp (builder quiet p) (inEntry key A) (fun _ w' => Recorded p key record' w')
      (fun _ w' => Recorded p key record w') w := by
  refine wp_fallible (BuildPromises.refl p) ?_ fun w₁ hrely _ _ _ => h.rely hrely
  rintro w₁ hrely hinv _ _ ⟨e, o, he, hA, rfl⟩
  obtain ⟨e₁, hmaking, hrecord⟩ := h.rely hrely
  cases he.symm.trans hmaking.entry
  obtain ⟨e', rfl, hinode, hready, hrecord'⟩ := step e o hA hmaking.unready hrecord
  refine ⟨hmaking.holds.promises fun e₂ he₂ h₂ => ?_, hmaking.holds.sound hinv (fun e₂ he₂ => ?_)
    fun e₂ he₂ h₂ => ?_, e', ⟨hmaking.lock, w₁.setEntry_same _, ?_, hready⟩, hrecord'⟩
  · cases he₂
    exact absurd h₂ (by simp [hready])
  · cases he₂
    exact hinode ▸ hinv.made key e he
  · cases he₂
    exact absurd h₂ (by simp [hready])
  · exact hinode ▸ hmaking.making

theorem keeps_writeTree (record : Option R) :
    Keeps (builder quiet p) (Recorded (T := T) p key record) (some_times (writeTree key)) := by
  refine keeps_some_times (fun _ _ h => h.rely) fun w h => wp_recorded h ?_
  rintro e _ ⟨tree, rfl⟩ hready hrecord
  exact ⟨_, rfl, rfl, hready, hrecord⟩

theorem wp_noteFinished {build : R} {E : Exn → BuildStore R T → Prop}
    (h : Recorded p key (some build) w) :
    wp (builder quiet p) (noteFinished key build) (fun _ w' => BuildMade quiet p key build w') E
      w := by
  refine wp_modify fun w₁ hrely hinv => ?_
  obtain ⟨e, hmaking, hrecord⟩ := h.rely hrely
  have grows : w₁.finished ⊆ w₁.finished ++ [⟨key, e.inode, build, e.tree⟩] :=
    List.subset_append_left ..
  simp only [hmaking.entry]
  refine ⟨⟨.of_entries rfl rfl (fun _ _ => id) grows fun _ => id, fun _ _ => rfl,
    fun _ _ _ => id, fun _ _ => rfl, fun _ _ => rfl, fun _ _ h _ => h⟩,
    ⟨fun key' e' he' hready => ?_, hinv.working, hinv.making, hinv.made, hinv.used⟩,
    e, e.tree, ⟨hmaking.lock, hmaking.entry, hmaking.making, hmaking.unready⟩, hrecord, by simp,
    fun _ => rfl⟩
  obtain ⟨b, tree, hb, hmem, htree⟩ := hinv.ready key' e' he' hready
  exact ⟨b, tree, hb, grows hmem, htree⟩

theorem wp_build_into (h : Holds p key w) :
    wp (builder quiet p) (build_into p key) (fun build w' => BuildMade quiet p key build w')
      (fun _ w' => w'.lock key = some p) w := by
  rw [build_into, wp_bind]
  refine wp_mono (wp_makeEntry h) (fun _ w h => ?_) fun _ _ => id
  obtain ⟨e₀, hmaking⟩ := h
  have h : Recorded p key e₀.record w := ⟨e₀, hmaking, rfl⟩
  rw [wp_bind]
  refine wp_mono (keeps_writeTree e₀.record w h) (fun _ w h => ?_) fun _ _ h => h.lock
  rw [wp_bind]
  refine wp_request (BuildPromises.refl p) (fun w₁ hrely _ build _ => ?_)
    fun w₁ hrely _ _ _ => (h.rely hrely).lock
  have h₁ := h.rely hrely
  rw [wp_bind]
  have written : ∀ (e : BuildEntry R T) o, o = some { e with record := some build } →
      e.ready = false → e.record = e₀.record →
        ∃ e', o = some e' ∧ e'.inode = e.inode ∧ e'.ready = false ∧ e'.record = some build := by
    rintro e _ rfl hready -
    exact ⟨_, rfl, rfl, hready, rfl⟩
  refine wp_mono (wp_recorded h₁ written) (fun _ w h => ?_) fun _ _ h => h.lock
  rw [wp_bind]
  refine wp_request (BuildPromises.refl p) (fun w₁ hrely _ _ _ => ?_)
    fun w₁ hrely _ _ _ => (h.rely hrely).lock
  rw [wp_bind]
  refine wp_mono (keeps_writeTree (some build) w₁ (h.rely hrely)) (fun _ w h => ?_)
    fun _ _ h => h.lock
  rw [wp_bind]
  exact wp_mono (wp_noteFinished h) (fun _ _ h => h) fun _ _ => id

/-- `READY` goes over the finished build that the session has made. -/
theorem wp_writeReady {build : R} (h : BuildMade quiet p key build w) :
    wp (builder quiet p) (writeReady key) (fun _ w' => w'.lock key = some p ∧ Ready key build w')
      (fun _ w' => w'.lock key = some p) w := by
  have rely : ∀ {w'}, BuildRelies quiet p w w' → BuildMade quiet p key build w' := fun hrely => by
    obtain ⟨e, tree, hmaking, hrecord, hmem, htree⟩ := h
    obtain ⟨e', hsame, hmaking'⟩ := hmaking.rely hrely
    exact ⟨e', tree, hmaking', hsame.record.trans hrecord,
      hsame.inode ▸ hrely.steady.finished hmem,
      fun hquiet => (htree hquiet).trans (hsame.tree hquiet).symm⟩
  refine wp_fallible (BuildPromises.refl p) ?_ fun w₁ hrely _ _ _ => ?_
  · rintro w₁ hrely hinv _ _ ⟨e, _, he, rfl, rfl⟩
    obtain ⟨e₁, tree, hmaking, hrecord, hmem, htree⟩ := rely hrely
    cases he.symm.trans hmaking.entry
    refine ⟨hmaking.holds.promises fun e₂ he₂ _ => ?_,
      hmaking.holds.sound hinv (fun e₂ he₂ => ?_) fun e₂ he₂ _ => ?_, hmaking.lock,
      ⟨_, w₁.setEntry_same _, rfl, hrecord⟩⟩
    · cases he₂
      exact hmaking.making
    · cases he₂
      exact hinv.made key e he
    · cases he₂
      exact ⟨build, tree, hrecord, hmem, htree⟩
  · obtain ⟨e, tree, hmaking, -⟩ := rely hrely
    exact hmaking.lock

theorem wp_makeBuild (h : Holds p key w) :
    wp (builder quiet p) (makeBuild p key)
      (fun build w' => w'.lock key = some p ∧ Ready key build w')
      (fun _ w' => w'.lock key = some p) w := by
  rw [makeBuild, wp_bind]
  refine wp_modify fun w₁ hrely hinv => ?_
  have h₁ := h.rely hrely
  have steady : Steady quiet w₁ { w₁ with working := Function.update w₁.working p (some key) } :=
    .of_entries rfl rfl (fun _ _ => id) (fun _ => id) fun _ => id
  refine ⟨⟨steady, fun _ _ => rfl, fun _ _ _ => id, fun q hq => ?_, fun _ _ => rfl,
    fun _ _ h _ => h⟩, ⟨hinv.ready, fun q key' hq => ?_, hinv.making, hinv.made, hinv.used⟩, ?_⟩
  · simp [hq]
  · by_cases hqp : q = p
    · subst hqp
      obtain rfl : key = key' := by simpa using hq
      exact h₁.lock
    · exact hinv.working q key' (by simpa [hqp] using hq)
  rw [wp_bind]
  refine wp_mono (wp_repair ⟨h₁.lock, h₁.unready⟩) (fun _ w h => ?_) fun _ _ => id
  rw [wp_bind]
  refine wp_mono (wp_build_into h) (fun build w h => ?_) fun _ _ => id
  rw [wp_bind]
  exact wp_mono (wp_writeReady h) (fun _ _ h => h) fun _ _ => id

/-- Under the lock a session finds a build that can be used, or makes it. -/
theorem wp_underLock (h : w.lock key = some p) :
    wp (builder quiet p) (underLock p key)
      (fun build w' => w'.lock key = some p ∧ Ready key build.1 w')
      (fun _ w' => w'.lock key = some p) w := by
  rw [underLock, wp_bind]
  refine wp_mono (wp_ready_build fun w₁ _ hrely => hrely.lock key h) (fun found w h' => ?_)
    fun _ _ => id
  have locked := h'.2 h
  cases found with
  | some build => exact ⟨locked.1, h'.1 build rfl⟩
  | none =>
      change wp _ (makeBuild p key >>= fun build => pure (build, false)) _ _ _
      rw [wp_bind]
      exact wp_mono (wp_makeBuild (locked.2 rfl)) (fun _ _ h => h) fun _ _ => id

theorem Ready.of_entry {build : R} (h : Ready key build w) (heq : w'.entry = w.entry) :
    Ready key build w' := by
  obtain ⟨e, he, hbuild⟩ := h
  exact ⟨e, by rw [heq, he], hbuild⟩

theorem wp_acquire {E : Exn → BuildStore R T → Prop} :
    wp (builder quiet p) (acquire p key) (fun _ w' => w'.lock key = some p) E w := by
  rintro w₁ _ hinv _ _ ⟨hfree, rfl⟩
  have locked : ∀ {key' q}, w₁.lock key' = some q →
      Function.update w₁.lock key (some p) key' = some q := fun {key' q} hlock => by
    have hkey : key' ≠ key := by
      rintro rfl
      cases hfree.symm.trans hlock
    simpa [hkey] using hlock
  refine ⟨⟨.of_entries rfl rfl (fun _ _ => id) (fun _ => id) fun _ => id, fun _ _ => rfl,
    fun key' q hq hlock => ?_, fun _ _ => rfl, fun _ _ => rfl, fun _ _ h _ => h⟩,
    ⟨hinv.ready, fun q key' hq => locked (hinv.working q key' hq),
      fun q key' inode hq => locked (hinv.making q key' inode hq), hinv.made, hinv.used⟩, by simp⟩
  exact locked hlock

theorem wp_unlock {Q : BuildStore R T → Prop} {E : Exn → BuildStore R T → Prop}
    (h : w.lock key = some p) (hQ : Q w) (stable : ∀ w w', Q w → BuildRelies quiet p w w' → Q w')
    (entries : ∀ w w', Q w → w'.entry = w.entry → Q w') :
    wp (builder quiet p) (unlock p key) (fun _ => Q) E w := by
  refine wp_modify fun w₁ hrely hinv => ?_
  have hlock := hrely.lock key h
  have others : ∀ {key' q}, q ≠ p → w₁.lock key' = some q →
      Function.update w₁.lock key none key' = some q := fun {key' q} hq hother => by
    have hkey : key' ≠ key := by
      rintro rfl
      exact hq (Option.some.inj (hother.symm.trans hlock))
    simpa [hkey] using hother
  refine ⟨⟨.of_entries rfl rfl (fun q x hq => ?_) (fun _ => id) fun _ => id, fun _ _ => rfl,
    fun key' q hq hother => ?_, fun q hq => ?_, fun q hq => ?_, fun _ _ h _ => h⟩,
    ⟨hinv.ready, fun q key' hq => ?_, fun q key' inode hq => ?_, hinv.made, hinv.used⟩,
    entries w₁ _ (stable w w₁ hQ hrely) rfl⟩
  · by_cases hqp : q = p
    · simp [hqp] at hq
    · simpa [hqp] using hq
  · exact others hq hother
  · simp [hq]
  · simp [hq]
  · by_cases hqp : q = p
    · simp [hqp] at hq
    · exact others hqp (hinv.working q key' (by simpa [hqp] using hq))
  · by_cases hqp : q = p
    · simp [hqp] at hq
    · exact others hqp (hinv.making q key' inode (by simpa [hqp] using hq))

theorem wp_lockedBuild :
    wp (builder quiet p) (lockedBuild p key) (fun build w' => Ready key build.1 w')
      (fun _ _ => True) w := by
  rw [lockedBuild, wp_bind]
  refine wp_mono wp_acquire (fun _ w h => ?_) fun _ _ => id
  rw [wp_bind, wp_attempt]
  refine wp_mono (wp_underLock h) (fun build w h => ?_) fun e w h => ?_
  · rw [wp_bind]
    exact wp_mono (wp_unlock h.1 h.2 (fun _ _ h => h.rely) fun _ _ h => h.of_entry) (fun _ _ h => h)
      fun _ _ => id
  · rw [wp_bind]
    exact wp_mono (wp_unlock (Q := fun _ => True) h trivial (fun _ _ _ _ => trivial)
      fun _ _ _ _ => trivial) (fun _ _ _ => trivial) fun _ _ => id

/-- Whoever gets past `baseline_build` uses a ready build. -/
theorem wp_baseline_build :
    wp (builder quiet p) (baseline_build p key) (fun build w' => Ready key build.1 w')
      (fun _ _ => True) w := by
  rw [baseline_build, wp_bind]
  have found : wp (builder quiet p) (lookUp p key) (fun build w' => Ready key build.1 w')
      (fun _ _ => True) w := by
    rw [lookUp, wp_bind]
    refine wp_mono (wp_ready_build fun _ _ _ => trivial) (fun found w h => ?_) fun _ _ => id
    cases found with
    | some build => exact h.1 build rfl
    | none => exact wp_lockedBuild
  refine wp_mono found (fun build w h => ?_) fun _ _ => id
  rw [wp_bind]
  refine wp_request (BuildPromises.refl p) (fun w₁ hrely _ _ _ => ?_) fun _ _ _ _ _ => trivial
  have h₁ := h.rely hrely
  rw [wp_bind]
  refine wp_modify fun w₂ hrely hinv => ?_
  have h₂ := h₁.rely hrely
  have grows : w₂.used ⊆ w₂.used ++ [⟨p, key, build.1⟩] := List.subset_append_left ..
  refine ⟨⟨.of_entries rfl rfl (fun _ _ => id) (fun _ => id) grows, fun _ _ => rfl,
    fun _ _ _ => id, fun _ _ => rfl, fun _ _ => rfl, fun _ _ h _ => h⟩,
    ⟨hinv.ready, hinv.working, hinv.making, hinv.made, fun x hx => ?_⟩, h₂.of_entry rfl⟩
  cases List.mem_append.mp hx with
  | inl hx => exact hinv.used x hx
  | inr hx =>
      obtain rfl := List.mem_singleton.mp hx
      exact h₂

/-! ## Kills, and what they leave behind -/

theorem BuildStore.lock_release {q : ℕ} (hq : q ≠ p) (hlock : w.lock key = some q) :
    (w.release p).lock key = some q := by
  have hne : w.lock key ≠ some p := fun hp => hq (Option.some.inj (hlock.symm.trans hp))
  change (if w.lock key = some p then none else w.lock key) = some q
  rw [if_neg hne, hlock]

theorem Steady.release (p : ℕ) (w : BuildStore R T) : Steady quiet w (w.release p) := by
  refine .of_entries rfl rfl (fun q x hq => ?_) (fun _ => id) fun _ => id
  by_cases hqp : q = p
  · simp [BuildStore.release, hqp] at hq
  · simpa [BuildStore.release, hqp] using hq

theorem BuildsSound.release (h : BuildsSound quiet w) (p : ℕ) :
    BuildsSound quiet (w.release p) := by
  refine ⟨h.ready, fun q key hq => ?_, fun q key inode hq => ?_, h.made, h.used⟩
  · by_cases hqp : q = p
    · simp [BuildStore.release, hqp] at hq
    · exact BuildStore.lock_release hqp
        (h.working q key (by simpa [BuildStore.release, hqp] using hq))
  · by_cases hqp : q = p
    · simp [BuildStore.release, hqp] at hq
    · exact BuildStore.lock_release hqp
        (h.making q key inode (by simpa [BuildStore.release, hqp] using hq))

theorem BuildRelies.release {q : ℕ} (hq : q ≠ p) (w : BuildStore R T) :
    BuildRelies quiet q w (w.release p) :=
  ⟨.release p w, fun _ => BuildStore.lock_release hq, fun _ _ => .refl _,
    by simp [BuildStore.release, hq], by simp [BuildStore.release, hq]⟩

theorem Undisturbed.newEntry (hnone : w.entry key = none) (tree : T) (key' : String) :
    Undisturbed quiet (w.entry key') ((w.newEntry key tree).entry key') := by
  rw [w.newEntry_entry]
  by_cases hkey : key' = key
  · subst hkey
    rw [hnone, w.setEntry_same]
    intro e' he'
    cases he'
    rfl
  · rw [w.setEntry_other _ hkey]
    exact .refl _

/-- Writing in a tree changes nothing else. -/
theorem setTree_entry {e : BuildEntry R T} (he : w.entry key = some e) (tree : T) {key' : String}
    {e' : BuildEntry R T}
    (he' : (w.setEntry key (some { e with tree := tree })).entry key' = some e') :
    ∃ e₁, w.entry key' = some e₁ ∧ e'.inode = e₁.inode ∧ e'.record = e₁.record ∧
      e'.ready = e₁.ready ∧ (key' ≠ key → e' = e₁) := by
  by_cases hkey : key' = key
  · subst hkey
    cases (w.setEntry_same _).symm.trans he'
    exact ⟨e, he, rfl, rfl, rfl, fun hne => absurd rfl hne⟩
  · exact ⟨e', (w.setEntry_other _ hkey).symm.trans he', rfl, rfl, rfl, fun _ => rfl⟩

/-- Quiet commands write only where nobody looks. -/
theorem same_setTree {e : BuildEntry R T} (he : w.entry key = some e) (tree : T)
    {key' : String} {e₁ : BuildEntry R T} (he₁ : w.entry key' = some e₁)
    (elsewhere : quiet → key' ≠ key) :
    ∃ e', (w.setEntry key (some { e with tree := tree })).entry key' = some e' ∧
      SameBuild quiet e₁ e' := by
  by_cases hkey : key' = key
  · subst hkey
    cases he.symm.trans he₁
    exact ⟨_, w.setEntry_same _, rfl, rfl, rfl, fun hquiet => absurd rfl (elsewhere hquiet)⟩
  · exact ⟨e₁, (w.setEntry_other _ hkey).trans he₁, .refl e₁⟩

/-- An unattended key is none whose build is ready. -/
theorem Unattended.ne_ready (h : Unattended key w) {key' : String} {e : BuildEntry R T}
    (he : w.entry key' = some e) (hready : e.ready) : key' ≠ key := by
  rintro rfl
  rw [h.2 e he] at hready
  cases hready

theorem Unattended.ne_locked (h : Unattended key w) {key' : String} {q : ℕ}
    (hlock : w.lock key' = some q) : key' ≠ key := by
  rintro rfl
  cases h.1.symm.trans hlock

theorem Leftover.steady (h : Leftover quiet w w') : Steady quiet w w' := by
  cases h with
  | make key tree missing _ => exact .newEntry missing tree
  | write key e tree there unattended =>
      refine ⟨fun key' e₁ he₁ hready => ?_,
        fun key' inode ha => ⟨ha.1, ha.2.1, fun e' he' hi => ?_⟩, fun _ => id, fun _ => id⟩
      · exact same_setTree there tree he₁ fun hquiet => (unattended hquiet).ne_ready he₁ hready
      · obtain ⟨e₁, he₁, hinode, -, hready, -⟩ := setTree_entry there tree he'
        exact hready.trans (ha.2.2 e₁ he₁ (hinode.symm.trans hi))

theorem Leftover.sound (h : Leftover quiet w w') (hinv : BuildsSound quiet w) :
    BuildsSound quiet w' := by
  have steady := h.steady
  cases h with
  | make key tree missing _ => exact hinv.newEntry missing tree
  | write key e tree there unattended =>
      refine ⟨fun key' e' he' hready => ?_, hinv.working, hinv.making, fun key' e' he' => ?_,
        fun x hx => ?_⟩
      · obtain ⟨e₁, he₁, hinode, hrecord, hready', hsame⟩ := setTree_entry there tree he'
        have hready₁ := hready'.symm.trans hready
        obtain ⟨build, left, hbuild, hmem, hleft⟩ := hinv.ready key' e₁ he₁ hready₁
        refine ⟨build, left, hrecord.trans hbuild, hinode ▸ hmem, fun hquiet => ?_⟩
        rw [hsame ((unattended hquiet).ne_ready he₁ hready₁)]
        exact hleft hquiet
      · obtain ⟨e₁, he₁, hinode, -⟩ := setTree_entry there tree he'
        exact hinode ▸ hinv.made key' e₁ he₁
      · obtain ⟨e₁, he₁, hready, hrecord⟩ := hinv.used x hx
        obtain ⟨e', he', hsame⟩ := steady.ready x.key e₁ he₁ hready
        exact ⟨e', he', hsame.ready.trans hready, hsame.record.trans hrecord⟩

theorem Leftover.relies (h : Leftover quiet w w') (q : ℕ) : BuildRelies quiet q w w' := by
  have steady := h.steady
  cases h with
  | make key tree missing _ =>
      exact ⟨steady, fun _ => id, fun key' _ => .newEntry missing tree key', rfl, rfl⟩
  | write key e tree there unattended =>
      refine ⟨steady, fun _ => id, fun key' hlock => ?_, rfl, rfl⟩
      cases he₁ : w.entry key' with
      | some e₁ =>
          exact same_setTree there tree he₁ fun hquiet => (unattended hquiet).ne_locked hlock
      | none =>
          intro e' he'
          obtain ⟨e₁, he₁', -⟩ := setTree_entry there tree he'
          cases he₁.symm.trans he₁'

variable (R T quiet) in
def buildOutline : (buildStore quiet R T).Outline where
  inv := BuildsSound quiet
  guar := BuildPromises quiet
  rely := BuildRelies quiet
  idle _ _ := True
  rely_refl := BuildRelies.refl
  rely_trans _ := BuildRelies.trans
  init w h := by
    obtain ⟨entry, -, working, making, -, used⟩ := h
    refine ⟨⟨fun key e he => ?_, fun p key hp => ?_, fun p key inode hp => ?_, fun key e he => ?_,
      fun x hx => ?_⟩, fun _ => trivial⟩
    · cases (entry key).symm.trans he
    · cases (working p).symm.trans hp
    · cases (making p).symm.trans hp
    · cases (entry key).symm.trans he
    · rw [used] at hx
      cases hx
  compatible p q w w' hne _ h := h.relies hne
  release p w h := ⟨h.release p, trivial, fun q hq => .release hq w⟩
  env w w' h left := ⟨left.sound h, left.relies⟩
  idle_rely _ _ _ _ _ := trivial
  safe p prog w h _ _ := by
    obtain ⟨key, rfl⟩ := h
    rw [wp_bind]
    exact wp_mono wp_baseline_build (fun _ _ _ => trivial) fun _ _ => id

end Outline

/-! ## Built once -/

/-- What holds of the builds of a store over a whole run. -/
structure BuiltOnce (r : (buildStore quiet R T).Run) : Prop where
  one_builder : ∀ i p q key, (r.config i).world.working p = some key →
    (r.config i).world.working q = some key → p = q
  ready : ∀ i key e, (r.config i).world.entry key = some e → e.ready →
    ∃ build tree, e.record = some build ∧
      ⟨key, e.inode, build, tree⟩ ∈ (r.config i).world.finished
  /-- No session touches a ready build. -/
  kept : ∀ i p, System.Acts p (r.config i) (r.config (i + 1)) → ∀ key e,
    (r.config i).world.entry key = some e → e.ready →
      (r.config (i + 1)).world.entry key = some e
  stays : ∀ i j, i ≤ j → ∀ key e, (r.config i).world.entry key = some e → e.ready →
    ∃ e', (r.config j).world.entry key = some e' ∧ SameBuild quiet e e'
  /-- An interrupted build is gone when there is a ready one. -/
  interrupted : ∀ i j, i ≤ j → ∀ key e, (r.config i).world.entry key = some e →
    e.ready = false → (∀ p, (r.config i).world.making p ≠ some (key, e.inode)) →
      ∀ e', (r.config j).world.entry key = some e' → e'.ready → e'.inode ≠ e.inode
  /-- The next session can replace it, and gets past only when it has. -/
  rebuilt : ∀ i key e, (r.config i).world.entry key = some e → e.ready = false →
    (r.config i).world.lock key = none → ∀ p,
      (∀ build, ∃ w',
        Exec (baseline_build p key) (r.config i).world (some (.ok (build, false))) w') ∧
      ∀ build w', Exec (baseline_build p key) (r.config i).world (some (.ok build)) w' →
        ∃ e', w'.entry key = some e' ∧ e'.ready ∧ e'.record = some build.1 ∧ e'.inode ≠ e.inode
  one_build : ∀ i j, i ≤ j → ∀ x ∈ (r.config i).world.used,
    ∃ e, (r.config j).world.entry x.key = some e ∧ e.ready ∧ e.record = some x.build

/-- A ready build is what its builder has left, to the last file, for ever. -/
structure Untorn (r : (buildStore quiet R T).Run) : Prop where
  whole : ∀ i key e, (r.config i).world.entry key = some e → e.ready →
    ∃ build, e.record = some build ∧
      ⟨key, e.inode, build, e.tree⟩ ∈ (r.config i).world.finished
  stays : ∀ i j, i ≤ j → ∀ key e, (r.config i).world.entry key = some e → e.ready →
    (r.config j).world.entry key = some e

section Rebuild
variable {p : ℕ} {key : String} {w w' : BuildStore R T}

theorem BuildsSound.abandoned (h : BuildsSound quiet w) {e : BuildEntry R T}
    (he : w.entry key = some e) (hready : e.ready = false)
    (nobody : ∀ p, w.making p ≠ some (key, e.inode)) : Abandoned w key e.inode :=
  ⟨h.made key e he, nobody, fun e' he' _ => by cases he.symm.trans he'; exact hready⟩

theorem exec_some_times_none (prog : Prog (BuildStore R T) Exn Unit) :
    Exec (some_times prog) w (some (.ok ())) w :=
  .bind (.answer (b := 0) trivial) (.ret () w)

theorem exec_unready (h : ∀ e, w.entry key = some e → e.ready = false) :
    Exec (ready_build key) w (some (.ok none)) w := by
  refine .bind (.read _) ?_
  have hno : (w.entry key).any (·.ready) = false := by
    cases he : w.entry key with
    | none => rfl
    | some e => exact h e he
  rw [hno]
  exact .ret none w

theorem exec_inEntry {A : BuildEntry R T → Option (BuildEntry R T) → Prop} {e : BuildEntry R T}
    {o : Option (BuildEntry R T)} (he : w.entry key = some e) (hA : A e o) :
    Exec (inEntry key A) w (some (.ok ())) (w.setEntry key o) :=
  .fallible ⟨e, o, he, hA, rfl⟩

theorem exec_repair {e : BuildEntry R T} (he : w.entry key = some e) :
    Exec (repair key) w (some (.ok ())) (w.setEntry key none) := by
  refine .bind (.read _) ?_
  rw [he]
  exact .bind (exec_some_times_none _) (exec_inEntry he rfl)

theorem exec_build_into (p : ℕ) (hnone : w.entry key = none) (tree : T) (build : R) :
    ∃ w', Exec (build_into p key) w (some (.ok build)) w' ∧ ∃ e, w'.entry key = some e := by
  let made : BuildStore R T := { w.newEntry key tree with
    making := Function.update w.making p (some (key, w.made)) }
  have mkdir : Exec (makeEntry p key) w (some (.ok ())) made := .fallible ⟨hnone, tree, rfl⟩
  have hmade : made.entry key = some ⟨w.made, tree, none, false⟩ := w.setEntry_same _
  have record : Exec (inEntry key fun e e' => e' = some { e with record := some build }) made
      (some (.ok ())) (made.setEntry key (some ⟨w.made, tree, some build, false⟩)) :=
    exec_inEntry hmade rfl
  refine ⟨_, mkdir.bind <| .bind (exec_some_times_none _) <|
    .bind (.request (b := build) trivial) <| record.bind <| .bind (.request (b := ()) trivial) <|
    .bind (exec_some_times_none _) <| .bind (.modify _) (.ret build _), ?_⟩
  rw [made.setEntry_same]
  exact ⟨_, made.setEntry_same _⟩

theorem exec_makeBuild (p : ℕ) {e : BuildEntry R T} (he : w.entry key = some e) (build : R) :
    ∃ w', Exec (makeBuild p key) w (some (.ok build)) w' := by
  let working : BuildStore R T := { w with working := Function.update w.working p (some key) }
  have repaired : Exec (repair key) working (some (.ok ())) (working.setEntry key none) :=
    exec_repair he
  obtain ⟨w', built, e', he'⟩ := exec_build_into p (working.setEntry_same none) e.tree build
  exact ⟨_, .bind (.modify _) <| repaired.bind <| built.bind <|
    .bind (exec_inEntry he' rfl) (.ret build _)⟩

/-- A session that finds an interrupted build and its lock free can replace it. -/
theorem exec_baseline_build (p : ℕ) {e : BuildEntry R T} (he : w.entry key = some e)
    (hready : e.ready = false) (hfree : w.lock key = none) (build : R) :
    ∃ w', Exec (baseline_build p key) w (some (.ok (build, false))) w' := by
  have unready : ∀ e', w.entry key = some e' → e'.ready = false := fun e' he' => by
    cases he.symm.trans he'
    exact hready
  let locked : BuildStore R T := { w with lock := Function.update w.lock key (some p) }
  have acquired : Exec (acquire p key) w (some (.ok ())) locked := .perform ⟨hfree, rfl⟩
  have look : Exec (ready_build key) locked (some (.ok none)) locked := exec_unready unready
  obtain ⟨w', made⟩ := exec_makeBuild (w := locked) p he build
  have under : Exec (underLock p key) locked (some (.ok (build, false))) w' :=
    look.bind (made.bind (.ret _ _))
  have found : Exec (lookUp p key) w (some (.ok (build, false))) _ :=
    (exec_unready unready).bind <| acquired.bind <| under.attempt.bind <|
      .bind (.modify _) (.ret _ _)
  exact ⟨_, found.bind <| .bind (.request (b := ()) trivial) <| .bind (.modify _) (.ret _ _)⟩

/-- Whoever gets past an interrupted build uses another directory. -/
theorem exec_replaced (hinv : BuildsSound quiet w) {e : BuildEntry R T}
    (ha : Abandoned w key e.inode) {build : R × Bool}
    (run : Exec (baseline_build p key) w (some (.ok build)) w') :
    ∃ e', w'.entry key = some e' ∧ e'.ready ∧ e'.record = some build.1 ∧ e'.inode ≠ e.inode := by
  have spec : wp (builder quiet p) (baseline_build p key) (fun build w' => Ready key build.1 w')
      (fun _ _ => True) w := wp_baseline_build
  obtain ⟨-, steady, e', he', hready, hrecord⟩ :=
    run.keeps (C := builder quiet p) (T := Steady quiet) .refl (fun _ _ _ => .trans)
      (fun _ _ h => h.steady) hinv spec
  refine ⟨e', he', hready, hrecord, fun hinode => ?_⟩
  have := (steady.abandoned key e.inode ha).2.2 e' he' hinode
  rw [hready] at this
  cases this

end Rebuild

section Runs

theorem SameBuild.eq {e e' : BuildEntry R T} (h : SameBuild True e e') : e' = e := by
  obtain ⟨hinode, hrecord, hready, htree⟩ := h
  cases e
  cases e'
  simp_all

theorem run_sound (r : (buildStore quiet R T).Run) (i : ℕ) :
    BuildsSound quiet (r.config i).world :=
  ((buildOutline R T quiet).holds (r.reachable _ i)).1

theorem run_steady (r : (buildStore quiet R T).Run) {i j : ℕ} (hij : i ≤ j) :
    Steady quiet (r.config i).world (r.config j).world :=
  (buildOutline R T quiet).run_induction r .refl (fun _ _ _ => .trans) (fun _ _ _ _ _ h => h.steady)
    (fun p w _ => .release p w) (fun _ _ _ h => h.steady) hij

theorem run_builtOnce (r : (buildStore quiet R T).Run) : BuiltOnce r := by
  refine ⟨fun i p q key hp hq => ?_, fun i key e he hready => ?_, fun i p acts => ?_,
    fun i j hij => (run_steady r hij).ready,
    fun i j hij key e he hready nobody e' he' hready' hinode => ?_,
    fun i key e he hready hfree p => ⟨fun build => exec_baseline_build p he hready hfree build,
      fun build w' => exec_replaced (run_sound r i) ?_⟩,
    fun i j hij x hx => (run_sound r j).used x ((run_steady r hij).used hx)⟩
  · have hlock := ((run_sound r i).working p key hp).symm.trans ((run_sound r i).working q key hq)
    exact Option.some.inj hlock
  · obtain ⟨build, tree, hrecord, hmem, -⟩ := (run_sound r i).ready key e he hready
    exact ⟨build, tree, hrecord, hmem⟩
  · exact (((buildOutline R T quiet).holds (r.reachable _ i)).act _ acts).1.kept
  · have kept := (run_steady r hij).abandoned key e.inode
      ((run_sound r i).abandoned he hready nobody)
    have hunready := kept.2.2 e' he' hinode
    rw [hready'] at hunready
    cases hunready
  · refine (run_sound r i).abandoned he hready fun q hq => ?_
    cases hfree.symm.trans ((run_sound r i).making q key e.inode hq)

theorem run_untorn (r : (buildStore True R T).Run) : Untorn r := by
  refine ⟨fun i key e he hready => ?_, fun i j hij key e he hready => ?_⟩
  · obtain ⟨build, tree, hrecord, hmem, htree⟩ := (run_sound r i).ready key e he hready
    rw [htree trivial] at hmem
    exact ⟨build, hrecord, hmem⟩
  · obtain ⟨e', he', hsame⟩ := (run_steady r hij).ready key e he hready
    rw [he', hsame.eq]

/-- One builder, `READY` over finished builds only, one build for every session, and no session
that touches a ready one. No build is torn if the commands that killed builders leave behind are
over before another session takes the key's lock. -/
theorem built_once : (∀ r : (buildStore False R T).Run, BuiltOnce r) ∧
    ∀ r : (buildStore True R T).Run, BuiltOnce r ∧ Untorn r :=
  ⟨run_builtOnce, fun r => ⟨run_builtOnce r, run_untorn r⟩⟩

end Runs
end Programs

section Sample

def emptyBuilds : BuildStore Unit Bool where
  entry _ := none
  lock _ := none
  made := 0
  working _ := none
  making _ := none
  finished := []
  used := []

/-- The lock of the entry is taken. -/
def lockedBuilds : BuildStore Unit Bool :=
  { emptyBuilds with lock := Function.update emptyBuilds.lock "key" (some 0) }

def workingBuilds : BuildStore Unit Bool :=
  { lockedBuilds with working := Function.update lockedBuilds.working 0 (some "key") }

/-- Its directory is made, and no command has run in it. -/
def madeBuilds : BuildStore Unit Bool :=
  { workingBuilds.newEntry "key" false with
    making := Function.update workingBuilds.making 0 (some ("key", workingBuilds.made)) }

theorem killed_making : Exec (baseline_build 0 "key") emptyBuilds none madeBuilds := by
  have noted : Exec (noteWorking 0 "key") lockedBuilds (some (Except.ok (ε := Exn) ()))
      workingBuilds := .modify _
  have missing : Exec (repair "key") workingBuilds (some (.ok ())) workingBuilds :=
    .bind (.read _) (.ret () _)
  have makes : Exec (makeBuild 0 "key") lockedBuilds none madeBuilds :=
    noted.bind (missing.bind (.stopped (.stopped (.killed (b := ()) ⟨rfl, false, rfl⟩))))
  have acquired : Exec (acquire 0 "key") emptyBuilds (some (.ok ())) lockedBuilds :=
    .perform ⟨rfl, rfl⟩
  have unready : ∀ e, emptyBuilds.entry "key" = some e → e.ready = false := fun _ h => by cases h
  refine .stopped (.bind (exec_unready unready) ?_)
  refine acquired.bind (.stopped (Exec.attempt_stopped ?_))
  exact .bind (exec_unready unready) (.stopped makes)

/-- A builder is killed once it has made its directory. Another session makes the build anew and
marks it ready; only then a command of the first one writes in it. -/
theorem leftovers_tear : ∃ (r : (buildStore False Unit Bool).Run) (n : ℕ)
    (e : BuildEntry Unit Bool), (r.config n).world.entry "key" = some e ∧ e.ready = true ∧
      (r.config (n + 1)).world.entry "key" = some { e with tree := !e.tree } ∧ ¬ Untorn r := by
  have started : (buildStore False Unit Bool).Reachable ⟨emptyBuilds, fun _ => none⟩ :=
    .init ⟨⟨fun _ => rfl, fun _ => rfl, fun _ => rfl, fun _ => rfl, rfl, rfl⟩, fun _ => rfl⟩
  have left := started.exec _ 0 rfl ⟨"key", rfl⟩ (.stopped killed_making)
  have sound : BuildsSound False (madeBuilds.release 0) :=
    ((buildOutline Unit Bool False).holds left).1
  have interrupted : (madeBuilds.release 0).entry "key" = some ⟨0, false, none, false⟩ := rfl
  have free : (madeBuilds.release 0).lock "key" = none := by
    simp [BuildStore.release, madeBuilds, workingBuilds, lockedBuilds, BuildStore.newEntry,
      BuildStore.setEntry]
  have nobody : ∀ p, (madeBuilds.release 0).making p ≠ some ("key", 0) := by
    intro p hp
    cases free.symm.trans (sound.making p "key" 0 hp)
  obtain ⟨w, rebuilt⟩ := exec_baseline_build 1 interrupted rfl free ()
  obtain ⟨e, he, hready, -⟩ := exec_replaced sound (sound.abandoned interrupted rfl nobody) rebuilt
  have ready := left.exec _ 1 rfl ⟨"key", rfl⟩ (.bind rebuilt (.ret () _))
  obtain ⟨r, n, hr⟩ := ready.exists_run
  have torn : (buildStore False Unit Bool).Step (r.config n)
      ⟨(w.release 1).setEntry "key" (some { e with tree := !e.tree }), fun _ => none⟩ := by
    rw [hr]
    exact .env (.write "key" e (!e.tree) he fun hquiet => hquiet.elim)
  obtain ⟨r', hn, hlast⟩ := r.exists_branch _ n torn
  have before : (r'.config n).world.entry "key" = some e := by
    rw [hn, hr]
    exact he
  have after : (r'.config (n + 1)).world.entry "key" = some { e with tree := !e.tree } := by
    rw [hlast]
    exact BuildStore.setEntry_same ..
  refine ⟨r', n, e, before, hready, after, fun h => ?_⟩
  have hsame := after.symm.trans (h.stays n (n + 1) (Nat.le_succ n) "key" e before hready)
  have htree := congrArg (Option.map (·.tree)) hsame
  simp at htree

end Sample

end TranspileBench.Store
