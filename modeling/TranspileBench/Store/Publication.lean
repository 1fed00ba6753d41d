import TranspileBench.Evaluator.Verdict
import TranspileBench.Lib.Directory
import TranspileBench.Lib.Interleaving

/-!
The results of a store: any number of publishers fill private directories and rename
them into place while others read. An entry that is there is complete and stays.
-/
namespace TranspileBench.Store
open Prog

def RESULT_KINDS : List String := ["correctness", "unit-tests"]

/-- Where an entry of a kind lives under its key. -/
structure Place where
  kind : String
  key : String
  deriving DecidableEq

def Place.path (root : String) (place : Place) : String :=
  root ++ "/" ++ place.kind ++ "/" ++ place.key

/-- One call of `publish_results`. `fill` works in the private directory and is told where
the files will live; `provenance` is told when the entry was first computed. -/
structure Publication (B : Type) where
  kind : String
  key : String
  fill : (final : String) → Prog (Dir B) Exn Unit
  provenance : (first_computed : String) → B

/-- A call whose `fill` has returned, and the files that it left. -/
structure FilledCall (ι B : Type) where
  call : ι
  files : Dir B

/-- The results of a store: the entries, and the directories `.partial-KEY-UUID` with the
process that made each. `filled` is history. -/
structure Results (ι B : Type) where
  entry : Place → Option (Dir B)
  partials : Place → ℕ → Option (ℕ × Dir B)
  filled : List (FilledCall ι B)

section Programs
variable {ι B : Type}

def Results.setPartial (w : Results ι B) (place : Place) (uuid : ℕ) (d : Option (ℕ × Dir B)) :
    Results ι B :=
  { w with partials :=
      Function.update w.partials place (Function.update (w.partials place) uuid d) }

/-- What a reader finds: an entry that holds `provenance.json`. -/
def Results.published (w : Results ι B) (place : Place) : Option (Dir B) :=
  (w.entry place).filter fun d => (d.lookup "provenance.json").isSome

def results_dir (kind key : String) : Prog (Results ι B) Exn Place :=
  if RESULT_KINDS.contains kind then pure ⟨kind, key⟩
  else throw (.harness ("Unknown store result kind: " ++ kind))

def read_results (kind key : String) : Prog (Results ι B) Exn (Option (Dir B)) := do
  let place ← results_dir kind key
  read fun w => w.published place

/-- An operation on a private directory: it takes effect or raises. -/
def inPartial (place : Place) (uuid : ℕ) (A : Dir B → Option (Dir B) → Prop) :
    Prog (Results ι B) Exn Unit :=
  fallible (fun _ => True) fun w _ w' =>
    ∃ o d d', w.partials place uuid = some (o, d) ∧ A d d' ∧
      w' = w.setPartial place uuid (d'.map fun d' => (o, d'))

/-- `mkdir` of a directory that is there raises. -/
def mkdir (p : ℕ) (place : Place) (uuid : ℕ) : Prog (Results ι B) Exn Unit :=
  fallible (fun _ => True) fun w _ w' =>
    w.partials place uuid = none ∧ w' = w.setPartial place uuid (some (p, ∅))

/-- `rename` is atomic and refuses a nonempty destination. -/
def rename (place : Place) (uuid : ℕ) : Prog (Results ι B) Exn Unit :=
  fallible (fun _ => True) fun w _ w' =>
    ∃ o d, w.partials place uuid = some (o, d) ∧ (∀ d₀, w.entry place = some d₀ → d₀ = ∅) ∧
      w' = { w.setPartial place uuid none with
        entry := Function.update w.entry place (some d) }

/-- `rmtree(ignore_errors=True)`: file by file, and the directory if it is empty then. -/
def rmtree (place : Place) (uuid : ℕ) : Prog (Results ι B) Exn Unit := do
  let names ← read fun w => ((w.partials place uuid).map fun d => d.2.keys).getD []
  each (fun name => do
    let _ ← (inPartial place uuid fun d d' => d' = some (d.erase name)).attempt) names
  let _ ← (inPartial place uuid fun d d' => d = ∅ ∧ d' = none).attempt

/-- The private directory, for a process that writes in it: `write_json` and
`append_record` make it anew when it is gone. -/
def partialSlot (p : ℕ) (place : Place) (uuid : ℕ) : Slot (Results ι B) (Dir B) where
  get w := (w.partials place uuid).map (·.2)
  put w d := w.setPartial place uuid
    (some (((w.partials place uuid).map (·.1)).getD p, d))

/-- History: the call's `fill` has returned. -/
def noteFilled (place : Place) (uuid : ℕ) (i : ι) : Prog (Results ι B) Exn Unit :=
  modify fun w => match w.partials place uuid with
    | some (_, d) => { w with filled := w.filled ++ [⟨i, d⟩] }
    | none => w

section Calls
variable (root : String) (calls : ι → Publication B)

def fillPartial (p : ℕ) (place : Place) (uuid : ℕ) (i : ι) : Prog (Results ι B) Exn Unit := do
  ((calls i).fill (place.path root)).inside (partialSlot p place uuid) ∅ fun _ => True
  noteFilled place uuid i
  let now ← request (fun _ => True) fun _ => True
  inPartial place uuid fun d d' =>
    d' = some (d.insert "provenance.json" ((calls i).provenance now))

/-- `except OSError`: an entry that is there is kept. -/
def keepFirst (place : Place) : Exn → Prog (Results ι B) Exn Unit
  | .other message => do
      let there ← read fun w => (w.published place).isSome
      if there then pure () else throw (.other message)
  | e => throw e

def moveIn (place : Place) (uuid : ℕ) : Prog (Results ι B) Exn Unit := do
  let moved ← (rename place uuid).attempt
  match moved with
  | .ok () => pure ()
  | .error e => keepFirst place e

def fillAndMove (p : ℕ) (place : Place) (uuid : ℕ) (i : ι) : Prog (Results ι B) Exn Unit := do
  fillPartial root calls p place uuid i
  moveIn place uuid

def removePartial (place : Place) (uuid : ℕ) : Prog (Results ι B) Exn Unit := do
  let there ← read fun w => (w.partials place uuid).isSome
  if there then rmtree place uuid else pure ()

/-- A private directory under a random name, of which nothing is known. -/
def publishNew (p : ℕ) (place : Place) (i : ι) : Prog (Results ι B) Exn Place := do
  let uuid ← answer fun _ => True
  mkdir p place uuid
  let result ← (fillAndMove root calls p place uuid i).attempt
  removePartial place uuid
  match result with
  | .ok () => pure place
  | .error e => throw e

def publish_results (p : ℕ) (i : ι) : Prog (Results ι B) Exn Place := do
  let final ← results_dir (calls i).kind (calls i).key
  let there ← read fun w => (w.entry final).isSome
  if there then pure final else publishNew root calls p final i

/-- A reader: if an entry is published, some of its files, one after the other. -/
def readEntry (kind key : String) (names : List String) : Prog (Results ι B) Exn Unit := do
  let entry ← read_results kind key
  match entry with
  | none => pure ()
  | some _ => each (fun name => do
      let _ ← read fun w => (w.entry ⟨kind, key⟩).bind (·.lookup name)) names

/-- Sessions that publish and read results in one store, each stopped wherever it is. -/
def resultStore : System (Results ι B) Exn where
  init w := (∀ place, w.entry place = none) ∧ (∀ place uuid, w.partials place uuid = none) ∧
    w.filled = []
  entry p prog :=
    (∃ i, prog = (do let _ ← publish_results root calls p i)) ∨
      ∃ kind key names, prog = readEntry kind key names
  release _ w := w
  env w w' := w' = w

/-- The files of a call's successful `fill`, and its provenance. -/
structure FilledCall.Wrote (f : FilledCall ι B) (place : Place) (d : Dir B) : Prop where
  kind : (calls f.call).kind = place.kind
  key : (calls f.call).key = place.key
  fill : Exec ((calls f.call).fill (place.path root)) ∅ (some (.ok ())) f.files
  provenance : ∃ now, d = f.files.insert "provenance.json" ((calls f.call).provenance now)

/-- Every entry is the work of one call whose `fill` returned. -/
def Results.Sound (w : Results ι B) : Prop :=
  ∀ place d, w.entry place = some d → ∃ f ∈ w.filled, f.Wrote root calls place d

end Calls

/-- What process `q` may count on: entries stay, and its directories are its own until
their entry is there. -/
structure Respects (q : ℕ) (w w' : Results ι B) : Prop where
  entry : ∀ place d, w.entry place = some d → w'.entry place = some d
  partials : ∀ place uuid d, w'.entry place = none → w.partials place uuid = some (q, d) →
    w'.partials place uuid = some (q, d)
  filled : w.filled ⊆ w'.filled

theorem Respects.refl (q : ℕ) (w : Results ι B) : Respects q w w :=
  ⟨fun _ _ => id, fun _ _ _ _ => id, fun _ => id⟩

theorem Respects.trans {q : ℕ} {w w' w'' : Results ι B} (h : Respects q w w')
    (h' : Respects q w' w'') : Respects q w w'' := by
  refine ⟨fun place d he => h'.entry place d (h.entry place d he), ?_,
    fun f hf => h'.filled (h.filled hf)⟩
  intro place uuid d hnone hp
  have hnone' : w'.entry place = none := by
    cases he : w'.entry place with
    | none => rfl
    | some d => rw [h'.entry place d he] at hnone; cases hnone
  exact h'.partials place uuid d hnone (h.partials place uuid d hnone' hp)

/-- At most one entry is new, and none is replaced. -/
def PublishesOne (w w' : Results ι B) : Prop :=
  w'.entry = w.entry ∨
    ∃ place d, w.entry place = none ∧ w'.entry = Function.update w.entry place (some d)

/-- What a process promises of its actions. -/
structure Promises (p : ℕ) (w w' : Results ι B) : Prop where
  others : ∀ q, q ≠ p → Respects q w w'
  publishes : PublishesOne w w'

theorem Promises.refl (p : ℕ) (w : Results ι B) : Promises p w w :=
  ⟨fun q _ => .refl q w, .inl rfl⟩

section Outline
variable (root : String) (calls : ι → Publication B) (p : ℕ)

def publisher : Contract (Results ι B) where
  rely := Respects p
  guar := Promises p
  inv := Results.Sound root calls
  rely_refl := Respects.refl p
  rely_trans := Respects.trans

variable {root calls p} {place : Place} {uuid : ℕ} {w w' : Results ι B}

/-- An entry is there: what happens in private directories no longer matters. -/
def Taken (place : Place) (w : Results ι B) : Prop := ∃ d, w.entry place = some d

def Owns (p : ℕ) (place : Place) (uuid : ℕ) (d : Dir B) (w : Results ι B) : Prop :=
  w.partials place uuid = some (p, d)

/-- A process may write in a private directory. -/
def MayWrite (p : ℕ) (place : Place) (uuid : ℕ) (w : Results ι B) : Prop :=
  Taken place w ∨ ∃ d, Owns p place uuid d w

theorem Taken.rely (h : Taken place w) (hrely : Respects p w w') : Taken place w' :=
  h.imp fun d => hrely.entry place d

theorem Owns.rely {d : Dir B} (h : Owns p place uuid d w) (hrely : Respects p w w') :
    Taken place w' ∨ Owns p place uuid d w' := by
  cases he : w'.entry place with
  | some e => exact .inl ⟨e, he⟩
  | none => exact .inr (hrely.partials place uuid d he h)

theorem MayWrite.rely (h : MayWrite p place uuid w) (hrely : Respects p w w') :
    MayWrite p place uuid w' := by
  rcases h with h | ⟨d, h⟩
  · exact .inl (h.rely hrely)
  · exact (h.rely hrely).imp id fun h => ⟨d, h⟩

@[simp]
theorem Results.setPartial_entry (w : Results ι B) (d : Option (ℕ × Dir B)) :
    (w.setPartial place uuid d).entry = w.entry := rfl

@[simp]
theorem Results.setPartial_filled (w : Results ι B) (d : Option (ℕ × Dir B)) :
    (w.setPartial place uuid d).filled = w.filled := rfl

@[simp]
theorem Results.setPartial_same (w : Results ι B) (d : Option (ℕ × Dir B)) :
    (w.setPartial place uuid d).partials place uuid = d := by
  simp [Results.setPartial]

theorem Results.setPartial_other (w : Results ι B) (d : Option (ℕ × Dir B)) {place' : Place}
    {uuid' : ℕ} (h : (place', uuid') ≠ (place, uuid)) :
    (w.setPartial place uuid d).partials place' uuid' = w.partials place' uuid' := by
  by_cases hplace : place' = place
  · subst hplace
    have huuid : uuid' ≠ uuid := fun heq => h (by rw [heq])
    simp [Results.setPartial, huuid]
  · simp [Results.setPartial, hplace]

/-- Whoever writes in a directory that nobody else counts on keeps its promise. -/
theorem Promises.setPartial (h : Taken place w ∨ ∀ q d, w.partials place uuid = some (q, d) → q = p)
    (d : Option (ℕ × Dir B)) : Promises p w (w.setPartial place uuid d) := by
  refine ⟨fun q hq => ?_, .inl rfl⟩
  refine ⟨fun _ _ => id, fun place' uuid' e hnone hp => ?_, fun _ => id⟩
  by_cases heq : (place', uuid') = (place, uuid)
  · obtain ⟨rfl, rfl⟩ := Prod.mk.inj heq
    rcases h with ⟨e', he'⟩ | h
    · rw [Results.setPartial_entry, he'] at hnone
      cases hnone
    · exact absurd (h q e hp) hq
  · rw [w.setPartial_other d heq]
    exact hp

theorem MayWrite.writable (h : MayWrite p place uuid w) :
    Taken place w ∨ ∀ q d, w.partials place uuid = some (q, d) → q = p := by
  refine h.imp id fun ⟨d, h⟩ q e hq => ?_
  rw [h] at hq
  cases hq
  rfl

theorem MayWrite.setPartial (h : MayWrite p place uuid w) (d : Dir B) (o : ℕ)
    (ho : ∀ q e, w.partials place uuid = some (q, e) → o = q) :
    MayWrite p place uuid (w.setPartial place uuid (some (o, d))) := by
  refine h.imp id fun ⟨e, h⟩ => ⟨d, ?_⟩
  rw [Owns, Results.setPartial_same, ho p e h]

theorem Results.Sound.setPartial (h : w.Sound root calls) (d : Option (ℕ × Dir B)) :
    (w.setPartial place uuid d).Sound root calls := h

/-- An operation on a private directory, under what is known of the world. -/
theorem wp_inPartial {A : Dir B → Option (Dir B) → Prop} {Q : Unit → Results ι B → Prop}
    {E : Exn → Results ι B → Prop} (h : MayWrite p place uuid w)
    (ok : ∀ w₁ o d d', MayWrite p place uuid w₁ → Respects p w w₁ → A d d' →
      w₁.partials place uuid = some (o, d) →
      Q () (w₁.setPartial place uuid (d'.map fun d' => (o, d'))))
    (fails : ∀ w₁ e, MayWrite p place uuid w₁ → Respects p w w₁ → E e w₁) :
    wp (publisher root calls p) (inPartial place uuid A) Q E w := by
  refine wp_fallible (Promises.refl p) ?_ fun w₁ hrely _ e _ => fails w₁ e (h.rely hrely) hrely
  rintro w₁ hrely hinv _ _ ⟨o, d, d', hp, hA, rfl⟩
  have h₁ := h.rely hrely
  exact ⟨.setPartial h₁.writable _, hinv.setPartial _, ok w₁ o d d' h₁ hrely hA hp⟩

theorem wp_fill (fill : Prog (Dir B) Exn Unit) (h : Owns p place uuid ∅ w) :
    wp (publisher root calls p) (fill.inside (partialSlot p place uuid) ∅ fun _ => True)
      (fun _ w' => Taken place w' ∨ ∃ d, Owns p place uuid d w' ∧
        Exec fill ∅ (some (.ok ())) d)
      (fun _ w' => MayWrite p place uuid w') w := by
  refine wp_inside (Promises.refl p) (fun v w hv => ?_) (fun v w w' hv hrely _ => hv.rely hrely)
    (fun v v' w hv hinv => ?_) (fun w w' hw hrely _ => hw.rely hrely)
    (fun v w hw hinv => ?_) fill h
  · rw [Owns] at hv
    simp [partialSlot, hv]
  · have hwrite : MayWrite p place uuid w := .inr ⟨v, hv⟩
    refine ⟨.setPartial hwrite.writable _, hinv.setPartial _, ?_⟩
    rw [Owns] at hv
    simp [partialSlot, Owns, hv]
  · exact ⟨.setPartial (.inl hw) _, hinv.setPartial _, hw⟩

/-- The private directory holds an entry, if that still matters. -/
def Complete (root : String) (calls : ι → Publication B) (p : ℕ) (place : Place) (uuid : ℕ)
    (w : Results ι B) : Prop :=
  Taken place w ∨ ∃ d, Owns p place uuid d w ∧ ∃ f ∈ w.filled, f.Wrote root calls place d

theorem Complete.rely (h : Complete root calls p place uuid w) (hrely : Respects p w w') :
    Complete root calls p place uuid w' := by
  rcases h with h | ⟨d, hown, f, hf, hwrote⟩
  · exact .inl (h.rely hrely)
  · exact (hown.rely hrely).imp id fun hown => ⟨d, hown, f, hrely.filled hf, hwrote⟩

theorem Complete.mayWrite (h : Complete root calls p place uuid w) : MayWrite p place uuid w :=
  h.imp id fun ⟨d, hown, _⟩ => ⟨d, hown⟩

/-- A call's `fill` has returned, and its files are in the private directory. -/
def Noted (root : String) (calls : ι → Publication B) (p : ℕ) (place : Place) (uuid : ℕ) (i : ι)
    (w : Results ι B) : Prop :=
  Taken place w ∨ ∃ d, Owns p place uuid d w ∧ ⟨i, d⟩ ∈ w.filled ∧
    Exec ((calls i).fill (place.path root)) ∅ (some (.ok ())) d

theorem Noted.rely {i : ι} (h : Noted root calls p place uuid i w) (hrely : Respects p w w') :
    Noted root calls p place uuid i w' := by
  rcases h with h | ⟨d, hown, hf, hfill⟩
  · exact .inl (h.rely hrely)
  · exact (hown.rely hrely).imp id fun hown => ⟨d, hown, hrely.filled hf, hfill⟩

theorem Noted.mayWrite {i : ι} (h : Noted root calls p place uuid i w) :
    MayWrite p place uuid w :=
  h.imp id fun ⟨d, hown, _⟩ => ⟨d, hown⟩

theorem wp_noteFilled (i : ι) {E : Exn → Results ι B → Prop}
    (h : Taken place w ∨ ∃ d, Owns p place uuid d w ∧
      Exec ((calls i).fill (place.path root)) ∅ (some (.ok ())) d) :
    wp (publisher root calls p) (noteFilled place uuid i)
      (fun _ w' => Noted root calls p place uuid i w') E w := by
  refine wp_modify fun w₁ hrely hinv => ?_
  have h₁ : Taken place w₁ ∨ ∃ d, Owns p place uuid d w₁ ∧
      Exec ((calls i).fill (place.path root)) ∅ (some (.ok ())) d := by
    rcases h with h | ⟨d, hown, hfill⟩
    · exact .inl (h.rely hrely)
    · exact (hown.rely hrely).imp id fun hown => ⟨d, hown, hfill⟩
  cases hp : w₁.partials place uuid with
  | none => exact ⟨.refl p w₁, hinv, h₁.imp id fun ⟨d, hown, _⟩ => by cases hp.symm.trans hown⟩
  | some od =>
      obtain ⟨o, d⟩ := od
      have grows : w₁.filled ⊆ w₁.filled ++ [⟨i, d⟩] := List.subset_append_left ..
      refine ⟨⟨fun q _ => ⟨fun _ _ => id, fun _ _ _ _ => id, grows⟩, .inl rfl⟩,
        fun place d' he => ?_, ?_⟩
      · obtain ⟨f, hf, hwrote⟩ := hinv place d' he
        exact ⟨f, grows hf, hwrote⟩
      · rcases h₁ with h₁ | ⟨d', hown, hfill⟩
        · exact .inl h₁
        · cases hp.symm.trans hown
          exact .inr ⟨d, hown, by simp, hfill⟩

theorem wp_fillPartial (i : ι) (hplace : place = ⟨(calls i).kind, (calls i).key⟩)
    (h : Owns p place uuid ∅ w) :
    wp (publisher root calls p) (fillPartial root calls p place uuid i)
      (fun _ w' => Complete root calls p place uuid w')
      (fun _ w' => MayWrite p place uuid w') w := by
  unfold fillPartial
  rw [wp_bind]
  refine wp_mono (wp_fill _ h) (fun _ w h => ?_) fun _ _ => id
  rw [wp_bind]
  refine wp_mono (wp_noteFilled i h) (fun _ w h => ?_) fun _ _ => id
  rw [wp_bind]
  refine wp_request (Promises.refl p) (fun w₁ hrely _ now _ => ?_)
    fun w₁ hrely _ _ _ => (h.rely hrely).mayWrite
  have h₁ := h.rely hrely
  refine wp_inPartial h₁.mayWrite (fun w₂ o d d' _ hrely hd hp => ?_) fun _ _ h _ => h
  subst hd
  rcases h₁.rely hrely with h₂ | ⟨files, hown, hf, hfill⟩
  · exact .inl h₂
  · cases hp.symm.trans hown
    refine .inr ⟨_, Results.setPartial_same .., ⟨i, d⟩, hf, ?_⟩
    exact ⟨by rw [hplace], by rw [hplace], hfill, now, rfl⟩

/-- An entry that is moved in is complete. -/
theorem wp_rename (h : Complete root calls p place uuid w) :
    wp (publisher root calls p) (rename place uuid) (fun _ w' => Taken place w')
      (fun _ w' => MayWrite p place uuid w') w := by
  refine wp_fallible (Promises.refl p) ?_ fun w₁ hrely _ _ _ => (h.rely hrely).mayWrite
  rintro w₁ hrely hinv _ _ ⟨o, d, hp, hempty, rfl⟩
  have h₁ := h.rely hrely
  have absent : w₁.entry place = none := by
    cases he : w₁.entry place with
    | none => rfl
    | some d₀ =>
        obtain ⟨f, -, hwrote⟩ := hinv place d₀ he
        obtain ⟨now, hd₀⟩ := hwrote.provenance
        have hsome : (d₀.lookup "provenance.json").isSome := by simp [hd₀]
        rw [hempty d₀ he] at hsome
        simp at hsome
  rcases h₁ with ⟨d', h₁⟩ | ⟨d', hown, f, hf, hwrote⟩
  · rw [absent] at h₁
    cases h₁
  cases hp.symm.trans hown
  refine ⟨⟨fun q hq => ⟨fun place' e he => ?_, fun place' uuid' e hnone hp' => ?_, fun _ => id⟩,
    .inr ⟨place, d, absent, rfl⟩⟩, fun place' e he => ?_, d, by simp⟩
  · have hne : place' ≠ place := by
      rintro rfl
      rw [absent] at he
      cases he
    simpa [hne] using he
  · have hne : place' ≠ place := by
      rintro rfl
      simp at hnone
    rw [← hp']
    exact w₁.setPartial_other none fun heq => hne (Prod.mk.inj heq).1
  · by_cases hplace : place' = place
    · subst hplace
      obtain rfl : d = e := by simpa using he
      exact ⟨f, hf, hwrote⟩
    · exact hinv place' e (by simpa [hplace] using he)

theorem wp_keepFirst (e : Exn) (h : MayWrite p place uuid w) :
    wp (publisher root calls p) (keepFirst place e) (fun _ w' => Taken place w')
      (fun _ w' => MayWrite p place uuid w') w := by
  cases e with
  | other message =>
      rw [keepFirst, wp_bind]
      refine wp_read (Promises.refl p) fun w₁ hrely _ => ?_
      have h₁ := h.rely hrely
      cases he : w₁.entry place with
      | none => simpa [Results.published, he] using h₁
      | some d =>
          by_cases hprov : (d.lookup "provenance.json").isSome
          · have taken : Taken place w₁ := ⟨d, he⟩
            simp only [Results.published, he, Option.filter, hprov, if_true, Option.isSome_some]
            exact taken
          · simpa [Results.published, he, Option.filter, hprov] using h₁
  | _ => exact h

theorem wp_moveIn (h : Complete root calls p place uuid w) :
    wp (publisher root calls p) (moveIn place uuid) (fun _ w' => Taken place w')
      (fun _ w' => MayWrite p place uuid w') w := by
  rw [moveIn, wp_bind, wp_attempt]
  exact wp_mono (wp_rename h) (fun _ _ h => h) fun e _ h => wp_keepFirst e h

theorem wp_fillAndMove (i : ι) (hplace : place = ⟨(calls i).kind, (calls i).key⟩)
    (h : Owns p place uuid ∅ w) :
    wp (publisher root calls p) (fillAndMove root calls p place uuid i)
      (fun _ w' => Taken place w') (fun _ w' => MayWrite p place uuid w') w := by
  rw [fillAndMove, wp_bind]
  exact wp_mono (wp_fillPartial i hplace h) (fun _ _ => wp_moveIn) fun _ _ => id

/-- What a process knows while it clears away: how its call ends is settled. -/
def Clearing (p : ℕ) (place : Place) (uuid : ℕ) (done : Prop) (w : Results ι B) : Prop :=
  MayWrite p place uuid w ∧ (done → Taken place w)

theorem Clearing.rely {done : Prop} (h : Clearing p place uuid done w)
    (hrely : Respects p w w') : Clearing p place uuid done w' :=
  ⟨h.1.rely hrely, fun hdone => (h.2 hdone).rely hrely⟩

/-- The steps of `rmtree` but the last keep what is known. -/
theorem keeps_unlink (name : String) (done : Prop) :
    Keeps (publisher root calls p) (Clearing p place uuid done)
      (inPartial place uuid fun d d' => d' = some (d.erase name)).attempt := by
  refine Keeps.attempt fun w h => wp_inPartial h.1 (fun w₁ o d d' hwrite hrely hd hp => ?_)
    fun _ _ _ hrely => h.rely hrely
  subst hd
  refine ⟨hwrite.setPartial _ o fun q e hq => ?_, (h.rely hrely).2⟩
  cases hp.symm.trans hq
  rfl

theorem wp_removePartial (done : Prop) (h : Clearing p place uuid done w) :
    wp (publisher root calls p) (removePartial place uuid) (fun _ w' => done → Taken place w')
      (fun _ _ => True) w := by
  rw [removePartial, wp_bind]
  refine wp_read (Promises.refl p) fun w₁ hrely _ => ?_
  have h₁ := h.rely hrely
  cases (w₁.partials place uuid).isSome with
  | false => exact h₁.2
  | true =>
      change wp _ (rmtree place uuid) _ _ _
      rw [rmtree, wp_bind]
      refine wp_read (Promises.refl p) fun w₂ hrely _ => ?_
      rw [wp_bind]
      have unlink : ∀ name, Keeps (publisher root calls p) (Clearing p place uuid done) (do
          let _ ← (inPartial place uuid fun d d' => d' = some (d.erase name)).attempt) :=
        fun name => (keeps_unlink name done).bind fun _ => Keeps.pure ()
      refine wp_mono (Keeps.each unlink w₂ (h₁.rely hrely)) (fun _ w₃ h₃ => ?_) fun _ _ _ => trivial
      rw [wp_bind, wp_attempt]
      exact wp_inPartial h₃.1 (fun _ _ _ _ _ hrely _ _ => (h₃.rely hrely).2)
        fun _ _ _ hrely => (h₃.rely hrely).2

theorem wp_publishNew (i : ι) (hplace : place = ⟨(calls i).kind, (calls i).key⟩) :
    wp (publisher root calls p) (publishNew root calls p place i)
      (fun final w' => Taken final w') (fun _ _ => True) w := by
  rw [publishNew, wp_bind]
  refine wp_answer (Promises.refl p) fun w₁ _ _ uuid _ => ?_
  rw [wp_bind]
  refine wp_fallible (Promises.refl p) ?_ fun _ _ _ _ _ => trivial
  rintro w₂ _ hinv _ _ ⟨hnone, rfl⟩
  have vacant : ∀ q d, w₂.partials place uuid = some (q, d) → q = p := fun q d hp => by
    cases hnone.symm.trans hp
  refine ⟨.setPartial (.inr vacant) _, hinv.setPartial _, ?_⟩
  rw [wp_bind, wp_attempt]
  refine wp_mono (wp_fillAndMove i hplace (Results.setPartial_same ..)) (fun _ w h => ?_)
    fun e w h => ?_
  · rw [wp_bind]
    refine wp_mono (wp_removePartial True ⟨.inl h, fun _ => h⟩) (fun _ w h => ?_)
      fun _ _ _ => trivial
    exact h trivial
  · rw [wp_bind]
    exact wp_mono (wp_removePartial False ⟨h, False.elim⟩) (fun _ _ _ => trivial)
      fun _ _ _ => trivial

/-- A call that returns leaves an entry to read, its own or one that was there first. -/
theorem wp_publish_results (i : ι) :
    wp (publisher root calls p) (publish_results root calls p i)
      (fun final w' => Taken final w') (fun _ _ => True) w := by
  rw [publish_results, wp_bind, results_dir]
  by_cases hkind : RESULT_KINDS.contains (calls i).kind
  · rw [if_pos hkind, wp_pure, wp_bind]
    refine wp_read (Promises.refl p) fun w₁ _ _ => ?_
    cases he : w₁.entry ⟨(calls i).kind, (calls i).key⟩ with
    | none => exact wp_publishNew i rfl
    | some d => exact ⟨d, he⟩
  · rw [if_neg hkind]
    trivial

theorem wp_readEntry (kind key : String) (names : List String) :
    wp (publisher root calls p) (readEntry kind key names) (fun _ _ => True) (fun _ _ => True)
      w := by
  have quiet : ∀ {β : Type} (f : Results ι B → β),
      Safe (publisher root calls p) (fun _ => True) (read f : Prog _ Exn β) :=
    fun f => Safe.read (Promises.refl p)
  have found : Safe (publisher root calls p) (fun _ => True)
      (read_results kind key : Prog (Results ι B) Exn _) := by
    refine Safe.bind ?_ fun _ => quiet _
    unfold results_dir
    split
    · exact Safe.pure _
    · exact Safe.throw trivial
  refine Safe.bind found (fun entry => ?_) w
  cases entry with
  | none => exact Safe.pure ()
  | some d => exact Safe.each fun name _ => Safe.bind (quiet _) fun _ => Safe.pure ()

end Outline

section System
variable (root : String) (calls : ι → Publication B)

/-- Publishers and readers keep out of each other's way. -/
def outline : (resultStore root calls).Outline where
  inv := Results.Sound root calls
  guar := Promises
  rely := Respects
  idle _ _ := True
  rely_refl := Respects.refl
  rely_trans _ := Respects.trans
  init w h := ⟨fun place d he => (by rw [h.1] at he; cases he), fun _ => trivial⟩
  compatible p q w w' hne _ h := h.others q hne.symm
  release p w h := ⟨h, trivial, fun q _ => .refl q w⟩
  env w w' h heq := by
    subst heq
    exact ⟨h, fun q => .refl q w'⟩
  idle_rely _ _ _ _ _ := trivial
  safe p prog w h _ _ := by
    rcases h with ⟨i, rfl⟩ | ⟨kind, key, names, rfl⟩
    · rw [wp_bind]
      exact wp_mono (wp_publish_results i) (fun _ _ _ => trivial) fun _ _ => id
    · exact wp_readEntry kind key names

variable {root calls}

theorem Results.Sound.published {w : Results ι B} (h : w.Sound root calls) {place : Place}
    {d : Dir B} (hd : w.entry place = some d) : w.published place = some d := by
  obtain ⟨f, -, hwrote⟩ := h place d hd
  obtain ⟨now, rfl⟩ := hwrote.provenance
  simp [Results.published, hd, Option.filter]

theorem Results.entry_of_published {w : Results ι B} {place : Place} {d : Dir B}
    (h : w.published place = some d) : w.entry place = some d :=
  (Option.filter_eq_some_iff.mp h).1

/-- An entry that can be read holds the files of one call's `fill` and its provenance. -/
theorem published_wrote {c : Config (Results ι B) Exn} (h : (resultStore root calls).Reachable c)
    {place : Place} {d : Dir B} (hd : c.world.published place = some d) :
    ∃ f ∈ c.world.filled, f.Wrote root calls place d :=
  ((outline root calls).holds h).1 place d (Results.entry_of_published hd)

/-- Whatever the interleaving and wherever publishers are stopped: an entry that can be
read holds the files of one call's successful `fill` and that call's provenance, and it
stays as it is. -/
theorem publication_atomic (r : (resultStore root calls).Run) :
    (∀ n place d, (r.config n).world.published place = some d →
      ∃ f ∈ (r.config n).world.filled, f.Wrote root calls place d) ∧
    ∀ m n, m ≤ n → ∀ place d, (r.config m).world.published place = some d →
      (r.config n).world.published place = some d := by
  refine ⟨fun n place d => published_wrote (r.reachable _ n), ?_⟩
  intro m n hmn place d h
  have kept := (outline root calls).run_induction r
    (T := fun w w' => ∀ d, w.entry place = some d → w'.entry place = some d)
    (fun _ _ => id) (fun _ _ _ h h' d hd => h' d (h d hd))
    (fun p w w' _ _ hp => (hp.others (p + 1) (Nat.succ_ne_self p)).entry place)
    (fun _ _ _ _ => id) (fun w w' _ heq d hd => heq ▸ hd) hmn
  have sound := ((outline root calls).holds (r.reachable _ n)).1
  exact Results.Sound.published sound (kept d (Results.entry_of_published h))

end System
end Programs
end TranspileBench.Store
