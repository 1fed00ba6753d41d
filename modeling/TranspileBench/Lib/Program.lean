import Mathlib.Logic.Relation
import Mathlib.Data.Nat.Notation

/-!
Programs of atomic actions over a shared world, with exceptions. A program is
interrupted between any two of its actions, either by other processes that
change the world under it or by a kill. The precondition calculus carries what
the others keep (`rely`), what the program promises for each of its own actions
(`guar`) and an invariant that every action re-establishes.
-/
universe u

/-- A program over worlds `W` that returns an `α` or raises an `ε`. An action
relates the world it finds to its answer and the world it leaves. -/
inductive Prog (W ε α : Type) : Type 1
  | ret (a : α)
  | raise (e : ε)
  | act {β : Type} (A : W → β → W → Prop) (k : β → Prog W ε α)

namespace Prog
variable {W ε α β γ : Type}

protected def bind : Prog W ε α → (α → Prog W ε β) → Prog W ε β
  | .ret a, f => f a
  | .raise e, _ => .raise e
  | .act A k, f => .act A fun b => (k b).bind f

protected def tryCatch : Prog W ε α → (ε → Prog W ε α) → Prog W ε α
  | .ret a, _ => .ret a
  | .raise e, h => h e
  | .act A k, h => .act A fun b => (k b).tryCatch h

instance : Monad (Prog W ε) where
  pure := .ret
  bind := Prog.bind

instance : MonadExceptOf ε (Prog W ε) where
  throw := .raise
  tryCatch := Prog.tryCatch

def perform (A : W → β → W → Prop) : Prog W ε β := .act A .ret

/-- Read a part of the world. -/
def read (f : W → β) : Prog W ε β := perform fun w b w' => b = f w ∧ w' = w

/-- Change the world in one step. -/
def modify (f : W → W) : Prog W ε Unit := perform fun w _ w' => w' = f w

/-- An answer from outside the world, of which only `P` is known. -/
def answer (P : β → Prop) : Prog W ε β := perform fun w b w' => P b ∧ w' = w

/-- An action of the operating system: it takes effect, or raises without one. -/
def fallible (errors : ε → Prop) (A : W → β → W → Prop) : Prog W ε β :=
  .act (fun w (r : Except ε β) w' =>
      match r with
      | .ok b => A w b w'
      | .error e => errors e ∧ w' = w)
    fun r => match r with
      | .ok b => .ret b
      | .error e => .raise e

/-- Ask the outside for an answer of which only `P` is known; it may fail. -/
def request (errors : ε → Prop) (P : β → Prop) : Prog W ε β :=
  fallible errors fun w b w' => P b ∧ w' = w

/-- Run `f` over a list from the left, threading an accumulator. -/
def fold (f : γ → α → Prog W ε γ) : γ → List α → Prog W ε γ
  | s, [] => .ret s
  | s, x :: rest => (f s x).bind fun s' => fold f s' rest

/-- Run `f` on every element of a list, from the left. -/
def each (f : α → Prog W ε Unit) (xs : List α) : Prog W ε Unit := fold (fun _ x => f x) () xs

/-- Run `p` any number of times. -/
def repeatedly (p : Prog W ε Unit) : Prog W ε Unit :=
  (answer fun _ : ℕ => True).bind fun n => each (fun _ => p) (List.replicate n ())

/-- Run `p` and give back how it ended, so that a lock can be released either way. -/
def attempt : Prog W ε α → Prog W ε (Except ε α)
  | .ret a => .ret (.ok a)
  | .raise e => .ret (.error e)
  | .act A k => .act A fun b => (k b).attempt

/-- A program that only goes on waiting. -/
def never : Prog W ε α := .act (fun _ (_ : Empty) _ => True) nofun

/-- A program that before each of its actions may be interrupted by an exception in `E`. -/
def interrupted (E : ε → Prop) : Prog W ε α → Prog W ε α
  | .ret a => .ret a
  | .raise e => .raise e
  | .act A k =>
      .act (fun w (r : Except ε _) w' =>
          match r with
          | .ok b => A w b w'
          | .error e => E e ∧ w' = w)
        fun r => match r with
          | .ok b => (k b).interrupted E
          | .error e => .raise e

/-- A program before each of whose actions the world may take steps of `env`. -/
def disturbed (env : W → W → Prop) : Prog W ε α → Prog W ε α
  | .ret a => .ret a
  | .raise e => .raise e
  | .act A k =>
      .act (fun w b w' => ∃ w₁, Relation.ReflTransGen env w w₁ ∧ A w₁ b w')
        fun b => (k b).disturbed env

/-- Raise other exceptions. -/
def mapError {ε' : Type} (f : ε → ε') : Prog W ε α → Prog W ε' α
  | .ret a => .ret a
  | .raise e => .raise (f e)
  | .act A k => .act A fun b => (k b).mapError f

end Prog

/-- A part of a world. -/
structure Lens (W V : Type) where
  get : W → V
  set : W → V → W
  get_set : ∀ w v, get (set w v) = v
  set_get : ∀ w, set w (get w) = w
  set_set : ∀ w v v', set (set w v) v' = set w v'

def Lens.comp {W V U : Type} (L : Lens W V) (M : Lens V U) : Lens W U where
  get w := M.get (L.get w)
  set w u := L.set w (M.set (L.get w) u)
  get_set w u := by rw [L.get_set, M.get_set]
  set_get w := by rw [M.set_get, L.set_get]
  set_set w u u' := by rw [L.get_set, L.set_set, M.set_set]

/-- A program on a part of the world. -/
def Prog.zoom {W V ε α : Type} (L : Lens W V) : Prog V ε α → Prog W ε α
  | .ret a => .ret a
  | .raise e => .raise e
  | .act A k =>
      .act (fun w b w' => ∃ v, A (L.get w) b v ∧ w' = L.set w v) fun b => (k b).zoom L

/-- What a program may assume of the world and what it promises about it. -/
structure Contract (W : Type) where
  rely : W → W → Prop
  guar : W → W → Prop
  inv : W → Prop
  rely_refl : ∀ w, rely w w
  rely_trans : ∀ {w w' w''}, rely w w' → rely w' w'' → rely w w''

/-- The contract of a program that runs alone: nobody else changes the world. -/
def Contract.alone {W : Type} (inv : W → Prop) (guar : W → W → Prop) : Contract W where
  rely := Eq
  guar := guar
  inv := inv
  rely_refl _ := rfl
  rely_trans := Eq.trans

/-- Nobody else is around and nothing is owed. -/
def Contract.free {W : Type} : Contract W := .alone (fun _ => True) fun _ _ => True

/-- The contract of a program that runs alone but for the steps of `env`. -/
def Contract.amid {W : Type} (env : W → W → Prop) (inv : W → Prop) : Contract W where
  rely := Relation.ReflTransGen env
  guar _ _ := True
  inv := inv
  rely_refl _ := .refl
  rely_trans := .trans

namespace Prog
variable {W ε α β γ : Type} (C : Contract W)

/-- From `w` the program keeps the contract at every action, however the others
interfere, and ends in `Q` or raises into `E`. -/
def wp : Prog W ε α → (α → W → Prop) → (ε → W → Prop) → W → Prop
  | .ret a, Q, _, w => Q a w
  | .raise e, _, E, w => E e w
  | .act A k, Q, E, w =>
      ∀ w₁, C.rely w w₁ → C.inv w₁ → ∀ b w₂, A w₁ b w₂ →
        C.guar w₁ w₂ ∧ C.inv w₂ ∧ wp (k b) Q E w₂

variable {C} {Q Q' : α → W → Prop} {E E' : ε → W → Prop} {w : W}

@[simp]
theorem wp_ret (a : α) : wp C (.ret a) Q E w ↔ Q a w := Iff.rfl

@[simp]
theorem wp_pure (a : α) : wp C (pure a : Prog W ε α) Q E w ↔ Q a w := Iff.rfl

@[simp]
theorem wp_raise (e : ε) : wp C (.raise e) Q E w ↔ E e w := Iff.rfl

@[simp]
theorem wp_throw (e : ε) : wp C (throw e : Prog W ε α) Q E w ↔ E e w := Iff.rfl

theorem wp_act {A : W → β → W → Prop} {k : β → Prog W ε α} :
    wp C (.act A k) Q E w ↔ ∀ w₁, C.rely w w₁ → C.inv w₁ → ∀ b w₂, A w₁ b w₂ →
      C.guar w₁ w₂ ∧ C.inv w₂ ∧ wp C (k b) Q E w₂ := Iff.rfl

@[simp]
theorem wp_bind {p : Prog W ε α} {f : α → Prog W ε β} {Q : β → W → Prop} :
    wp C (p >>= f) Q E w ↔ wp C p (fun a => wp C (f a) Q E) E w := by
  change wp C (Prog.bind p f) Q E w ↔ _
  induction p generalizing w with
  | ret a => rfl
  | raise e => rfl
  | act A k ih => simp only [Prog.bind, wp_act, ih]

@[simp]
theorem wp_map {p : Prog W ε α} {f : α → β} {Q : β → W → Prop} :
    wp C (f <$> p) Q E w ↔ wp C p (fun a => Q (f a)) E w := by
  change wp C (p >>= fun a => pure (f a)) Q E w ↔ _
  rw [wp_bind]
  rfl

theorem wp_tryCatch {p : Prog W ε α} {h : ε → Prog W ε α} :
    wp C (tryCatch p h) Q E w ↔ wp C p Q (fun e => wp C (h e) Q E) w := by
  change wp C (Prog.tryCatch p h) Q E w ↔ _
  induction p generalizing w with
  | ret a => rfl
  | raise e => rfl
  | act A k ih => simp only [Prog.tryCatch, wp_act, ih]

theorem wp_attempt {p : Prog W ε α} {Q : Except ε α → W → Prop} :
    wp C p.attempt Q E w ↔ wp C p (fun a => Q (.ok a)) (fun e => Q (.error e)) w := by
  induction p generalizing w with
  | ret a => rfl
  | raise e => rfl
  | act A k ih => simp only [attempt, wp_act, ih]

theorem wp_mapError {ε' : Type} {p : Prog W ε α} {f : ε → ε'} {E : ε' → W → Prop} :
    wp C (p.mapError f) Q E w ↔ wp C p Q (fun e => E (f e)) w := by
  induction p generalizing w with
  | ret a => rfl
  | raise e => rfl
  | act A k ih => simp only [mapError, wp_act, ih]

@[simp]
theorem wp_never : wp C (never : Prog W ε α) Q E w := fun _ _ _ b => b.elim

theorem wp_mono {p : Prog W ε α} (h : wp C p Q E w) (hQ : ∀ a w, Q a w → Q' a w)
    (hE : ∀ e w, E e w → E' e w) : wp C p Q' E' w := by
  induction p generalizing w with
  | ret a => exact hQ a w h
  | raise e => exact hE e w h
  | act A k ih =>
      intro w₁ hrely hinv b w₂ hA
      obtain ⟨hguar, hinv', hk⟩ := h w₁ hrely hinv b w₂ hA
      exact ⟨hguar, hinv', ih b hk⟩

/-- What neither the others nor the program itself can change is there at its end. -/
theorem wp_carry {A : W → Prop} (rely : ∀ w w', A w → C.rely w w' → A w')
    (guar : ∀ w w', A w → C.guar w w' → A w') {p : Prog W ε α} (hw : A w) (h : wp C p Q E w) :
    wp C p (fun a w => A w ∧ Q a w) (fun e w => A w ∧ E e w) w := by
  induction p generalizing w with
  | ret a => exact ⟨hw, h⟩
  | raise e => exact ⟨hw, h⟩
  | act B k ih =>
      intro w₁ hrely hinv b w₂ hB
      obtain ⟨hguar, hinv', hk⟩ := h w₁ hrely hinv b w₂ hB
      exact ⟨hguar, hinv', ih b (guar _ _ (rely _ _ hw hrely) hguar) hk⟩

/-- What the others do cannot break a program whose results survive them. -/
theorem wp_rely {p : Prog W ε α} {w' : W} (h : wp C p Q E w) (hrely : C.rely w w')
    (hQ : ∀ a, Q a w → Q a w') (hE : ∀ e, E e w → E e w') : wp C p Q E w' := by
  cases p with
  | ret a => exact hQ a h
  | raise e => exact hE e h
  | act A k => exact fun w₁ hw₁ => h w₁ (C.rely_trans hrely hw₁)

theorem wp_read {f : W → β} {Q : β → W → Prop} (hguar : ∀ w, C.guar w w)
    (h : ∀ w₁, C.rely w w₁ → C.inv w₁ → Q (f w₁) w₁) : wp C (read f) Q E w := by
  rintro w₁ hrely hinv b w₂ ⟨rfl, rfl⟩
  exact ⟨hguar _, hinv, h _ hrely hinv⟩

theorem wp_answer {P : β → Prop} {Q : β → W → Prop} (hguar : ∀ w, C.guar w w)
    (h : ∀ w₁, C.rely w w₁ → C.inv w₁ → ∀ b, P b → Q b w₁) : wp C (answer P) Q E w := by
  rintro w₁ hrely hinv b w₂ ⟨hb, rfl⟩
  exact ⟨hguar _, hinv, h _ hrely hinv b hb⟩

theorem wp_modify {f : W → W} {Q : Unit → W → Prop}
    (h : ∀ w₁, C.rely w w₁ → C.inv w₁ → C.guar w₁ (f w₁) ∧ C.inv (f w₁) ∧ Q () (f w₁)) :
    wp C (modify f) Q E w := by
  rintro w₁ hrely hinv b w₂ rfl
  exact h _ hrely hinv

theorem wp_fallible {errors : ε → Prop} {A : W → β → W → Prop} {Q : β → W → Prop}
    (hguar : ∀ w, C.guar w w)
    (ok : ∀ w₁, C.rely w w₁ → C.inv w₁ → ∀ b w₂, A w₁ b w₂ →
      C.guar w₁ w₂ ∧ C.inv w₂ ∧ Q b w₂)
    (fails : ∀ w₁, C.rely w w₁ → C.inv w₁ → ∀ e, errors e → E e w₁) :
    wp C (fallible errors A) Q E w := by
  intro w₁ hrely hinv r w₂ hA
  cases r with
  | ok b => exact ok w₁ hrely hinv b w₂ hA
  | error e =>
      obtain ⟨he, rfl⟩ := hA
      exact ⟨hguar _, hinv, fails _ hrely hinv e he⟩

/-- A program on a part of the world under a contract `D` of that part, as long as holding
`H` makes of what the others do what `D` assumes of them. -/
theorem wp_within {V : Type} (L : Lens W V) {D : Contract V} (H : W → Prop)
    (rely : ∀ w w', H w → D.inv (L.get w) → C.rely w w' → C.inv w' →
      H w' ∧ D.rely (L.get w) (L.get w') ∧ D.inv (L.get w'))
    (act : ∀ w v, H w → C.inv w → D.inv (L.get w) → D.guar (L.get w) v → D.inv v →
      C.guar w (L.set w v) ∧ C.inv (L.set w v) ∧ H (L.set w v))
    {p : Prog V ε α} {Q : α → V → Prop} {E : ε → V → Prop} {w : W} (hw : H w)
    (hinv : D.inv (L.get w)) (h : wp D p Q E (L.get w)) :
    wp C (p.zoom L) (fun a w => H w ∧ Q a (L.get w)) (fun e w => H w ∧ E e (L.get w)) w := by
  induction p generalizing w with
  | ret a => exact ⟨hw, h⟩
  | raise e => exact ⟨hw, h⟩
  | act A k ih =>
      rintro w₁ hrely hinv₁ b _ ⟨v, hA, rfl⟩
      obtain ⟨hw₁, hrely', hinv'⟩ := rely w w₁ hw hinv hrely hinv₁
      obtain ⟨hguar, hinv'', hk⟩ := h _ hrely' hinv' b v hA
      obtain ⟨hg, hi, hH⟩ := act w₁ v hw₁ hinv₁ hinv' hguar hinv''
      refine ⟨hg, hi, ih b hH ?_ ?_⟩
      · rw [L.get_set]; exact hinv''
      · rw [L.get_set]; exact hk

/-- A program that runs alone on a part of the world runs there among the others, as
long as holding `H` keeps them off that part. -/
theorem wp_zoom {V : Type} (L : Lens W V) {inv : V → Prop} {guar : V → V → Prop} (H : W → Prop)
    (rely : ∀ w w', H w → C.rely w w' → C.inv w' → H w' ∧ L.get w' = L.get w)
    (act : ∀ w v, H w → C.inv w → inv (L.get w) → guar (L.get w) v → inv v →
      C.guar w (L.set w v) ∧ C.inv (L.set w v) ∧ H (L.set w v))
    {p : Prog V ε α} {Q : α → V → Prop} {E : ε → V → Prop} {w : W} (hw : H w)
    (hinv : inv (L.get w)) (h : wp (Contract.alone inv guar) p Q E (L.get w)) :
    wp C (p.zoom L) (fun a w => H w ∧ Q a (L.get w)) (fun e w => H w ∧ E e (L.get w)) w := by
  refine wp_within L H (fun w w' hw hinv hrely hinv' => ?_) act hw hinv h
  obtain ⟨hw', heq⟩ := rely w w' hw hrely hinv'
  exact ⟨hw', heq.symm, heq ▸ hinv⟩

/-- An interruption finds what the program has kept so far. -/
theorem wp_interrupted {A : W → Prop} {I : ε → Prop} (refl : ∀ w, A w → C.inv w → C.guar w w)
    (stable : ∀ w w', A w → C.rely w w' → C.inv w' → A w')
    (keeps : ∀ w w', A w → C.inv w → C.guar w w' → C.inv w' → A w') {p : Prog W ε α}
    (hw : A w) (h : wp C p Q E w) :
    wp C (p.interrupted I) Q (fun e w => E e w ∨ I e ∧ A w) w := by
  induction p generalizing w with
  | ret a => exact h
  | raise e => exact .inl h
  | act B k ih =>
      rw [interrupted, wp_act]
      intro w₁ hrely hinv r w₂ hB
      have hw₁ := stable w w₁ hw hrely hinv
      cases r with
      | ok b =>
          obtain ⟨hguar, hinv', hk⟩ := h w₁ hrely hinv b w₂ hB
          exact ⟨hguar, hinv', ih b (keeps w₁ w₂ hw₁ hinv hguar hinv') hk⟩
      | error e =>
          obtain ⟨he, rfl⟩ := hB
          exact ⟨refl _ hw₁ hinv, hinv, .inr ⟨he, hw₁⟩⟩

/-- The loop rule: `J` holds of the accumulator and of what is still to be done. -/
theorem wp_fold {f : γ → α → Prog W ε γ} {E : ε → W → Prop} (J : γ → List α → W → Prop)
    (step : ∀ s x rest w, J s (x :: rest) w → wp C (f s x) (fun s' => J s' rest) E w) :
    ∀ {xs : List α} {s : γ} {w : W}, J s xs w → wp C (fold f s xs) (fun s' => J s' []) E w
  | [], _, _, h => h
  | x :: rest, s, w, h => by
      change wp C (f s x >>= fun s' => fold f s' rest) _ _ _
      rw [wp_bind]
      exact wp_mono (step s x rest w h) (fun _ _ hs => wp_fold J step hs) (fun _ _ he => he)

theorem wp_request {errors : ε → Prop} {P : β → Prop} {Q : β → W → Prop}
    (hguar : ∀ w, C.guar w w) (ok : ∀ w₁, C.rely w w₁ → C.inv w₁ → ∀ b, P b → Q b w₁)
    (fails : ∀ w₁, C.rely w w₁ → C.inv w₁ → ∀ e, errors e → E e w₁) :
    wp C (request errors P) Q E w := by
  refine wp_fallible hguar ?_ fails
  rintro w₁ hrely hinv b _ ⟨hb, rfl⟩
  exact ⟨hguar _, hinv, ok _ hrely hinv b hb⟩

theorem wp_each {f : α → Prog W ε Unit} {E : ε → W → Prop} (J : List α → W → Prop)
    (step : ∀ x rest w, J (x :: rest) w → wp C (f x) (fun _ => J rest) E w)
    {xs : List α} {w : W} (h : J xs w) : wp C (each f xs) (fun _ => J []) E w :=
  wp_fold (fun _ => J) (fun _ => step) h

theorem wp_repeatedly {p : Prog W ε Unit} {E : ε → W → Prop} {A : W → Prop}
    (hguar : ∀ w, C.guar w w) (stable : ∀ w w', A w → C.rely w w' → C.inv w' → A w')
    (round : ∀ w, A w → wp C p (fun _ => A) E w) {w : W} (h : A w) :
    wp C (repeatedly p) (fun _ => A) E w := by
  change wp C (answer (fun _ : ℕ => True) >>= _) _ _ _
  rw [wp_bind]
  refine wp_answer hguar fun w₁ hrely hinv n _ => ?_
  exact wp_each (fun _ => A) (fun _ _ => round) (stable w w₁ h hrely hinv)

section Free
variable {Q : β → W → Prop} {E : ε → W → Prop}

/-- An action of a program that runs alone and owes nothing. -/
theorem wp_fallible_free {errors : ε → Prop} {A : W → β → W → Prop}
    (ok : ∀ b w', A w b w' → Q b w') (fails : ∀ e, errors e → E e w) :
    wp .free (fallible errors A) Q E w := by
  refine wp_fallible (fun _ => trivial) ?_ ?_
  · rintro _ rfl _ b w' hA
    exact ⟨trivial, trivial, ok b w' hA⟩
  · rintro _ rfl _ e he
    exact fails e he

theorem wp_request_free {errors : ε → Prop} {P : β → Prop} (ok : ∀ b, P b → Q b w)
    (fails : ∀ e, errors e → E e w) : wp .free (request errors P) Q E w := by
  refine wp_fallible_free ?_ fails
  rintro b _ ⟨hb, rfl⟩
  exact ok b hb

theorem wp_perform_free {A : W → β → W → Prop} (h : ∀ b w', A w b w' → Q b w') :
    wp .free (perform A) Q E w := by
  rintro _ rfl _ b w' hA
  exact ⟨trivial, trivial, h b w' hA⟩

theorem wp_modify_free {f : W → W} {Q : Unit → W → Prop} (h : Q () (f w)) :
    wp .free (modify f) Q E w := by
  rintro _ rfl _ b _ rfl
  exact ⟨trivial, trivial, h⟩

/-- A program on a part of the world leaves the rest as it is. -/
theorem wp_zoom_free {V : Type} (L : Lens W V) {p : Prog V ε α} {Q : α → V → Prop}
    {E : ε → V → Prop} (h : wp .free p Q E (L.get w)) :
    wp .free (p.zoom L) (fun a w' => ∃ v, w' = L.set w v ∧ Q a v)
      (fun e w' => ∃ v, w' = L.set w v ∧ E e v) w := by
  suffices ∀ {w₀ v₀ : _}, w₀ = L.set w v₀ → wp .free p Q E v₀ →
      wp .free (p.zoom L) (fun a w' => ∃ v, w' = L.set w v ∧ Q a v)
        (fun e w' => ∃ v, w' = L.set w v ∧ E e v) w₀ from
    this (L.set_get w).symm h
  clear h
  induction p with
  | ret a => exact fun hw h => ⟨_, hw, h⟩
  | raise e => exact fun hw h => ⟨_, hw, h⟩
  | act A k ih =>
      rintro _ v₀ rfl h _ rfl _ b _ ⟨v, hA, rfl⟩
      rw [L.get_set] at hA
      obtain ⟨-, -, hk⟩ := h v₀ rfl trivial b v hA
      exact ⟨trivial, trivial, ih b (L.set_set ..) hk⟩

end Free

end Prog

/-- A program that keeps its contract from anywhere and raises only exceptions in `E`. -/
def Prog.Safe {W ε α : Type} (C : Contract W) (E : ε → Prop) (p : Prog W ε α) : Prop :=
  ∀ w, p.wp C (fun _ _ => True) (fun e _ => E e) w

namespace Prog.Safe
open Prog
variable {W ε α β γ : Type} {C : Contract W} {E : ε → Prop}

theorem pure (a : α) : Safe C E (Pure.pure a : Prog W ε α) := fun _ => trivial

theorem throw {e : ε} (h : E e) : Safe C E (MonadExcept.throw e : Prog W ε α) := fun _ => h

theorem bind {p : Prog W ε α} {f : α → Prog W ε β} (hp : Safe C E p) (hf : ∀ a, Safe C E (f a)) :
    Safe C E (p >>= f) := by
  intro w
  rw [wp_bind]
  exact wp_mono (hp w) (fun a w' _ => hf a w') fun _ _ he => he

theorem attempt {p : Prog W ε α} {E' : ε → Prop} (hp : Safe C E' p) : Safe C E p.attempt := by
  intro w
  rw [wp_attempt]
  exact wp_mono (hp w) (fun _ _ _ => trivial) fun _ _ _ => trivial

theorem fallible {errors : ε → Prop} {A : W → β → W → Prop} (hguar : ∀ w, C.guar w w)
    (act : ∀ w b w', C.inv w → A w b w' → C.guar w w' ∧ C.inv w') (herr : ∀ e, errors e → E e) :
    Safe C E (Prog.fallible errors A) := by
  intro w
  refine wp_fallible hguar ?_ fun _ _ _ e he => herr e he
  intro w₁ _ hinv b w₂ hA
  exact ⟨(act _ _ _ hinv hA).1, (act _ _ _ hinv hA).2, trivial⟩

theorem request {errors : ε → Prop} {P : β → Prop} (hguar : ∀ w, C.guar w w)
    (herr : ∀ e, errors e → E e) : Safe C E (Prog.request errors P : Prog W ε β) :=
  fun _ => wp_request hguar (fun _ _ _ _ _ => trivial) fun _ _ _ e he => herr e he

theorem read {f : W → β} (hguar : ∀ w, C.guar w w) : Safe C E (Prog.read f : Prog W ε β) :=
  fun _ => wp_read hguar fun _ _ _ => trivial

theorem fold {f : γ → α → Prog W ε γ} {xs : List α} (hf : ∀ s, ∀ x ∈ xs, Safe C E (f s x)) (s : γ) :
    Safe C E (Prog.fold f s xs) := by
  induction xs generalizing s with
  | nil => exact pure s
  | cons x rest ih =>
      refine bind (hf s x (List.mem_cons_self ..)) fun s' => ih (fun s y hy => ?_) s'
      exact hf s y (List.mem_cons_of_mem _ hy)

theorem each {f : α → Prog W ε Unit} {xs : List α} (hf : ∀ x ∈ xs, Safe C E (f x)) :
    Safe C E (Prog.each f xs) :=
  fold (fun _ => hf) ()

/-- Any program is safe when nothing is asked of it. -/
theorem trivially (p : Prog W ε α) :
    Safe (Contract.alone (fun _ => True) fun _ _ => True) (fun _ => True) p := by
  induction p with
  | ret a => exact fun _ => trivial
  | raise e => exact fun _ => trivial
  | act A k ih => exact fun _ _ _ _ b w₂ _ => ⟨trivial, trivial, ih b w₂⟩

/-- A safe program on a part of the world is safe on the whole. -/
theorem zoom {V : Type} (L : Lens W V) {inv : W → Prop} {guar : W → W → Prop} {invV : V → Prop}
    {guarV : V → V → Prop} (part : ∀ w, inv w → invV (L.get w))
    (whole : ∀ w v, inv w → guarV (L.get w) v → invV v → guar w (L.set w v) ∧ inv (L.set w v))
    {p : Prog V ε α} (h : Safe (Contract.alone invV guarV) E p) :
    Safe (Contract.alone inv guar) E (p.zoom L) := by
  suffices ∀ w, p.wp (Contract.alone invV guarV) (fun _ _ => True) (fun e _ => E e) (L.get w) →
      (p.zoom L).wp (Contract.alone inv guar) (fun _ _ => True) (fun e _ => E e) w from
    fun w => this w (h (L.get w))
  clear h
  induction p with
  | ret a => exact fun _ _ => trivial
  | raise e => exact fun _ he => he
  | act A k ih =>
      rintro w hw w₁ rfl hinv b _ ⟨v, hA, rfl⟩
      obtain ⟨hguar, hinv', hk⟩ := hw _ rfl (part w hinv) b v hA
      obtain ⟨hg, hi⟩ := whole w v hinv hguar hinv'
      rw [← L.get_set w v] at hk
      exact ⟨hg, hi, ih b _ hk⟩

end Prog.Safe

/-- A program throughout which `A` holds, however it ends. -/
def Prog.Keeps {W ε α : Type} (C : Contract W) (A : W → Prop) (p : Prog W ε α) : Prop :=
  ∀ w, A w → p.wp C (fun _ => A) (fun _ => A) w

namespace Prog.Keeps
open Prog
variable {W ε α β γ : Type} {C : Contract W} {A : W → Prop}

theorem pure (a : α) : Keeps C A (Pure.pure a : Prog W ε α) := fun _ => id

theorem throw (e : ε) : Keeps C A (MonadExcept.throw e : Prog W ε α) := fun _ => id

theorem bind {p : Prog W ε α} {f : α → Prog W ε β} (hp : Keeps C A p) (hf : ∀ a, Keeps C A (f a)) :
    Keeps C A (p >>= f) := by
  intro w hw
  rw [wp_bind]
  exact wp_mono (hp w hw) (fun a w' => hf a w') fun _ _ => id

/-- First a program that keeps `A`, then one that starts from it. -/
theorem andThen {p : Prog W ε α} {f : α → Prog W ε β} {Q : β → W → Prop} {E : ε → W → Prop} {w : W}
    (hp : Keeps C A p) (hw : A w) (hf : ∀ a w, A w → (f a).wp C Q E w) (hE : ∀ e w, A w → E e w) :
    (p >>= f).wp C Q E w := by
  rw [wp_bind]
  exact wp_mono (hp w hw) hf hE

/-- Whatever a program does on a part of the world that nobody minds. -/
theorem zoom {V : Type} (L : Lens W V) (stable : ∀ w w', A w → C.rely w w' → A w')
    (minds : ∀ w v, C.inv w → A w → C.guar w (L.set w v) ∧ C.inv (L.set w v) ∧ A (L.set w v))
    (p : Prog V ε α) : Keeps C A (p.zoom L) := by
  induction p with
  | ret a => exact fun _ => id
  | raise e => exact fun _ => id
  | act B k ih =>
      rintro w hw w₁ hrely hinv b _ ⟨v, -, rfl⟩
      obtain ⟨hguar, hinv', hw'⟩ := minds w₁ v hinv (stable w w₁ hw hrely)
      exact ⟨hguar, hinv', ih b _ hw'⟩

theorem mapError {ε' : Type} {p : Prog W ε α} {f : ε → ε'} (hp : Keeps C A p) :
    Keeps C A (p.mapError f) := by
  intro w hw
  rw [wp_mapError]
  exact hp w hw

theorem map {p : Prog W ε α} {f : α → β} (hp : Keeps C A p) : Keeps C A (f <$> p) := by
  intro w hw
  rw [wp_map]
  exact hp w hw

theorem attempt {p : Prog W ε α} (hp : Keeps C A p) : Keeps C A p.attempt := by
  intro w hw
  rw [wp_attempt]
  exact hp w hw

/-- What the others keep is kept by an action that keeps it. -/
theorem fallible {errors : ε → Prop} {R : W → β → W → Prop} (hguar : ∀ w, C.guar w w)
    (stable : ∀ w w', A w → C.rely w w' → A w')
    (act : ∀ w b w', C.inv w → A w → R w b w' → C.guar w w' ∧ C.inv w' ∧ A w') :
    Keeps C A (Prog.fallible errors R) := by
  intro w hw
  refine wp_fallible hguar ?_ fun w₁ hrely _ _ _ => stable w w₁ hw hrely
  intro w₁ hrely hinv b w₂ hR
  exact act _ _ _ hinv (stable w w₁ hw hrely) hR

theorem fold {f : γ → α → Prog W ε γ} {xs : List α} (hf : ∀ s x, Keeps C A (f s x)) (s : γ) :
    Keeps C A (Prog.fold f s xs) := by
  induction xs generalizing s with
  | nil => exact pure s
  | cons x rest ih => exact bind (hf s x) ih

theorem each {f : α → Prog W ε Unit} {xs : List α} (hf : ∀ x, Keeps C A (f x)) :
    Keeps C A (Prog.each f xs) :=
  fold (fun _ => hf) ()

end Prog.Keeps

/-- Running a program alone from `w`: it was stopped (`none`) or it ended. -/
inductive Exec {W ε α : Type} : Prog W ε α → W → Option (Except ε α) → W → Prop
  | stop (p : Prog W ε α) (w : W) : Exec p w none w
  | ret (a : α) (w : W) : Exec (.ret a) w (some (.ok a)) w
  | raise (e : ε) (w : W) : Exec (.raise e) w (some (.error e)) w
  | act {β : Type} {A : W → β → W → Prop} {k : β → Prog W ε α} {w w₁ w₂ : W} {b : β}
      {o : Option (Except ε α)} (step : A w b w₁) (rest : Exec (k b) w₁ o w₂) :
      Exec (.act A k) w o w₂

theorem Exec.fallible {W ε β : Type} {errors : ε → Prop} {A : W → β → W → Prop} {w w' : W} {b : β}
    (step : A w b w') : Exec (Prog.fallible errors A) w (some (.ok b)) w' :=
  .act (b := Except.ok b) step (.ret b w')

theorem Exec.fails {W ε β : Type} {errors : ε → Prop} {A : W → β → W → Prop} {w : W} {e : ε}
    (h : errors e) : Exec (Prog.fallible errors A) w (some (.error e)) w :=
  .act (b := Except.error e) ⟨h, rfl⟩ (.raise e w)

/-- An action that took effect before the program was stopped. -/
theorem Exec.killed {W ε β : Type} {errors : ε → Prop} {A : W → β → W → Prop} {w w' : W} {b : β}
    (step : A w b w') : Exec (Prog.fallible errors A) w none w' :=
  .act (b := Except.ok b) step (.stop _ w')

/-- A run of a sequence is a run of its first part, if that returned, and of the rest. -/
theorem Exec.bind {W ε α β : Type} {p : Prog W ε α} {f : α → Prog W ε β} {w w₁ w₂ : W} {a : α}
    {o : Option (Except ε β)} (first : Exec p w (some (.ok a)) w₁) (rest : Exec (f a) w₁ o w₂) :
    Exec (p >>= f) w o w₂ := by
  generalize ho : (some (Except.ok a) : Option (Except ε α)) = out at first
  induction first with
  | stop p w => cases ho
  | ret b w => cases ho; exact rest
  | raise e w => cases ho
  | act step _ ih => exact .act step (ih rest ho)

section Playback
variable {W V ε ε' α β : Type} {w w' w₁ : W}

theorem Exec.perform {A : W → β → W → Prop} {b : β} (step : A w b w') :
    Exec (Prog.perform A : Prog W ε β) w (some (.ok b)) w' :=
  .act step (.ret b w')

theorem Exec.read (f : W → β) : Exec (Prog.read f : Prog W ε β) w (some (.ok (f w))) w :=
  .perform ⟨rfl, rfl⟩

theorem Exec.answer {P : β → Prop} {b : β} (h : P b) :
    Exec (Prog.answer P : Prog W ε β) w (some (.ok b)) w :=
  .perform ⟨h, rfl⟩

theorem Exec.modify (f : W → W) : Exec (Prog.modify f : Prog W ε Unit) w (some (.ok ())) (f w) :=
  .perform rfl

theorem Exec.raised {p : Prog W ε α} {f : α → Prog W ε β} {e : ε}
    (h : Exec p w (some (.error e)) w') : Exec (p >>= f) w (some (.error e)) w' := by
  generalize ho : (some (Except.error e) : Option (Except ε α)) = out at h
  induction h with
  | stop p w => cases ho
  | ret b w => cases ho
  | raise e' w => cases ho; exact .raise e w
  | act step _ ih => exact .act step (ih ho)

/-- A sequence that is stopped in its first part. -/
theorem Exec.stopped {p : Prog W ε α} {f : α → Prog W ε β} (h : Exec p w none w') :
    Exec (p >>= f) w none w' := by
  generalize ho : (none : Option (Except ε α)) = out at h
  induction h with
  | stop p w => exact .stop _ w
  | ret b w => cases ho
  | raise e w => cases ho
  | act step _ ih => exact .act step (ih ho)

theorem Exec.request {errors : ε → Prop} {P : β → Prop} {b : β} (h : P b) :
    Exec (Prog.request errors P) w (some (.ok b)) w :=
  .fallible ⟨h, rfl⟩

theorem Exec.attempt {p : Prog W ε α} {r : Except ε α} (h : Exec p w (some r) w') :
    Exec p.attempt w (some (.ok r)) w' := by
  generalize ho : some r = out at h
  induction h with
  | stop p w => cases ho
  | ret a w => cases ho; exact .ret _ w
  | raise e w => cases ho; exact .ret _ w
  | act step _ ih => exact .act step (ih ho)

theorem Exec.attempt_stopped {p : Prog W ε α} (h : Exec p w none w') :
    Exec (ε := ε) p.attempt w none w' := by
  generalize ho : (none : Option (Except ε α)) = out at h
  induction h with
  | stop p w => exact .stop _ w
  | ret a w => cases ho
  | raise e w => cases ho
  | act step _ ih => exact .act step (ih ho)

/-- A run that has not ended: `rest` is left of the program. -/
inductive Reaches : Prog W ε α → W → Prog W ε α → W → Prop
  | refl (p : Prog W ε α) (w : W) : Reaches p w p w
  | act {β : Type} {A : W → β → W → Prop} {k : β → Prog W ε α} {rest : Prog W ε α} {w w₁ w₂ : W}
      {b : β} (step : A w b w₁) (next : Reaches (k b) w₁ rest w₂) : Reaches (.act A k) w rest w₂

/-- What is left can be run from there. -/
theorem Reaches.exec {p rest : Prog W ε α} {o : Option (Except ε α)} (h : Reaches p w rest w₁)
    (run : Exec rest w₁ o w') : Exec p w o w' := by
  induction h with
  | refl p w => exact run
  | act step _ ih => exact .act step (ih run)

theorem Reaches.trans {p q rest : Prog W ε α} (h : Reaches p w q w₁)
    (next : Reaches q w₁ rest w') : Reaches p w rest w' := by
  induction h with
  | refl p w => exact next
  | act step _ ih => exact .act step (ih next)

theorem Reaches.bind {p rest : Prog W ε α} (f : α → Prog W ε β) (h : Reaches p w rest w') :
    Reaches (p >>= f) w (rest >>= f) w' := by
  induction h with
  | refl p w => exact .refl _ w
  | act step _ ih => exact .act step ih

theorem Reaches.attempt {p rest : Prog W ε α} (h : Reaches p w rest w') :
    Reaches (ε := ε) p.attempt w rest.attempt w' := by
  induction h with
  | refl p w => exact .refl _ w
  | act step _ ih => exact .act step ih

/-- The first part of a sequence has returned, and the rest has been run up to here. -/
theorem Exec.reaches {p : Prog W ε α} {f : α → Prog W ε β} {rest : Prog W ε β} {a : α}
    (first : Exec p w (some (.ok a)) w₁) (next : Reaches (f a) w₁ rest w') :
    Reaches (p >>= f) w rest w' := by
  generalize ho : (some (Except.ok a) : Option (Except ε α)) = out at first
  induction first with
  | stop p w => cases ho
  | ret b w => cases ho; exact next
  | raise e w => cases ho
  | act step _ ih => exact .act step (ih next ho)

theorem Exec.exists_reaches {p : Prog W ε α} {o : Option (Except ε α)} (h : Exec p w o w') :
    ∃ rest, Reaches p w rest w' := by
  induction h with
  | stop p w => exact ⟨p, .refl p w⟩
  | ret a w => exact ⟨_, .refl _ w⟩
  | raise e w => exact ⟨_, .refl _ w⟩
  | act step _ ih =>
      obtain ⟨rest, next⟩ := ih
      exact ⟨rest, .act step next⟩

/-- A program that is stopped is not caught. -/
theorem Exec.tryCatch_stopped {p : Prog W ε α} {handler : ε → Prog W ε α} (h : Exec p w none w') :
    Exec (MonadExcept.tryCatch p handler) w none w' := by
  generalize ho : (none : Option (Except ε α)) = out at h
  induction h with
  | stop p w => exact .stop _ w
  | ret a w => cases ho
  | raise e w => cases ho
  | act step _ ih => exact .act step (ih ho)

/-- Nothing need interrupt a program. -/
theorem Exec.interrupted {E : ε → Prop} {p : Prog W ε α} {o : Option (Except ε α)}
    (h : Exec p w o w') : Exec (p.interrupted E) w o w' := by
  induction h with
  | stop p w => exact .stop _ w
  | ret a w => exact .ret a w
  | raise e w => exact .raise e w
  | @act β A k w w₁ w₂ b o step _ ih =>
      rw [Prog.interrupted]
      refine Exec.act (b := (Except.ok b : Except ε β)) ?_ ih
      exact step

/-- Nothing need disturb a program. -/
theorem Exec.disturbed {env : W → W → Prop} {p : Prog W ε α} {o : Option (Except ε α)}
    (h : Exec p w o w') : Exec (p.disturbed env) w o w' := by
  induction h with
  | stop p w => exact .stop _ w
  | ret a w => exact .ret a w
  | raise e w => exact .raise e w
  | act step _ ih => exact .act ⟨_, .refl, step⟩ ih

theorem Exec.mapError {p : Prog W ε α} {f : ε → ε'} {o : Option (Except ε α)} (h : Exec p w o w') :
    Exec (p.mapError f) w (o.map (Except.mapError f)) w' := by
  induction h with
  | stop p w => exact .stop _ w
  | ret a w => exact .ret a w
  | raise e w => exact .raise (f e) w
  | act step _ ih => exact .act step ih

theorem Exec.zoom (L : Lens W V) {p : Prog V ε α} {v v' : V} {o : Option (Except ε α)}
    (h : Exec p v o v') (hw : L.get w = v) : Exec (p.zoom L) w o (L.set w v') := by
  induction h generalizing w with
  | stop p v =>
      rw [← hw, L.set_get]
      exact .stop _ w
  | ret a v =>
      rw [← hw, L.set_get]
      exact .ret a w
  | raise e v =>
      rw [← hw, L.set_get]
      exact .raise e w
  | @act β A k v v₁ v₂ b o step _ ih =>
      have rest := ih (w := L.set w v₁) (L.get_set _ _)
      rw [L.set_set] at rest
      exact .act ⟨v₁, hw ▸ step, rfl⟩ rest

/-- A loop can be run to its end when every round can, from where the last one left. -/
theorem Exec.fold {γ : Type} {f : γ → α → Prog W ε γ} (J : γ → List α → W → Prop)
    (step : ∀ s x rest w, J s (x :: rest) w →
      ∃ s' w', J s' rest w' ∧ Exec (f s x) w (some (.ok s')) w') :
    ∀ {xs : List α} {s : γ} {w : W}, J s xs w →
      ∃ s' w', J s' [] w' ∧ Exec (Prog.fold f s xs) w (some (.ok s')) w'
  | [], s, w, h => ⟨s, w, h, .ret s w⟩
  | x :: rest, s, w, h => by
      obtain ⟨s₁, w₁, h₁, round⟩ := step s x rest w h
      obtain ⟨s', w', h', others⟩ := Exec.fold J step h₁
      exact ⟨s', w', h', round.bind others⟩

theorem Exec.each {f : α → Prog W ε Unit} (J : List α → W → Prop)
    (step : ∀ x rest w, J (x :: rest) w → ∃ w', J rest w' ∧ Exec (f x) w (some (.ok ())) w')
    {xs : List α} (h : J xs w) :
    ∃ w', J [] w' ∧ Exec (Prog.each f xs) w (some (.ok ())) w' := by
  have round : ∀ (s : Unit) x rest w, J (x :: rest) w →
      ∃ s' w', J rest w' ∧ Exec (f x) w (some (.ok s')) w' := fun _ x rest w h => by
    obtain ⟨w', h', run⟩ := step x rest w h
    exact ⟨(), w', h', run⟩
  obtain ⟨_, w', h', run⟩ := Exec.fold (s := ()) (fun _ => J) round h
  exact ⟨w', h', run⟩

end Playback

section Returning
variable {W ε α β γ : Type} {Q Q' : α → W → Prop} {w : W}

/-- Whatever the actions of a program answer, none of them blocks, and the program comes to an
end: it returns in `Q`, or raises. -/
def Prog.returns : Prog W ε α → (α → W → Prop) → W → Prop
  | .ret a, Q, w => Q a w
  | .raise _, _, _ => True
  | .act A k, Q, w => (∃ b w', A w b w') ∧ ∀ b w', A w b w' → (k b).returns Q w'

namespace Prog

theorem returns_mono {p : Prog W ε α} (h : p.returns Q w) (hQ : ∀ a w, Q a w → Q' a w) :
    p.returns Q' w := by
  induction p generalizing w with
  | ret a => exact hQ a w h
  | raise e => trivial
  | act A k ih => exact ⟨h.1, fun b w' step => ih b (h.2 b w' step)⟩

theorem returns_bind {p : Prog W ε α} {f : α → Prog W ε β} {Q : β → W → Prop}
    (h : p.returns (fun a w' => (f a).returns Q w') w) : (p >>= f).returns Q w := by
  induction p generalizing w with
  | ret a => exact h
  | raise e => trivial
  | act A k ih => exact ⟨h.1, fun b w' step => ih b (h.2 b w' step)⟩

theorem returns_read {f : W → β} {Q : β → W → Prop} (h : Q (f w) w) :
    (read f : Prog W ε β).returns Q w := by
  refine ⟨⟨f w, w, rfl, rfl⟩, ?_⟩
  rintro _ _ ⟨rfl, rfl⟩
  exact h

theorem returns_modify {f : W → W} {Q : Unit → W → Prop} (h : Q () (f w)) :
    (modify f : Prog W ε Unit).returns Q w := by
  refine ⟨⟨(), f w, rfl⟩, ?_⟩
  rintro _ _ rfl
  exact h

theorem returns_fold {f : γ → α → Prog W ε γ} (J : γ → List α → W → Prop)
    (hf : ∀ s x rest w, J s (x :: rest) w → (f s x).returns (fun s' => J s' rest) w) :
    ∀ {xs : List α} {s : γ} {w : W}, J s xs w → (fold f s xs).returns (fun s' => J s' []) w
  | [], _, _, h => h
  | x :: rest, s, w, h =>
      returns_bind (returns_mono (hf s x rest w h) fun _ _ h' => returns_fold J hf h')

theorem returns_each {f : α → Prog W ε Unit} {xs : List α} {A : W → Prop}
    (hf : ∀ x w, A w → (f x).returns (fun _ => A) w) (h : A w) :
    (each f xs).returns (fun _ => A) w :=
  returns_fold (fun _ _ => A) (fun _ x _ w hw => hf x w hw) h

end Prog
end Returning

/-- What an ending guarantees: nothing for a stopped run. -/
def Ends {W ε α : Type} (Q : α → W → Prop) (E : ε → W → Prop) :
    Option (Except ε α) → W → Prop
  | none, _ => True
  | some (.ok a), w => Q a w
  | some (.error e), w => E e w

/-- The steps of an environment that the contract allows for. -/
theorem Prog.wp_disturbed {W ε α : Type} {env : W → W → Prop} {inv : W → Prop}
    {p : Prog W ε α} {Q : α → W → Prop} {E : ε → W → Prop} {w : W}
    (h : p.wp (Contract.amid env inv) Q E w) (keeps : ∀ w w', env w w' → inv w → inv w') :
    (p.disturbed env).wp (Contract.alone inv fun _ _ => True) Q E w := by
  induction p generalizing w with
  | ret a => exact h
  | raise e => exact h
  | act A k ih =>
      rintro _ rfl hinv b w₂ ⟨w₁, steps, action⟩
      have hinv₁ : inv w₁ := by
        clear action
        induction steps with
        | refl => exact hinv
        | tail _ step kept => exact keeps _ _ step kept
      obtain ⟨-, hinv₂, hk⟩ := h w₁ steps hinv₁ b w₂ action
      exact ⟨trivial, hinv₂, ih b hk⟩

/-- The calculus is sound for a program that runs alone and may be stopped
between any two actions. -/
theorem Exec.sound {W ε α : Type} {inv : W → Prop} {guar : W → W → Prop} {p : Prog W ε α}
    {Q : α → W → Prop} {E : ε → W → Prop} {w w' : W} {o : Option (Except ε α)}
    (run : Exec p w o w') (hinv : inv w) (h : p.wp (Contract.alone inv guar) Q E w) :
    inv w' ∧ Ends Q E o w' := by
  induction run with
  | stop p w => exact ⟨hinv, trivial⟩
  | ret a w => exact ⟨hinv, h⟩
  | raise e w => exact ⟨hinv, h⟩
  | act step rest ih =>
      obtain ⟨_, hinv₁, hk⟩ := h _ rfl hinv _ _ step
      exact ih hinv₁ hk

/-- Among others that do nothing a program keeps its contract, too. -/
theorem Exec.keeps {W ε α : Type} {C : Contract W} {p : Prog W ε α} {Q : α → W → Prop}
    {E : ε → W → Prop} {w w' : W} {o : Option (Except ε α)} {T : W → W → Prop} (refl : ∀ w, T w w)
    (trans : ∀ w w' w'', T w w' → T w' w'' → T w w'') (guar : ∀ w w', C.guar w w' → T w w')
    (run : Exec p w o w') (hinv : C.inv w) (h : p.wp C Q E w) :
    C.inv w' ∧ T w w' ∧ Ends Q E o w' := by
  induction run with
  | stop p w => exact ⟨hinv, refl w, trivial⟩
  | ret a w => exact ⟨hinv, refl w, h⟩
  | raise e w => exact ⟨hinv, refl w, h⟩
  | act step rest ih =>
      obtain ⟨hguar, hinv₁, hk⟩ := h _ (C.rely_refl _) hinv _ _ step
      obtain ⟨hinv', hT, hend⟩ := ih hinv₁ hk
      exact ⟨hinv', trans _ _ _ (guar _ _ hguar) hT, hend⟩

section Inversion
variable {W V ε α β : Type} {w w' : W} {o : Option (Except ε α)}

/-- A run of a sequence that did not get past its first part, or did. -/
theorem Exec.bind_cases {p : Prog W ε β} {f : β → Prog W ε α} (h : Exec (p >>= f) w o w') :
    (∃ r, (∀ b, r ≠ some (.ok b)) ∧ Exec p w r w' ∧ ∀ a, o ≠ some (.ok a)) ∨
      ∃ b w₁, Exec p w (some (.ok b)) w₁ ∧ Exec (f b) w₁ o w' := by
  induction p generalizing w with
  | ret b => exact .inr ⟨b, w, .ret b w, h⟩
  | raise e =>
      cases h with
      | stop => exact .inl ⟨none, nofun, .stop _ _, nofun⟩
      | raise => exact .inl ⟨some (.error e), nofun, .raise e _, nofun⟩
  | act A k ih =>
      change Exec (Prog.act A fun b => (k b).bind f) w o w' at h
      cases h with
      | stop => exact .inl ⟨none, nofun, .stop _ _, nofun⟩
      | act step rest =>
          rcases ih _ rest with ⟨r, hr, first, ho⟩ | ⟨b, w₁, first, rest⟩
          · exact .inl ⟨r, hr, .act step first, ho⟩
          · exact .inr ⟨b, w₁, .act step first, rest⟩

/-- Another continuation with the runs of the first has the sequence's runs. -/
theorem Exec.bind_mono {p : Prog W ε β} {f g : β → Prog W ε α} (h : Exec (p >>= f) w o w')
    (hfg : ∀ b w₁, Exec p w (some (.ok b)) w₁ → Exec (f b) w₁ o w' → Exec (g b) w₁ o w') :
    Exec (p >>= g) w o w' := by
  induction p generalizing w with
  | ret b => exact hfg b w (.ret b w) h
  | raise e =>
      cases h with
      | stop => exact .stop _ _
      | raise => exact .raise e _
  | act A k ih =>
      change Exec (Prog.act A fun b => (k b).bind f) w o w' at h
      cases h with
      | stop => exact .stop _ _
      | act step rest =>
          exact .act step (ih _ rest fun b w₁ run => hfg b w₁ (.act step run))

theorem Exec.attempt_cases {p : Prog W ε α} {r : Option (Except ε (Except ε α))}
    (h : Exec p.attempt w r w') :
    ∃ o, Exec p w o w' ∧ (r = none ∨ ∃ x, o = some x ∧ r = some (.ok x)) := by
  induction p generalizing w with
  | ret a =>
      cases h with
      | stop => exact ⟨none, .stop _ _, .inl rfl⟩
      | ret => exact ⟨_, .ret a _, .inr ⟨_, rfl, rfl⟩⟩
  | raise e =>
      cases h with
      | stop => exact ⟨none, .stop _ _, .inl rfl⟩
      | ret => exact ⟨_, .raise e _, .inr ⟨_, rfl, rfl⟩⟩
  | act A k ih =>
      change Exec (Prog.act A fun b => (k b).attempt) w r w' at h
      cases h with
      | stop => exact ⟨none, .stop _ _, .inl rfl⟩
      | act step rest =>
          obtain ⟨o, run, ho⟩ := ih _ rest
          exact ⟨o, .act step run, ho⟩

/-- A run on a part of the world is a run there, and the rest stays as it is. -/
theorem Exec.zoom_cases {L : Lens W V} {p : Prog V ε α} (h : Exec (p.zoom L) w o w') :
    ∃ v, Exec p (L.get w) o v ∧ w' = L.set w v := by
  induction p generalizing w with
  | ret a =>
      cases h with
      | stop => exact ⟨_, .stop _ _, (L.set_get _).symm⟩
      | ret => exact ⟨_, .ret a _, (L.set_get _).symm⟩
  | raise e =>
      cases h with
      | stop => exact ⟨_, .stop _ _, (L.set_get _).symm⟩
      | raise => exact ⟨_, .raise e _, (L.set_get _).symm⟩
  | act A k ih =>
      change Exec (Prog.act _ fun b => (k b).zoom L) w o w' at h
      cases h with
      | stop => exact ⟨_, .stop _ _, (L.set_get _).symm⟩
      | act step rest =>
          obtain ⟨v₁, hA, rfl⟩ := step
          obtain ⟨v, run, rfl⟩ := ih _ rest
          rw [L.get_set] at run
          exact ⟨v, .act hA run, L.set_set w v₁ v⟩

theorem Exec.fallible_cases {errors : ε → Prop} {A : W → α → W → Prop}
    (h : Exec (Prog.fallible errors A) w o w') :
    (w' = w ∧ ∀ a, o ≠ some (.ok a)) ∨ ∃ a, A w a w' ∧ (o = none ∨ o = some (.ok a)) := by
  cases h with
  | stop => exact .inl ⟨rfl, nofun⟩
  | @act _ _ _ _ w₁ _ r _ step rest =>
      cases r with
      | error e =>
          obtain ⟨-, rfl⟩ := step
          cases rest with
          | stop => exact .inl ⟨rfl, nofun⟩
          | raise => exact .inl ⟨rfl, nofun⟩
      | ok a =>
          cases rest with
          | stop => exact .inr ⟨a, step, .inl rfl⟩
          | ret => exact .inr ⟨a, step, .inr rfl⟩

/-- What every action of a program that runs alone keeps holds however far it came. -/
theorem Exec.safe {inv : W → Prop} {guar : W → W → Prop} {E : ε → Prop} {p : Prog W ε α}
    (h : Exec p w o w') (hinv : inv w) (safe : Prog.Safe (Contract.alone inv guar) E p) : inv w' :=
  (h.sound hinv (safe w)).1

end Inversion
