import Mathlib.Logic.Function.Iterate
import Mathlib.Dynamics.FixedPoints.Basic

/-!
Routines over a state: what a routine has done to the state stays when it fails. A view
is a part of the state, and a routine may be confined to it, or leave it alone; what two
runs do to a view is then the same whatever is around it.
-/

abbrev Routine (σ ε α : Type) := ExceptT ε (StateM σ) α

namespace Routine
variable {σ τ ε α β : Type}

/-- How a routine ends, and in which state. -/
def exec (p : Routine σ ε α) (s : σ) : Except ε α × σ := p s

def read (f : σ → α) : Routine σ ε α := fun s => (.ok (f s), s)

def change (f : σ → σ) : Routine σ ε Unit := fun s => (.ok (), f s)

/-- An answer from outside, or its exception. -/
def ask (r : Except ε α) : Routine σ ε α := fun s => (r, s)

/-- The end of a routine, whichever it is. -/
def attempt (p : Routine σ ε α) : Routine σ ε (Except ε α) :=
  fun s => (.ok (p.exec s).1, (p.exec s).2)

/-- One after the other, until one fails. -/
def each (f : α → Routine σ ε Unit) : List α → Routine σ ε Unit
  | [] => pure ()
  | x :: xs => do
      f x
      each f xs

def fold (f : β → α → Routine σ ε β) : β → List α → Routine σ ε β
  | b, [] => pure b
  | b, x :: xs => do
      let b ← f b x
      fold f b xs

@[simp]
theorem exec_pure (a : α) (s : σ) : (pure a : Routine σ ε α).exec s = (.ok a, s) := rfl

@[simp]
theorem exec_throw (e : ε) (s : σ) : (throw e : Routine σ ε α).exec s = (.error e, s) := rfl

@[simp]
theorem exec_read (f : σ → α) (s : σ) : (read f : Routine σ ε α).exec s = (.ok (f s), s) := rfl

@[simp]
theorem exec_change (f : σ → σ) (s : σ) :
    (change f : Routine σ ε Unit).exec s = (.ok (), f s) := rfl

@[simp]
theorem exec_ask (r : Except ε α) (s : σ) :
    (ask r : Routine σ ε α).exec s = (r, s) := rfl

@[simp]
theorem exec_attempt (p : Routine σ ε α) (s : σ) :
    p.attempt.exec s = (.ok (p.exec s).1, (p.exec s).2) := rfl

/-- A routine, and another from its answer. -/
def next (r : Except ε α × σ) (f : α → Routine σ ε β) : Except ε β × σ :=
  match r with
  | (.ok a, s) => (f a).exec s
  | (.error e, s) => (.error e, s)

@[simp]
theorem next_ok (a : α) (s : σ) (f : α → Routine σ ε β) : next (.ok a, s) f = (f a).exec s := rfl

@[simp]
theorem next_error (e : ε) (s : σ) (f : α → Routine σ ε β) :
    next (.error e, s) f = (.error e, s) := rfl

theorem exec_bind (p : Routine σ ε α) (f : α → Routine σ ε β) (s : σ) :
    (p >>= f).exec s = next (p.exec s) f := by
  change (p >>= f) s = next (p s) f
  simp only [bind, ExceptT.bind, StateT.bind, ExceptT.mk]
  cases h : p s with
  | mk r s' => cases r <;> rfl

/-! ## Conditions -/

/-- From `P`, the routine ends in `Q`, or in `E` where it fails. -/
def Ensures (p : Routine σ ε α) (P : σ → Prop) (Q : α → σ → Prop) (E : σ → Prop) : Prop :=
  ∀ s, P s → (∀ a, (p.exec s).1 = .ok a → Q a (p.exec s).2) ∧
    (∀ e, (p.exec s).1 = .error e → E (p.exec s).2)

namespace Ensures
variable {P : σ → Prop} {E : σ → Prop}

theorem pure {Q : α → σ → Prop} {a : α} (h : ∀ s, P s → Q a s) :
    Ensures (Pure.pure a : Routine σ ε α) P Q E :=
  fun s hs => ⟨fun _ heq => Except.ok.inj heq ▸ h s hs, fun _ heq => by cases heq⟩

theorem throw {Q : α → σ → Prop} {e : ε} (h : ∀ s, P s → E s) :
    Ensures (MonadExcept.throw e : Routine σ ε α) P Q E :=
  fun s hs => ⟨fun _ heq => (by cases heq), fun _ _ => h s hs⟩

theorem ask {Q : α → σ → Prop} {r : Except ε α} (h : ∀ s, P s → ∀ a, r = .ok a → Q a s)
    (failed : ∀ s, P s → E s) : Ensures (ask r : Routine σ ε α) P Q E :=
  fun s hs => ⟨h s hs, fun _ _ => failed s hs⟩

theorem read {Q : α → σ → Prop} {f : σ → α} (h : ∀ s, P s → Q (f s) s) :
    Ensures (read f : Routine σ ε α) P Q E :=
  fun s hs => ⟨fun _ heq => Except.ok.inj heq ▸ h s hs, fun _ heq => by cases heq⟩

theorem change {Q : Unit → σ → Prop} {f : σ → σ} (h : ∀ s, P s → Q () (f s)) :
    Ensures (change f : Routine σ ε Unit) P Q E :=
  fun s hs => ⟨fun _ _ => h s hs, fun _ heq => by cases heq⟩

theorem bind {p : Routine σ ε α} {f : α → Routine σ ε β} {R : α → σ → Prop} {Q : β → σ → Prop}
    (hp : Ensures p P R E) (hf : ∀ a, Ensures (f a) (R a) Q E) : Ensures (p >>= f) P Q E := by
  intro s hs
  rw [exec_bind]
  obtain ⟨hok, herror⟩ := hp s hs
  cases h : p.exec s with
  | mk r s' =>
      rw [h] at hok herror
      cases r with
      | ok a => exact hf a s' (hok a rfl)
      | error e => exact ⟨fun _ heq => (by cases heq), fun e' _ => herror e rfl⟩

theorem mono {p : Routine σ ε α} {P' : σ → Prop} {Q Q' : α → σ → Prop} {E' : σ → Prop}
    (h : Ensures p P Q E) (before : ∀ s, P' s → P s) (after : ∀ a s, Q a s → Q' a s)
    (failed : ∀ s, E s → E' s) : Ensures p P' Q' E' :=
  fun s hs => ⟨fun a heq => after a _ ((h s (before s hs)).1 a heq),
    fun e heq => failed _ ((h s (before s hs)).2 e heq)⟩

theorem trivially (p : Routine σ ε α) : Ensures p P (fun _ _ => True) fun _ => True :=
  fun _ _ => ⟨fun _ _ => True.intro, fun _ _ => True.intro⟩

/-- Where it holds of either end, it holds of the end. -/
theorem final {p : Routine σ ε α} {s : σ} (h : Ensures p P (fun _ => E) E) (hs : P s) :
    E (p.exec s).2 := by
  cases hend : (p.exec s).1 with
  | ok a => exact (h s hs).1 a hend
  | error e => exact (h s hs).2 e hend

/-- One state at a time. -/
theorem pointwise {p : Routine σ ε α} {Q : α → σ → Prop}
    (h : ∀ s, P s → Ensures p (· = s) Q E) : Ensures p P Q E :=
  fun s hs => h s hs s rfl

theorem each {f : α → Routine σ ε Unit} (I : List α → σ → Prop)
    (step : ∀ x xs, Ensures (f x) (I (x :: xs)) (fun _ => I xs) E) (xs : List α) :
    Ensures (each f xs) (I xs) (fun _ => I []) E := by
  induction xs with
  | nil => exact pure fun _ h => h
  | cons x xs ih => exact (step x xs).bind fun _ => ih

theorem fold {f : β → α → Routine σ ε β} (I : List α → β → σ → Prop)
    (step : ∀ b x xs, Ensures (f b x) (I (x :: xs) b) (I xs) E) (xs : List α) (b : β) :
    Ensures (fold f b xs) (I xs b) (I []) E := by
  induction xs generalizing b with
  | nil => exact pure fun _ h => h
  | cons x xs ih => exact (step b x xs).bind ih

end Ensures

/-! ## Views -/

/-- The routine leaves the view as it is. -/
def Ignores (view : σ → τ) (p : Routine σ ε α) : Prop := ∀ s, view (p.exec s).2 = view s

/-- What the routine answers and makes of the view depends on the view alone. -/
def Confined (view : σ → τ) (p : Routine σ ε α) : Prop :=
  ∀ s s', view s = view s' →
    (p.exec s).1 = (p.exec s').1 ∧ view (p.exec s).2 = view (p.exec s').2

section Views
variable {view : σ → τ}

namespace Ignores

theorem pure (a : α) : Ignores view (Pure.pure a : Routine σ ε α) := fun _ => rfl

theorem throw (e : ε) : Ignores view (MonadExcept.throw e : Routine σ ε α) := fun _ => rfl

theorem read (f : σ → α) : Ignores view (read f : Routine σ ε α) := fun _ => rfl

theorem ask (r : Except ε α) : Ignores view (ask r : Routine σ ε α) := fun _ => rfl

theorem change {f : σ → σ} (h : ∀ s, view (f s) = view s) :
    Ignores view (change f : Routine σ ε Unit) := h

theorem bind {p : Routine σ ε α} {f : α → Routine σ ε β} (hp : Ignores view p)
    (hf : ∀ a, Ignores view (f a)) : Ignores view (p >>= f) := by
  intro s
  rw [exec_bind, ← hp s]
  cases h : p.exec s with
  | mk r s' =>
      cases r with
      | ok a => exact hf a s'
      | error e => rfl

/-- Less is seen of what stays as it is. -/
theorem comp {υ : Type} {p : Routine σ ε α} (h : Ignores view p) (g : τ → υ) :
    Ignores (fun s => g (view s)) p := fun s => congrArg g (h s)

theorem each {f : α → Routine σ ε Unit} {xs : List α} (h : ∀ x ∈ xs, Ignores view (f x)) :
    Ignores view (each f xs) := by
  induction xs with
  | nil => exact pure ()
  | cons x xs ih =>
      exact (h x List.mem_cons_self).bind fun _ => ih fun y hy => h y (List.mem_cons_of_mem x hy)

theorem fold {f : β → α → Routine σ ε β} (h : ∀ b x, Ignores view (f b x)) (xs : List α) (b : β) :
    Ignores view (fold f b xs) := by
  induction xs generalizing b with
  | nil => exact pure b
  | cons x xs ih => exact (h b x).bind ih

end Ignores

namespace Confined

theorem pure (a : α) : Confined view (Pure.pure a : Routine σ ε α) := fun _ _ h => ⟨rfl, h⟩

theorem throw (e : ε) : Confined view (MonadExcept.throw e : Routine σ ε α) :=
  fun _ _ h => ⟨rfl, h⟩

theorem ask (r : Except ε α) : Confined view (ask r : Routine σ ε α) :=
  fun _ _ h => ⟨rfl, h⟩

theorem read {f : σ → α} (h : ∀ s s', view s = view s' → f s = f s') :
    Confined view (read f : Routine σ ε α) :=
  fun s s' heq => ⟨congrArg Except.ok (h s s' heq), heq⟩

theorem change {f : σ → σ} (h : ∀ s s', view s = view s' → view (f s) = view (f s')) :
    Confined view (change f : Routine σ ε Unit) :=
  fun s s' heq => ⟨rfl, h s s' heq⟩

theorem bind {p : Routine σ ε α} {f : α → Routine σ ε β} (hp : Confined view p)
    (hf : ∀ a, Confined view (f a)) : Confined view (p >>= f) := by
  intro s s' heq
  rw [exec_bind, exec_bind]
  obtain ⟨hanswer, hview⟩ := hp s s' heq
  cases h : p.exec s with
  | mk r t =>
      cases h' : p.exec s' with
      | mk r' t' =>
          rw [h, h'] at hanswer hview
          cases hanswer
          cases r with
          | ok a => exact hf a t t' hview
          | error e => exact ⟨rfl, hview⟩

theorem each {f : α → Routine σ ε Unit} {xs : List α} (h : ∀ x ∈ xs, Confined view (f x)) :
    Confined view (each f xs) := by
  induction xs with
  | nil => exact pure ()
  | cons x xs ih =>
      exact (h x List.mem_cons_self).bind fun _ => ih fun y hy => h y (List.mem_cons_of_mem x hy)

theorem fold {f : β → α → Routine σ ε β} (h : ∀ b x, Confined view (f b x)) (xs : List α) (b : β) :
    Confined view (fold f b xs) := by
  induction xs generalizing b with
  | nil => exact pure b
  | cons x xs ih => exact (h b x).bind ih

end Confined
end Views

/-! ## Repeated runs -/

/-- A routine run over and over comes to rest in one state only. -/
theorem iterate_rest {f : σ → σ} {s : σ} {m n : ℕ} (hm : f (f^[m] s) = f^[m] s)
    (hn : f (f^[n] s) = f^[n] s) : f^[m] s = f^[n] s := by
  have rest : ∀ {i j : ℕ}, f (f^[i] s) = f^[i] s → i ≤ j → f^[j] s = f^[i] s := by
    intro i j hi hij
    obtain ⟨k, rfl⟩ := Nat.exists_eq_add_of_le hij
    rw [Nat.add_comm, Function.iterate_add_apply]
    exact Function.IsFixedPt.iterate (f := f) hi k
  rcases Nat.le_total m n with h | h
  · exact (rest hm h).symm
  · exact rest hn h

end Routine
