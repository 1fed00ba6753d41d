import TranspileBench.Lib.Program

/-!
Programs through a view of the world. While a program holds what keeps the others off a part
of the world, that part changes only by the program's own steps, and the program can be read
as a sequential one over it.
-/

/-- A part of the world that is a program's own while `held`: its invariant, and the steps
the contract lets the program take there. -/
structure View {W : Type} (C : Contract W) (V : Type) where
  held : W → Prop
  view : W → V
  inv : V → Prop
  step : V → V → Prop
  stable : ∀ {w w'}, held w → C.rely w w' → C.inv w' → held w' ∧ view w' = view w
  kept : ∀ {w w'}, held w → C.guar w w' → held w'
  sound : ∀ {w}, C.inv w → inv (view w)
  preserved : ∀ {v v'}, inv v → step v v' → inv v'
  allowed : ∀ {w w'}, held w → C.inv w → held w' →
    (view w' = view w ∨ step (view w) (view w')) → C.guar w w' ∧ C.inv w'

namespace View
open Prog
variable {W V ε α β γ : Type} {C : Contract W} (O : View C V)

/-- Started where the view shows `v`, the program takes only allowed steps and returns with
`Q`; however it ends, it still holds its part. -/
def Runs (p : Prog W ε α) (v : V) (Q : α → V → Prop) : Prop :=
  O.inv v → ∀ w, O.held w → O.view w = v →
    p.wp C (fun a w' => O.held w' ∧ O.inv (O.view w') ∧ Q a (O.view w'))
      (fun _ w' => O.held w' ∧ O.inv (O.view w')) w

namespace Runs
variable {O} {v : V} {p : Prog W ε α} {Q Q' : α → V → Prop}

theorem ret (a : α) (h : Q a v) : O.Runs (.ret a : Prog W ε α) v Q := by
  rintro hinv w hw rfl
  exact ⟨hw, hinv, h⟩

theorem pure (a : α) (h : Q a v) : O.Runs (Pure.pure a : Prog W ε α) v Q := ret a h

theorem raise (e : ε) : O.Runs (.raise e : Prog W ε α) v Q := by
  rintro hinv w hw rfl
  exact ⟨hw, hinv⟩

theorem throw (e : ε) : O.Runs (MonadExcept.throw e : Prog W ε α) v Q := raise e

theorem mono (h : O.Runs p v Q) (himp : ∀ a v', O.inv v' → Q a v' → Q' a v') : O.Runs p v Q' := by
  intro hinv w hw hv
  refine wp_mono (h hinv w hw hv) ?_ fun _ _ => id
  rintro a w' ⟨hw', hinv', hQ⟩
  exact ⟨hw', hinv', himp a _ hinv' hQ⟩

/-- The invariant may be used wherever a program starts. -/
theorem sound (h : O.inv v → O.Runs p v Q) : O.Runs p v Q := fun hinv => h hinv hinv

theorem bind {f : α → Prog W ε β} {Q : β → V → Prop}
    (h : O.Runs p v fun a v' => O.Runs (f a) v' Q) : O.Runs (p >>= f) v Q := by
  intro hinv w hw hv
  rw [wp_bind]
  refine wp_mono (h hinv w hw hv) ?_ fun _ _ => id
  rintro a w' ⟨hw', hinv', hrest⟩
  exact hrest hinv' w' hw' rfl

/-- First a program of which only `Q` is known afterwards. -/
theorem andThen {f : α → Prog W ε β} {R : β → V → Prop} (h : O.Runs p v Q)
    (rest : ∀ a v', Q a v' → O.Runs (f a) v' R) : O.Runs (p >>= f) v R :=
  bind (h.mono fun a v' _ => rest a v')

theorem map {f : α → β} {Q : β → V → Prop} (h : O.Runs p v fun a => Q (f a)) :
    O.Runs (f <$> p) v Q := by
  intro hinv w hw hv
  rw [wp_map]
  exact h hinv w hw hv

theorem act {A : W → β → W → Prop} {k : β → Prog W ε α}
    (h : ∀ w b w', O.held w → O.view w = v → A w b w' →
      O.held w' ∧ (O.view w' = v ∨ O.step v (O.view w')) ∧ O.Runs (k b) (O.view w') Q) :
    O.Runs (.act A k) v Q := by
  rintro hinv w hw rfl w₁ hrely hinv₁ b w₂ hA
  obtain ⟨hw₁, heq⟩ := O.stable hw hrely hinv₁
  obtain ⟨hw₂, hstep, hk⟩ := h w₁ b w₂ hw₁ heq hA
  obtain ⟨hguar, hinv₂⟩ := O.allowed hw₁ hinv₁ hw₂ (by rwa [heq])
  refine ⟨hguar, hinv₂, hk ?_ w₂ hw₂ rfl⟩
  rcases hstep with hsame | hstep
  · rwa [hsame]
  · exact O.preserved hinv hstep

theorem perform {A : W → α → W → Prop}
    (h : ∀ w b w', O.held w → O.view w = v → A w b w' →
      O.held w' ∧ (O.view w' = v ∨ O.step v (O.view w')) ∧ Q b (O.view w')) :
    O.Runs (Prog.perform A : Prog W ε α) v Q := by
  refine act fun w b w' hw hv hA => ?_
  obtain ⟨hw', hstep, hQ⟩ := h w b w' hw hv hA
  exact ⟨hw', hstep, ret b hQ⟩

theorem fallible {errors : ε → Prop} {A : W → α → W → Prop}
    (h : ∀ w b w', O.held w → O.view w = v → A w b w' →
      O.held w' ∧ (O.view w' = v ∨ O.step v (O.view w')) ∧ Q b (O.view w')) :
    O.Runs (Prog.fallible errors A) v Q := by
  refine act fun w r w' hw hv hA => ?_
  cases r with
  | ok b =>
      obtain ⟨hw', hstep, hQ⟩ := h w b w' hw hv hA
      exact ⟨hw', hstep, ret b hQ⟩
  | error e =>
      obtain ⟨-, rfl⟩ := hA
      exact ⟨hw, .inl hv, raise e⟩

theorem read {f : W → α} (h : ∀ w, O.held w → O.view w = v → Q (f w) v) :
    O.Runs (Prog.read f : Prog W ε α) v Q := by
  refine perform ?_
  rintro w _ _ hw hv ⟨rfl, rfl⟩
  exact ⟨hw, .inl hv, hv ▸ h _ hw hv⟩

theorem answer {P : α → Prop} (h : ∀ a, P a → Q a v) : O.Runs (Prog.answer P : Prog W ε α) v Q := by
  refine perform ?_
  rintro w b _ hw rfl ⟨hb, rfl⟩
  exact ⟨hw, .inl rfl, h b hb⟩

theorem request {errors : ε → Prop} {P : α → Prop} (h : ∀ a, P a → Q a v) :
    O.Runs (Prog.request errors P) v Q := by
  refine fallible ?_
  rintro w b _ hw rfl ⟨hb, rfl⟩
  exact ⟨hw, .inl rfl, h b hb⟩

theorem modify {f : W → W} {Q : Unit → V → Prop}
    (h : ∀ w, O.held w → O.view w = v →
      O.held (f w) ∧ (O.view (f w) = v ∨ O.step v (O.view (f w))) ∧ Q () (O.view (f w))) :
    O.Runs (Prog.modify f : Prog W ε Unit) v Q := by
  refine perform ?_
  rintro w _ _ hw hv rfl
  exact h w hw hv

theorem never : O.Runs (Prog.never : Prog W ε α) v Q := fun _ _ _ _ => wp_never (E := _)

theorem tryCatch {handler : ε → Prog W ε α} (h : O.Runs p v Q)
    (caught : ∀ e v', O.Runs (handler e) v' Q) :
    O.Runs (MonadExcept.tryCatch p handler) v Q := by
  intro hinv w hw hv
  refine wp_tryCatch.mpr (wp_mono (h hinv w hw hv) (fun _ _ => id) ?_)
  rintro e w' ⟨hw', hinv'⟩
  exact caught e _ hinv' w' hw' rfl

theorem attempt {Q : Except ε α → V → Prop} (h : O.Runs p v fun a => Q (.ok a))
    (raised : ∀ e v', O.inv v' → Q (.error e) v') : O.Runs p.attempt v Q := by
  intro hinv w hw hv
  refine wp_attempt.mpr (wp_mono (h hinv w hw hv) (fun _ _ => id) ?_)
  rintro e w' ⟨hw', hinv'⟩
  exact ⟨hw', hinv', raised e _ hinv'⟩

theorem mapError {ε' : Type} {f : ε → ε'} (h : O.Runs p v Q) : O.Runs (p.mapError f) v Q := by
  intro hinv w hw hv
  rw [wp_mapError]
  exact h hinv w hw hv

/-- An interruption finds the program's part still its own. -/
theorem interrupted {I : ε → Prop} (h : O.Runs p v Q) : O.Runs (p.interrupted I) v Q := by
  intro hinv w hw hv
  refine wp_mono (wp_interrupted (A := fun w => O.held w ∧ O.inv (O.view w)) ?_ ?_ ?_
    ⟨hw, hv ▸ hinv⟩ (h hinv w hw hv)) (fun _ _ => id) ?_
  · rintro w₁ ⟨hw₁, -⟩ hinv₁
    exact (O.allowed hw₁ hinv₁ hw₁ (.inl rfl)).1
  · rintro w₁ w₂ ⟨hw₁, -⟩ hrely hinv₂
    exact ⟨(O.stable hw₁ hrely hinv₂).1, O.sound hinv₂⟩
  · rintro w₁ w₂ ⟨hw₁, -⟩ _ hguar hinv₂
    exact ⟨O.kept hw₁ hguar, O.sound hinv₂⟩
  · rintro e w₁ (h₁ | ⟨-, h₁⟩) <;> exact h₁

/-- The loop rule: `J` holds of the accumulator and of what is still to be done. -/
theorem fold {f : γ → α → Prog W ε γ} (J : γ → List α → V → Prop)
    (round : ∀ s x rest v, J s (x :: rest) v → O.Runs (f s x) v fun s' => J s' rest) :
    ∀ {xs : List α} {s : γ} {v : V}, J s xs v → O.Runs (Prog.fold f s xs) v fun s' => J s' []
  | [], s, _, h => ret s h
  | x :: rest, s, v, h => by
      change O.Runs (f s x >>= fun s' => Prog.fold f s' rest) v _
      exact (round s x rest v h).andThen fun s' v' h' => fold J round h'

theorem each {f : α → Prog W ε Unit} (J : List α → V → Prop)
    (round : ∀ x rest v, J (x :: rest) v → O.Runs (f x) v fun _ => J rest) {xs : List α} {v : V}
    (h : J xs v) : O.Runs (Prog.each f xs) v fun _ => J [] :=
  fold (fun _ => J) (fun _ => round) h

/-- A program that leaves its part as it is. -/
theorem keeps (h : p.Keeps C fun w => O.held w ∧ O.view w = v) :
    O.Runs p v fun _ v' => v' = v := by
  intro hinv w hw hv
  refine wp_mono (h w ⟨hw, hv⟩) ?_ ?_
  · rintro a w' ⟨hw', hv'⟩
    exact ⟨hw', hv' ▸ hinv, hv'⟩
  · rintro e w' ⟨hw', hv'⟩
    exact ⟨hw', hv' ▸ hinv⟩

end Runs
end View
