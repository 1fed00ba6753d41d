import TranspileBench.Lib.Program

/-!
Two programs of one process at once: their actions interleave in any order, each ends
on its own, and a kill stops both.
-/
namespace Prog
variable {W ε α β γ : Type}

/-- What is left when the first program takes its next action or `q` does. -/
def alongside (A : W → γ → W → Prop) (k : γ → Prog W ε β → Prog W ε (Except ε α × Except ε β)) :
    Prog W ε β → Prog W ε (Except ε α × Except ε β)
  | .ret b => .act A fun c => k c (.ret b)
  | .raise e => .act A fun c => k c (.raise e)
  | .act B l =>
      .act (fun w (r : Sum _ _) w' =>
          match r with
          | .inl c => A w c w'
          | .inr d => B w d w')
        fun r => match r with
          | .inl c => k c (.act B l)
          | .inr d => alongside A k (l d)

/-- Both programs, and how each of them ended. -/
def par : Prog W ε α → Prog W ε β → Prog W ε (Except ε α × Except ε β)
  | .ret a, q => q.attempt.bind fun r => .ret (.ok a, r)
  | .raise e, q => q.attempt.bind fun r => .ret (.error e, r)
  | .act A k, q => alongside A (fun c => (k c).par) q

/-- How one of the programs ended. -/
def Outcome (Q : α → W → Prop) (E : ε → W → Prop) : Except ε α → W → Prop
  | .ok a => Q a
  | .error e => E e

section Rule
variable {C C₁ C₂ : Contract W} {Q₁ : α → W → Prop} {E₁ : ε → W → Prop} {Q₂ : β → W → Prop}
  {E₂ E : ε → W → Prop} {w : W}

/-- What the other program and the others keep is still there when a program has ended. -/
theorem wp_beside {P : W → Prop} (inv₂ : C₂.inv = C.inv)
    (rely₂ : ∀ w w', C.rely w w' → C₂.rely w w')
    (guar₂ : ∀ w w', C₂.guar w w' → C.guar w w')
    (stable : ∀ w w', P w → C.rely w w' → C.inv w' → P w')
    (keeps : ∀ w w', P w → C₂.guar w w' → C.inv w' → P w')
    {q : Prog W ε β} (hP : P w) (h : wp C₂ q Q₂ E₂ w) :
    wp C q (fun b w => P w ∧ Q₂ b w) (fun e w => P w ∧ E₂ e w) w := by
  induction q generalizing w with
  | ret b => exact ⟨hP, h⟩
  | raise e => exact ⟨hP, h⟩
  | act B l ih =>
      intro w₁ hrely hinv d w₂ hB
      obtain ⟨hguar, hinv', hl⟩ := h w₁ (rely₂ _ _ hrely) (inv₂ ▸ hinv) d w₂ hB
      have hinv'' : C.inv w₂ := inv₂ ▸ hinv'
      exact ⟨guar₂ _ _ hguar, hinv'', ih d (keeps _ _ (stable _ _ hP hrely hinv) hguar hinv'') hl⟩

/-- What one of the programs promises the other may assume. -/
structure Beside (C C₁ C₂ : Contract W) : Prop where
  inv₁ : C₁.inv = C.inv
  inv₂ : C₂.inv = C.inv
  rely₁ : ∀ w w', C.rely w w' → C₁.rely w w'
  rely₂ : ∀ w w', C.rely w w' → C₂.rely w w'
  guar₁ : ∀ w w', C₁.guar w w' → C.guar w w' ∧ C₂.rely w w'
  guar₂ : ∀ w w', C₂.guar w w' → C.guar w w' ∧ C₁.rely w w'

/-- The rule of the parallel composition: results that survive what the other may do. -/
theorem wp_par (beside : Beside C C₁ C₂)
    (stable₁ : ∀ r w w', Outcome Q₁ E₁ r w → C₁.rely w w' → C.inv w' → Outcome Q₁ E₁ r w')
    (stable₂ : ∀ r w w', Outcome Q₂ E₂ r w → C₂.rely w w' → C.inv w' → Outcome Q₂ E₂ r w')
    {p : Prog W ε α} {q : Prog W ε β} (h₁ : wp C₁ p Q₁ E₁ w)
    (h₂ : wp C₂ q Q₂ E₂ w) :
    wp C (par p q) (fun r w => Outcome Q₁ E₁ r.1 w ∧ Outcome Q₂ E₂ r.2 w) E w := by
  have ended : ∀ (r : Except ε α) (q : Prog W ε β) (w : W), Outcome Q₁ E₁ r w →
      wp C₂ q Q₂ E₂ w → wp C (q.attempt >>= fun r' => .ret (r, r'))
        (fun r w => Outcome Q₁ E₁ r.1 w ∧ Outcome Q₂ E₂ r.2 w) E w := by
    intro r q w hr hq
    rw [wp_bind, wp_attempt]
    exact wp_beside beside.inv₂ beside.rely₂ (fun w w' h => (beside.guar₂ w w' h).1)
      (fun w w' h hrely => stable₁ r w w' h (beside.rely₁ w w' hrely))
      (fun w w' h hguar => stable₁ r w w' h (beside.guar₂ w w' hguar).2) hr hq
  -- along the first program, and for each of its actions along the second
  induction p generalizing q w with
  | ret a => exact ended (.ok a) q w h₁ h₂
  | raise e => exact ended (.error e) q w h₁ h₂
  | act A k ih =>
      change wp C (alongside A (fun c => (k c).par) q) _ E w
      have first : ∀ (q : Prog W ε β) (w w₁ : W), wp C₁ (.act A k) Q₁ E₁ w → wp C₂ q Q₂ E₂ w →
          C.rely w w₁ → C.inv w₁ → ∀ c w₂, A w₁ c w₂ → C.guar w₁ w₂ ∧ C.inv w₂ ∧
            wp C ((k c).par q) (fun r w => Outcome Q₁ E₁ r.1 w ∧ Outcome Q₂ E₂ r.2 w) E w₂ := by
        intro q w w₁ h₁ h₂ hrely hinv c w₂ hA
        obtain ⟨hguar, hinv', hk⟩ :=
          h₁ w₁ (beside.rely₁ _ _ hrely) (beside.inv₁ ▸ hinv) c w₂ hA
        have hinv'' : C.inv w₂ := beside.inv₁ ▸ hinv'
        have hother := C₂.rely_trans (beside.rely₂ _ _ hrely) (beside.guar₁ _ _ hguar).2
        refine ⟨(beside.guar₁ _ _ hguar).1, hinv'', ih c hk ?_⟩
        exact wp_rely h₂ hother (fun b hb => stable₂ (.ok b) w w₂ hb hother hinv'')
          fun e he => stable₂ (.error e) w w₂ he hother hinv''
      induction q generalizing w with
      | ret b => exact fun w₁ hrely hinv => first (.ret b) w w₁ h₁ h₂ hrely hinv
      | raise e => exact fun w₁ hrely hinv => first (.raise e) w w₁ h₁ h₂ hrely hinv
      | act B l ih' =>
          rw [alongside, wp_act]
          intro w₁ hrely hinv r w₂ hr
          cases r with
          | inl c => exact first (.act B l) w w₁ h₁ h₂ hrely hinv c w₂ hr
          | inr d =>
              obtain ⟨hguar, hinv', hl⟩ :=
                h₂ w₁ (beside.rely₂ _ _ hrely) (beside.inv₂ ▸ hinv) d w₂ hr
              have hinv'' : C.inv w₂ := beside.inv₂ ▸ hinv'
              have hother := C₁.rely_trans (beside.rely₁ _ _ hrely) (beside.guar₂ _ _ hguar).2
              refine ⟨(beside.guar₂ _ _ hguar).1, hinv'', ih' d ?_ hl⟩
              exact fun w₃ hrely₃ => h₁ w₃ (C₁.rely_trans hother hrely₃)

end Rule

end Prog

section Playback
variable {W ε α β : Type} {w w₁ w₂ : W} {p : Prog W ε α} {q : Prog W ε β} {r : Except ε α}

/-- The first program ends before the second starts. -/
theorem Exec.par_first {o : Option (Except ε β)} (first : Exec p w (some r) w₁)
    (second : Exec q w₁ o w₂) :
    Exec (p.par q) w (o.map fun r' => .ok (r, r')) w₂ := by
  have ended : Exec (q.attempt >>= fun r' => (.ret (r, r') : Prog W ε _)) w₁
      (o.map fun r' => .ok (r, r')) w₂ := by
    clear first
    induction second with
    | stop q v => exact .stop _ v
    | ret b v => exact .ret _ v
    | raise e v => exact .ret _ v
    | act step _ ih => exact .act step ih
  generalize ho : some r = out at first
  induction first with
  | stop p v => cases ho
  | ret a v => cases ho; exact ended
  | raise e v => cases ho; exact ended
  | @act γ A k v v' _ c o step _ ih =>
      have rest := ih second ended ho
      change Exec (Prog.alongside A (fun c => (k c).par) q) v _ w₂
      cases q with
      | ret b => exact .act step rest
      | raise e => exact .act step rest
      | act B l =>
          rw [Prog.alongside]
          refine .act (b := Sum.inl c) step ?_
          exact rest

end Playback
