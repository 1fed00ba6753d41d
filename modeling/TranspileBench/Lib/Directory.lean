import TranspileBench.Lib.Program
import Mathlib.Data.List.AList

/-!
Directories as maps from file names to contents, and programs on a directory that
somebody else may take away while they run.
-/

/-- A flat directory: the contents of its files. -/
abbrev Dir (B : Type) := AList fun _ : String => B

/-- A part of a world that may be missing. -/
structure Slot (W V : Type) where
  get : W → Option V
  put : W → V → W

namespace Prog
variable {W V ε α β : Type}

/-- A program on the part of the world in a slot. When the part is missing, an action
makes it anew, leaves everything as it is, or raises. -/
def inside (S : Slot W V) (fresh : V) (gone : ε → Prop) : Prog V ε α → Prog W ε α
  | .ret a => .ret a
  | .raise e => .raise e
  | .act A k =>
      .act (fun w (r : Except ε _) w' =>
          match r with
          | .ok b => ∃ v, A ((S.get w).getD fresh) b v ∧
              (w' = S.put w v ∨ S.get w = none ∧ w' = w)
          | .error e => S.get w = none ∧ gone e ∧ w' = w)
        fun r => match r with
          | .ok b => (k b).inside S fresh gone
          | .error e => .raise e

section Inside
variable {C : Contract W} {S : Slot W V} {fresh : V} {gone : ε → Prop} {lost : W → Prop}

/-- When what a program does in a slot no longer matters, it never will. -/
theorem wp_inside_lost (refl : ∀ w, C.guar w w)
    (lost_rely : ∀ w w', lost w → C.rely w w' → C.inv w' → lost w')
    (lost_put : ∀ v w, lost w → C.inv w →
      C.guar w (S.put w v) ∧ C.inv (S.put w v) ∧ lost (S.put w v))
    (p : Prog V ε α) {w : W} (h : lost w) :
    wp C (p.inside S fresh gone) (fun _ => lost) (fun _ => lost) w := by
  induction p generalizing w with
  | ret a => exact h
  | raise e => exact h
  | act A k ih =>
      rw [inside, wp_act]
      intro w₁ hrely hinv r w₂ hA
      have hlost := lost_rely w w₁ h hrely hinv
      cases r with
      | error e =>
          obtain ⟨-, -, rfl⟩ := hA
          exact ⟨refl _, hinv, hlost⟩
      | ok b =>
          obtain ⟨v, -, rfl | ⟨-, rfl⟩⟩ := hA
          · obtain ⟨hguar, hinv', hlost'⟩ := lost_put v w₁ hlost hinv
            exact ⟨hguar, hinv', ih b hlost'⟩
          · exact ⟨refl _, hinv, ih b hlost⟩

/-- A program in a slot that is its own, `own v`, until what it does there no longer
matters: as long as it matters, the program runs there as it would run alone. -/
theorem wp_inside {own : V → W → Prop} (refl : ∀ w, C.guar w w)
    (found : ∀ v w, own v w → S.get w = some v)
    (own_rely : ∀ v w w', own v w → C.rely w w' → C.inv w' → lost w' ∨ own v w')
    (own_put : ∀ v v' w, own v w → C.inv w →
      C.guar w (S.put w v') ∧ C.inv (S.put w v') ∧ own v' (S.put w v'))
    (lost_rely : ∀ w w', lost w → C.rely w w' → C.inv w' → lost w')
    (lost_put : ∀ v w, lost w → C.inv w →
      C.guar w (S.put w v) ∧ C.inv (S.put w v) ∧ lost (S.put w v))
    (p : Prog V ε α) {v : V} {w : W} (h : own v w) :
    wp C (p.inside S fresh gone)
      (fun a w' => lost w' ∨ ∃ v', own v' w' ∧ Exec p v (some (.ok a)) v')
      (fun _ w' => lost w' ∨ ∃ v', own v' w') w := by
  induction p generalizing v w with
  | ret a => exact .inr ⟨v, h, .ret a v⟩
  | raise e => exact .inr ⟨v, h⟩
  | act A k ih =>
      rw [inside, wp_act]
      intro w₁ hrely hinv r w₂ hA
      have h₁ := own_rely v w w₁ h hrely hinv
      cases r with
      | error e =>
          obtain ⟨-, -, rfl⟩ := hA
          exact ⟨refl _, hinv, h₁.imp id fun h => ⟨v, h⟩⟩
      | ok b =>
          obtain ⟨v', hA, hw₂⟩ := hA
          cases h₁ with
          | inl hlost =>
              have kept : C.guar w₁ w₂ ∧ C.inv w₂ ∧ lost w₂ := by
                rcases hw₂ with rfl | ⟨-, rfl⟩
                · exact lost_put v' w₁ hlost hinv
                · exact ⟨refl _, hinv, hlost⟩
              refine ⟨kept.1, kept.2.1, ?_⟩
              exact wp_mono (wp_inside_lost refl lost_rely lost_put (k b) kept.2.2)
                (fun _ _ => .inl) fun _ _ => .inl
          | inr hown =>
              rw [found v w₁ hown] at hA hw₂
              obtain rfl : w₂ = S.put w₁ v' := by simpa using hw₂
              obtain ⟨hguar, hinv₂, hown₂⟩ := own_put v v' w₁ hown hinv
              refine ⟨hguar, hinv₂, wp_mono (ih b hown₂) ?_ fun _ _ => id⟩
              exact fun a w' h => h.imp id fun ⟨v'', h, run⟩ => ⟨v'', h, .act hA run⟩

end Inside
end Prog
