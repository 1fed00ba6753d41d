import Mathlib.Algebra.Order.Field.Basic
import Mathlib.Tactic.Linarith

/-!
Lists of intervals that run from one point to another, each starting where the last one
ended, up to a tolerance.
-/
namespace Tiling

variable {R : Type} [Field R] [LinearOrder R] [IsStrictOrderedRing R]

/-- `Tiles tol a b ws`: the first of `ws` starts at `a`, each next where the one before
ended, and the last ends at `b`. -/
def Tiles (tol : R) : R → R → List (R × R) → Prop
  | _, _, [] => False
  | a, b, [w] => |w.1 - a| ≤ tol ∧ |w.2 - b| ≤ tol
  | a, b, w :: w' :: ws => |w.1 - a| ≤ tol ∧ Tiles tol w.2 b (w' :: ws)

variable {tol b : R}

/-- Intervals that meet exactly, from one point to another. -/
theorem tiles_of_chain (htol : 0 ≤ tol) :
    ∀ {ws : List (R × R)} {a : R}, (∀ w ∈ ws.head?, |w.1 - a| ≤ tol) →
      (∀ w ∈ ws.getLast?, |w.2 - b| ≤ tol) → ws.IsChain (fun x y => x.2 = y.1) → ws ≠ [] →
      Tiles tol a b ws := by
  intro ws
  induction ws with
  | nil => exact fun _ _ _ hne => absurd rfl hne
  | cons w rest ih =>
      intro a hhead hlast hchain _
      cases rest with
      | nil => exact ⟨hhead w rfl, hlast w rfl⟩
      | cons w' rest =>
          obtain ⟨hmeet, hchain⟩ := List.isChain_cons_cons.mp hchain
          refine ⟨hhead w rfl, ih ?_ (by simpa using hlast) hchain (by simp)⟩
          intro x hx
          cases hx
          simpa [hmeet] using htol

end Tiling
