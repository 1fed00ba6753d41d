import Mathlib
import TranspileBench.Lib.Program

/-!
Vectors of amplitudes over a finite basis, and the operators that act through a part of the
basis: a matrix on the part, and projections on what is read of it.
-/
namespace Amplitudes

variable {B C K : Type}

section Linear
variable [Fintype C] [CommRing K]

/-- What a matrix on a part does to the whole. -/
def onPart (L : Lens B C) (U : C → C → K) (ψ : B → K) : B → K :=
  fun b => ∑ c, U (L.get b) c * ψ (L.set b c)

/-- The part of the vector where `p` holds. -/
def project (p : B → Bool) (ψ : B → K) : B → K := fun b => if p b then ψ b else 0

variable {L : Lens B C} {U V : C → C → K} {ψ : B → K} {p q : B → Bool}

theorem onPart_smul (u : K) (ψ : B → K) : onPart L U (u • ψ) = u • onPart L U ψ := by
  funext b
  simp only [onPart, Pi.smul_apply, smul_eq_mul, Finset.mul_sum]
  exact Finset.sum_congr rfl fun c _ => by ring

theorem onPart_zero : onPart L U (0 : B → K) = 0 := by
  funext b
  simp [onPart]

/-- Two matrices on one part compose as matrices. -/
theorem onPart_onPart : onPart L U (onPart L V ψ) = onPart L (fun a c => ∑ b, U a b * V b c) ψ := by
  funext b
  simp only [onPart, L.get_set, L.set_set, Finset.mul_sum, Finset.sum_mul]
  rw [Finset.sum_comm]
  exact Finset.sum_congr rfl fun c _ => Finset.sum_congr rfl fun d _ => by ring

theorem onPart_one [DecidableEq C] : onPart L (fun a b => if a = b then (1 : K) else 0) ψ = ψ := by
  funext b
  simp [onPart, L.set_get]

omit [Fintype C] in
theorem project_smul (u : K) (ψ : B → K) : project p (u • ψ) = u • project p ψ := by
  funext b
  simp only [project, Pi.smul_apply, smul_eq_mul]
  split <;> simp

omit [Fintype C] in
theorem project_zero : project p (0 : B → K) = 0 := by
  funext b
  simp [project]

omit [Fintype C] in
theorem project_project : project p (project q ψ) = project (fun b => p b && q b) ψ := by
  funext b
  simp only [project, Bool.and_eq_true]
  split_ifs <;> simp_all

/-- A projection that does not look at the part commutes with what acts on it. -/
theorem project_onPart (h : ∀ b c, p (L.set b c) = p b) :
    project p (onPart L U ψ) = onPart L U (project p ψ) := by
  funext b
  simp only [project, onPart, h]
  split <;> simp

end Linear

section Inner
variable [CommRing K] [StarRing K]

/-- The outer product of a vector with itself. -/
def outer (ψ : B → K) : B → B → K := fun a b => ψ a * star (ψ b)

theorem outer_smul {u : K} (hu : star u * u = 1) (ψ : B → K) : outer (u • ψ) = outer ψ := by
  funext a b
  have h : u * star u = 1 := by rw [mul_comm, hu]
  calc u * ψ a * star (u * ψ b) = u * star u * (ψ a * star (ψ b)) := by
        rw [star_mul]; ring
    _ = ψ a * star (ψ b) := by rw [h, one_mul]

theorem smul_eq_zero_iff {u : K} (hu : star u * u = 1) {ψ : B → K} : u • ψ = 0 ↔ ψ = 0 := by
  constructor
  · intro h
    have hstar : star u • u • ψ = 0 := by rw [h, smul_zero]
    rwa [smul_smul, hu, one_smul] at hstar
  · rintro rfl
    exact smul_zero u

variable [Fintype B]

/-- The inner product, antilinear on the left. -/
def innerProduct (φ ψ : B → K) : K := ∑ b, star (φ b) * ψ b

def normSq (ψ : B → K) : K := innerProduct ψ ψ

def trace (ρ : B → B → K) : K := ∑ b, ρ b b

theorem trace_outer (ψ : B → K) : trace (outer ψ) = normSq ψ := by
  simp only [trace, outer, normSq, innerProduct]
  exact Finset.sum_congr rfl fun b _ => mul_comm _ _

theorem normSq_zero : normSq (0 : B → K) = 0 := by simp [normSq, innerProduct]

/-- A projection and its complement split the norm. -/
theorem normSq_project (p : B → Bool) (ψ : B → K) :
    normSq (project p ψ) + normSq (project (fun b => !p b) ψ) = normSq ψ := by
  simp only [normSq, innerProduct, ← Finset.sum_add_distrib]
  refine Finset.sum_congr rfl fun b _ => ?_
  cases hp : p b <;> simp [project, hp]

end Inner

section Isometries
variable [Fintype B] [Fintype C] [CommRing K] [StarRing K]

def adjoint (U : C → C → K) : C → C → K := fun a b => star (U b a)

/-- A matrix that preserves the inner product. -/
structure Isometry (C K : Type) [Fintype C] [DecidableEq C] [CommRing K] [StarRing K] where
  matrix : C → C → K
  isometric : ∀ a b, ∑ c, star (matrix c a) * matrix c b = if a = b then 1 else 0

variable {L : Lens B C} {U : C → C → K} {ψ φ : B → K}

/-- The adjoint on the part is the adjoint on the whole: a basis vector and a value of the
part change places with the vector so set and the value it had. -/
theorem innerProduct_onPart : innerProduct (onPart L U φ) ψ = innerProduct φ
    (onPart L (adjoint U) ψ) := by
  simp only [innerProduct, onPart, adjoint, star_sum, star_mul, Finset.sum_mul, Finset.mul_sum]
  rw [← Fintype.sum_prod_type', ← Fintype.sum_prod_type']
  let e : B × C ≃ B × C :=
    { toFun := fun x => (L.set x.1 x.2, L.get x.1)
      invFun := fun x => (L.set x.1 x.2, L.get x.1)
      left_inv := fun x => by simp [L.get_set, L.set_set, L.set_get]
      right_inv := fun x => by simp [L.get_set, L.set_set, L.set_get] }
  refine Fintype.sum_equiv e _ _ fun x => ?_
  change _ = star (φ (L.set x.1 x.2)) *
    (star (U (L.get x.1) (L.get (L.set x.1 x.2))) * ψ (L.set (L.set x.1 x.2) (L.get x.1)))
  rw [L.get_set, L.set_set, L.set_get]
  ring

namespace Isometry
variable [DecidableEq C] (W : Isometry C K)

omit [Fintype B] in
theorem adjoint_onPart (ψ : B → K) : onPart L (adjoint W.matrix) (onPart L W.matrix ψ) = ψ := by
  rw [onPart_onPart]
  have hone : (fun a c => ∑ b, adjoint W.matrix a b * W.matrix b c)
      = fun a c => if a = c then (1 : K) else 0 := by
    funext a c
    exact W.isometric a c
  rw [hone, onPart_one]

theorem normSq_onPart (ψ : B → K) : normSq (onPart L W.matrix ψ) = normSq ψ := by
  rw [normSq, innerProduct_onPart, W.adjoint_onPart, normSq]

omit [Fintype B] in
theorem onPart_eq_zero {ψ : B → K} : onPart L W.matrix ψ = 0 ↔ ψ = 0 := by
  constructor
  · intro h
    rw [← W.adjoint_onPart (L := L) ψ, h, onPart_zero]
  · rintro rfl
    exact onPart_zero

end Isometry

end Isometries

end Amplitudes
