import TranspileBench.Lib.RankOne
import Mathlib

/-!
Complex vectors up to a phase, and how far two vectors are apart in the Euclidean norm when
their entries are close; matrices as vectors of their entries.
-/
namespace Amplitudes
open Finset

section Size
variable {B : Type} [Fintype B] {x y : B → ℂ}

/-- The Euclidean norm. -/
noncomputable def size (x : B → ℂ) : ℝ := √(weight x)

theorem weight_nonneg (x : B → ℂ) : 0 ≤ weight x := by
  rw [weight_eq_sum]
  exact sum_nonneg fun b _ => sq_nonneg _

theorem size_nonneg (x : B → ℂ) : 0 ≤ size x := Real.sqrt_nonneg _

theorem size_sq (x : B → ℂ) : size x ^ 2 = weight x := Real.sq_sqrt (weight_nonneg x)

theorem size_eq_norm (x : B → ℂ) : size x = ‖WithLp.toLp 2 x‖ := by
  rw [size, weight_eq_sum, EuclideanSpace.norm_eq]

theorem size_add_le (x y : B → ℂ) : size (x + y) ≤ size x + size y := by
  rw [size_eq_norm, size_eq_norm, size_eq_norm, WithLp.toLp_add]
  exact norm_add_le _ _

theorem size_smul (u : ℂ) (x : B → ℂ) : size (u • x) = ‖u‖ * size x := by
  rw [size_eq_norm, size_eq_norm, WithLp.toLp_smul, norm_smul]

theorem size_le_size (h : ∀ b, ‖x b‖ ≤ ‖y b‖) : size x ≤ size y := by
  rw [size, size, weight_eq_sum, weight_eq_sum]
  exact Real.sqrt_le_sqrt (sum_le_sum fun b _ => by gcongr; exact h b)

theorem size_const (r : ℝ) (hr : 0 ≤ r) : size (fun _ : B => (r : ℂ)) = r * √(Fintype.card B) := by
  rw [size, weight_eq_sum]
  simp only [Complex.norm_real, Real.norm_of_nonneg hr, sum_const, card_univ, nsmul_eq_mul]
  rw [mul_comm, Real.sqrt_mul (sq_nonneg r), Real.sqrt_sq hr]

/-- Entries that are small against those of another vector. -/
theorem size_le_of_entries {atol rtol : ℝ} (hatol : 0 ≤ atol) (hrtol : 0 ≤ rtol)
    (h : ∀ b, ‖x b‖ ≤ atol + rtol * ‖y b‖) : size x ≤ atol * √(Fintype.card B) + rtol * size y := by
  have hnorm : size (fun b => ((rtol * ‖y b‖ : ℝ) : ℂ)) = rtol * size y := by
    have hsmul : (fun b => ((rtol * ‖y b‖ : ℝ) : ℂ)) = (rtol : ℂ) • fun b => (‖y b‖ : ℂ) := by
      funext b
      simp
    have hsame : size (fun b => (‖y b‖ : ℂ)) = size y := by
      simp only [size, weight_eq_sum, Complex.norm_real, norm_norm]
    rw [hsmul, size_smul, hsame, Complex.norm_real, Real.norm_of_nonneg hrtol]
  rw [← size_const atol hatol, ← hnorm]
  refine (size_le_size fun b => ?_).trans (size_add_le _ _)
  have hsum : 0 ≤ atol + rtol * ‖y b‖ := by positivity
  rw [Pi.add_apply, ← Complex.ofReal_add, Complex.norm_real, Real.norm_of_nonneg hsum]
  exact h b

theorem weight_sub (x y : B → ℂ) :
    weight (x - y) = weight x + weight y - 2 * (innerProduct x y).re := by
  have hexpand : normSq (x - y) = normSq x + normSq y - (innerProduct x y + innerProduct y x) := by
    simp only [normSq, innerProduct, Pi.sub_apply, star_sub, ← sum_add_distrib, ← sum_sub_distrib]
    exact sum_congr rfl fun b _ => by ring
  have hconj : (innerProduct y x).re = (innerProduct x y).re := by
    rw [← innerProduct_star x y, Complex.star_def, Complex.conj_re]
  rw [weight, hexpand, Complex.sub_re, Complex.add_re, Complex.add_re, hconj]
  simp only [weight]
  ring

theorem innerProduct_smul_left (u : ℂ) (x y : B → ℂ) :
    innerProduct (u • x) y = star u * innerProduct x y := by
  rw [innerProduct, innerProduct, mul_sum]
  refine sum_congr rfl fun b _ => ?_
  rw [Pi.smul_apply, smul_eq_mul, star_mul']
  ring

theorem innerProduct_smul_right (u : ℂ) (x y : B → ℂ) :
    innerProduct x (u • y) = u * innerProduct x y := by
  rw [innerProduct, innerProduct, mul_sum]
  exact sum_congr rfl fun b _ => by rw [Pi.smul_apply, smul_eq_mul]; ring

/-- Two vectors of one weight that are close up to a phase overlap. -/
theorem overlap_defect {u : ℂ} (hu : ‖u‖ = 1) {D : ℝ} (hD : 0 < D) (hx : weight x = D)
    (hy : weight y = D) :
    1 - ‖innerProduct x y‖ ^ 2 / D ^ 2 ≤ size (u • x - y) ^ 2 / D := by
  have hle : ‖innerProduct x y‖ ≤ D := by
    have hsquare := overlap_le x y
    rw [hx, hy, ← sq] at hsquare
    exact (sq_le_sq₀ (norm_nonneg _) hD.le).mp hsquare
  have hphase : weight (u • x) = D := by
    rw [← size_sq, size_smul, hu, one_mul, size_sq, hx]
  have hreal : (innerProduct (u • x) y).re ≤ ‖innerProduct x y‖ := by
    refine (Complex.re_le_norm _).trans ?_
    rw [innerProduct_smul_left, norm_mul, norm_star, hu, one_mul]
  have hgap : 2 * (D - ‖innerProduct x y‖) ≤ size (u • x - y) ^ 2 := by
    rw [size_sq, weight_sub, hphase, hy]
    linarith
  calc 1 - ‖innerProduct x y‖ ^ 2 / D ^ 2
      = (D - ‖innerProduct x y‖) * (D + ‖innerProduct x y‖) / D ^ 2 := by field_simp; ring
    _ ≤ (D - ‖innerProduct x y‖) * (2 * D) / D ^ 2 := by
        gcongr
        linarith
    _ = 2 * (D - ‖innerProduct x y‖) / D := by field_simp
    _ ≤ size (u • x - y) ^ 2 / D := by gcongr

end Size

/-! ## Phases -/

/-- The phase of a number; that of zero is one. -/
noncomputable def phaseOf (z : ℂ) : ℂ := if z = 0 then 1 else z / (‖z‖ : ℂ)

theorem norm_phaseOf (z : ℂ) : ‖phaseOf z‖ = 1 := by
  unfold phaseOf
  split
  case isTrue => exact norm_one
  case isFalse h => rw [norm_div, Complex.norm_real, norm_norm, div_self (norm_ne_zero_iff.mpr h)]

theorem phaseOf_mul {u : ℂ} (hu : ‖u‖ = 1) {r : ℝ} (hr : 0 < r) : phaseOf (u * r) = u := by
  have hr' : (r : ℂ) ≠ 0 := by exact_mod_cast hr.ne'
  have hu' : u ≠ 0 := norm_ne_zero_iff.mp (by rw [hu]; exact one_ne_zero)
  rw [phaseOf, if_neg (mul_ne_zero hu' hr'), norm_mul, hu, one_mul, Complex.norm_real,
    Real.norm_of_nonneg hr.le, mul_div_cancel_right₀ _ hr']

section Matrices
variable {B : Type} [Fintype B]

/-- `ravel`: a matrix as the vector of its entries. -/
def flat (A : B → B → ℂ) : B × B → ℂ := fun x => A x.1 x.2

theorem weight_flat (A : B → B → ℂ) : weight (flat A) = ∑ c, weight fun b => A b c := by
  simp only [weight_eq_sum, flat]
  rw [Fintype.sum_prod_type, sum_comm]

/-- A matrix with small entries moves no vector far. -/
theorem size_apply_le (A : B → B → ℂ) (ψ : B → ℂ) :
    size (fun b => ∑ c, A b c * ψ c) ≤ size (flat A) * size ψ := by
  have hrow : ∀ b, ‖∑ c, A b c * ψ c‖ ^ 2 ≤ (∑ c, ‖A b c‖ ^ 2) * weight ψ := by
    intro b
    have hsum : innerProduct (fun c => star (A b c)) ψ = ∑ c, A b c * ψ c := by
      simp only [innerProduct, star_star]
    have hle := overlap_le (fun c => star (A b c)) ψ
    rw [hsum] at hle
    simpa only [weight_eq_sum, norm_star] using hle
  refine (sq_le_sq₀ (size_nonneg _) (mul_nonneg (size_nonneg _) (size_nonneg _))).mp ?_
  rw [mul_pow, size_sq, size_sq, size_sq]
  calc weight (fun b => ∑ c, A b c * ψ c) = ∑ b, ‖∑ c, A b c * ψ c‖ ^ 2 := weight_eq_sum _
    _ ≤ ∑ b, (∑ c, ‖A b c‖ ^ 2) * weight ψ := sum_le_sum fun b _ => hrow b
    _ = weight (flat A) * weight ψ := by
        rw [← sum_mul, weight_eq_sum (flat A), Fintype.sum_prod_type]
        rfl

end Matrices

end Amplitudes
