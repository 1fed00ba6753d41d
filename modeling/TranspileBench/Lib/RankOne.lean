import TranspileBench.Lib.Amplitudes
import Mathlib

/-!
Outer products of complex vectors, and how far apart two of them are: the sum of the absolute
eigenvalues of their difference has a closed form in the two norms and the overlap.
-/
namespace Amplitudes
open Matrix Finset

/-! ## Eigenvalues -/

/-- At most two values of opposite signs. -/
theorem sum_abs_sq {ι : Type} [Fintype ι] {f : ι → ℝ} (hcard : Fintype.card {i // f i ≠ 0} ≤ 2)
    (hsign : (∑ i, f i) ^ 2 ≤ ∑ i, f i ^ 2) :
    (∑ i, |f i|) ^ 2 = 2 * ∑ i, f i ^ 2 - (∑ i, f i) ^ 2 := by
  classical
  have support : ∀ g : ℝ → ℝ, g 0 = 0 → ∑ i, g (f i) = ∑ i ∈ univ.filter (f · ≠ 0), g (f i) := by
    intro g hg
    refine (sum_subset (filter_subset _ _) fun i _ hi => ?_).symm
    have hzero : f i = 0 := by simpa using hi
    rw [hzero, hg]
  rw [Fintype.card_subtype] at hcard
  rw [support (fun x => x) rfl, support (fun x => x ^ 2) (by norm_num)] at hsign ⊢
  rw [support (fun x => |x|) abs_zero]
  interval_cases hsize : (univ.filter (f · ≠ 0)).card
  · rw [card_eq_zero.mp hsize]
    simp
  · obtain ⟨i, hi⟩ := card_eq_one.mp hsize
    simp only [hi, sum_singleton, sq_abs]
    ring
  · obtain ⟨i, j, hij, hpair⟩ := card_eq_two.mp hsize
    rw [hpair] at hsign ⊢
    simp only [sum_pair hij] at hsign ⊢
    have hopposite : f i * f j ≤ 0 := by nlinarith only [hsign]
    have habs : |f i| * |f j| = -(f i * f j) := by rw [← abs_mul, abs_of_nonpos hopposite]
    calc (|f i| + |f j|) ^ 2 = |f i| ^ 2 + |f j| ^ 2 + 2 * (|f i| * |f j|) := by ring
      _ = 2 * (f i ^ 2 + f j ^ 2) - (f i + f j) ^ 2 := by rw [habs, sq_abs, sq_abs]; ring

section Norm
variable {B : Type} [Fintype B] [DecidableEq B] {A : Matrix B B ℂ}

/-- The sum of the absolute eigenvalues. -/
noncomputable def traceNorm (hA : A.IsHermitian) : ℝ := ∑ i, |hA.eigenvalues i|

theorem trace_mul_self (hA : A.IsHermitian) :
    (A * A).trace = ((∑ i, hA.eigenvalues i ^ 2 : ℝ) : ℂ) := by
  have hdiagonal : A * A = Unitary.conjStarAlgAut ℂ _ hA.eigenvectorUnitary
      (diagonal (RCLike.ofReal ∘ hA.eigenvalues) * diagonal (RCLike.ofReal ∘ hA.eigenvalues)) := by
    rw [map_mul, ← hA.spectral_theorem]
  rw [hdiagonal, Unitary.conjStarAlgAut_apply, trace_mul_cycle, Unitary.coe_star_mul_self, one_mul,
    diagonal_mul_diagonal, trace_diagonal]
  push_cast
  exact sum_congr rfl fun i _ => (sq _).symm

/-- A matrix of rank two whose square has at least the squared trace for its trace. -/
theorem traceNorm_sq (hA : A.IsHermitian) (hrank : A.rank ≤ 2) {s t : ℝ}
    (htrace : A.trace = (s : ℂ))
    (hsquare : (A * A).trace = (t : ℂ)) (hsign : s ^ 2 ≤ t) : traceNorm hA ^ 2 = 2 * t - s ^ 2 := by
  have hs : ∑ i, hA.eigenvalues i = s := by
    have hsum : ∑ i, (hA.eigenvalues i : ℂ) = s := hA.trace_eq_sum_eigenvalues.symm.trans htrace
    exact_mod_cast hsum
  have ht : ∑ i, hA.eigenvalues i ^ 2 = t := by
    have hsum := (trace_mul_self hA).symm.trans hsquare
    exact_mod_cast hsum
  have hcard : Fintype.card {i // hA.eigenvalues i ≠ 0} ≤ 2 := hA.rank_eq_card_non_zero_eigs ▸ hrank
  rw [traceNorm, sum_abs_sq hcard (by rwa [hs, ht]), hs, ht]

end Norm

/-! ## Outer products -/

section Outer
variable {B : Type} [Fintype B] {x y : B → ℂ}

/-- The squared norm. -/
def weight (x : B → ℂ) : ℝ := (normSq x).re

theorem weight_eq_sum (x : B → ℂ) : weight x = ∑ b, ‖x b‖ ^ 2 := by
  rw [weight, normSq, innerProduct, Complex.re_sum]
  refine sum_congr rfl fun b _ => ?_
  rw [Complex.star_def, ← Complex.normSq_eq_conj_mul_self, Complex.ofReal_re,
    Complex.normSq_eq_norm_sq]

theorem normSq_eq_weight (x : B → ℂ) : normSq x = (weight x : ℂ) := by
  rw [weight_eq_sum, normSq, innerProduct]
  push_cast
  refine sum_congr rfl fun b _ => ?_
  rw [Complex.star_def, ← Complex.normSq_eq_conj_mul_self, Complex.normSq_eq_norm_sq]
  push_cast
  rfl

theorem innerProduct_star (x y : B → ℂ) : star (innerProduct x y) = innerProduct y x := by
  simp only [innerProduct, star_sum, star_mul, star_star]

theorem overlap_le (x y : B → ℂ) : ‖innerProduct x y‖ ^ 2 ≤ weight x * weight y := by
  have htriangle : ‖innerProduct x y‖ ≤ ∑ b, ‖x b‖ * ‖y b‖ := by
    refine (norm_sum_le _ _).trans (sum_le_sum fun b _ => ?_)
    rw [norm_mul, norm_star]
  calc ‖innerProduct x y‖ ^ 2 ≤ (∑ b, ‖x b‖ * ‖y b‖) ^ 2 := by gcongr
    _ ≤ (∑ b, ‖x b‖ ^ 2) * ∑ b, ‖y b‖ ^ 2 := sum_mul_sq_le_sq_mul_sq _ _ _
    _ = weight x * weight y := by rw [weight_eq_sum, weight_eq_sum]

theorem innerProduct_mul_star (x y : B → ℂ) :
    innerProduct x y * innerProduct y x = ((‖innerProduct x y‖ ^ 2 : ℝ) : ℂ) := by
  rw [← innerProduct_star x y, Complex.star_def, Complex.mul_conj, Complex.normSq_eq_norm_sq]

theorem innerProduct_sub_smul (x y z : B → ℂ) (c : ℂ) :
    innerProduct z (y - c • x) = innerProduct z y - c * innerProduct z x := by
  simp only [innerProduct, Pi.sub_apply, Pi.smul_apply, smul_eq_mul, mul_sub,
    sum_sub_distrib, mul_sum]
  congr 1
  exact sum_congr rfl fun b _ => by ring

/-- What is left of a vector when its part along another is taken away. -/
theorem weight_residual (hx : weight x ≠ 0) :
    weight (y - (innerProduct x y / (weight x : ℂ)) • x)
      = weight y - ‖innerProduct x y‖ ^ 2 / weight x := by
  have hx' : (weight x : ℂ) ≠ 0 := by exact_mod_cast hx
  -- it is orthogonal to the other
  have horthogonal : innerProduct x (y - (innerProduct x y / (weight x : ℂ)) • x) = 0 := by
    have hself : innerProduct x x = (weight x : ℂ) := normSq_eq_weight x
    rw [innerProduct_sub_smul, hself, div_mul_cancel₀ _ hx', sub_self]
  have hcomplex : normSq (y - (innerProduct x y / (weight x : ℂ)) • x)
      = (weight y : ℂ) - ((‖innerProduct x y‖ ^ 2 : ℝ) : ℂ) / (weight x : ℂ) := by
    have hself : innerProduct y y = (weight y : ℂ) := normSq_eq_weight y
    rw [normSq, innerProduct_sub_smul, ← innerProduct_star x, horthogonal, star_zero,
      mul_zero, sub_zero,
      ← innerProduct_star, innerProduct_sub_smul, hself, star_sub, star_mul, innerProduct_star,
      Complex.star_def, Complex.conj_ofReal, map_div₀, Complex.conj_ofReal, ← Complex.star_def,
      innerProduct_star, mul_div_assoc', innerProduct_mul_star]
  rw [normSq_eq_weight] at hcomplex
  exact_mod_cast hcomplex

/-- The difference of two outer products. -/
def outerSub (x y : B → ℂ) : Matrix B B ℂ := fun a b => outer x a b - outer y a b

omit [Fintype B] in
theorem outerSub_isHermitian (x y : B → ℂ) : (outerSub x y).IsHermitian := by
  ext a b
  simp [outerSub, outer, Matrix.conjTranspose_apply, mul_comm]

theorem trace_outerSub : (outerSub x y).trace = ((weight x - weight y : ℝ) : ℂ) := by
  have hsum : (outerSub x y).trace = Amplitudes.trace (outer x) - Amplitudes.trace (outer y) :=
    sum_sub_distrib _ _
  rw [hsum, trace_outer, trace_outer, normSq_eq_weight, normSq_eq_weight]
  push_cast
  rfl

theorem trace_outerSub_sq : (outerSub x y * outerSub x y).trace =
    ((weight x ^ 2 + weight y ^ 2 - 2 * ‖innerProduct x y‖ ^ 2 : ℝ) : ℂ) := by
  have hsplit : outerSub x y = vecMulVec x (star x) - vecMulVec y (star y) := rfl
  have hproduct : ∀ u v : B → ℂ, (vecMulVec u (star u) * vecMulVec v (star v)).trace
      = innerProduct u v * innerProduct v u := by
    intro u v
    rw [vecMulVec_mul_vecMulVec, vecMulVec_smul, trace_smul, trace_vecMulVec, dotProduct_comm u]
    rfl
  rw [hsplit, sub_mul, mul_sub, mul_sub, trace_sub, trace_sub, trace_sub, hproduct,
    hproduct, hproduct,
    hproduct, innerProduct_mul_star, mul_comm (innerProduct y x), innerProduct_mul_star]
  have hself : ∀ u : B → ℂ, ((‖innerProduct u u‖ ^ 2 : ℝ) : ℂ) = (weight u : ℂ) ^ 2 := by
    intro u
    rw [← innerProduct_mul_star, sq]
    exact congrArg₂ (· * ·) (normSq_eq_weight u) (normSq_eq_weight u)
  rw [innerProduct_mul_star, hself, hself]
  push_cast
  ring

theorem rank_outerSub : (outerSub x y).rank ≤ 2 := by
  have hproduct : outerSub x y =
      (Matrix.of fun b (i : Fin 2) => ![x b, -y b] i) * Matrix.of fun (i : Fin 2) b =>
        ![star (x b), star (y b)] i := by
    ext a b
    simp [outerSub, outer, Matrix.mul_apply, Fin.sum_univ_two, sub_eq_add_neg]
  rw [hproduct]
  exact (rank_mul_le_left _ _).trans
    (by simpa using rank_le_card_width (Matrix.of fun b (i : Fin 2) => ![x b, -y b] i))

/-- The two weights and the overlap determine how far apart two outer products are. -/
theorem traceNorm_outerSub [DecidableEq B] : traceNorm (outerSub_isHermitian x y) ^ 2 =
    (weight x + weight y) ^ 2 - 4 * ‖innerProduct x y‖ ^ 2 := by
  rw [traceNorm_sq (outerSub_isHermitian x y) rank_outerSub trace_outerSub trace_outerSub_sq
    (by nlinarith only [overlap_le x y])]
  ring

end Outer
end Amplitudes
