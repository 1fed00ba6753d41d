import TranspileBench.Evaluator.Quality
import TranspileBench.Lib.Statistics
import Mathlib.Analysis.SpecialFunctions.Log.Basic
import Mathlib.Analysis.SpecialFunctions.Sqrt

/-!
The evaluator's numbers without rounding: an ordered field whose statistics are the exact
ones and whose logarithm grows, and the real numbers with their own functions.
-/
namespace TranspileBench.Evaluator

/-- The operations are those of the field; of the logarithm only its growth is asked. -/
class Exact (K : Type) [Field K] [LinearOrder K] [Arith K] : Prop where
  ofInt : ∀ n : Int, Arith.ofInt n = (n : K)
  add : ∀ a b : K, Arith.add a b = a + b
  sub : ∀ a b : K, Arith.sub a b = a - b
  mul : ∀ a b : K, Arith.mul a b = a * b
  div : ∀ a b : K, Arith.div a b = a / b
  fmean : ∀ values : List K, Arith.fmean values = Statistics.mean values
  stdev : ∀ values : List K, Arith.stdev values = Arith.sqrt (Statistics.variance values)
  median : ∀ values : List K, Arith.median values = Statistics.median values
  isFinite : ∀ a : K, Arith.isFinite a = true
  lt : ∀ a b : K, Arith.lt a b = decide (a < b)
  le : ∀ a b : K, Arith.le a b = decide (a ≤ b)
  eq : ∀ a b : K, Arith.eq a b = decide (a = b)
  log_mono : ∀ a b : K, 0 < a → a ≤ b → Arith.log a ≤ Arith.log b

attribute [simp] Exact.ofInt Exact.add Exact.sub Exact.mul Exact.div Exact.fmean Exact.stdev
  Exact.median Exact.isFinite Exact.lt Exact.le Exact.eq

theorem foldl_add {K α : Type} [Field K] [LinearOrder K] [Arith K] [Exact K] (f : α → K)
    (xs : List α) (sum : K) :
    xs.foldl (fun sum x => Arith.add sum (f x)) sum = sum + (xs.map f).sum := by
  induction xs generalizing sum with
  | nil => simp
  | cons x xs ih => rw [List.foldl_cons, ih, Exact.add, List.map_cons, List.sum_cons, add_assoc]

@[reducible] noncomputable def realArith : Arith ℝ where
  ofInt n := n
  add := (· + ·)
  sub := (· - ·)
  mul := (· * ·)
  div := (· / ·)
  log := Real.log
  exp := Real.exp
  sqrt := Real.sqrt
  fmean := Statistics.mean
  stdev values := Real.sqrt (Statistics.variance values)
  median := Statistics.median
  isFinite _ := true
  lt a b := decide (a < b)
  le a b := decide (a ≤ b)
  eq a b := decide (a = b)

theorem realArith_exact : @Exact ℝ _ _ realArith :=
  letI := realArith
  { ofInt := fun _ => rfl
    add := fun _ _ => rfl
    sub := fun _ _ => rfl
    mul := fun _ _ => rfl
    div := fun _ _ => rfl
    fmean := fun _ => rfl
    stdev := fun _ => rfl
    median := fun _ => rfl
    isFinite := fun _ => rfl
    lt := fun _ _ => rfl
    le := fun _ _ => rfl
    eq := fun _ _ => rfl
    log_mono := fun _ _ => Real.log_le_log }

end TranspileBench.Evaluator
