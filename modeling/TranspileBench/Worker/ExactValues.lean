import TranspileBench.Lib.Assoc
import TranspileBench.Worker.Codec

/-!
What a decoded parameter is worth. A tree has a real value at each binding of the
parameters at which all of it is defined, and so has what `decode_value` builds of it, with
the numbers of Python in exact arithmetic.
-/
namespace TranspileBench.Worker

variable {E : Type}

section Meaning

/-- `x ** y` of real numbers. -/
noncomputable def power (x y : ℝ) : Option ℝ :=
  open Classical in
  if 0 < x ∨ (x = 0 ∧ 0 ≤ y) ∨ (x ≠ 0 ∧ ∃ n : ℤ, y = n) then some (x ^ y) else none

theorem power_eq {x y t : ℝ} (h : power x y = some t) : x ^ y = t := by
  unfold power at h
  split at h
  · exact Option.some.inj h
  · cases h

/-- The functions of one real number, by the names a document has for them. -/
noncomputable def ELEMENTARY : List (String × (ℝ → Option ℝ)) :=
  open Classical in
  [("sin", fun x => some (Real.sin x)), ("cos", fun x => some (Real.cos x)),
    ("tan", fun x => if Real.cos x = 0 then none else some (Real.tan x)),
    ("exp", fun x => some (Real.exp x)),
    ("log", fun x => if 0 < x then some (Real.log x) else none),
    ("abs", fun x => some |x|),
    ("arcsin", fun x => if |x| ≤ 1 then some (Real.arcsin x) else none),
    ("arccos", fun x => if |x| ≤ 1 then some (Real.arccos x) else none),
    ("arctan", fun x => some (Real.arctan x))]

noncomputable def elementary (name : String) (x : ℝ) : Option ℝ :=
  (ELEMENTARY.lookup name).bind (· x)

/-- What a node is worth, by what its arguments are. -/
noncomputable def operation (op : String) (args : List ℝ) : Option ℝ :=
  if op = "add" then some args.sum
  else if op = "mul" then some args.prod
  else
    match args with
    | [x] => elementary op x
    | [x, y] => if op = "pow" then power x y else none
    | _ => none

mutual

/-- The value of a tree, where it and all of its subexpressions are defined. -/
noncomputable def Tree.value (parameters : ℕ → Option ℝ) : Tree ℝ → Option ℝ
  | .parameter id => parameters id
  | .integer n => some n
  | .rational p d => if d = 0 then none else some (p / d)
  | .float x => some x
  | .pi => some Real.pi
  | .node op args => (Tree.values parameters args).bind (operation op)

noncomputable def Tree.values (parameters : ℕ → Option ℝ) : List (Tree ℝ) → Option (List ℝ)
  | [] => some []
  | arg :: args => do
      let r ← Tree.value parameters arg
      let rs ← Tree.values parameters args
      return r :: rs

end

/-- What an object is worth, by what its expressions are. -/
noncomputable def Value.worth (value : E → Option ℝ) : Value ℝ E → Option ℝ
  | .int n => some n
  | .fraction r => some (r : ℝ)
  | .float x => some x
  | .expr e => value e

end Meaning

section Numbers

/-- `TypeError`, `ZeroDivisionError` and `ValueError`. -/
def typeError : Refusal := .other "unsupported operand type(s)"
def zeroDivision : Refusal := .other "division by zero"
def domainError : Refusal := .other "math domain error"

noncomputable def Value.number : Value ℝ E → ℝ
  | .int n => n
  | .fraction r => r
  | .float x => x
  | .expr _ => 0

def Value.rational? : Value ℝ E → Option ℚ
  | .int n => some n
  | .fraction r => some r
  | _ => none

/-- An operand is an expression: the library computes, but not with fractions. -/
def mixed (library : Value ℝ E → Value ℝ E → Except Refusal (Value ℝ E)) (u v : Value ℝ E) :
    Except Refusal (Value ℝ E) :=
  if u.fraction?.isSome ∨ v.fraction?.isSome then .error typeError else library u v

/-- `+` or `*`: of integers, of fractions, and else of floats. -/
noncomputable def ringOperation (ints : ℤ → ℤ → ℤ) (fractions : ℚ → ℚ → ℚ)
    (floats : ℝ → ℝ → ℝ) (library : Value ℝ E → Value ℝ E → Except Refusal (Value ℝ E))
    (u v : Value ℝ E) : Except Refusal (Value ℝ E) :=
  match u, v with
  | .expr _, _ => mixed library u v
  | _, .expr _ => mixed library u v
  | .int a, .int b => .ok (.int (ints a b))
  | u, v =>
      match u.rational?, v.rational? with
      | some a, some b => .ok (.fraction (fractions a b))
      | _, _ => .ok (.float (floats u.number v.number))

/-- `/`: integers give a float. -/
noncomputable def divide (library : Value ℝ E → Value ℝ E → Except Refusal (Value ℝ E))
    (u v : Value ℝ E) : Except Refusal (Value ℝ E) :=
  open Classical in
  match u, v with
  | .expr _, _ => mixed library u v
  | _, .expr _ => mixed library u v
  | u, v =>
      if v.number = 0 then .error zeroDivision
      else
        match u, v with
        | .int a, .int b => .ok (.float (a / b))
        | u, v =>
            match u.rational?, v.rational? with
            | some a, some b => .ok (.fraction (a / b))
            | _, _ => .ok (.float (u.number / v.number))

/-- A power of floats; what would be complex is no value here. -/
noncomputable def floatPower (x y : ℝ) : Except Refusal (Value ℝ E) :=
  match power x y with
  | some r => .ok (.float r)
  | none => .error domainError

def integerPower (a : ℚ) (n : ℤ) : Except Refusal (Value ℝ E) :=
  if a = 0 ∧ n < 0 then .error zeroDivision else .ok (.fraction (a ^ n))

/-- `Fraction.__pow__` of fractions. -/
noncomputable def fractionPower (a b : ℚ) : Except Refusal (Value ℝ E) :=
  if b.den = 1 then integerPower a b.num else floatPower a b

/-- `**`. Where a fraction meets an expression, its own `__pow__` and `__rpow__` make an
integer or a float of it. -/
noncomputable def raise (library : Value ℝ E → Value ℝ E → Except Refusal (Value ℝ E)) :
    Value ℝ E → Value ℝ E → Except Refusal (Value ℝ E)
  | .expr e, .fraction b => library (.expr e) (if b.den = 1 then .int b.num else .float b)
  | .fraction a, .expr e => library (.float a) (.expr e)
  | .expr e, v => library (.expr e) v
  | u, .expr e => library u (.expr e)
  | .int a, .int n => if 0 ≤ n then .ok (.int (a ^ n.toNat)) else floatPower a n
  | .int a, .fraction b =>
      if b.den = 1 ∧ 0 ≤ b.num then .ok (.int (a ^ b.num.toNat)) else fractionPower a b
  | .fraction a, .int n => integerPower a n
  | .fraction a, .fraction b => fractionPower a b
  | u, v => floatPower u.number v.number

/-- `abs` keeps the type of a number; the functions of `math` give floats. -/
noncomputable def applyFunction (library : String → Value ℝ E → Except Refusal (Value ℝ E))
    (name : String) : Value ℝ E → Except Refusal (Value ℝ E)
  | .expr e => library name (.expr e)
  | v =>
      if name = "abs" then
        match v with
        | .int n => .ok (.int |n|)
        | .fraction r => .ok (.fraction |r|)
        | v => .ok (.float |v.number|)
      else
        match elementary name v.number with
        | some r => .ok (.float r)
        | none => .error domainError

/-- The numbers of Python in exact arithmetic, and the expressions of the library. -/
noncomputable def exactNumbers (q : Qiskit ℝ E) : Qiskit ℝ E where
  finite := fun _ => true
  pi := Real.pi
  toFloat := q.toFloat
  parameters := q.parameters
  sympify := q.sympify
  symbol := q.symbol
  add := ringOperation (· + ·) (· + ·) (· + ·) q.add
  mul := ringOperation (· * ·) (· * ·) (· * ·) q.mul
  div := divide q.div
  pow := raise q.pow
  apply := applyFunction q.apply
  standard := q.standard

end Numbers

section Library

/-- Different parameters have different names. -/
def Compatible (ps ps' : List Param) : Prop := ∀ p ∈ ps, ∀ p' ∈ ps', p.name = p'.name → p = p'

/-- An operation on two operands, at least one of them an expression and none a fraction:
where its result is defined, it is an expression with that value. -/
def Combines (q : Qiskit ℝ E) (value : E → (Param → ℝ) → Option ℝ)
    (op : Value ℝ E → Value ℝ E → Except Refusal (Value ℝ E)) (f : ℝ → ℝ → Option ℝ) : Prop :=
  ∀ u v, ((∃ e, u = .expr e) ∨ ∃ e, v = .expr e) → u.fraction? = none → v.fraction? = none →
    Compatible (u.parameters q) (v.parameters q) → ∀ b r s t,
      u.worth (value · b) = some r → v.worth (value · b) = some s → f r s = some t →
        ∃ e, op u v = .ok (.expr e) ∧ value e b = some t
          ∧ q.parameters e ⊆ u.parameters q ++ v.parameters q

/-- What is relied on of the parameter expressions: at a binding of their parameters they
have the value of the operations that made them. -/
structure Qiskit.Evaluates (q : Qiskit ℝ E) (value : E → (Param → ℝ) → Option ℝ) : Prop where
  symbol : ∀ p b, value (q.symbol p) b = some (b p)
  symbol_parameters : ∀ p, q.parameters (q.symbol p) = [p]
  add : Combines q value q.add fun r s => some (r + s)
  mul : Combines q value q.mul fun r s => some (r * s)
  div : Combines q value q.div fun r s => if s = 0 then none else some (r / s)
  pow : Combines q value q.pow power
  apply : ∀ name e b r t, value e b = some r → elementary name r = some t →
    ∃ e', q.apply name (.expr e) = .ok (.expr e') ∧ value e' b = some t
      ∧ q.parameters e' ⊆ q.parameters e

end Library

section Decoding

theorem bind_ok {α β : Type} {x : Except Refusal α} {f : α → Except Refusal β} {a : α}
    {y : Except Refusal β} (hx : x = .ok a) (hf : f a = y) : (x >>= f) = y := by
  rw [hx]
  exact hf

theorem elementary_name {name : String} {x t : ℝ} (h : elementary name x = some t) :
    ["sin", "cos", "tan", "exp", "log", "abs", "arcsin", "arccos", "arctan"].contains name
      = true := by
  obtain ⟨f, hf, -⟩ := Option.bind_eq_some_iff.mp h
  have hmem : name ∈ ELEMENTARY.map (·.1) :=
    List.mem_map.mpr ⟨_, Assoc.mem_of_lookup hf, rfl⟩
  exact List.contains_iff_mem.mpr hmem

variable {q : Qiskit ℝ E} {value : E → (Param → ℝ) → Option ℝ} {objects : ℕ → Option Param}
  {b : Param → ℝ}

/-- An object made of known parameters that is worth `r`. -/
structure Worth (q : Qiskit ℝ E) (value : E → (Param → ℝ) → Option ℝ)
    (objects : ℕ → Option Param) (b : Param → ℝ) (v : Value ℝ E) (r : ℝ) : Prop where
  worth : v.worth (value · b) = some r
  known : ∀ p ∈ v.parameters q, ∃ id, objects id = some p

/-- The parameters of a document have different names, as those of a circuit do. -/
def Distinct (objects : ℕ → Option Param) : Prop :=
  ∀ i j p p', objects i = some p → objects j = some p' → p.name = p'.name → p = p'

namespace Worth
variable {u v : Value ℝ E} {r s t : ℝ}

theorem int (n : ℤ) : Worth q value objects b (.int n) n :=
  ⟨rfl, fun _ h => absurd h List.not_mem_nil⟩

theorem fraction (a : ℚ) : Worth q value objects b (.fraction a) a :=
  ⟨rfl, fun _ h => absurd h List.not_mem_nil⟩

theorem float (x : ℝ) : Worth q value objects b (.float x) x :=
  ⟨rfl, fun _ h => absurd h List.not_mem_nil⟩

theorem compatible (hd : Distinct objects) (hu : Worth q value objects b u r)
    (hv : Worth q value objects b v s) : Compatible (u.parameters q) (v.parameters q) := by
  intro p hp p' hp' hname
  obtain ⟨i, hi⟩ := hu.known p hp
  obtain ⟨j, hj⟩ := hv.known p' hp'
  exact hd i j p p' hi hj hname

/-- An operation of the library on objects that are worth something. -/
theorem combines {op : Value ℝ E → Value ℝ E → Except Refusal (Value ℝ E)}
    {f : ℝ → ℝ → Option ℝ} (hop : Combines q value op f) (hd : Distinct objects)
    (hu : Worth q value objects b u r) (hv : Worth q value objects b v s)
    (hexpr : (∃ e, u = .expr e) ∨ ∃ e, v = .expr e) (hnu : u.fraction? = none)
    (hnv : v.fraction? = none) (ht : f r s = some t) :
    ∃ e, op u v = .ok (.expr e) ∧ Worth q value objects b (.expr e) t := by
  obtain ⟨e, hresult, hvalue, hparameters⟩ :=
    hop u v hexpr hnu hnv (hu.compatible hd hv) b r s t hu.worth hv.worth ht
  refine ⟨e, hresult, hvalue, fun p hp => ?_⟩
  exact (List.mem_append.mp (hparameters hp)).elim (hu.known p) (hv.known p)

/-- Sums and products of what is no fraction. -/
theorem ringOperation {ints : ℤ → ℤ → ℤ} {fractions : ℚ → ℚ → ℚ} {f : ℝ → ℝ → ℝ}
    {library : Value ℝ E → Value ℝ E → Except Refusal (Value ℝ E)}
    (hints : ∀ m n, (ints m n : ℝ) = f m n)
    (hlibrary : Combines q value library fun r s => some (f r s)) (hd : Distinct objects)
    (hu : Worth q value objects b u r) (hv : Worth q value objects b v s)
    (hnu : u.fraction? = none) (hnv : v.fraction? = none) :
    ∃ w, Worker.ringOperation ints fractions f library u v = .ok w
      ∧ w.fraction? = none ∧ Worth q value objects b w (f r s) := by
  have hmixed : mixed library u v = library u v := if_neg (by simp [hnu, hnv])
  have hexpression : (∃ e, u = .expr e) ∨ (∃ e, v = .expr e) →
      ∃ e, library u v = .ok (.expr e) ∧ Worth q value objects b (.expr e) (f r s) :=
    fun h => combines hlibrary hd hu hv h hnu hnv rfl
  cases u with
  | expr e =>
      obtain ⟨e', hresult, hw⟩ := hexpression (.inl ⟨e, rfl⟩)
      exact ⟨.expr e', hmixed.trans hresult, rfl, hw⟩
  | fraction a => cases hnu
  | int m =>
      cases hu.worth
      cases v with
      | expr e =>
          obtain ⟨e', hresult, hw⟩ := hexpression (.inr ⟨e, rfl⟩)
          exact ⟨.expr e', hmixed.trans hresult, rfl, hw⟩
      | fraction a => cases hnv
      | int n =>
          cases hv.worth
          exact ⟨.int (ints m n), rfl, rfl, hints m n ▸ int (ints m n)⟩
      | float y =>
          cases hv.worth
          exact ⟨_, rfl, rfl, float _⟩
  | float x =>
      cases hu.worth
      cases v with
      | expr e =>
          obtain ⟨e', hresult, hw⟩ := hexpression (.inr ⟨e, rfl⟩)
          exact ⟨.expr e', hmixed.trans hresult, rfl, hw⟩
      | fraction a => cases hnv
      | int n =>
          cases hv.worth
          exact ⟨_, rfl, rfl, float _⟩
      | float y =>
          cases hv.worth
          exact ⟨_, rfl, rfl, float _⟩

theorem divide (laws : q.Evaluates value) (hd : Distinct objects)
    (hu : Worth q value objects b u r) (hnu : u.fraction? = none) {n : ℤ} (hn : n ≠ 0) :
    ∃ w, Worker.divide q.div u (.int n) = .ok w ∧ Worth q value objects b w (r / n) := by
  have hreal : (n : ℝ) ≠ 0 := Int.cast_ne_zero.mpr hn
  have hnumber : (Value.int n : Value ℝ E).number ≠ 0 := hreal
  cases u with
  | expr e =>
      obtain ⟨e', hresult, hw⟩ := combines laws.div hd hu (int n) (.inl ⟨e, rfl⟩) rfl rfl
        (if_neg hreal)
      exact ⟨.expr e', hresult, hw⟩
  | fraction a => cases hnu
  | int m =>
      cases hu.worth
      exact ⟨.float (m / n), if_neg hnumber, float _⟩
  | float x =>
      cases hu.worth
      exact ⟨_, if_neg hnumber, float _⟩

theorem floatPower {x y : ℝ} (ht : power x y = some t) :
    ∃ w, Worker.floatPower x y = .ok w ∧ Worth q value objects b w t :=
  ⟨.float t, by rw [Worker.floatPower, ht], float t⟩

theorem integerPower {a : ℚ} {n : ℤ} (ht : power a n = some t) :
    ∃ w, Worker.integerPower a n = .ok w ∧ Worth q value objects b w t := by
  have hdefined : ¬ (a = 0 ∧ n < 0) := by
    rintro ⟨rfl, hn⟩
    have hnot : ¬ (0 : ℝ) ≤ n := not_le.mpr (Int.cast_lt_zero.mpr hn)
    simp [power, hnot] at ht
  have hvalue : ((a ^ n : ℚ) : ℝ) = t := by
    rw [Rat.cast_zpow, ← Real.rpow_intCast]
    exact power_eq ht
  exact ⟨.fraction (a ^ n), if_neg hdefined, hvalue ▸ fraction (a ^ n)⟩

theorem cast_eq_num {c : ℚ} (hden : c.den = 1) : (c : ℝ) = c.num := by
  conv_lhs => rw [← Rat.coe_int_num_of_den_eq_one hden]
  norm_cast

theorem fractionPower {a c : ℚ} (ht : power a c = some t) :
    ∃ w, Worker.fractionPower a c = .ok w ∧ Worth q value objects b w t := by
  by_cases hden : c.den = 1
  · rw [cast_eq_num hden] at ht
    obtain ⟨w, hresult, hw⟩ := integerPower (q := q) ht
    exact ⟨w, (if_pos hden).trans hresult, hw⟩
  · obtain ⟨w, hresult, hw⟩ := floatPower (q := q) ht
    exact ⟨w, (if_neg hden).trans hresult, hw⟩

theorem intPower {m n : ℤ} (hn : 0 ≤ n) (ht : power m n = some t) :
    Worth q value objects b (.int (m ^ n.toNat)) t := by
  have hvalue : ((m ^ n.toNat : ℤ) : ℝ) = t := by
    lift n to ℕ using hn
    rw [← power_eq ht, Real.rpow_intCast, Int.toNat_natCast, Int.cast_pow, zpow_natCast]
  exact hvalue ▸ int (m ^ n.toNat)

/-- What a fraction is made into where it is an exponent of an expression. -/
theorem exponent (c : ℚ) :
    Worth q value objects b (if c.den = 1 then .int c.num else .float c) c := by
  by_cases hden : c.den = 1
  · rw [if_pos hden, cast_eq_num hden]
    exact int c.num
  · rw [if_neg hden]
    exact float c

theorem exponent_none (c : ℚ) :
    (if c.den = 1 then .int c.num else .float c : Value ℝ E).fraction? = none := by
  split <;> rfl

/-- Powers of all numbers and expressions. -/
theorem raise (laws : q.Evaluates value) (hd : Distinct objects)
    (hu : Worth q value objects b u r) (hv : Worth q value objects b v s)
    (ht : power r s = some t) :
    ∃ w, Worker.raise q.pow u v = .ok w ∧ Worth q value objects b w t := by
  have hexpression : ∀ u' v', Worth q value objects b u' r → Worth q value objects b v' s →
      ((∃ e, u' = .expr e) ∨ ∃ e, v' = .expr e) → u'.fraction? = none → v'.fraction? = none →
        ∃ w, q.pow u' v' = .ok w ∧ Worth q value objects b w t := by
    intro u' v' hu' hv' hexpr hnu hnv
    obtain ⟨e, hresult, hw⟩ := combines laws.pow hd hu' hv' hexpr hnu hnv ht
    exact ⟨.expr e, hresult, hw⟩
  cases u with
  | expr e =>
      cases v with
      | fraction c =>
          cases hv.worth
          exact hexpression (.expr e) _ hu (exponent c) (.inl ⟨e, rfl⟩) rfl (exponent_none c)
      | expr e' => exact hexpression _ _ hu hv (.inl ⟨e, rfl⟩) rfl rfl
      | int n => exact hexpression _ _ hu hv (.inl ⟨e, rfl⟩) rfl rfl
      | float y => exact hexpression _ _ hu hv (.inl ⟨e, rfl⟩) rfl rfl
  | fraction a =>
      cases hu.worth
      cases v with
      | expr e => exact hexpression (.float a) _ (float _) hv (.inr ⟨e, rfl⟩) rfl rfl
      | int n =>
          cases hv.worth
          exact integerPower ht
      | fraction c =>
          cases hv.worth
          exact fractionPower ht
      | float y =>
          cases hv.worth
          exact floatPower ht
  | int m =>
      cases hu.worth
      cases v with
      | expr e => exact hexpression (.int m) _ (int m) hv (.inr ⟨e, rfl⟩) rfl rfl
      | int n =>
          cases hv.worth
          by_cases hn : 0 ≤ n
          · exact ⟨_, if_pos hn, intPower hn ht⟩
          · obtain ⟨w, hresult, hw⟩ := floatPower (q := q) ht
            exact ⟨w, (if_neg hn).trans hresult, hw⟩
      | fraction c =>
          cases hv.worth
          by_cases hnat : c.den = 1 ∧ 0 ≤ c.num
          · rw [cast_eq_num hnat.1] at ht
            exact ⟨_, if_pos hnat, intPower hnat.2 ht⟩
          · obtain ⟨w, hresult, hw⟩ := fractionPower (q := q) (a := (m : ℚ)) (by simpa using ht)
            exact ⟨w, (if_neg hnat).trans hresult, hw⟩
      | float y =>
          cases hv.worth
          exact floatPower ht
  | float x =>
      cases hu.worth
      cases v with
      | expr e => exact hexpression _ _ hu hv (.inr ⟨e, rfl⟩) rfl rfl
      | int n =>
          cases hv.worth
          exact floatPower ht
      | fraction c =>
          cases hv.worth
          exact floatPower ht
      | float y =>
          cases hv.worth
          exact floatPower ht

theorem elementary_abs (x : ℝ) : elementary "abs" x = some |x| := by
  simp [elementary, ELEMENTARY, List.lookup]

/-- `abs`, `math` and the methods of an expression. -/
theorem applyFunction (laws : q.Evaluates value) {name : String}
    (hu : Worth q value objects b u r) (ht : elementary name r = some t) :
    ∃ w, Worker.applyFunction q.apply name u = .ok w ∧ Worth q value objects b w t := by
  have hmath : (match elementary name r with
      | some x => .ok (.float x)
      | none => .error domainError : Except Refusal (Value ℝ E)) = .ok (.float t) := by
    rw [ht]
  have habs : name = "abs" → |r| = t := by
    intro hname
    rw [hname, elementary_abs] at ht
    exact Option.some.inj ht
  cases u with
  | expr e =>
      obtain ⟨e', hresult, hvalue, hparameters⟩ := laws.apply name e b r t hu.worth ht
      exact ⟨.expr e', hresult, hvalue, fun p hp => hu.known p (hparameters hp)⟩
  | int n =>
      cases hu.worth
      by_cases hname : name = "abs"
      · have hvalue : ((|n| : ℤ) : ℝ) = t := by rw [← habs hname, Int.cast_abs]
        exact ⟨_, if_pos hname, hvalue ▸ int |n|⟩
      · exact ⟨_, (if_neg hname).trans hmath, float t⟩
  | fraction a =>
      cases hu.worth
      by_cases hname : name = "abs"
      · have hvalue : ((|a| : ℚ) : ℝ) = t := by rw [← habs hname, Rat.cast_abs]
        exact ⟨_, if_pos hname, hvalue ▸ fraction |a|⟩
      · exact ⟨_, (if_neg hname).trans hmath, float t⟩
  | float x =>
      cases hu.worth
      by_cases hname : name = "abs"
      · exact ⟨_, if_pos hname, habs hname ▸ float _⟩
      · exact ⟨_, (if_neg hname).trans hmath, float t⟩

/-- An operation keeps its value through a loop over the operands that are no fractions. -/
theorem foldlM {op : Value ℝ E → Value ℝ E → Except Refusal (Value ℝ E)} {f : ℝ → ℝ → ℝ}
    (hop : ∀ u v r s, Worth q value objects b u r → Worth q value objects b v s →
      u.fraction? = none → v.fraction? = none →
        ∃ w, op u v = .ok w ∧ w.fraction? = none ∧ Worth q value objects b w (f r s))
    {values : List (Value ℝ E)} {rs : List ℝ}
    (h : List.Forall₂ (Worth q value objects b) values rs)
    (hnone : ∀ v ∈ values, v.fraction? = none) (hu : Worth q value objects b u r)
    (hnu : u.fraction? = none) :
    ∃ w, values.foldlM op u = .ok w ∧ w.fraction? = none
      ∧ Worth q value objects b w (rs.foldl f r) := by
  induction h generalizing u r with
  | nil => exact ⟨u, rfl, hnu, hu⟩
  | cons hv _ ih =>
      obtain ⟨hnv, hnone⟩ := List.forall_mem_cons.mp hnone
      obtain ⟨w, hw, hnw, hworth⟩ := hop _ _ _ _ hu hv hnu hnv
      obtain ⟨w', hw', hrest⟩ := ih hnone hworth hnw
      refine ⟨w', ?_, hrest⟩
      rw [List.foldlM_cons, hw]
      exact hw'

/-- The fractions among the operands and the others are together all of them. -/
theorem split {values : List (Value ℝ E)} {rs : List ℝ}
    (h : List.Forall₂ (Worth q value objects b) values rs) :
    ∃ os, List.Forall₂ (Worth q value objects b) (Value.others values) os
      ∧ rs.Perm ((values.filterMap (·.fraction?)).map (fun a : ℚ => (a : ℝ)) ++ os) := by
  induction h with
  | nil => exact ⟨[], .nil, .nil⟩
  | @cons v r values rs hv _ ih =>
      obtain ⟨os, hos, hperm⟩ := ih
      cases hfraction : v.fraction? with
      | some a =>
          have hvalue : v = .fraction a := by
            cases v with
            | fraction a' => cases hfraction; rfl
            | int n => cases hfraction
            | float x => cases hfraction
            | expr e => cases hfraction
          subst hvalue
          cases hv.worth
          refine ⟨os, ?_, ?_⟩
          · rwa [Value.others, List.filter_cons_of_neg (by simp [hfraction])]
          · rw [List.filterMap_cons_some hfraction]
            exact hperm.cons _
      | none =>
          refine ⟨r :: os, ?_, ?_⟩
          · rw [Value.others, List.filter_cons_of_pos (by simp [hfraction])]
            exact .cons hv hos
          · rw [List.filterMap_cons_none hfraction]
            exact (hperm.cons r).trans List.perm_middle.symm

theorem others_none {values : List (Value ℝ E)} :
    ∀ v ∈ Value.others values, v.fraction? = none := by
  intro v hv
  simpa [Value.others] using (List.mem_filter.mp hv).2

theorem sum_eq {fractions : List ℚ} {rs os : List ℝ}
    (h : rs.Perm (fractions.map (fun a : ℚ => (a : ℝ)) ++ os)) :
    (os.foldl (· + ·) 0 * (fractions.sum.den : ℤ) + (fractions.sum.num : ℝ))
        / (fractions.sum.den : ℤ) = rs.sum := by
  have hden : ((fractions.sum.den : ℤ) : ℝ) ≠ 0 := by
    exact_mod_cast fractions.sum.den_nz
  have hsum : (fractions.map (fun a : ℚ => (a : ℝ))).sum = (fractions.sum : ℚ) :=
    (map_list_sum (Rat.castHom ℝ) fractions).symm
  have hvalue : (fractions.sum : ℝ) = (fractions.sum.num : ℝ) / (fractions.sum.den : ℤ) := by
    exact_mod_cast (Rat.num_div_den fractions.sum).symm
  rw [h.sum_eq, List.sum_append, hsum, hvalue, ← List.sum_eq_foldl]
  field_simp
  ring

theorem prod_eq {fractions : List ℚ} {rs os : List ℝ}
    (h : rs.Perm (fractions.map (fun a : ℚ => (a : ℝ)) ++ os)) :
    os.foldl (· * ·) 1 * (fractions.prod.num : ℝ) / (fractions.prod.den : ℤ) = rs.prod := by
  have hden : ((fractions.prod.den : ℤ) : ℝ) ≠ 0 := by
    exact_mod_cast fractions.prod.den_nz
  have hprod : (fractions.map (fun a : ℚ => (a : ℝ))).prod = (fractions.prod : ℚ) :=
    (map_list_prod (Rat.castHom ℝ) fractions).symm
  have hvalue : (fractions.prod : ℝ) = (fractions.prod.num : ℝ) / (fractions.prod.den : ℤ) := by
    exact_mod_cast (Rat.num_div_den fractions.prod).symm
  rw [h.prod_eq, List.prod_append, hprod, hvalue, ← List.prod_eq_foldl]
  field_simp

variable {values : List (Value ℝ E)} {rs : List ℝ}

theorem add (laws : q.Evaluates value) (hd : Distinct objects)
    (hu : Worth q value objects b u r) (hv : Worth q value objects b v s)
    (hnu : u.fraction? = none) (hnv : v.fraction? = none) :
    ∃ w, (exactNumbers q).add u v = .ok w ∧ w.fraction? = none
      ∧ Worth q value objects b w (r + s) :=
  ringOperation (f := fun x y => x + y) Int.cast_add laws.add hd hu hv hnu hnv

theorem mul (laws : q.Evaluates value) (hd : Distinct objects)
    (hu : Worth q value objects b u r) (hv : Worth q value objects b v s)
    (hnu : u.fraction? = none) (hnv : v.fraction? = none) :
    ∃ w, (exactNumbers q).mul u v = .ok w ∧ w.fraction? = none
      ∧ Worth q value objects b w (r * s) :=
  ringOperation (f := fun x y => x * y) Int.cast_mul laws.mul hd hu hv hnu hnv

/-- Rational summands are added up on their own, over their common denominator. -/
theorem combineAdd (laws : q.Evaluates value) (hd : Distinct objects)
    (h : List.Forall₂ (Worth q value objects b) values rs) :
    ∃ w, Worker.combineAdd (exactNumbers q) values = .ok w
      ∧ Worth q value objects b w rs.sum := by
  obtain ⟨os, hos, hperm⟩ := split h
  have hzero : Worth q value objects b (.int 0) 0 := by simpa using int (q := q) 0
  obtain ⟨w₁, h₁, hn₁, hw₁⟩ := foldlM (f := fun x y => x + y)
    (fun u v r s hu hv hnu hnv => add laws hd hu hv hnu hnv) hos others_none hzero rfl
  obtain ⟨w₂, h₂, hn₂, hw₂⟩ := mul laws hd hw₁
    (int ((values.filterMap Value.fraction?).sum.den : ℤ)) hn₁ rfl
  obtain ⟨w₃, h₃, hn₃, hw₃⟩ := add laws hd hw₂
    (int (values.filterMap Value.fraction?).sum.num) hn₂ rfl
  obtain ⟨w₄, h₄, hw₄⟩ := divide laws hd hw₃ hn₃
    (Int.natCast_ne_zero.mpr (values.filterMap Value.fraction?).sum.den_nz)
  refine ⟨w₄, ?_, sum_eq hperm ▸ hw₄⟩
  rw [Worker.combineAdd]
  exact bind_ok h₁ (bind_ok h₂ (bind_ok h₃ h₄))

/-- Rational factors are multiplied on their own. -/
theorem combineMul (laws : q.Evaluates value) (hd : Distinct objects)
    (h : List.Forall₂ (Worth q value objects b) values rs) :
    ∃ w, Worker.combineMul (exactNumbers q) values = .ok w
      ∧ Worth q value objects b w rs.prod := by
  obtain ⟨os, hos, hperm⟩ := split h
  have hone : Worth q value objects b (.int 1) 1 := by simpa using int (q := q) 1
  obtain ⟨w₁, h₁, hn₁, hw₁⟩ := foldlM (f := fun x y => x * y)
    (fun u v r s hu hv hnu hnv => mul laws hd hu hv hnu hnv) hos others_none hone rfl
  obtain ⟨w₂, h₂, hn₂, hw₂⟩ := mul laws hd hw₁
    (int (values.filterMap Value.fraction?).prod.num) hn₁ rfl
  obtain ⟨w₃, h₃, hw₃⟩ := divide laws hd hw₂ hn₂
    (Int.natCast_ne_zero.mpr (values.filterMap Value.fraction?).prod.den_nz)
  refine ⟨w₃, ?_, prod_eq hperm ▸ hw₃⟩
  rw [Worker.combineMul]
  exact bind_ok h₁ (bind_ok h₂ h₃)

/-- Every node, by its operation. -/
theorem combine (laws : q.Evaluates value) (hd : Distinct objects) {op : String}
    (h : List.Forall₂ (Worth q value objects b) values rs) (ht : operation op rs = some t) :
    ∃ w, Worker.combine (exactNumbers q) op values = .ok w ∧ Worth q value objects b w t := by
  by_cases hadd : op = "add"
  · rw [operation.eq_def, if_pos hadd] at ht
    cases ht
    obtain ⟨w, hresult, hw⟩ := combineAdd laws hd h
    exact ⟨w, by rw [Worker.combine.eq_def, if_pos hadd, hresult], hw⟩
  by_cases hmul : op = "mul"
  · rw [operation.eq_def, if_neg hadd, if_pos hmul] at ht
    cases ht
    obtain ⟨w, hresult, hw⟩ := combineMul laws hd h
    exact ⟨w, by rw [Worker.combine.eq_def, if_neg hadd, if_pos hmul, hresult], hw⟩
  rw [operation.eq_def, if_neg hadd, if_neg hmul] at ht
  cases h with
  | nil => cases ht
  | @cons u r values rs hu h =>
      cases h with
      | nil =>
          have hname := elementary_name ht
          have hpow : op ≠ "pow" := by
            rintro rfl
            revert hname
            decide
          obtain ⟨w, hresult, hw⟩ := applyFunction laws hu ht
          refine ⟨w, ?_, hw⟩
          rw [Worker.combine.eq_def, if_neg hadd, if_neg hmul]
          exact (if_neg hpow).trans ((if_pos hname).trans hresult)
      | @cons v s values rs hv h =>
          cases h with
          | nil =>
              simp only at ht
              split at ht
              · rename_i hpow
                obtain ⟨w, hresult, hw⟩ := raise laws hd hu hv ht
                refine ⟨w, ?_, hw⟩
                rw [Worker.combine.eq_def, if_neg hadd, if_neg hmul]
                exact (if_pos hpow).trans hresult
              · cases ht
          | cons _ _ => cases ht

end Worth

mutual

theorem decodeTree_worth (laws : q.Evaluates value) (hd : Distinct objects) (tree : Tree ℝ)
    {r : ℝ} (h : tree.value (fun id => (objects id).map b) = some r) :
    ∃ v, decodeTree (exactNumbers q) objects tree = .ok v ∧ Worth q value objects b v r := by
  match tree with
  | .parameter id =>
      rw [Tree.value] at h
      obtain ⟨p, hp, rfl⟩ := Option.map_eq_some_iff.mp h
      refine ⟨.expr (q.symbol p), ?_, laws.symbol p b, fun p' hp' => ?_⟩
      · rw [decodeTree, hp]
        rfl
      · have hparameters : p' ∈ q.parameters (q.symbol p) := hp'
        rw [laws.symbol_parameters, List.mem_singleton] at hparameters
        exact ⟨id, hparameters ▸ hp⟩
  | .integer n =>
      cases h
      exact ⟨_, rfl, .int n⟩
  | .rational p d =>
      rw [Tree.value] at h
      split at h
      · cases h
      · rename_i hd
        cases h
        refine ⟨.fraction (mkRat p d), rfl, ?_⟩
        have hvalue : ((mkRat p d : ℚ) : ℝ) = p / d := by
          rw [Rat.mkRat_eq_div]
          push_cast
          rfl
        exact hvalue ▸ .fraction (mkRat p d)
  | .float _ =>
      cases h
      exact ⟨_, rfl, .float r⟩
  | .pi =>
      cases h
      exact ⟨_, rfl, .float Real.pi⟩
  | .node op args =>
      rw [Tree.value] at h
      obtain ⟨rs, hrs, h⟩ := Option.bind_eq_some_iff.mp h
      obtain ⟨values, hvalues, hworth⟩ := decodeTrees_worth laws hd args hrs
      obtain ⟨w, hresult, hw⟩ := Worth.combine laws hd hworth h
      refine ⟨w, ?_, hw⟩
      rw [decodeTree]
      exact bind_ok hvalues hresult

theorem decodeTrees_worth (laws : q.Evaluates value) (hd : Distinct objects)
    (trees : List (Tree ℝ)) {rs : List ℝ}
    (h : Tree.values (fun id => (objects id).map b) trees = some rs) :
    ∃ values, decodeTrees (exactNumbers q) objects trees = .ok values
      ∧ List.Forall₂ (Worth q value objects b) values rs := by
  match trees with
  | [] =>
      cases h
      exact ⟨[], rfl, .nil⟩
  | tree :: trees =>
      rw [Tree.values] at h
      obtain ⟨r, hr, h⟩ := Option.bind_eq_some_iff.mp h
      obtain ⟨rs, hrs, h⟩ := Option.bind_eq_some_iff.mp h
      cases h
      obtain ⟨v, hv, hworth⟩ := decodeTree_worth laws hd tree hr
      obtain ⟨values, hvalues, hrest⟩ := decodeTrees_worth laws hd trees hrs
      refine ⟨v :: values, ?_, .cons hworth hrest⟩
      rw [decodeTrees]
      exact bind_ok hv (bind_ok hvalues rfl)

end

/-- The decoder preserves values: where a tree is defined, the object built of it has its
value, however rational summands and factors are pulled out. -/
theorem decode_value_preserves (laws : q.Evaluates value) (hd : Distinct objects)
    (tree : Tree ℝ) (b : Param → ℝ) {r : ℝ}
    (h : tree.value (fun id => (objects id).map b) = some r) :
    ∃ v, decode_value (exactNumbers q) objects (.expression tree) = .ok v
      ∧ v.worth (value · b) = some r := by
  obtain ⟨v, hv, hworth⟩ := decodeTree_worth laws hd tree h
  exact ⟨v, hv, hworth.worth⟩

end Decoding

section Closures

/-- Expressions as functions of a binding. -/
structure Closure where
  parameters : List Param
  run : (Param → ℝ) → Option ℝ

noncomputable def Closure.combine (f : ℝ → ℝ → Option ℝ) (u v : Value ℝ Closure)
    (parameters : List Param) : Closure where
  parameters := parameters
  run := fun b => (u.worth (·.run b)).bind fun r => (v.worth (·.run b)).bind fun s => f r s

def Closure.parametersOf : Value ℝ Closure → List Param
  | .expr e => e.parameters
  | _ => []

noncomputable def Closure.operate (f : ℝ → ℝ → Option ℝ) (u v : Value ℝ Closure) :
    Except Refusal (Value ℝ Closure) :=
  .ok (.expr (combine f u v (parametersOf u ++ parametersOf v)))

noncomputable def closures : Qiskit ℝ Closure where
  finite := fun _ => true
  pi := Real.pi
  toFloat := fun v => .ok v.number
  parameters := Closure.parameters
  sympify := fun _ => .func "Closure" []
  symbol := fun p => ⟨[p], fun b => some (b p)⟩
  add := Closure.operate fun r s => some (r + s)
  mul := Closure.operate fun r s => some (r * s)
  div := Closure.operate fun r s => if s = 0 then none else some (r / s)
  pow := Closure.operate power
  apply := fun name v => match v with
    | .expr e => .ok (.expr ⟨e.parameters, fun b => (e.run b).bind (elementary name)⟩)
    | v => .ok v
  standard := fun _ => none

theorem Closure.combines (f : ℝ → ℝ → Option ℝ) :
    Combines closures Closure.run (Closure.operate f) f := by
  intro u v _ _ _ _ b r s t hu hv ht
  refine ⟨_, rfl, ?_, fun p hp => ?_⟩
  · change (u.worth (·.run b)).bind (fun r => (v.worth (·.run b)).bind fun s => f r s) = some t
    rw [hu, Option.bind_some, hv, Option.bind_some, ht]
  · cases u <;> cases v <;> exact hp

theorem closures_evaluate : closures.Evaluates Closure.run where
  symbol := fun _ _ => rfl
  symbol_parameters := fun _ => rfl
  add := Closure.combines _
  mul := Closure.combines _
  div := Closure.combines _
  pow := Closure.combines _
  apply := by
    intro name e b r t hr ht
    refine ⟨_, rfl, ?_, fun p hp => hp⟩
    change (e.run b).bind (elementary name) = some t
    rw [hr, Option.bind_some, ht]

def theta : ℕ → Option Param
  | 0 => some ⟨"theta", 0⟩
  | _ + 1 => none

/-- `1/2 + 2/3 * theta * 3/4`, where `theta` is two. -/
theorem decode_value_preserves_sum :
    ∃ v, decode_value (exactNumbers closures) theta
        (.expression (.node "add" [.rational 1 2,
          .node "mul" [.rational 2 3, .parameter 0, .rational 3 4]])) = .ok v
      ∧ v.worth (Closure.run · fun _ => 2) = some (3 / 2) := by
  refine decode_value_preserves closures_evaluate ?_ _ _ ?_
  · intro i j p p' hi hj _
    cases i <;> cases hi
    cases j <;> cases hj
    rfl
  · simp [Tree.value, Tree.values, operation.eq_def, theta]
    norm_num

end Closures
end TranspileBench.Worker
