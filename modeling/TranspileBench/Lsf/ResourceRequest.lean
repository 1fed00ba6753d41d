import Mathlib.Data.Int.Log
import Mathlib.Data.List.DropRight
import TranspileBench.Lib.Fallible
import TranspileBench.Lsf.CostEvidence
import TranspileBench.Lsf.Ledger

/-!
The resource request of a job (`bsub -R`), and what a launch accepts as the hardware of the
cost stage.
-/
namespace TranspileBench.Lsf

/-- A float of Python; the finite ones are exact rationals. -/
inductive FloatValue
  | finite (value : ℚ)
  | infinity (negative : Bool)
  | nan
  deriving DecidableEq

/-- `value > 0`. -/
def FloatValue.positive : FloatValue → Bool
  | .finite value => 0 < value
  | .infinity negative => !negative
  | .nan => false

section FormatG

/-- Trailing zeros are not printed. -/
def stripZeros (digits : List Char) : List Char := digits.rdropWhile (· == '0')

def pointed (whole frac : List Char) : List Char :=
  whole ++ if stripZeros frac = [] then [] else '.' :: stripZeros frac

/-- Six significant digits, and the power of ten of the first. -/
def significant (q : ℚ) : ℤ × List Char :=
  let e := Int.log 10 q
  let m := (roundHalfEven (q / 10 ^ (e - 5))).toNat
  if m = 10 ^ 6 then (e + 1, Nat.toDigits 10 (10 ^ 5)) else (e, Nat.toDigits 10 m)

def exponentText (e : ℤ) : List Char :=
  let digits := Nat.toDigits 10 e.natAbs
  'e' :: (if e < 0 then '-' else '+') :: (if digits.length < 2 then '0' :: digits else digits)

def formatPositive (q : ℚ) : List Char :=
  let (e, digits) := significant q
  if e < -4 ∨ 6 ≤ e then pointed (digits.take 1) (digits.drop 1) ++ exponentText e
  else if 0 ≤ e then pointed (digits.take (e.toNat + 1)) (digits.drop (e.toNat + 1))
  else pointed ['0'] (List.replicate ((-e).toNat - 1) '0' ++ digits)

/-- `format(value, "g")`. -/
def formatG : FloatValue → List Char
  | .finite value =>
      if value = 0 then ['0']
      else if value < 0 then '-' :: formatPositive (-value)
      else formatPositive value
  | .infinity negative => if negative then ['-', 'i', 'n', 'f'] else ['i', 'n', 'f']
  | .nan => ['n', 'a', 'n']

/-- The characters of a printed float. -/
def floatChar (c : Char) : Bool := c.isDigit || ['.', 'e', '+', '-', 'i', 'n', 'f', 'a'].contains c

def Digits (text : List Char) : Prop := ∀ c ∈ text, c.isDigit = true

theorem digits_toDigits (n : ℕ) : Digits (Nat.toDigits 10 n) := by
  intro c hc
  exact Nat.isDigit_of_mem_toDigits (by decide) (by decide) hc

theorem Digits.append {a b : List Char} (ha : Digits a) (hb : Digits b) : Digits (a ++ b) := by
  intro c hc
  exact (List.mem_append.mp hc).elim (ha c) (hb c)

theorem Digits.sublist {a b : List Char} (hb : Digits b) (h : List.Sublist a b) : Digits a :=
  fun c hc => hb c (h.subset hc)

theorem digits_stripZeros {text : List Char} (h : Digits text) : Digits (stripZeros text) :=
  h.sublist (List.rdropWhile_prefix _ text).sublist

theorem digits_significant (q : ℚ) : Digits (significant q).2 := by
  simp only [significant]
  split
  · exact digits_toDigits (10 ^ 5)
  · exact digits_toDigits _

/-- A printed number is a pointed decimal, with an exponent or without. -/
theorem formatPositive_shape (q : ℚ) :
    ∃ whole frac, Digits whole ∧ Digits frac ∧
      (formatPositive q = pointed whole frac
        ∨ ∃ e, formatPositive q = pointed whole frac ++ exponentText e) := by
  have hdigits := digits_significant q
  simp only [formatPositive]
  split
  · exact ⟨_, _, hdigits.sublist (List.take_sublist _ _), hdigits.sublist (List.drop_sublist _ _),
      .inr ⟨_, rfl⟩⟩
  · split
    · exact ⟨_, _, hdigits.sublist (List.take_sublist _ _),
        hdigits.sublist (List.drop_sublist _ _), .inl rfl⟩
    · refine ⟨_, _, ?_, Digits.append ?_ hdigits, .inl rfl⟩
      · intro c hc
        rw [List.mem_singleton.mp hc]
        rfl
      · intro c hc
        rw [List.eq_of_mem_replicate hc]
        rfl

theorem floatChar_digits {text : List Char} (h : Digits text) : ∀ c ∈ text, floatChar c = true := by
  intro c hc
  simp [floatChar, h c hc]

theorem floatChar_pointed {whole frac : List Char} (hwhole : Digits whole) (hfrac : Digits frac) :
    ∀ c ∈ pointed whole frac, floatChar c = true := by
  intro c hc
  rcases List.mem_append.mp hc with hc | hc
  · exact floatChar_digits hwhole c hc
  · split at hc
    · cases hc
    · rcases List.mem_cons.mp hc with rfl | hc
      · rfl
      · exact floatChar_digits (digits_stripZeros hfrac) c hc

theorem floatChar_exponentText (e : ℤ) : ∀ c ∈ exponentText e, floatChar c = true := by
  have hdigits := floatChar_digits (digits_toDigits e.natAbs)
  intro c hc
  simp only [exponentText, List.mem_cons] at hc
  rcases hc with rfl | rfl | hc
  · rfl
  · split <;> rfl
  · split at hc
    · rcases List.mem_cons.mp hc with rfl | hc
      · rfl
      · exact hdigits c hc
    · exact hdigits c hc

theorem floatChar_formatPositive (q : ℚ) : ∀ c ∈ formatPositive q, floatChar c = true := by
  intro c hc
  obtain ⟨whole, frac, hwhole, hfrac, h | ⟨e, h⟩⟩ := formatPositive_shape q
  · rw [h] at hc
    exact floatChar_pointed hwhole hfrac c hc
  · rw [h] at hc
    exact (List.mem_append.mp hc).elim (floatChar_pointed hwhole hfrac c)
      (floatChar_exponentText e c)

theorem floatChar_formatG (value : FloatValue) : ∀ c ∈ formatG value, floatChar c = true := by
  cases value with
  | finite q =>
      simp only [formatG]
      split
      · exact List.all_eq_true.mp rfl
      · split
        · exact List.forall_mem_cons.mpr ⟨rfl, floatChar_formatPositive _⟩
        · exact floatChar_formatPositive q
  | infinity negative => cases negative <;> exact List.all_eq_true.mp rfl
  | nan => exact List.all_eq_true.mp rfl

end FormatG

/-- `cost_selector` of a launch. -/
structure Selector where
  model : Option String
  ncpus : Option ℕ
  max_r1m : Option FloatValue

def EndsInNewline (text : String) : Prop := text.toList.getLast? = some '\n'

instance decidableEndsInNewline (text : String) : Decidable (EndsInNewline text) :=
  inferInstanceAs (Decidable (_ = _))

/-- `HOST_NAME` and `MODEL` are patterns of a whole line: `$` also stands before a newline
that ends the text. -/
def line (text : String) : List Char :=
  if EndsInNewline text then text.toList.dropLast else text.toList

def nameChar (c : Char) : Bool := c.isAlphanum || ['.', '_', '-'].contains c

/-- `HOST_NAME.match(host)`. -/
def hostNameMatches (host : String) : Bool :=
  match line host with
  | c :: rest => c.isAlphanum && rest.all nameChar
  | [] => false

/-- `MODEL.match(model)`. -/
def modelMatches (model : String) : Bool := line model != [] && (line model).all nameChar

section Request

def hostTerm (host : String) : Except String String :=
  if hostNameMatches host then .ok ("hname != " ++ host)
  else .error ("Invalid host name " ++ quoted (some host) ++ " to exclude")

/-- A model that is empty is no term. -/
def modelTerm : Option String → List String
  | some model => if model = "" then [] else ["model == " ++ model]
  | none => []

def Selector.terms (selector : Selector) : List String :=
  (selector.max_r1m.map fun limit => "r1m < " ++ String.ofList (formatG limit)).toList
    ++ modelTerm selector.model
    ++ (selector.ncpus.map fun ncpus => "ncpus == " ++ toString ncpus).toList

def rusage (mem_gb : FloatValue) : String := "rusage[mem=" ++ String.ofList (formatG mem_gb) ++ "]"

/-- `resource_request`: the `-R` string, or the text of a `ValueError`. -/
def resourceRequest (kind : Job) (mem_gb : FloatValue) (selector : Selector)
    (exclude_hosts : List String) : Except String String :=
  match kind with
  | .cost => do
      let hosts ← exclude_hosts.mapM hostTerm
      let terms := selector.terms ++ hosts
      return " ".intercalate
        ((if terms = [] then [] else ["select[" ++ " && ".intercalate terms ++ "]"])
          ++ ["span[hosts=1]", "affinity[core(1,exclusive=(core,alljobs))]", rusage mem_gb])
  | _ => return " ".intercalate ["span[hosts=1]", rusage mem_gb]

end Request

section Launch

/-- The options of a launch that choose the hardware of the cost stage. -/
structure CostOptions where
  cost_model : Option String
  cost_ncpus : Option ℤ
  cost_max_r1m : FloatValue

/-- What a launch records of them. -/
structure CostLaunch where
  cost_selector : Selector
  tier : Tier

/-- The checks of these options in `resolve`; the text is that of `Refused`. -/
def resolveCost (args : CostOptions) : Except String CostLaunch :=
  if args.cost_model = none ∧ args.cost_ncpus = none then
    .error "choose the approved cost hardware tier: --cost-model and/or --cost-ncpus"
  else if args.cost_model.any (!modelMatches ·) then
    .error ("invalid --cost-model " ++ quoted args.cost_model)
  else if args.cost_ncpus.any (· ≤ (COST_SLOTS : ℤ)) then
    .error ("--cost-ncpus must exceed the " ++ toString COST_SLOTS ++ " cores cost reserves")
  else if !args.cost_max_r1m.positive then .error "--cost-max-r1m must be positive"
  else
    let ncpus := args.cost_ncpus.map Int.toNat
    .ok ⟨⟨args.cost_model, ncpus, some args.cost_max_r1m⟩, ⟨args.cost_model, ncpus⟩⟩

end Launch

end TranspileBench.Lsf
