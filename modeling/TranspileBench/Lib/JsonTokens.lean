import Mathlib
import TranspileBench.Lib.Reading

/-!
The strings and the numbers of JSON texts, printed and read. Text is a list of characters, so a
lone surrogate has no place in it and its escape is refused. Digits are those of ASCII.
-/
namespace Json
open Reading

def quote : Char := '\x22'
def backslash : Char := '\x5c'

/-! ## Strings -/

/-- The letters of the characters that have an escape of their own. -/
def letters : List (Char × Char) :=
  [(quote, quote), (backslash, backslash), ('\x08', 'b'), ('\x0c', 'f'), ('\n', 'n'),
    ('\r', 'r'), ('\t', 't')]

/-- The characters of the letters behind a backslash. -/
def unescapes : List (Char × Char) :=
  [(quote, quote), (backslash, backslash), ('/', '/'), ('b', '\x08'), ('f', '\x0c'),
    ('n', '\n'), ('r', '\r'), ('t', '\t')]

/-- A character inside quotes; all but the control characters stand for themselves. -/
def escape (c : Char) : List Char :=
  match letters.lookup c with
  | some letter => [backslash, letter]
  | none =>
      if c.toNat < 0x20 then
        [backslash, 'u', '0', '0', (c.toNat / 16).digitChar, (c.toNat % 16).digitChar]
      else [c]

def quoted (s : List Char) : List Char := quote :: (s.flatMap escape ++ [quote])

def hexValue (c : Char) : Option ℕ :=
  if '0' ≤ c ∧ c ≤ '9' then some (c.toNat - '0'.toNat)
  else if 'a' ≤ c ∧ c ≤ 'f' then some (c.toNat - 'a'.toNat + 10)
  else if 'A' ≤ c ∧ c ≤ 'F' then some (c.toNat - 'A'.toNat + 10)
  else none

def hex4 : Reader Char ℕ
  | a :: b :: c :: d :: rest =>
      (hexValue a).bind fun a => (hexValue b).bind fun b => (hexValue c).bind fun c =>
        (hexValue d).map fun d => (((a * 16 + b) * 16 + c) * 16 + d, rest)
  | _ => none

/-- Four hexadecimal digits, or a pair of surrogates. -/
def unicodeEscape : Reader Char Char := fun text =>
  (hex4 text).bind fun high =>
    if 0xd800 ≤ high.1 ∧ high.1 ≤ 0xdbff then
      (high.2.dropPrefix? [backslash, 'u']).bind fun behind => (hex4 behind).bind fun low =>
        if 0xdc00 ≤ low.1 ∧ low.1 ≤ 0xdfff then
          some (Char.ofNat (0x10000 + (high.1 - 0xd800) * 0x400 + (low.1 - 0xdc00)), low.2)
        else none
    else if 0xdc00 ≤ high.1 ∧ high.1 ≤ 0xdfff then none
    else some (Char.ofNat high.1, high.2)

def escaped : Reader Char Char
  | [] => none
  | c :: rest => if c = 'u' then unicodeEscape rest else (unescapes.lookup c).map (·, rest)

/-- A character of a string, or its closing quote. -/
def characterRound : Reader Char (Round Char)
  | [] => none
  | c :: rest =>
      if c = quote then some (.close, rest)
      else if c = backslash then (escaped rest).map fun out => (.next out.1, out.2)
      else if c.toNat < 0x20 then none
      else some (.next c, rest)

/-- A string, behind its opening quote. -/
def scanString : Reader Char (List Char) := fun text => loop characterRound text.length text

theorem hexValue_digitChar : ∀ d < 16, hexValue d.digitChar = some d := by decide

theorem unescapes_letters :
    letters.all (fun e => e.2 ≠ 'u' ∧ unescapes.lookup e.2 = some e.1) = true := by decide

theorem letters_special : letters.lookup quote = some quote
    ∧ letters.lookup backslash = some backslash := by decide

/-- A character is read back, whatever follows it. -/
theorem characterRound_escape (c : Char) (t : List Char) :
    characterRound (escape c ++ t) = some (.next c, t) := by
  have hback : backslash ≠ quote := by decide
  rw [escape]
  cases hletter : letters.lookup c with
  | some letter =>
      have hmem : (c, letter) ∈ letters := by
        obtain ⟨l, r, hsplit, _⟩ := List.lookup_eq_some_iff.mp hletter
        rw [hsplit]
        exact List.mem_append_right l List.mem_cons_self
      obtain ⟨hu, hread⟩ := of_decide_eq_true (List.all_eq_true.mp unescapes_letters _ hmem)
      change characterRound (backslash :: letter :: t) = _
      rw [characterRound, if_neg hback, if_pos rfl, escaped, if_neg hu, hread]
      rfl
  | none =>
      dsimp only
      split
      · rename_i hcontrol
        have hhigh : hexValue (c.toNat / 16).digitChar = some (c.toNat / 16) :=
          hexValue_digitChar _ (by omega)
        have hlow : hexValue (c.toNat % 16).digitChar = some (c.toNat % 16) :=
          hexValue_digitChar _ (by omega)
        have hzero : hexValue '0' = some 0 := by decide
        have hvalue : ((0 * 16 + 0) * 16 + c.toNat / 16) * 16 + c.toNat % 16 = c.toNat := by omega
        change characterRound (backslash :: 'u' :: '0' :: '0' :: (c.toNat / 16).digitChar
          :: (c.toNat % 16).digitChar :: t) = _
        rw [characterRound, if_neg hback, if_pos rfl, escaped, if_pos rfl, unicodeEscape, hex4,
          hzero, hhigh, hlow]
        simp only [Option.bind_some, Option.map_some, hvalue]
        rw [if_neg (by omega), if_neg (by omega), Option.map_some, Char.ofNat_toNat]
      · rename_i hplain
        have hquote : c ≠ quote := by
          intro heq
          rw [heq, letters_special.1] at hletter
          cases hletter
        have hslash : c ≠ backslash := by
          intro heq
          rw [heq, letters_special.2] at hletter
          cases hletter
        change characterRound (c :: t) = _
        rw [characterRound, if_neg hquote, if_neg hslash, if_neg hplain]

theorem escape_ne_nil (c : Char) : escape c ≠ [] := by
  rw [escape]
  cases letters.lookup c with
  | some letter => exact List.cons_ne_nil _ _
  | none =>
      dsimp only
      split <;> exact List.cons_ne_nil _ _

theorem scanString_escape (s rest : List Char) :
    scanString (s.flatMap escape ++ ([quote] ++ rest)) = some (s, rest) := by
  apply loop_flatMap
  · exact fun c _ t => characterRound_escape c t
  · exact (characterRound.eq_def _).trans (if_pos rfl)
  · have hlen := List.length_le_sum_of_one_le (s.map fun c => (escape c).length) fun n hn => by
      obtain ⟨c, _, rfl⟩ := List.mem_map.mp hn
      exact List.length_pos_of_ne_nil (escape_ne_nil c)
    rw [List.length_map, ← List.length_flatMap] at hlen
    rw [List.length_append, List.length_append, List.length_singleton]
    omega

/-! ## Numbers -/

/-- The text of a number in its parts: the digits before the point, those behind it, and the
exponent with its letter and sign. -/
structure NumberText where
  negative : Bool
  whole : List Char
  fraction : List Char
  exponent : List Char

namespace NumberText

def text (n : NumberText) : List Char :=
  (if n.negative then ['-'] else []) ++ (n.whole
    ++ ((if n.fraction = [] then [] else '.' :: n.fraction) ++ n.exponent))

/-- The number is read as a float. -/
def IsFloat (n : NumberText) : Prop := n.fraction ≠ [] ∨ n.exponent ≠ []

instance decidableIsFloat (n : NumberText) : Decidable n.IsFloat :=
  inferInstanceAs (Decidable (n.fraction ≠ [] ∨ n.exponent ≠ []))

def toInt (n : NumberText) : ℤ :=
  if n.negative then -(Nat.ofDigitChars 10 n.whole 0 : ℤ) else Nat.ofDigitChars 10 n.whole 0

def Digits (s : List Char) : Prop := ∀ c ∈ s, c.isDigit = true

/-- The parts are those of a JSON number: no leading zero, an exponent with digits. -/
structure WellFormed (n : NumberText) : Prop where
  whole : n.whole = ['0'] ∨ ∃ c s, n.whole = c :: s ∧ c ≠ '0' ∧ Digits (c :: s)
  fraction : Digits n.fraction
  exponent : n.exponent = [] ∨ ∃ letter sign s, n.exponent = letter :: (sign ++ s)
    ∧ (letter = 'e' ∨ letter = 'E') ∧ (sign = [] ∨ sign = ['+'] ∨ sign = ['-'])
    ∧ Digits s ∧ s ≠ []

end NumberText

def intText (i : ℤ) : NumberText where
  negative := decide (i < 0)
  whole := Nat.toDigits 10 i.natAbs
  fraction := []
  exponent := []

def scanMinus : List Char → Bool × List Char
  | [] => (false, [])
  | c :: rest => if c = '-' then (true, rest) else (false, c :: rest)

def scanWhole : Reader Char (List Char)
  | [] => none
  | c :: rest =>
      if c = '0' then some ([c], rest)
      else if c.isDigit then some (c :: rest.takeWhile Char.isDigit, rest.dropWhile Char.isDigit)
      else none

/-- The digits behind a point; a point without digits is left where it is. -/
def scanFraction : List Char → List Char × List Char
  | [] => ([], [])
  | c :: rest =>
      if c = '.' ∧ rest.takeWhile Char.isDigit ≠ [] then
        (rest.takeWhile Char.isDigit, rest.dropWhile Char.isDigit)
      else ([], c :: rest)

def scanSign : List Char → List Char × List Char
  | [] => ([], [])
  | c :: rest => if c = '+' ∨ c = '-' then ([c], rest) else ([], c :: rest)

/-- An exponent; a letter without digits is left where it is. -/
def scanExponent : List Char → List Char × List Char
  | [] => ([], [])
  | c :: rest =>
      if (c = 'e' ∨ c = 'E') ∧ (scanSign rest).2.takeWhile Char.isDigit ≠ [] then
        (c :: ((scanSign rest).1 ++ (scanSign rest).2.takeWhile Char.isDigit),
          (scanSign rest).2.dropWhile Char.isDigit)
      else ([], c :: rest)

def scanNumber : Reader Char NumberText := fun text =>
  (scanWhole (scanMinus text).2).map fun whole =>
    let fraction := scanFraction whole.2
    let exponent := scanExponent fraction.2
    (⟨(scanMinus text).1, whole.1, fraction.1, exponent.1⟩, exponent.2)

/-- The text does not go on with a number. -/
def Stops (t : List Char) : Prop :=
  ∀ c ∈ t.head?, c.isDigit = false ∧ c ≠ '.' ∧ c ≠ 'e' ∧ c ≠ 'E'

open NumberText (Digits)

theorem takeWhile_digits {s t : List Char} (hs : Digits s)
    (ht : ∀ c ∈ t.head?, c.isDigit = false) : (s ++ t).takeWhile Char.isDigit = s := by
  rw [List.takeWhile_append_of_pos hs]
  cases t with
  | nil => rw [List.takeWhile_nil, List.append_nil]
  | cons c t =>
      rw [List.takeWhile_cons_of_neg (by simp [ht c rfl]), List.append_nil]

theorem dropWhile_digits {s t : List Char} (hs : Digits s)
    (ht : ∀ c ∈ t.head?, c.isDigit = false) : (s ++ t).dropWhile Char.isDigit = t := by
  rw [List.dropWhile_append_of_pos hs]
  cases t with
  | nil => rfl
  | cons c t => rw [List.dropWhile_cons_of_neg (by simp [ht c rfl])]

theorem scanWhole_text {s t : List Char}
    (hs : s = ['0'] ∨ ∃ c r, s = c :: r ∧ c ≠ '0' ∧ Digits (c :: r))
    (ht : ∀ c ∈ t.head?, c.isDigit = false) : scanWhole (s ++ t) = some (s, t) := by
  cases hs with
  | inl hzero =>
      rw [hzero]
      rfl
  | inr hdigits =>
      obtain ⟨c, r, rfl, hc, hall⟩ := hdigits
      obtain ⟨hdigit, hr⟩ := List.forall_mem_cons.mp hall
      rw [List.cons_append, scanWhole, if_neg hc, if_pos hdigit, takeWhile_digits hr ht,
        dropWhile_digits hr ht]

theorem scanFraction_text {s t : List Char} (hs : Digits s)
    (ht : ∀ c ∈ t.head?, c.isDigit = false ∧ c ≠ '.') :
    scanFraction ((if s = [] then [] else '.' :: s) ++ t) = (s, t) := by
  have hstop : ∀ c ∈ t.head?, c.isDigit = false := fun c hc => (ht c hc).1
  by_cases hnil : s = []
  · rw [if_pos hnil, List.nil_append, hnil]
    cases t with
    | nil => rfl
    | cons c t => rw [scanFraction, if_neg fun h => (ht c rfl).2 h.1]
  · rw [if_neg hnil, List.cons_append, scanFraction, takeWhile_digits hs hstop,
      dropWhile_digits hs hstop, if_pos ⟨rfl, hnil⟩]

theorem scanSign_text {sign s t : List Char} (hsign : sign = [] ∨ sign = ['+'] ∨ sign = ['-'])
    (hs : Digits s) (hne : s ≠ []) : scanSign (sign ++ (s ++ t)) = (sign, s ++ t) := by
  obtain rfl | rfl | rfl := hsign
  · obtain ⟨c, r, rfl⟩ := List.exists_cons_of_ne_nil hne
    have hdigit := hs c List.mem_cons_self
    have hplus : ¬(c = '+' ∨ c = '-') := by
      intro h
      cases h with
      | inl heq => exact absurd (heq ▸ hdigit) (by decide)
      | inr heq => exact absurd (heq ▸ hdigit) (by decide)
    rw [List.nil_append, List.cons_append, scanSign, if_neg hplus]
  · rfl
  · rfl

theorem scanExponent_text {n : NumberText} (hn : n.WellFormed) {t : List Char} (ht : Stops t) :
    scanExponent (n.exponent ++ t) = (n.exponent, t) := by
  obtain hnil | ⟨letter, sign, s, hexp, hletter, hsign, hs, hne⟩ := hn.exponent
  · rw [hnil, List.nil_append]
    cases t with
    | nil => rfl
    | cons c t =>
        have hc := ht c rfl
        rw [scanExponent, if_neg fun h => h.1.elim hc.2.2.1 hc.2.2.2]
  · have hstop : ∀ c ∈ t.head?, c.isDigit = false := fun c hc => (ht c hc).1
    rw [hexp, List.cons_append, List.append_assoc, scanExponent, scanSign_text hsign hs hne,
      takeWhile_digits hs hstop, dropWhile_digits hs hstop, if_pos ⟨hletter, hne⟩]

/-- A number is read back when the text does not go on with it. -/
theorem scanNumber_text {n : NumberText} (hn : n.WellFormed) {t : List Char} (ht : Stops t) :
    scanNumber (n.text ++ t) = some (n, t) := by
  have hexponent : ∀ c ∈ (n.exponent ++ t).head?, c.isDigit = false ∧ c ≠ '.' := by
    intro c hc
    obtain hnil | ⟨letter, sign, s, hexp, hletter, _⟩ := hn.exponent
    · rw [hnil, List.nil_append] at hc
      exact ⟨(ht c hc).1, (ht c hc).2.1⟩
    · rw [hexp] at hc
      cases hc
      cases hletter with
      | inl heq => subst heq; decide
      | inr heq => subst heq; decide
  have hfraction : ∀ c ∈ ((if n.fraction = [] then [] else '.' :: n.fraction)
      ++ (n.exponent ++ t)).head?, c.isDigit = false := by
    intro c hc
    split at hc
    · exact (hexponent c hc).1
    · cases hc
      rfl
  have hminus : ∀ r, scanMinus ((if n.negative then ['-'] else []) ++ (n.whole ++ r))
      = (n.negative, n.whole ++ r) := by
    intro r
    cases n.negative with
    | true => rfl
    | false =>
        obtain hzero | ⟨c, s, hwhole, _, hdigits⟩ := hn.whole
        · rw [hzero]
          rfl
        · have hne : c ≠ '-' := by
            intro heq
            exact absurd (hdigits c List.mem_cons_self) (heq ▸ by decide)
          rw [hwhole]
          exact if_neg hne
  rw [NumberText.text, List.append_assoc, List.append_assoc, List.append_assoc, scanNumber,
    hminus, scanWhole_text hn.whole hfraction, Option.map_some]
  dsimp only
  rw [scanFraction_text hn.fraction hexponent, scanExponent_text hn ht]

/-! ## Integers -/

theorem toDigits_head (n : ℕ) :
    Nat.toDigits 10 n = ['0'] ∨ ∃ c s, Nat.toDigits 10 n = c :: s ∧ c ≠ '0' := by
  induction n using Nat.strong_induction_on with
  | _ n ih =>
      by_cases hn : n < 10
      · rw [Nat.toDigits_of_lt_base hn]
        by_cases hzero : n = 0
        · exact .inl (by rw [hzero]; rfl)
        · have hdigit : ∀ d < 10, d ≠ 0 → d.digitChar ≠ '0' := by decide
          exact .inr ⟨_, [], rfl, hdigit n hn hzero⟩
      · right
        rw [Nat.toDigits_of_base_le (by decide) (by omega)]
        obtain hzero | ⟨c, s, hcs, hc⟩ := ih (n / 10) (by omega)
        · have hvalue := @Nat.ofDigitChars_ten_toDigits (n / 10)
          rw [hzero] at hvalue
          have : n / 10 = 0 := hvalue.symm
          omega
        · exact ⟨c, s ++ [(n % 10).digitChar], by rw [hcs]; rfl, hc⟩

theorem intText_wellFormed (i : ℤ) : (intText i).WellFormed where
  whole := by
    apply (toDigits_head i.natAbs).imp id
    intro ⟨c, s, hcs, hc⟩
    refine ⟨c, s, hcs, hc, fun d hd => ?_⟩
    rw [← hcs] at hd
    exact Nat.isDigit_of_mem_toDigits (by decide) le_rfl hd
  fraction := fun _ h => absurd h List.not_mem_nil
  exponent := .inl rfl

theorem toInt_intText (i : ℤ) : (intText i).toInt = i := by
  rw [NumberText.toInt, intText]
  dsimp only
  rw [Nat.ofDigitChars_ten_toDigits]
  by_cases h : i < 0
  · rw [if_pos (decide_eq_true h)]
    omega
  · rw [if_neg (by simpa using h)]
    omega

theorem intText_not_isFloat (i : ℤ) : ¬(intText i).IsFloat := fun h => h.elim (· rfl) (· rfl)

/-! ## Printed text holds no control characters -/

def Printable (s : List Char) : Prop := ∀ c ∈ s, 0x20 ≤ c.toNat

theorem Printable.append {s t : List Char} (hs : Printable s) (ht : Printable t) :
    Printable (s ++ t) := List.forall_mem_append.mpr ⟨hs, ht⟩

theorem Printable.cons {c : Char} {s : List Char} (hc : 0x20 ≤ c.toNat) (hs : Printable s) :
    Printable (c :: s) := List.forall_mem_cons.mpr ⟨hc, hs⟩

theorem Printable.nil : Printable [] := fun _ h => absurd h List.not_mem_nil

theorem printable_of_all {s : List Char} (h : (s.all fun c => 0x20 ≤ c.toNat) = true) :
    Printable s := fun c hc => of_decide_eq_true (List.all_eq_true.mp h c hc)

theorem letters_printable : letters.all (fun e => 0x20 ≤ e.2.toNat) = true := by decide

theorem escape_printable (c : Char) : Printable (escape c) := by
  have hslash : 0x20 ≤ backslash.toNat := by decide
  rw [escape]
  cases hletter : letters.lookup c with
  | some letter =>
      have hmem : (c, letter) ∈ letters := by
        obtain ⟨l, r, hsplit, _⟩ := List.lookup_eq_some_iff.mp hletter
        rw [hsplit]
        exact List.mem_append_right l List.mem_cons_self
      have hprintable := of_decide_eq_true (List.all_eq_true.mp letters_printable _ hmem)
      exact .cons hslash (.cons hprintable .nil)
  | none =>
      dsimp only
      split
      · have hdigit : ∀ d < 16, 0x20 ≤ d.digitChar.toNat := by decide
        have hhigh := hdigit (c.toNat / 16) (by omega)
        have hlow := hdigit (c.toNat % 16) (by omega)
        exact .cons hslash (.cons (by decide) (.cons (by decide) (.cons (by decide)
          (.cons hhigh (.cons hlow .nil)))))
      · rename_i hplain
        exact .cons (Nat.le_of_not_lt hplain) .nil

theorem quoted_printable (s : List Char) : Printable (quoted s) := by
  have hquote : 0x20 ≤ quote.toNat := by decide
  apply Printable.cons hquote (Printable.append _ (.cons hquote .nil))
  intro c hc
  obtain ⟨d, _, hmem⟩ := List.mem_flatMap.mp hc
  exact escape_printable d c hmem

theorem NumberText.Digits.printable {s : List Char} (h : Digits s) : Printable s := by
  intro c hc
  have hdigit := h c hc
  simp only [Char.isDigit, Bool.and_eq_true, decide_eq_true_eq, UInt32.le_iff_toNat_le] at hdigit
  exact le_trans (by decide) hdigit.1

theorem text_printable {n : NumberText} (hn : n.WellFormed) : Printable n.text := by
  rw [NumberText.text]
  apply Printable.append
  · split
    · exact .cons (by decide) .nil
    · exact .nil
  · apply Printable.append
    · obtain hzero | ⟨c, s, hwhole, _, hdigits⟩ := hn.whole
      · rw [hzero]
        exact .cons (by decide) .nil
      · exact hwhole ▸ hdigits.printable
    · apply Printable.append
      · split
        · exact .nil
        · exact .cons (by decide) hn.fraction.printable
      · obtain hnil | ⟨letter, sign, s, hexp, hletter, hsign, hs, _⟩ := hn.exponent
        · exact hnil ▸ .nil
        · rw [hexp]
          apply Printable.cons
          · obtain rfl | rfl := hletter <;> decide
          · apply Printable.append _ hs.printable
            obtain rfl | rfl | rfl := hsign
            · exact .nil
            · exact .cons (by decide) .nil
            · exact .cons (by decide) .nil

end Json
