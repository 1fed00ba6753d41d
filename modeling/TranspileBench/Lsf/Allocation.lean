import Mathlib
import TranspileBench.Coordinator.RustSuite
import TranspileBench.Lib.Scan
import TranspileBench.Lsf.MonitorAgreement
import TranspileBench.Lsf.ProcessTree
import TranspileBench.Lsf.ResourceRequest

/-!
The allocation a job finds in its environment, and whether a cost job that asked for what
`resourceRequest` prints finds that it got it. Digits are those of ASCII.
-/
namespace TranspileBench.Lsf
open Coordinator (isSpace)
open Scan

abbrev Environ := String → Option String

/-- `environ.get(name, "")`. -/
def Environ.text (environ : Environ) (name : String) : String := (environ name).getD ""

section Reading

/-- `re.sub(r"\s+", "", text)`. -/
def compact (text : List Char) : List Char := text.filter (!isSpace ·)

/-- `text.split()`. -/
def splitWords (text : String) : List String :=
  ((text.toList.splitOnP isSpace).filter (· ≠ [])).map String.ofList

/-- `slots[host] = count`. -/
def setSlots (slots : List (String × ℕ)) (host : String) (count : ℕ) : List (String × ℕ) :=
  if host ∈ slots.map (·.1) then
    slots.map fun entry => if entry.1 = host then (host, count) else entry
  else slots ++ [(host, count)]

/-- Hosts and their counts, when the words are these in turn. -/
def hostCounts : List String → Option (List (String × ℕ))
  | [] => some []
  | [_] => none
  | host :: count :: words => do
      let n ← decimal count
      let entries ← hostCounts words
      return (host, n) :: entries

def hostSlots (environ : Environ) : List (String × ℕ) :=
  match hostCounts (splitWords (environ.text "LSB_MCPU_HOSTS")) with
  | some (entry :: entries) =>
      (entry :: entries).foldl (fun slots entry => setSlots slots entry.1 entry.2) []
  | _ =>
      (splitWords (environ.text "LSB_HOSTS")).foldl
        (fun slots host => setSlots slots host (((slots.lookup host).getD 0) + 1)) []

/-- `[a-z]+\[` after blanks, or the end of the text. -/
def clauseFollows (text : List Char) : Bool :=
  let clause := text.dropWhile isSpace
  text == [] || text == ['\n']
    || (clause.takeWhile Char.isLower != [] && (clause.dropWhile Char.isLower).head? == some '[')

/-- `[0-9.]`. -/
def numeric (c : Char) : Bool := c.isDigit || c == '.'

/-- `float(text)` of digits and points, as an exact decimal. -/
def readDecimal (text : List Char) : Except String ℚ :=
  let whole := text.takeWhile (· != '.')
  let frac := (text.dropWhile (· != '.')).drop 1
  if whole ++ frac = [] ∨ '.' ∈ frac then
    .error ("could not convert string to float: " ++ quoted (some (String.ofList text)))
  else .ok (Nat.ofDigitChars 10 (whole ++ frac) 0 / 10 ^ frac.length)

def MODEL_IS : List Char := "model==".toList
def NCPUS_IS : List Char := "ncpus==".toList
def R1M_BELOW : List Char := "r1m<".toList

/-- What a request selects. -/
structure Selected where
  tier : Tier
  max_r1m : Option ℚ

/-- One `select[...]`; what it names replaces what an earlier one named. -/
def selectText (terms : Selected) (text : List Char) : Except String Selected := do
  let model := (search MODEL_IS nameChar text).map String.ofList
  let ncpus := (search NCPUS_IS Char.isDigit text).map (Nat.ofDigitChars 10 · 0)
  let max_r1m ← (search R1M_BELOW numeric text).mapM readDecimal
  return ⟨⟨model.or terms.tier.model, ncpus.or terms.tier.ncpus⟩, max_r1m.or terms.max_r1m⟩

def SELECT : List Char := "select[".toList

/-- The texts of `select\[(.*?)\](?=\s*[a-z]+\[|$)`. -/
def selectTexts (text : List Char) : List (List Char) :=
  enclosed SELECT ']' clauseFollows 0 text

def selectors (request : String) : Except String Selected :=
  (selectTexts (compact request.toList)).foldlM selectText ⟨⟨none, none⟩, none⟩

def EXCLUSIVE_CORES : List Char := "affinity[core(1,exclusive=(core,alljobs))".toList
def SINGLE_HOST : List Char := "span[hosts=1]".toList

/-- The request LSF reports: the first of the two variables that is not empty. -/
def reportedRequest (environ : Environ) : String :=
  if environ.text "LSB_EFFECTIVE_RSRCREQ" ≠ "" then environ.text "LSB_EFFECTIVE_RSRCREQ"
  else environ.text "LSB_SUB_RES_REQ"

/-- What the variables say, once the request is read. -/
def allocationRecord (environ : Environ) (host : String) (selectors : Tier)
    (bind_cpus affinity_file_cpus : Option (List ℕ)) : Context where
  scheduler := if environ.text "LSB_JOBID" = "" then none else some "lsf"
  host := host
  hosts := (hostSlots environ).map (·.1)
  slots := decimal (environ.text "LSB_DJOB_NUMPROC")
  resource_request :=
    if reportedRequest environ = "" then none else some (reportedRequest environ)
  exclusive_cores_requested :=
    decide (EXCLUSIVE_CORES <:+: compact (reportedRequest environ).toList)
  single_host_requested := decide (SINGLE_HOST <:+: compact (reportedRequest environ).toList)
  selectors := selectors
  bind_cpus := bind_cpus
  affinity_file_cpus := affinity_file_cpus

/-- `from_environment`, or the text of a `ValueError`. What the CPU list and the affinity
file say is an input. -/
def fromEnvironment (environ : Environ) (host : String)
    (bind_cpus affinity_file_cpus : Option (List ℕ)) : Except String Context := do
  let selected ← selectors (reportedRequest environ)
  return allocationRecord environ host selected.tier bind_cpus affinity_file_cpus

end Reading

section Compact

theorem not_space_of_nameChar {c : Char} (h : nameChar c = true) : isSpace c = false := by
  simp only [nameChar, Char.isAlphanum, Char.isAlpha, Char.isUpper, Char.isLower, Char.isDigit,
    UInt32.le_iff_toNat_le, Bool.or_eq_true, Bool.and_eq_true, decide_eq_true_eq,
    List.contains_eq_mem, List.mem_cons, List.not_mem_nil, or_false] at h
  have hval : c.toNat = c.val.toNat := rfl
  rcases h with h | rfl | rfl | rfl
  · simp [isSpace]
    simp at h
    omega
  all_goals decide

theorem not_space_of_floatChar {c : Char} (h : floatChar c = true) : isSpace c = false := by
  simp only [floatChar, Bool.or_eq_true, List.contains_eq_mem, decide_eq_true_eq] at h
  rcases h with h | h
  · exact not_space_of_nameChar (by simp [nameChar, Char.isAlphanum, h])
  · have hspaces : ['.', 'e', '+', '-', 'i', 'n', 'f', 'a'].all (!isSpace ·) = true := by decide
    simpa using List.all_eq_true.mp hspaces c h

theorem compact_append (a b : List Char) : compact (a ++ b) = compact a ++ compact b :=
  List.filter_append a b

theorem compact_of_all {text : List Char} (h : ∀ c ∈ text, isSpace c = false) :
    compact text = text := by
  apply List.filter_eq_self.mpr
  intro c hc
  simp [h c hc]

theorem compact_intercalate (sep : List Char) (terms : List (List Char)) :
    compact (sep.intercalate terms) = (compact sep).intercalate (terms.map compact) :=
  filter_intercalate _ sep terms

theorem compact_spaced (parts : List String) :
    compact (" ".intercalate parts).toList = (parts.map fun t => compact t.toList).flatten := by
  have hblank : compact " ".toList = [] := by decide
  rw [String.toList_intercalate, compact_intercalate, hblank, List.map_map]
  exact nil_intercalate _

theorem compact_formatG (value : FloatValue) : compact (formatG value) = formatG value :=
  compact_of_all fun c hc => not_space_of_floatChar (floatChar_formatG value c hc)

theorem compact_toDigits (n : ℕ) : compact (Nat.toDigits 10 n) = Nat.toDigits 10 n :=
  compact_of_all fun c hc =>
    not_space_of_floatChar (floatChar_digits (digits_toDigits n) c hc)

/-- A name loses the newline that may end it, and nothing else. -/
theorem compact_line {text : String} (h : (line text).all nameChar = true) :
    compact text.toList = line text := by
  have hline : compact (line text) = line text :=
    compact_of_all fun c hc => not_space_of_nameChar (List.all_eq_true.mp h c hc)
  by_cases hend : EndsInNewline text
  · have hsplit : text.toList = line text ++ ['\n'] := by
      rw [line, if_pos hend]
      obtain ⟨front, hfront⟩ := List.getLast?_eq_some_iff.mp hend
      rw [hfront, List.dropLast_concat]
    rw [hsplit, compact_append, hline]
    simp [compact, isSpace]
  · have hsame : line text = text.toList := if_neg hend
    rwa [hsame] at hline ⊢

end Compact

section Terms

def HNAME_IS_NOT : List Char := "hname!=".toList

/-- The terms of a cost request without blanks. -/
def compactTerms (limit : FloatValue) (tier : Tier) (hosts : List String) : List (List Char) :=
  (R1M_BELOW ++ formatG limit)
    :: (tier.model.map fun model => MODEL_IS ++ line model).toList
    ++ (tier.ncpus.map fun ncpus => NCPUS_IS ++ Nat.toDigits 10 ncpus).toList
    ++ hosts.map fun host => HNAME_IS_NOT ++ line host

/-- What a cost request selects, without blanks. -/
def compactSelect (limit : FloatValue) (tier : Tier) (hosts : List String) : List Char :=
  ['&', '&'].intercalate (compactTerms limit tier hosts)

def RUSAGE : List Char := "rusage[mem=".toList

/-- What comes after `select[...]`, without blanks. -/
def clauses (mem_gb : FloatValue) : List Char :=
  SINGLE_HOST ++ (EXCLUSIVE_CORES ++ ']' :: (RUSAGE ++ formatG mem_gb ++ [']']))

theorem hostNameMatches_line {host : String} (h : hostNameMatches host = true) :
    (line host).all nameChar = true := by
  simp only [hostNameMatches] at h
  split at h
  · rename_i c rest hline
    rw [Bool.and_eq_true] at h
    simp only [hline, List.all_cons, h.2, Bool.and_true]
    simp [nameChar, h.1]
  · cases h

theorem modelMatches_line {model : String} (h : modelMatches model = true) :
    line model ≠ [] ∧ (line model).all nameChar = true := by
  simpa [modelMatches] using h

structure Accepted (limit : FloatValue) (launch : CostLaunch) : Prop where
  selector : launch.cost_selector = ⟨launch.tier.model, launch.tier.ncpus, some limit⟩
  model : ∀ model ∈ launch.tier.model, modelMatches model = true

theorem resolveCost_ok {args : CostOptions} {launch : CostLaunch}
    (h : resolveCost args = .ok launch) :
    Accepted args.cost_max_r1m launch ∧ launch.tier.model = args.cost_model := by
  simp only [resolveCost] at h
  split at h
  · cases h
  split at h
  · cases h
  rename_i hmodel
  split at h
  · cases h
  split at h
  · cases h
  cases h
  refine ⟨⟨rfl, fun model hmem => ?_⟩, rfl⟩
  simp only [Option.mem_def] at hmem
  simpa [hmem] using hmodel

theorem mapM_hostTerm {hosts : List String} (h : ∀ host ∈ hosts, hostNameMatches host = true) :
    hosts.mapM hostTerm = .ok (hosts.map ("hname != " ++ ·)) := by
  induction hosts with
  | nil => rfl
  | cons host hosts ih =>
      obtain ⟨hhost, hhosts⟩ := List.forall_mem_cons.mp h
      rw [List.mapM_cons, hostTerm, if_pos hhost, ih hhosts]
      rfl

theorem compact_literal_append (literal text : String) :
    compact (literal ++ text).toList = compact literal.toList ++ compact text.toList := by
  rw [String.toList_append, compact_append]

theorem compact_model {model : String} (h : modelMatches model = true) :
    compact ("model == " ++ model).toList = MODEL_IS ++ line model := by
  rw [compact_literal_append, compact_line (modelMatches_line h).2]
  rfl

theorem compact_host {host : String} (h : hostNameMatches host = true) :
    compact ("hname != " ++ host).toList = HNAME_IS_NOT ++ line host := by
  rw [compact_literal_append, compact_line (hostNameMatches_line h)]
  rfl

theorem compact_ncpus (ncpus : ℕ) :
    compact ("ncpus == " ++ toString ncpus).toList
      = NCPUS_IS ++ Nat.toDigits 10 ncpus := by
  have htext : (toString ncpus).toList = Nat.toDigits 10 ncpus := by
    rw [Nat.toString_eq_ofList_toDigits, String.toList_ofList]
  rw [compact_literal_append, htext, compact_toDigits]
  rfl

theorem toList_formatG (value : FloatValue) :
    (String.ofList (formatG value)).toList = formatG value := String.toList_ofList

theorem compact_max_r1m (limit : FloatValue) :
    compact ("r1m < " ++ String.ofList (formatG limit)).toList
      = R1M_BELOW ++ formatG limit := by
  rw [compact_literal_append, toList_formatG, compact_formatG]
  rfl

variable {limit : FloatValue} {launch : CostLaunch} {hosts : List String}

theorem compact_terms (ha : Accepted limit launch)
    (hhosts : ∀ host ∈ hosts, hostNameMatches host = true) :
    (launch.cost_selector.terms ++ hosts.map ("hname != " ++ ·)).map (fun t => compact t.toList)
      = compactTerms limit launch.tier hosts := by
  have hnamed : (hosts.map ("hname != " ++ ·)).map (fun t => compact t.toList)
      = hosts.map fun host => HNAME_IS_NOT ++ line host := by
    rw [List.map_map]
    apply List.map_congr_left
    intro host hmem
    exact compact_host (hhosts host hmem)
  have hmodel : (modelTerm launch.tier.model).map (fun t => compact t.toList)
      = (launch.tier.model.map fun model => MODEL_IS ++ line model).toList := by
    cases hm : launch.tier.model with
    | none => rfl
    | some model =>
        have hmatch := ha.model model hm
        have hne : model ≠ "" := by
          intro heq
          exact (modelMatches_line hmatch).1 (by rw [heq]; rfl)
        simp only [modelTerm, if_neg hne, List.map_singleton, compact_model hmatch]
        rfl
  have hncpus : (launch.tier.ncpus.map fun n => "ncpus == " ++ toString n).toList.map
      (fun t : String => compact t.toList)
      = (launch.tier.ncpus.map fun ncpus => NCPUS_IS ++ Nat.toDigits 10 ncpus).toList := by
    cases launch.tier.ncpus with
    | none => rfl
    | some ncpus => exact congrArg (fun t => [t]) (compact_ncpus ncpus)
  rw [ha.selector, Selector.terms, List.map_append, List.map_append, List.map_append, hnamed,
    hmodel, hncpus, compactTerms]
  exact congrArg (fun t => [t] ++ _ ++ _ ++ _) (compact_max_r1m limit)

/-- The text of a cost request. -/
def requestText (terms : List String) (mem_gb : FloatValue) : String :=
  " ".intercalate ["select[" ++ " && ".intercalate terms ++ "]", "span[hosts=1]",
    "affinity[core(1,exclusive=(core,alljobs))]", rusage mem_gb]

theorem resourceRequest_ok (ha : Accepted limit launch) (mem_gb : FloatValue)
    (hhosts : ∀ host ∈ hosts, hostNameMatches host = true) :
    resourceRequest .cost mem_gb launch.cost_selector hosts
      = .ok (requestText (launch.cost_selector.terms ++ hosts.map ("hname != " ++ ·)) mem_gb) := by
  have hne : launch.cost_selector.terms ++ hosts.map ("hname != " ++ ·) ≠ [] := by
    rw [ha.selector]
    exact List.cons_ne_nil _ _
  simp only [resourceRequest, mapM_hostTerm hhosts]
  change Except.ok _ = _
  rw [if_neg hne]
  rfl

theorem requestText_compact (ha : Accepted limit launch) (mem_gb : FloatValue)
    (hhosts : ∀ host ∈ hosts, hostNameMatches host = true) :
    compact (requestText (launch.cost_selector.terms ++ hosts.map ("hname != " ++ ·)) mem_gb).toList
      = SELECT
          ++ (compactSelect limit launch.tier hosts ++ ']' :: clauses mem_gb) := by
  have hterms := compact_terms ha hhosts
  have hselect : compact (" && ".intercalate
      (launch.cost_selector.terms ++ hosts.map ("hname != " ++ ·))).toList
      = compactSelect limit launch.tier hosts := by
    have hand : compact " && ".toList = ['&', '&'] := by decide
    rw [String.toList_intercalate, compact_intercalate, List.map_map, compactSelect, ← hterms, hand]
    simp only [Function.comp_def]
  have hselect : compact ("select[" ++ " && ".intercalate
        (launch.cost_selector.terms ++ hosts.map ("hname != " ++ ·)) ++ "]").toList
      = SELECT ++ compactSelect limit launch.tier hosts ++ [']'] := by
    rw [String.toList_append, compact_append, compact_literal_append, hselect]
    rfl
  have hrusage : compact (rusage mem_gb).toList
      = RUSAGE ++ formatG mem_gb ++ [']'] := by
    rw [rusage, String.toList_append, compact_append, compact_literal_append, toList_formatG,
      compact_formatG]
    rfl
  have hspan : compact "span[hosts=1]".toList = SINGLE_HOST := by decide
  have haffinity : compact "affinity[core(1,exclusive=(core,alljobs))]".toList
      = EXCLUSIVE_CORES ++ [']'] := by decide
  -- The parts are put together by hand: rewriting would compare unrelated texts.
  have hparts := congrArg₂ (· ++ ·) hselect
    (congrArg₂ (· ++ ·) hspan (congrArg₂ (· ++ ·) haffinity hrusage))
  rw [requestText, compact_spaced]
  simp only [List.map_cons, List.map_nil, List.flatten_cons, List.flatten_nil, List.append_nil]
  refine hparts.trans ?_
  simp only [clauses, List.append_assoc, List.cons_append, List.nil_append]

end Terms

section Numbers

theorem numeric_pointed {whole frac : List Char} (hwhole : Digits whole) (hfrac : Digits frac) :
    ∀ c ∈ pointed whole frac, numeric c = true := by
  intro c hc
  rcases List.mem_append.mp hc with hc | hc
  · simp [numeric, hwhole c hc]
  · split at hc
    · cases hc
    · rcases List.mem_cons.mp hc with rfl | hc
      · rfl
      · simp [numeric, digits_stripZeros hfrac c hc]

theorem no_point {text : List Char} (h : Digits text) : ∀ c ∈ text, (c != '.') = true := by
  intro c hc
  rw [bne_iff_ne]
  intro heq
  have hdigit := h c hc
  rw [heq] at hdigit
  exact absurd hdigit (by decide)

theorem readDecimal_pointed {whole frac : List Char} (hwhole : Digits whole)
    (hfrac : Digits frac) (hne : pointed whole frac ≠ []) :
    ∃ q, readDecimal (pointed whole frac) = .ok q := by
  have hstrip := digits_stripZeros hfrac
  by_cases hnone : stripZeros frac = []
  · rw [pointed, if_pos hnone, List.append_nil] at hne ⊢
    have htake : whole.takeWhile (· != '.') = whole :=
      List.takeWhile_eq_self_iff.mpr (no_point hwhole)
    have hdrop : whole.dropWhile (· != '.') = [] :=
      List.dropWhile_eq_nil_iff.mpr (no_point hwhole)
    simp only [readDecimal, htake, hdrop]
    rw [if_neg (by simp [hne])]
    exact ⟨_, rfl⟩
  · rw [pointed, if_neg hnone]
    have htake : (whole ++ '.' :: stripZeros frac).takeWhile (· != '.') = whole := by
      rw [List.takeWhile_append_of_pos (no_point hwhole)]
      simp
    have hdrop : (whole ++ '.' :: stripZeros frac).dropWhile (· != '.')
        = '.' :: stripZeros frac := by
      rw [List.dropWhile_append_of_pos (no_point hwhole)]
      simp
    have hpoint : '.' ∉ stripZeros frac := fun hmem => by
      simpa using no_point hstrip '.' hmem
    simp only [readDecimal, htake, hdrop, List.drop_succ_cons, List.drop_zero]
    rw [if_neg (by simp [hnone, hpoint])]
    exact ⟨_, rfl⟩

theorem readDecimal_formatPositive (q : ℚ)
    (hne : (formatPositive q).takeWhile numeric ≠ []) :
    ∃ value, readDecimal ((formatPositive q).takeWhile numeric) = .ok value := by
  obtain ⟨whole, frac, hwhole, hfrac, hshape⟩ := formatPositive_shape q
  have hrun : (formatPositive q).takeWhile numeric = pointed whole frac := by
    rcases hshape with h | ⟨e, h⟩
    · rw [h]
      exact List.takeWhile_eq_self_iff.mpr (numeric_pointed hwhole hfrac)
    · rw [h, List.takeWhile_append_of_pos (numeric_pointed hwhole hfrac)]
      have hstop : (exponentText e).takeWhile numeric = [] := rfl
      rw [hstop, List.append_nil]
  rw [hrun] at hne ⊢
  exact readDecimal_pointed hwhole hfrac hne

/-- What stands before an exponent or a sign is a decimal, if it is anything. -/
theorem readDecimal_formatG (value : FloatValue) (hne : (formatG value).takeWhile numeric ≠ []) :
    ∃ q, readDecimal ((formatG value).takeWhile numeric) = .ok q := by
  cases value with
  | finite q =>
      simp only [formatG] at hne ⊢
      split at hne
      · rename_i hzero
        rw [if_pos hzero]
        exact ⟨_, rfl⟩
      · rename_i hzero
        rw [if_neg hzero]
        split at hne
        · exact absurd rfl hne
        · rename_i hneg
          rw [if_neg hneg]
          exact readDecimal_formatPositive q hne
  | infinity negative => cases negative <;> exact absurd rfl hne
  | nan => exact absurd rfl hne

end Numbers

section Searches
variable {limit : FloatValue} {launch : CostLaunch} {tier : Tier} {hosts : List String}

theorem not_floatChar {c : Char} (hc : floatChar c = false) (value : FloatValue) :
    c ∉ formatG value := by
  intro hmem
  rw [floatChar_formatG value c hmem] at hc
  cases hc

theorem not_nameChar {c : Char} (hc : nameChar c = false) {text : List Char}
    (h : text.all nameChar = true) : c ∉ text := by
  intro hmem
  rw [List.all_eq_true.mp h c hmem] at hc
  cases hc

theorem not_digit {c : Char} (hc : c.isDigit = false) (n : ℕ) : c ∉ Nat.toDigits 10 n := by
  intro hmem
  rw [digits_toDigits n c hmem] at hc
  cases hc

/-- What may be excluded, and what may be asked for. -/
structure Named (tier : Tier) (hosts : List String) : Prop where
  model : ∀ model ∈ tier.model, line model ≠ [] ∧ (line model).all nameChar = true
  hosts : ∀ host ∈ hosts, (line host).all nameChar = true

theorem Accepted.named (ha : Accepted limit launch)
    (hhosts : ∀ host ∈ hosts, hostNameMatches host = true) : Named launch.tier hosts where
  model := fun model hmem => modelMatches_line (ha.model model hmem)
  hosts := fun host hmem => hostNameMatches_line (hhosts host hmem)

/-- No term has a symbol that is in no word, number or name. -/
theorem not_mem_compactTerms (hn : Named tier hosts) {c : Char} (hfloat : floatChar c = false)
    (hname : nameChar c = false) (hwords : c ∉ R1M_BELOW ++ MODEL_IS ++ NCPUS_IS ++ HNAME_IS_NOT) :
    ∀ term ∈ compactTerms limit tier hosts, c ∉ term := by
  simp only [List.mem_append, not_or] at hwords
  obtain ⟨⟨⟨hr1m, hmodel⟩, hncpus⟩, hhname⟩ := hwords
  intro term hterm hc
  simp only [compactTerms, List.mem_append, List.mem_cons, List.mem_map, Option.mem_toList,
    Option.map_eq_some_iff] at hterm
  rcases hterm with ((rfl | ⟨model, hmem, rfl⟩) | ⟨ncpus, hmem, rfl⟩) | ⟨host, hmem, rfl⟩
  · exact (List.mem_append.mp hc).elim hr1m (not_floatChar hfloat limit)
  · exact (List.mem_append.mp hc).elim hmodel (not_nameChar hname (hn.model model hmem).2)
  · have hdigit : c.isDigit = false := (Bool.or_eq_false_iff.mp hfloat).1
    exact (List.mem_append.mp hc).elim hncpus (not_digit hdigit ncpus)
  · exact (List.mem_append.mp hc).elim hhname (not_nameChar hname (hn.hosts host hmem))

/-- A search through what is selected goes through the terms. -/
theorem search_compactSelect {word : List Char} {among : Char → Bool} (hne : word ≠ [])
    (hword : '&' ∉ word) (hamong : among '&' = false) :
    search word among (compactSelect limit tier hosts)
      = (((search word among (R1M_BELOW ++ formatG limit)).or
          (tier.model.bind fun model => search word among (MODEL_IS ++ line model))).or
          (tier.ncpus.bind fun n => search word among (NCPUS_IS ++ Nat.toDigits 10 n))).or
          (hosts.findSome? fun host => search word among (HNAME_IS_NOT ++ line host)) := by
  have hoption : ∀ {B : Type} (value : Option B) (term : B → List Char),
      (value.map term).toList.findSome? (search word among)
        = value.bind fun b => search word among (term b) := by
    intro B value term
    cases value <;> simp
  have hfirst : [R1M_BELOW ++ formatG limit].findSome? (search word among)
      = search word among (R1M_BELOW ++ formatG limit) := by simp
  rw [compactSelect, search_intercalate hne hword hamong, compactTerms, ← List.singleton_append,
    List.findSome?_append, List.findSome?_append, List.findSome?_append, hoption, hoption, hfirst,
    List.findSome?_map]
  rfl

theorem search_limit {word : List Char} (hword : '=' ∈ word) (among : Char → Bool) :
    search word among (R1M_BELOW ++ formatG limit) = none := by
  apply search_eq_none_of_not_mem hword
  exact List.not_mem_append (by decide) (not_floatChar (by decide) limit)

/-- An excluded host is found by no search that is for another word. -/
theorem search_host {word : List Char} {among : Char → Bool} (hword : '=' ∈ word)
    (hbang : '!' ∉ word) (hamong : among '!' = false) (hhead : word.head? ≠ some '=')
    {host : String} (hhost : (line host).all nameChar = true) :
    search word among (HNAME_IS_NOT ++ line host) = none := by
  have hne : word ≠ [] := List.ne_nil_of_mem hword
  have hequals : '=' ∉ line host := not_nameChar (by decide) hhost
  have hsplit : HNAME_IS_NOT ++ line host
      = ['h', 'n', 'a', 'm', 'e'] ++ '!' :: (['='] ++ line host) := rfl
  have hfirst : search word among ['h', 'n', 'a', 'm', 'e'] = none :=
    search_eq_none_of_not_mem hword (by decide)
  have hsecond : search word among (['='] ++ line host) = none := by
    rw [search_append_of_head hne (by simpa using hhead)]
    exact search_eq_none_of_not_mem hword hequals
  rw [hsplit, search_append_cons hne hbang hamong, hfirst, hsecond]
  rfl

theorem search_hosts {word : List Char} {among : Char → Bool} (hword : '=' ∈ word)
    (hbang : '!' ∉ word) (hamong : among '!' = false) (hhead : word.head? ≠ some '=')
    (hhosts : ∀ host ∈ hosts, (line host).all nameChar = true) :
    (hosts.findSome? fun host => search word among (HNAME_IS_NOT ++ line host)) = none := by
  apply List.findSome?_eq_none_iff.mpr
  intro host hmem
  exact search_host hword hbang hamong hhead (hhosts host hmem)

theorem search_model (hn : Named tier hosts) :
    search MODEL_IS nameChar (compactSelect limit tier hosts) = tier.model.map line := by
  have hncpus : ∀ n, search MODEL_IS nameChar (NCPUS_IS ++ Nat.toDigits 10 n) = none := by
    intro n
    apply search_eq_none_of_not_mem (show 'o' ∈ MODEL_IS by decide)
    exact List.not_mem_append (by decide) (not_digit (by decide) n)
  rw [search_compactSelect (by decide) (by decide) (by decide), search_limit (by decide),
    search_hosts (by decide) (by decide) (by decide) (by decide) hn.hosts]
  simp only [hncpus, Option.none_or, Option.or_none, Option.bind_fun_none]
  cases hm : tier.model with
  | none => rfl
  | some model =>
      obtain ⟨hne, hall⟩ := hn.model model hm
      exact search_word (by decide) hne (List.all_eq_true.mp hall)

theorem search_ncpus (hn : Named tier hosts) :
    search NCPUS_IS Char.isDigit (compactSelect limit tier hosts)
      = tier.ncpus.map (Nat.toDigits 10) := by
  have hmodel : ∀ model ∈ tier.model,
      search NCPUS_IS Char.isDigit (MODEL_IS ++ line model) = none := by
    intro model hmem
    rw [search_append_of_head (by decide) (by decide)]
    exact search_eq_none_of_not_mem (show '=' ∈ NCPUS_IS by decide)
      (not_nameChar (by decide) (hn.model model hmem).2)
  have hnone : (tier.model.bind fun model =>
      search NCPUS_IS Char.isDigit (MODEL_IS ++ line model)) = none :=
    Option.bind_eq_none_iff.mpr hmodel
  rw [search_compactSelect (by decide) (by decide) (by decide), search_limit (by decide),
    search_hosts (by decide) (by decide) (by decide) (by decide) hn.hosts, hnone]
  simp only [Option.none_or, Option.or_none]
  cases tier.ncpus with
  | none => rfl
  | some n => exact search_word (by decide) Nat.toDigits_ne_nil (digits_toDigits n)

/-- The limit is read as a number, or not at all. -/
theorem search_r1m (hn : Named tier hosts) {run : List Char}
    (hrun : search R1M_BELOW numeric (compactSelect limit tier hosts) = some run) :
    ∃ q, readDecimal run = .ok q := by
  have hless : '<' ∈ R1M_BELOW := by decide
  have hmodel : (tier.model.bind fun model =>
      search R1M_BELOW numeric (MODEL_IS ++ line model)) = none := by
    apply Option.bind_eq_none_iff.mpr
    intro model hmem
    apply search_eq_none_of_not_mem hless
    exact List.not_mem_append (by decide) (not_nameChar (by decide) (hn.model model hmem).2)
  have hncpus : ∀ n, search R1M_BELOW numeric (NCPUS_IS ++ Nat.toDigits 10 n) = none := by
    intro n
    apply search_eq_none_of_not_mem hless
    exact List.not_mem_append (by decide) (not_digit (by decide) n)
  have hhosts : (hosts.findSome? fun host =>
      search R1M_BELOW numeric (HNAME_IS_NOT ++ line host)) = none := by
    apply List.findSome?_eq_none_iff.mpr
    intro host hmem
    apply search_eq_none_of_not_mem hless
    exact List.not_mem_append (by decide) (not_nameChar (by decide) (hn.hosts host hmem))
  have hlimit : search R1M_BELOW numeric (R1M_BELOW ++ formatG limit)
      = runBehind R1M_BELOW numeric (R1M_BELOW ++ formatG limit) := by
    have hrest : search R1M_BELOW numeric (['1', 'm', '<'] ++ formatG limit) = none := by
      rw [search_append_of_head (by decide) (by decide)]
      exact search_eq_none_of_not_mem hless (not_floatChar (by decide) limit)
    exact (congrArg (Option.or _) hrest).trans (Option.or_none)
  rw [search_compactSelect (by decide) (by decide) (by decide), hmodel, hhosts, hlimit] at hrun
  simp only [hncpus, Option.or_none, Option.bind_fun_none, runBehind, List.prefix_append, if_true,
    List.drop_left] at hrun
  split at hrun
  · cases hrun
  · rename_i hne
    cases hrun
    exact readDecimal_formatG limit hne

end Searches

section Reported
variable {limit : FloatValue} {launch : CostLaunch} {tier : Tier} {hosts : List String}

theorem selectText_compactSelect (limit : FloatValue) (hn : Named tier hosts) :
    ∃ max_r1m, selectText ⟨⟨none, none⟩, none⟩ (compactSelect limit tier hosts)
      = .ok ⟨⟨tier.model.map fun model => String.ofList (line model), tier.ncpus⟩, max_r1m⟩ := by
  have hncpus : (tier.ncpus.map (Nat.toDigits 10)).map (Nat.ofDigitChars 10 · 0) = tier.ncpus := by
    cases tier.ncpus with
    | none => rfl
    | some n => exact congrArg some Nat.ofDigitChars_ten_toDigits
  have hmodel : (tier.model.map line).map String.ofList
      = tier.model.map fun model => String.ofList (line model) := Option.map_map ..
  simp only [selectText, search_model hn, search_ncpus hn, hncpus, hmodel, Option.or_none]
  cases hrun : search R1M_BELOW numeric (compactSelect limit tier hosts) with
  | none => exact ⟨_, rfl⟩
  | some run =>
      obtain ⟨q, hq⟩ := search_r1m hn hrun
      refine ⟨some q, ?_⟩
      simp only [Option.mapM_some, hq]
      rfl

theorem clauseFollows_clauses (mem_gb : FloatValue) : clauseFollows (clauses mem_gb) = true :=
  rfl

theorem select_not_in_clauses (mem_gb : FloatValue) : ¬ SELECT <:+: clauses mem_gb := by
  have hsplit : clauses mem_gb = "span[hosts".toList ++ '=' :: ("1]affinity[core(1,exclusive".toList
      ++ '=' :: ("(core,alljobs))]rusage[mem".toList ++ '=' :: (formatG mem_gb ++ [']']))) := rfl
  have hequals : '=' ∉ SELECT := by decide
  have hlast : ¬ SELECT <:+: formatG mem_gb ++ [']'] := by
    intro h
    have hmem := h.subset (show 's' ∈ SELECT by decide)
    exact List.not_mem_append (not_floatChar (by decide) mem_gb) (by decide) hmem
  rw [hsplit, infix_append_cons (by decide) hequals, infix_append_cons (by decide) hequals,
    infix_append_cons (by decide) hequals]
  simp only [hlast, or_false, not_or]
  decide

/-- The one `select[...]` of a cost request is found, whatever blanks it is reported with. -/
theorem selectTexts_request (hn : Named tier hosts) (mem_gb : FloatValue) :
    selectTexts (SELECT ++ (compactSelect limit tier hosts ++ ']' :: clauses mem_gb))
      = [compactSelect limit tier hosts] := by
  have hclosing : ']' ∉ compactSelect limit tier hosts :=
    not_mem_intercalate (by decide) (not_mem_compactTerms hn (by decide) (by decide) (by decide))
  rw [selectTexts, enclosed_append (by decide) hclosing (clauseFollows_clauses mem_gb),
    enclosed_nil_of_not_infix (select_not_in_clauses mem_gb)]

/-- An environment of LSF that grants the slots of a cost job on the one host that this
process runs on, and reports a request but for its blanks. -/
structure Reports (environ : Environ) (host request : String) : Prop where
  job : environ.text "LSB_JOBID" ≠ ""
  slots : decimal (environ.text "LSB_DJOB_NUMPROC") = some COST_SLOTS
  host : ∃ granted count, hostSlots environ = [(granted, count)]
    ∧ shortName granted = shortName host
  request : compact (reportedRequest environ).toList = compact request.toList

/-- What a cost job finds: everything it asked for, with the model that was printed. -/
theorem fromEnvironment_reports (ha : Accepted limit launch) (mem_gb : FloatValue)
    (hhosts : ∀ host ∈ hosts, hostNameMatches host = true) {request : String}
    (hrequest : resourceRequest .cost mem_gb launch.cost_selector hosts = .ok request)
    {environ : Environ} {host : String} (hr : Reports environ host request)
    (bind_cpus affinity_file_cpus : Option (List ℕ)) :
    ∃ context granted, fromEnvironment environ host bind_cpus affinity_file_cpus = .ok context
      ∧ context.scheduler = some "lsf" ∧ context.slots = some COST_SLOTS
      ∧ context.hosts = [granted] ∧ shortName granted = shortName context.host
      ∧ (context.resource_request.getD "").isEmpty = false
      ∧ context.exclusive_cores_requested = true ∧ context.single_host_requested = true
      ∧ context.selectors = ⟨launch.tier.model.map fun model => String.ofList (line model),
          launch.tier.ncpus⟩ := by
  have hn := ha.named hhosts
  rw [resourceRequest_ok ha mem_gb hhosts] at hrequest
  cases hrequest
  obtain ⟨granted, count, hslots, hshort⟩ := hr.host
  have htext := hr.request.trans (requestText_compact ha mem_gb hhosts)
  have hne : reportedRequest environ ≠ "" := by
    intro heq
    rw [heq] at htext
    cases htext
  obtain ⟨max_r1m, hselect⟩ := selectText_compactSelect limit hn
  have hselectors : selectors (reportedRequest environ) = .ok
      ⟨⟨launch.tier.model.map fun model => String.ofList (line model), launch.tier.ncpus⟩,
        max_r1m⟩ := by
    rw [selectors, htext, selectTexts_request hn, List.foldlM_cons, hselect]
    rfl
  have hread : fromEnvironment environ host bind_cpus affinity_file_cpus
      = .ok (allocationRecord environ host
        ⟨launch.tier.model.map fun model => String.ofList (line model), launch.tier.ncpus⟩
        bind_cpus affinity_file_cpus) := by
    rw [fromEnvironment, hselectors]
    rfl
  have hexclusive : EXCLUSIVE_CORES <:+: compact (reportedRequest environ).toList := by
    rw [htext]
    exact ⟨SELECT ++ (compactSelect limit launch.tier hosts ++ ']' :: SINGLE_HOST),
      ']' :: (RUSAGE ++ formatG mem_gb ++ [']']), by simp [clauses]⟩
  have hsingle : SINGLE_HOST <:+: compact (reportedRequest environ).toList := by
    rw [htext]
    exact ⟨SELECT ++ (compactSelect limit launch.tier hosts ++ [']']),
      EXCLUSIVE_CORES ++ ']' :: (RUSAGE ++ formatG mem_gb ++ [']']), by simp [clauses]⟩
  refine ⟨_, granted, hread, if_neg hr.job, hr.slots, ?_, hshort, ?_, decide_eq_true hexclusive,
    decide_eq_true hsingle, rfl⟩
  · simp only [allocationRecord, hslots, List.map_cons, List.map_nil]
  · simp [allocationRecord, hne]

theorem line_eq_iff (text : String) :
    String.ofList (line text) = text ↔ ¬ EndsInNewline text := by
  constructor
  · intro h hend
    have hlist : line text = text.toList := by
      rw [← h, String.toList_ofList, h]
    rw [line, if_pos hend] at hlist
    have hlength := congrArg List.length hlist
    have hne : text.toList ≠ [] := by
      intro hnil
      rw [EndsInNewline, hnil] at hend
      cases hend
    have hpos := List.length_pos_of_ne_nil hne
    rw [List.length_dropLast] at hlength
    omega
  · intro h
    rw [line, if_neg h, String.ofList_toList]

/-- The job of a cost request finds exclusive cores on one host, the tier, and no problem. -/
def PassesOwnCheck (launch : CostLaunch) (mem_gb : FloatValue) (exclude_hosts : List String) :
    Prop :=
  ∃ request, resourceRequest .cost mem_gb launch.cost_selector exclude_hosts = .ok request ∧
    ∀ environ host bind_cpus affinity_file_cpus, Reports environ host request →
      ∃ context, fromEnvironment environ host bind_cpus affinity_file_cpus = .ok context
        ∧ context.exclusive_cores_requested = true ∧ context.single_host_requested = true
        ∧ context.selectors = launch.tier
        ∧ allocationProblems context COST_SLOTS launch.tier = []

theorem passesOwnCheck_of_no_newline (ha : Accepted limit launch) (mem_gb : FloatValue)
    (hhosts : ∀ host ∈ hosts, hostNameMatches host = true)
    (hmodel : ∀ model ∈ launch.tier.model, ¬ EndsInNewline model) :
    PassesOwnCheck launch mem_gb hosts := by
  refine ⟨_, resourceRequest_ok ha mem_gb hhosts, fun environ host bind_cpus affinity hr => ?_⟩
  obtain ⟨context, granted, hread, hscheduler, hslots, hone, hshort, hrequest, hexclusive, hsingle,
    hselectors⟩ := fromEnvironment_reports ha mem_gb hhosts (resourceRequest_ok ha mem_gb hhosts) hr
      bind_cpus affinity
  have htier : context.selectors = launch.tier := by
    have hsame : (launch.tier.model.map fun model => String.ofList (line model))
        = launch.tier.model := by
      cases hm : launch.tier.model with
      | none => rfl
      | some model => exact congrArg some ((line_eq_iff model).mpr (hmodel model hm))
    rw [hselectors, hsame]
  refine ⟨context, hread, hexclusive, hsingle, htier, ?_⟩
  simp [allocationProblems, hscheduler, hslots, hone, hshort, hrequest, hexclusive, hsingle, htier]

/-- An environment as LSF makes it for a job on one host. -/
def oneHost (request : String) : Environ := fun name =>
  if name = "LSB_JOBID" then some "1"
  else if name = "LSB_DJOB_NUMPROC" then some "9"
  else if name = "LSB_MCPU_HOSTS" then some "host 9"
  else if name = "LSB_EFFECTIVE_RSRCREQ" then some request
  else none

theorem oneHost_reports {request : String} (hne : request ≠ "") :
    Reports (oneHost request) "host" request where
  job := by
    have htext : (oneHost request).text "LSB_JOBID" = "1" := rfl
    rw [htext]
    decide
  slots := by
    have htext : (oneHost request).text "LSB_DJOB_NUMPROC" = "9" := rfl
    rw [htext]
    decide
  host := by
    have htext : (oneHost request).text "LSB_MCPU_HOSTS" = "host 9" := rfl
    have hcounts : hostCounts (splitWords "host 9") = some [("host", 9)] := by decide +kernel
    refine ⟨"host", 9, ?_, rfl⟩
    rw [hostSlots, htext, hcounts]
    rfl
  request := by
    have htext : (oneHost request).text "LSB_EFFECTIVE_RSRCREQ" = request := rfl
    rw [reportedRequest, htext, if_pos hne]

theorem not_passesOwnCheck_of_newline (ha : Accepted limit launch) (mem_gb : FloatValue)
    (hhosts : ∀ host ∈ hosts, hostNameMatches host = true) {model : String}
    (hmodel : launch.tier.model = some model) (hend : EndsInNewline model) :
    ¬ PassesOwnCheck launch mem_gb hosts := by
  intro h
  obtain ⟨request, hrequest, hall⟩ := h
  have hne : request ≠ "" := by
    rw [resourceRequest_ok ha mem_gb hhosts] at hrequest
    cases hrequest
    intro heq
    have htext := requestText_compact ha mem_gb hhosts
    rw [heq] at htext
    cases htext
  have hr := oneHost_reports hne
  obtain ⟨context, hread, -, -, htier, -⟩ := hall _ _ none none hr
  obtain ⟨context', granted, hread', -, -, -, -, -, -, -, hselectors⟩ :=
    fromEnvironment_reports ha mem_gb hhosts hrequest hr none none
  cases hread.symm.trans hread'
  have hprinted := congrArg Tier.model (htier.symm.trans hselectors)
  rw [hmodel] at hprinted
  exact (line_eq_iff model).mp (Option.some.inj hprinted).symm hend

end Reported

/-- A cost job passes the check of its own request unless the model it was launched for ends
in a newline. -/
theorem cost_request_passes {args : CostOptions} {launch : CostLaunch}
    (hlaunch : resolveCost args = .ok launch) (mem_gb : FloatValue) {exclude_hosts : List String}
    (hhosts : ∀ host ∈ exclude_hosts, hostNameMatches host = true) :
    PassesOwnCheck launch mem_gb exclude_hosts
      ↔ ∀ model ∈ args.cost_model, ¬ EndsInNewline model := by
  obtain ⟨ha, hmodel⟩ := resolveCost_ok hlaunch
  constructor
  · intro h model hmem hend
    exact not_passesOwnCheck_of_newline ha mem_gb hhosts (hmodel.trans hmem) hend h
  · intro h
    apply passesOwnCheck_of_no_newline ha mem_gb hhosts
    rwa [hmodel]

/-- A launch for one model, with one host to avoid. -/
theorem cost_request_passes_one_model :
    PassesOwnCheck ⟨⟨some "Xeon", none, some (.finite 10)⟩, ⟨some "Xeon", none⟩⟩ (.finite 16)
      ["node1"] := by
  have hlaunch : resolveCost ⟨some "Xeon", none, .finite 10⟩
      = .ok ⟨⟨some "Xeon", none, some (.finite 10)⟩, ⟨some "Xeon", none⟩⟩ := rfl
  refine (cost_request_passes hlaunch (.finite 16) ?_).mpr ?_
  · intro host hmem
    rw [List.mem_singleton.mp hmem]
    decide
  · intro model hmem
    cases hmem
    decide

/-- The launcher accepts a model with a newline behind it; its cost jobs refuse to run. -/
theorem cost_request_fails_newline :
    ∃ launch, resolveCost ⟨some "Xeon\n", none, .finite 10⟩ = .ok launch
      ∧ ¬ PassesOwnCheck launch (.finite 16) [] := by
  have hlaunch : resolveCost ⟨some "Xeon\n", none, .finite 10⟩
      = .ok ⟨⟨some "Xeon\n", none, some (.finite 10)⟩, ⟨some "Xeon\n", none⟩⟩ := rfl
  have ha := (resolveCost_ok hlaunch).1
  exact ⟨_, hlaunch, not_passesOwnCheck_of_newline ha (.finite 16) (by simp) rfl (by decide)⟩

end TranspileBench.Lsf
