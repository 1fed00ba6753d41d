import TranspileBench.Lsf.Allocation
import Mathlib

/-!
CPU lists: how they are read, and that what Linux and LSF print is read back. Digits are those
of ASCII, and no number has more of them than Python reads.
-/
namespace TranspileBench.Lsf
open Coordinator (isSpace)

/-! ## Reading -/

section Reading

/-- `text.strip()`. -/
def stripped (text : List Char) : List Char := (text.dropWhile isSpace).rdropWhile isSpace

/-- Digits, with single underscores between them. -/
def digitGroups (text : List Char) : Option ℕ :=
  let groups := text.splitOn '_'
  if groups.all fun group => !group.isEmpty && group.all Char.isDigit then
    some (Nat.ofDigitChars 10 groups.flatten 0)
  else none

/-- `int(text)`. -/
def readInt (text : List Char) : Option ℤ :=
  let text := stripped text
  if text.head? = some '-' then (digitGroups text.tail).map fun n : ℕ => -(n : ℤ)
  else (digitGroups (if text.head? = some '+' then text.tail else text)).map fun n : ℕ => (n : ℤ)

/-- The CPUs of one entry, `low` or `low-high`; an empty one has none. -/
def readEntry (entry : List Char) : Option (List ℕ) :=
  let part := stripped entry
  if part = [] then some []
  else do
    let low := part.takeWhile (· ≠ '-')
    let high := (part.dropWhile (· ≠ '-')).tail
    let start ← readInt low
    let last ← readInt (if high = [] then low else high)
    if start < 0 ∨ last < start then none
    else some (List.range' start.toNat (last - start + 1).toNat)

/-- `text.replace(" ", ",").split(",")`. -/
def cpuEntries (text : List Char) : List (List Char) :=
  (text.map fun c => if c = ' ' then ',' else c).splitOn ','

def parseCpuList (text : Option String) : Option (List ℕ) := do
  let cpus ← (cpuEntries (text.getD "").toList).mapM readEntry
  if cpus.flatten = [] then none else some (cpus.flatten.dedup.insertionSort (· ≤ ·))

end Reading

/-! ## What is printed is read back -/

section Printing

/-- The CPUs from one to another. -/
structure CpuRange where
  first : ℕ
  last : ℕ
  ordered : first ≤ last

def CpuRange.cpus (r : CpuRange) : List ℕ := List.range' r.first (r.last - r.first + 1)

theorem CpuRange.mem_cpus {r : CpuRange} {cpu : ℕ} :
    cpu ∈ r.cpus ↔ r.first ≤ cpu ∧ cpu ≤ r.last := by
  have hordered := r.ordered
  rw [cpus, List.mem_range'_1]
  omega

def CpuRange.text (r : CpuRange) : List Char :=
  Nat.toDigits 10 r.first ++ if r.first = r.last then [] else '-' :: Nat.toDigits 10 r.last

/-- A list of ranges as it is printed, with the end of its line. -/
def cpuListText (ending : List Char) : List CpuRange → List Char
  | [] => ending
  | [r] => r.text ++ ending
  | r :: rest => r.text ++ ',' :: cpuListText ending rest

/-- What follows the list: a file of Linux ends its line, a variable of LSF does not. -/
def LineEnd (ending : List Char) : Prop := ending = [] ∨ ending = ['\n']

theorem CpuRange.floatChar_text {r : CpuRange} : ∀ c ∈ r.text, floatChar c = true := by
  intro c hc
  rcases List.mem_append.mp hc with hc | hc
  · exact floatChar_digits (digits_toDigits _) c hc
  · split at hc
    · cases hc
    · rcases List.mem_cons.mp hc with rfl | hc
      · rfl
      · exact floatChar_digits (digits_toDigits _) c hc

theorem LineEnd.isSpace {ending : List Char} (h : LineEnd ending) :
    ∀ c ∈ ending, isSpace c = true := by
  rcases h with rfl | rfl
  · exact fun c hc => absurd hc List.not_mem_nil
  · intro c hc
    rw [List.mem_singleton.mp hc]
    decide

theorem stripped_append {text ending : List Char} (hne : text ≠ [])
    (htext : ∀ c ∈ text, isSpace c = false) (hending : ∀ c ∈ ending, isSpace c = true) :
    stripped (text ++ ending) = text := by
  obtain ⟨c, rest, rfl⟩ := List.exists_cons_of_ne_nil hne
  have hc : isSpace c = false := htext c List.mem_cons_self
  rw [stripped, List.cons_append, List.dropWhile_cons_of_neg (by simp [hc]), ← List.cons_append]
  induction ending using List.reverseRecOn with
  | nil =>
      rw [List.append_nil, List.rdropWhile_eq_self_iff]
      intro h
      simpa using htext _ (List.getLast_mem h)
  | append_singleton ending c ih =>
      rw [← List.append_assoc, List.rdropWhile_concat_pos _ _ _ (hending c (by simp))]
      exact ih fun c hc => hending c (List.mem_append_left _ hc)

theorem stripped_of_digits {text : List Char} (hne : text ≠ []) (h : Digits text) :
    stripped text = text := by
  have hspace : ∀ c ∈ text, isSpace c = false := fun c hc =>
    not_space_of_floatChar (floatChar_digits h c hc)
  have hnone : ∀ c ∈ ([] : List Char), isSpace c = true := fun _ hc => absurd hc List.not_mem_nil
  simpa using stripped_append hne hspace hnone

theorem readInt_toDigits (n : ℕ) : readInt (Nat.toDigits 10 n) = some (n : ℤ) := by
  have hne : Nat.toDigits 10 n ≠ [] := Nat.toDigits_ne_nil
  have hdigits := digits_toDigits n
  have hhead : ∀ c : Char, c.isDigit = false → (Nat.toDigits 10 n).head? ≠ some c :=
    fun c hc hhead => not_digit hc n (List.mem_of_mem_head? hhead)
  have hsplit : (Nat.toDigits 10 n).splitOn '_' = [Nat.toDigits 10 n] := by
    refine List.splitOnP_eq_singleton fun c hc => beq_eq_false_iff_ne.mpr ?_
    rintro rfl
    exact not_digit rfl n hc
  rw [readInt, stripped_of_digits hne hdigits, if_neg (hhead '-' rfl), if_neg (hhead '+' rfl),
    digitGroups, hsplit, if_pos, List.flatten_singleton, Nat.ofDigitChars_ten_toDigits,
      Option.map_some]
  simpa [Digits] using hdigits

theorem readEntry_text {ending : List Char} (hending : LineEnd ending) (r : CpuRange) :
    readEntry (r.text ++ ending) = some r.cpus := by
  have hkept : ∀ n, ∀ c ∈ Nat.toDigits 10 n, decide (c ≠ '-') = true := by
    intro n c hc
    refine decide_eq_true ?_
    rintro rfl
    exact not_digit rfl n hc
  have hne : r.text ≠ [] := List.append_ne_nil_of_left_ne_nil Nat.toDigits_ne_nil _
  have hspace : ∀ c ∈ r.text, isSpace c = false := fun c hc =>
    not_space_of_floatChar (CpuRange.floatChar_text c hc)
  rw [readEntry, stripped_append hne hspace hending.isSpace]
  dsimp only
  rw [if_neg hne]
  by_cases hsingle : r.first = r.last
  · have hshown : r.text = Nat.toDigits 10
        r.first := by rw [CpuRange.text, if_pos hsingle, List.append_nil]
    rw [hshown, List.takeWhile_eq_self_iff.mpr (hkept _), List.dropWhile_eq_nil_iff.mpr (hkept _),
      List.tail_nil, if_pos rfl, readInt_toDigits]
    simp [CpuRange.cpus, hsingle]
  · have hordered := r.ordered
    have hshown : r.text = Nat.toDigits 10 r.first ++ '-' :: Nat.toDigits 10 r.last := by
      rw [CpuRange.text, if_neg hsingle]
    have htake : r.text.takeWhile (· ≠ '-') = Nat.toDigits 10 r.first := by
      rw [hshown, List.takeWhile_append_of_pos (hkept _), List.takeWhile_cons_of_neg (by simp),
        List.append_nil]
    have hdrop : r.text.dropWhile (· ≠ '-') = '-' :: Nat.toDigits 10 r.last := by
      rw [hshown, List.dropWhile_append_of_pos (hkept _), List.dropWhile_cons_of_neg (by simp)]
    rw [htake, hdrop, List.tail_cons, if_neg Nat.toDigits_ne_nil, readInt_toDigits,
      readInt_toDigits]
    have hcount : ((r.last : ℤ) - r.first + 1).toNat = r.last - r.first + 1 := by omega
    have hvalid : ¬ ((r.first : ℤ) < 0 ∨ (r.last : ℤ) < r.first) := by omega
    simp only [Option.bind_eq_bind, Option.bind_some, if_neg hvalid, hcount, Int.toNat_natCast]
    rfl

/-- A word that the entries of a list keep whole. -/
def Plain (word : List Char) : Prop := ∀ c ∈ word, c ≠ ' ' ∧ c ≠ ','

theorem CpuRange.plain_text (r : CpuRange) : Plain r.text := by
  intro c hc
  have hchar := CpuRange.floatChar_text c hc
  constructor <;> rintro rfl <;> cases hchar

theorem LineEnd.plain {ending : List Char} (h : LineEnd ending) : Plain ending := by
  rcases h with rfl | rfl
  · exact fun c hc => absurd hc List.not_mem_nil
  · intro c hc
    rw [List.mem_singleton.mp hc]
    decide

theorem Plain.append {word ending : List Char} (h : Plain word) (hending : Plain ending) :
    Plain (word ++ ending) := fun c hc => (List.mem_append.mp hc).elim (h c) (hending c)

theorem Plain.map {word : List Char} (h : Plain word) :
    (word.map fun c => if c = ' ' then ',' else c) = word := by
  conv_rhs => rw [← List.map_id word]
  exact List.map_congr_left fun c hc => if_neg (h c hc).1

theorem cpuEntries_single {word : List Char} (h : Plain word) : cpuEntries word = [word] := by
  rw [cpuEntries, h.map]
  exact List.splitOnP_eq_singleton fun c hc => beq_eq_false_iff_ne.mpr (h c hc).2

theorem cpuEntries_cons {word : List Char} (h : Plain word) (rest : List Char) :
    cpuEntries (word ++ ',' :: rest) = word :: cpuEntries rest := by
  rw [cpuEntries, List.map_append, h.map, List.map_cons, if_neg (by decide)]
  exact List.splitOnP_append_cons_of_forall_mem
    (fun c hc => beq_eq_false_iff_ne.mpr (h c hc).2) ',' rfl _

theorem entries_text {ending : List Char} (hending : LineEnd ending) (ranges : List CpuRange) :
    ((cpuEntries (cpuListText ending ranges)).mapM readEntry).map List.flatten =
      some (ranges.flatMap CpuRange.cpus) := by
  induction ranges with
  | nil =>
      rw [cpuListText, cpuEntries_single hending.plain]
      rcases hending with rfl | rfl <;> rfl
  | cons r rest ih =>
      have hread : readEntry r.text = some r.cpus := by
        simpa using readEntry_text (.inl rfl) r
      cases rest with
      | nil =>
          rw [cpuListText, cpuEntries_single (r.plain_text.append hending.plain), List.mapM_cons,
            readEntry_text hending]
          simp
      | cons next rest =>
          obtain ⟨read, hrest, hflat⟩ := Option.map_eq_some_iff.mp ih
          rw [cpuListText, cpuEntries_cons r.plain_text, List.mapM_cons, hread, hrest,
            List.flatMap_cons,
            ← hflat]
          rfl
          simp

end Printing

end TranspileBench.Lsf
