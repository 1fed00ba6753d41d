import Mathlib
import TranspileBench.Lib.Json
import TranspileBench.Lib.JsonTokens
import TranspileBench.Lib.Scan

/-!
JSON values printed without blanks and read back. The reader takes every JSON text: blanks
between tokens, escapes of any kind, repeated keys. A text with a float that is not finite is
refused. The interpreter's limits on nesting and on the digits of an integer are left out.
-/
namespace Json
open Reading

/-- How floats are printed and read: printing is undone by reading, and what is printed is a
number with a point or an exponent. -/
structure FloatText (F : Type) where
  repr : F → NumberText
  float : NumberText → Option F
  repr_wellFormed : ∀ x, (repr x).WellFormed
  repr_isFloat : ∀ x, (repr x).IsFloat
  float_repr : ∀ x, float (repr x) = some x

variable {F : Type} (floats : FloatText F)

/-! ## Printing -/

mutual
def print : Json F → List Char
  | .null => ['n', 'u', 'l', 'l']
  | .bool true => ['t', 'r', 'u', 'e']
  | .bool false => ['f', 'a', 'l', 's', 'e']
  | .int i => (intText i).text
  | .float x => (floats.repr x).text
  | .str s => quoted s
  | .arr items => '[' :: ([','].intercalate (printItems items) ++ [']'])
  | .obj fields => '{' :: ([','].intercalate (printFields fields) ++ ['}'])

def printItems : List (Json F) → List (List Char)
  | [] => []
  | v :: items => print v :: printItems items

def printFields : List (List Char × Json F) → List (List Char)
  | [] => []
  | (key, v) :: fields => (quoted key ++ ':' :: print v) :: printFields fields

end

theorem printItems_eq (items : List (Json F)) :
    printItems floats items = items.map (print floats) := by
  induction items with
  | nil => rfl
  | cons v items ih => rw [printItems, ih, List.map_cons]

theorem printFields_eq (fields : List (List Char × Json F)) :
    printFields floats fields = fields.map fun f => quoted f.1 ++ ':' :: print floats f.2 := by
  induction fields with
  | nil => rfl
  | cons f fields ih => rw [printFields, ih, List.map_cons]

/-! ## Reading -/

def isBlank (c : Char) : Bool := [' ', '\t', '\n', '\r'].contains c

def words : List (List Char × Json F) :=
  [(['n', 'u', 'l', 'l'], .null), (['t', 'r', 'u', 'e'], .bool true),
    (['f', 'a', 'l', 's', 'e'], .bool false)]

def scanWord : Reader Char (Json F) := fun text =>
  words.findSome? fun word => (text.dropPrefix? word.1).map fun rest => (word.2, rest)

/-- An integer, or a float where there is a fraction or an exponent. -/
def number : Reader Char (Json F) := fun text =>
  (scanNumber text).bind fun n =>
    if n.1.IsFloat then (floats.float n.1).map fun x => (.float x, n.2)
    else some (.int n.1.toInt, n.2)

/-- A key, a colon and a value. -/
def member (value : Reader Char (Json F)) : Reader Char (List Char × Json F)
  | [] => none
  | c :: rest =>
      if c = quote then
        (scanString rest).bind fun key =>
          match key.2.dropWhile isBlank with
          | [] => none
          | c :: rest =>
              if c = ':' then
                (value (rest.dropWhile isBlank)).map fun v => ((key.1, v.1), v.2)
              else none
      else none

/-- A value whose brackets go at most `depth` deep. -/
def value : ℕ → Reader Char (Json F)
  | 0, _ => none
  | _ + 1, [] => none
  | depth + 1, c :: rest =>
      if c = quote then (scanString rest).map fun s => (.str s.1, s.2)
      else if c = '{' then
        (bracketed isBlank ',' '}' (member (value depth)) rest).map fun fields =>
          (.obj (dict fields.1), fields.2)
      else if c = '[' then
        (bracketed isBlank ',' ']' (value depth) rest).map fun items => (.arr items.1, items.2)
      else (scanWord (c :: rest)).or (number floats (c :: rest))

/-- A value with blanks around it. -/
def loads (text : List Char) : Option (Json F) :=
  let start := text.dropWhile isBlank
  (value floats start.length start).bind fun v => if v.2.all isBlank then some v.1 else none

/-! ## What a reader takes -/

variable {floats}

/-- What a member holds was read as a value behind its key. -/
theorem member_cases {value : Reader Char (Json F)} {text rest : List Char}
    {f : List Char × Json F} (h : member value text = some (f, rest)) :
    ∃ t, value t = some (f.2, rest) := by
  cases text with
  | nil => exact nomatch h
  | cons c left =>
      rw [member] at h
      split at h
      · obtain ⟨key, _, h⟩ := Option.bind_eq_some_iff.mp h
        revert h
        cases key.2.dropWhile isBlank with
        | nil => exact fun h => nomatch h
        | cons d behind =>
            intro h
            dsimp only at h
            split at h
            · obtain ⟨v, hv, heq⟩ := Option.map_eq_some_iff.mp h
              cases heq
              exact ⟨_, hv⟩
            · exact nomatch h
      · exact nomatch h

/-- No object of a value that was read has a key twice. -/
theorem uniqueKeys_of_value {depth : ℕ} {text rest : List Char} {v : Json F}
    (h : value floats depth text = some (v, rest)) : v.UniqueKeys := by
  induction depth generalizing text rest v with
  | zero => exact nomatch h
  | succ depth ih =>
      cases text with
      | nil => exact nomatch h
      | cons c left =>
          rw [value] at h
          split at h
          · obtain ⟨s, _, heq⟩ := Option.map_eq_some_iff.mp h
            cases heq
            trivial
          · split at h
            · obtain ⟨fields, hfields, heq⟩ := Option.map_eq_some_iff.mp h
              cases heq
              rw [uniqueKeys_obj]
              constructor
              · exact nodup_dict fields.1
              · intro f hf
                obtain ⟨t, r, hread⟩ := mem_of_bracketed hfields (mem_of_mem_dict hf)
                obtain ⟨_, hvalue⟩ := member_cases hread
                exact ih hvalue
            · split at h
              · obtain ⟨items, hitems, heq⟩ := Option.map_eq_some_iff.mp h
                cases heq
                rw [uniqueKeys_arr]
                intro v hv
                obtain ⟨t, r, hread⟩ := mem_of_bracketed hitems hv
                exact ih hread
              · cases Option.or_eq_some_iff.mp h with
                | inl hword =>
                    obtain ⟨word, hmem, hread⟩ := List.exists_of_findSome?_eq_some hword
                    obtain ⟨_, _, heq⟩ := Option.map_eq_some_iff.mp hread
                    cases heq
                    simp only [words, List.mem_cons, List.not_mem_nil, or_false] at hmem
                    obtain rfl | rfl | rfl := hmem <;> trivial
                | inr hnumber =>
                    obtain ⟨n, _, h⟩ := Option.bind_eq_some_iff.mp hnumber.2
                    split at h
                    · obtain ⟨x, _, heq⟩ := Option.map_eq_some_iff.mp h
                      cases heq
                      trivial
                    · cases h
                      trivial

/-! ## Reading what was printed -/

theorem number_head {n : NumberText} (hn : n.WellFormed) :
    ∃ c ∈ n.text.head?, c = '-' ∨ c.isDigit = true := by
  rw [NumberText.text]
  cases n.negative with
  | true => exact ⟨'-', rfl, .inl rfl⟩
  | false =>
      obtain hzero | ⟨c, s, hwhole, _, hdigits⟩ := hn.whole
      · exact ⟨'0', by rw [hzero]; rfl, .inr rfl⟩
      · exact ⟨c, by rw [hwhole]; rfl, .inr (hdigits c List.mem_cons_self)⟩

/-- What begins like a number begins like nothing else. -/
theorem value_number {n : NumberText} (hn : n.WellFormed) (depth : ℕ) (t : List Char) :
    value floats (depth + 1) (n.text ++ t) = number floats (n.text ++ t) := by
  obtain ⟨c, hc, hnumber⟩ := number_head hn
  obtain ⟨s, hs⟩ := List.head?_eq_some_iff.mp hc
  have hne : ∀ d, (d ≠ '-' ∧ d.isDigit = false) → c ≠ d := by
    intro d hd heq
    cases hnumber with
    | inl hminus => exact hd.1 (heq ▸ hminus)
    | inr hdigit => exact absurd (heq ▸ hdigit) (by simp [hd.2])
  have hword : scanWord (F := F) (c :: (s ++ t)) = none := by
    apply List.findSome?_eq_none_iff.mpr
    intro word hword
    rw [Option.map_eq_none_iff]
    apply Option.eq_none_iff_forall_not_mem.mpr
    intro behind hbehind
    obtain ⟨p, hp, hbeq⟩ := List.dropPrefix?_eq_some_iff.mp hbehind
    rw [eq_of_beq hbeq] at hp
    simp only [words, List.mem_cons, List.not_mem_nil, or_false] at hword
    obtain rfl | rfl | rfl := hword
    · exact hne 'n' (by decide) (List.cons.inj hp).1
    · exact hne 't' (by decide) (List.cons.inj hp).1
    · exact hne 'f' (by decide) (List.cons.inj hp).1
  rw [hs, List.cons_append, value, if_neg (hne quote (by decide)), if_neg (hne '{' (by decide)),
    if_neg (hne '[' (by decide)), hword, Option.none_or]

/-- A printed value begins with a character of ASCII, no blank and no bracket that closes. -/
theorem print_head (v : Json F) :
    ∃ c ∈ (print floats v).head?, isBlank c = false ∧ c ≠ ']' ∧ c.toNat < 0x80 := by
  have hdigit : ∀ c : Char, c = '-' ∨ c.isDigit = true →
      isBlank c = false ∧ c ≠ ']' ∧ c.toNat < 0x80 := by
    intro c hc
    have hne : ∀ d, (d ≠ '-' ∧ d.isDigit = false) → c ≠ d := by
      intro d hd heq
      cases hc with
      | inl hminus => exact hd.1 (heq ▸ hminus)
      | inr hdigit => exact absurd (heq ▸ hdigit) (by simp [hd.2])
    constructor
    · simp [isBlank, hne ' ' (by decide), hne '\t' (by decide), hne '\n' (by decide),
        hne '\r' (by decide)]
    · refine ⟨hne ']' (by decide), ?_⟩
      cases hc with
      | inl hminus => exact hminus ▸ by decide
      | inr hdigit =>
          simp only [Char.isDigit, Bool.and_eq_true, decide_eq_true_eq,
            UInt32.le_iff_toNat_le] at hdigit
          exact lt_of_le_of_lt hdigit.2 (by decide)
  cases v with
  | null => exact ⟨'n', rfl, by decide⟩
  | bool b =>
      cases b with
      | true => exact ⟨'t', rfl, by decide⟩
      | false => exact ⟨'f', rfl, by decide⟩
  | int i =>
      obtain ⟨c, hc, hnumber⟩ := number_head (intText_wellFormed i)
      exact ⟨c, hc, hdigit c hnumber⟩
  | float x =>
      obtain ⟨c, hc, hnumber⟩ := number_head (floats.repr_wellFormed x)
      exact ⟨c, hc, hdigit c hnumber⟩
  | str s => exact ⟨quote, rfl, by decide⟩
  | arr items => exact ⟨'[', rfl, by decide⟩
  | obj fields => exact ⟨'{', rfl, by decide⟩

theorem member_print {value : Reader Char (Json F)} {key : List Char} {v : Json F}
    {t : List Char} (h : value (print floats v ++ t) = some (v, t)) :
    member value ((quoted key ++ ':' :: print floats v) ++ t) = some ((key, v), t) := by
  obtain ⟨c, hc, hblank, _⟩ := @print_head F floats v
  obtain ⟨s, hs⟩ := List.head?_eq_some_iff.mp hc
  have hstart : (print floats v ++ t).dropWhile isBlank = print floats v ++ t := by
    rw [hs, List.cons_append, List.dropWhile_cons_of_neg (by simp [hblank])]
  have htext : quoted key ++ ':' :: print floats v ++ t
      = quote :: (key.flatMap escape ++ ([quote] ++ (':' :: (print floats v ++ t)))) := by
    rw [quoted]
    simp only [List.cons_append, List.append_assoc, List.nil_append]
  rw [htext, member, if_pos rfl, scanString_escape, Option.bind_some]
  dsimp only
  rw [List.dropWhile_cons_of_neg (by decide)]
  dsimp only
  rw [if_pos rfl, hstart, h]
  rfl

theorem stops_of_delimiter {closing : Char} {t : List Char}
    (hclosing : closing = ']' ∨ closing = '}') (h : ∃ c ∈ t.head?, c = ',' ∨ c = closing) :
    Stops t := by
  obtain ⟨c, hc, hdelimiter⟩ := h
  intro d hd
  cases Option.mem_unique hc hd
  cases hdelimiter with
  | inl heq => subst heq; decide
  | inr heq => subst heq; obtain rfl | rfl := hclosing <;> decide

theorem scanWord_word {word : List Char × Json F} (h : word ∈ words) (t : List Char) :
    scanWord (word.1 ++ t) = some (word.2, t) := by
  simp only [words, List.mem_cons, List.not_mem_nil, or_false] at h
  obtain rfl | rfl | rfl := h <;> simp [scanWord, words, List.dropPrefix?]

theorem value_word {word : List Char × Json F} (h : word ∈ words) (depth : ℕ) (t : List Char) :
    value floats (depth + 1) (word.1 ++ t) = some (word.2, t) := by
  have hscan := scanWord_word h t
  have hhead : ∃ c s, word.1 ++ t = c :: s ∧ c ≠ quote ∧ c ≠ '{' ∧ c ≠ '[' := by
    simp only [words, List.mem_cons, List.not_mem_nil, or_false] at h
    obtain rfl | rfl | rfl := h <;> exact ⟨_, _, rfl, by decide⟩
  obtain ⟨c, s, hs, hquote, hbrace, hbracket⟩ := hhead
  rw [hs] at hscan ⊢
  rw [value, if_neg hquote, if_neg hbrace, if_neg hbracket, hscan, Option.some_or]

theorem exists_depth {v : Json F} {depth : ℕ} (h : (print floats v).length ≤ depth) :
    ∃ left, depth = left + 1 := by
  obtain ⟨c, hc, _⟩ := @print_head F floats v
  obtain ⟨s, hs⟩ := List.head?_eq_some_iff.mp hc
  rw [hs] at h
  exact Nat.exists_eq_add_one.mpr (Nat.lt_of_lt_of_le Nat.succ_pos' h)

/-- A printed value is read back when the text does not go on with it. -/
theorem value_print {v : Json F} (hv : v.UniqueKeys) {depth : ℕ} {t : List Char}
    (hdepth : (print floats v).length ≤ depth) (ht : Stops t) :
    value floats depth (print floats v ++ t) = some (v, t) := by
  induction v using nested_induction generalizing depth t with
  | null =>
      obtain ⟨left, rfl⟩ := exists_depth hdepth
      have hmem : (['n', 'u', 'l', 'l'], (.null : Json F)) ∈ words := List.mem_cons_self
      exact value_word hmem left t
  | bool b =>
      obtain ⟨left, rfl⟩ := exists_depth hdepth
      cases b with
      | true =>
          have hmem : (['t', 'r', 'u', 'e'], (.bool true : Json F)) ∈ words :=
            List.mem_cons_of_mem _ List.mem_cons_self
          exact value_word hmem left t
      | false =>
          have hmem : (['f', 'a', 'l', 's', 'e'], (.bool false : Json F)) ∈ words :=
            List.mem_cons_of_mem _ (List.mem_cons_of_mem _ List.mem_cons_self)
          exact value_word hmem left t
  | int i =>
      have hn := intText_wellFormed i
      obtain ⟨left, rfl⟩ := exists_depth hdepth
      rw [print, value_number hn, number, scanNumber_text hn ht, Option.bind_some,
        if_neg (intText_not_isFloat i), toInt_intText]
  | float x =>
      have hn := floats.repr_wellFormed x
      obtain ⟨left, rfl⟩ := exists_depth hdepth
      rw [print, value_number hn, number, scanNumber_text hn ht, Option.bind_some,
        if_pos (floats.repr_isFloat x), floats.float_repr]
      rfl
  | str s =>
      obtain ⟨left, rfl⟩ := exists_depth hdepth
      have htext : quoted s ++ t = quote :: (s.flatMap escape ++ ([quote] ++ t)) := by
        rw [quoted, List.cons_append, List.append_assoc]
      rw [print, htext, value, if_pos rfl, scanString_escape]
      rfl
  | arr items ih =>
      rw [uniqueKeys_arr] at hv
      obtain ⟨left, rfl⟩ := exists_depth hdepth
      rw [print, printItems_eq] at hdepth ⊢
      rw [List.length_cons, List.length_append] at hdepth
      have hread : bracketed isBlank ',' ']' (value floats left)
          ([','].intercalate (items.map (print floats)) ++ ']' :: t) = some (items, t) := by
        apply bracketed_print rfl rfl (by decide)
        · exact fun v _ => (print_head v).imp fun c hc => ⟨hc.1, hc.2.1, hc.2.2.1⟩
        · intro v hmem s hs
          have hlen := length_le_intercalate_map [','] (print floats) hmem
          exact ih v hmem (hv v hmem) (by omega) (stops_of_delimiter (.inl rfl) hs)
      rw [List.cons_append, List.append_assoc, List.singleton_append, value,
        if_neg (by decide), if_neg (by decide), if_pos rfl, hread]
      rfl
  | obj fields ih =>
      rw [uniqueKeys_obj] at hv
      obtain ⟨left, rfl⟩ := exists_depth hdepth
      rw [print, printFields_eq] at hdepth ⊢
      rw [List.length_cons, List.length_append] at hdepth
      have hread : bracketed isBlank ',' '}' (member (value floats left))
          ([','].intercalate (fields.map fun f => quoted f.1 ++ ':' :: print floats f.2)
            ++ '}' :: t) = some (fields, t) := by
        apply bracketed_print rfl rfl (by decide)
        · exact fun f _ => ⟨quote, rfl, by decide⟩
        · intro f hmem s hs
          have hlen := length_le_intercalate_map [',']
            (fun f => quoted f.1 ++ ':' :: print floats f.2) hmem
          rw [List.length_append, List.length_cons] at hlen
          exact member_print (ih f hmem (hv.2 f hmem) (by omega)
            (stops_of_delimiter (.inr rfl) hs))
      rw [List.cons_append, List.append_assoc, List.singleton_append, value,
        if_neg (by decide), if_pos rfl, hread, Option.map_some, dict_of_nodup hv.1]

/-- A value is read back from its text, whatever blanks are behind it. -/
theorem loads_print {v : Json F} (hv : v.UniqueKeys) {blanks : List Char}
    (hblanks : blanks.all isBlank = true) :
    loads floats (print floats v ++ blanks) = some v := by
  obtain ⟨c, hc, hblank, _⟩ := @print_head F floats v
  obtain ⟨s, hs⟩ := List.head?_eq_some_iff.mp hc
  have hstart : (print floats v ++ blanks).dropWhile isBlank = print floats v ++ blanks := by
    rw [hs, List.cons_append, List.dropWhile_cons_of_neg (by simp [hblank])]
  have hstops : Stops blanks := by
    intro c hc
    have hmem : c ∈ [' ', '\t', '\n', '\r'] := by
      have hin := List.all_eq_true.mp hblanks c (List.mem_of_mem_head? hc)
      exact List.contains_iff_mem.mp hin
    simp only [List.mem_cons, List.not_mem_nil, or_false] at hmem
    obtain rfl | rfl | rfl | rfl := hmem <;> decide
  rw [loads, hstart, value_print hv (by rw [List.length_append]; omega) hstops, Option.bind_some]
  exact if_pos hblanks

theorem uniqueKeys_of_loads {text : List Char} {v : Json F} (h : loads floats text = some v) :
    v.UniqueKeys := by
  obtain ⟨out, hout, heq⟩ := Option.bind_eq_some_iff.mp h
  split at heq
  · cases heq
    exact uniqueKeys_of_value hout
  · exact nomatch heq

/-- Different values have different texts. -/
theorem print_injective {v w : Json F} (hv : v.UniqueKeys) (hw : w.UniqueKeys)
    (h : print floats v = print floats w) : v = w := by
  have hread : loads floats (print floats v ++ []) = some v := loads_print hv rfl
  rw [h, loads_print hw rfl] at hread
  exact (Option.some.inj hread).symm

theorem Printable.intercalate {sep : List Char} (hsep : Printable sep) {terms : List (List Char)}
    (h : ∀ term ∈ terms, Printable term) : Printable (sep.intercalate terms) := by
  intro c hc
  by_contra hcontrol
  apply Scan.not_mem_intercalate (fun hmem => hcontrol (hsep c hmem)) _ hc
  exact fun term hterm hmem => hcontrol (h term hterm c hmem)

theorem print_printable (v : Json F) : Printable (print floats v) := by
  have hcomma : Printable [','] := printable_of_all (by decide)
  induction v using nested_induction with
  | null => exact printable_of_all rfl
  | bool b => cases b with | _ => exact printable_of_all rfl
  | int i => exact text_printable (intText_wellFormed i)
  | float x => exact text_printable (floats.repr_wellFormed x)
  | str s => exact quoted_printable s
  | arr items ih =>
      rw [print, printItems_eq]
      apply Printable.cons (by decide) (Printable.append _ (.cons (by decide) .nil))
      apply hcomma.intercalate
      intro term hterm
      obtain ⟨v, hv, rfl⟩ := List.mem_map.mp hterm
      exact ih v hv
  | obj fields ih =>
      rw [print, printFields_eq]
      apply Printable.cons (by decide) (Printable.append _ (.cons (by decide) .nil))
      apply hcomma.intercalate
      intro term hterm
      obtain ⟨f, hf, rfl⟩ := List.mem_map.mp hterm
      exact (quoted_printable f.1).append (.cons (by decide) (ih f hf))

/-! ## Floats that are whole numbers, printed with a zero behind the point -/

def wholeText (i : ℤ) : NumberText := { intText i with fraction := ['0'] }

theorem wholeText_wellFormed (i : ℤ) : (wholeText i).WellFormed where
  whole := (intText_wellFormed i).whole
  fraction := fun _ h => List.mem_singleton.mp h ▸ rfl
  exponent := .inl rfl

def wholeFloats : FloatText ℤ where
  repr := wholeText
  float n := if n.fraction = ['0'] ∧ n.exponent = [] then some n.toInt else none
  repr_wellFormed := wholeText_wellFormed
  repr_isFloat _ := .inl (List.cons_ne_nil _ _)
  float_repr i := (if_pos ⟨rfl, rfl⟩).trans (congrArg some (toInt_intText i))

example : print wholeFloats (sortKeys (.obj [(['b'], .float (-2)), (['a'], .arr [.int 10, .null])]))
    = "\x7b\"a\":[10,null],\"b\":-2.0\x7d".toList := by decide

end Json
