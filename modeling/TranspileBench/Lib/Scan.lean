import Mathlib.Data.List.Infix
import Mathlib.Data.List.TakeWhile

/-!
Texts that are printed as terms between separators and read back by leftmost searches: a
symbol that neither the searched word nor the captured run can hold cuts a search in two.
-/
namespace Scan
variable {A : Type} [DecidableEq A]

section Words

omit [DecidableEq A] in
/-- A word without the separator begins a text in the part before the separator. -/
theorem prefix_append_cons {word p s : List A} {sep : A} (h : sep ∉ word) :
    word <+: p ++ sep :: s ↔ word <+: p := by
  constructor
  · intro hword
    apply List.prefix_of_prefix_length_le hword (List.prefix_append p (sep :: s))
    by_contra hlong
    have hstart : p ++ [sep] <+: p ++ sep :: s := ⟨s, by simp⟩
    have hp : p ++ [sep] <+: word := by
      apply List.prefix_of_prefix_length_le hstart hword
      simp only [List.length_append, List.length_singleton]
      omega
    exact h (hp.subset (by simp))
  · intro hword
    exact hword.trans (List.prefix_append p (sep :: s))

omit [DecidableEq A] in
theorem not_mem_intercalate {c : A} {sep : List A} (hsep : c ∉ sep) {terms : List (List A)}
    (h : ∀ term ∈ terms, c ∉ term) : c ∉ sep.intercalate terms := by
  induction terms with
  | nil => exact List.not_mem_nil
  | cons term terms ih =>
      obtain ⟨hterm, hterms⟩ := List.forall_mem_cons.mp h
      cases terms with
      | nil => simpa [List.intercalate_singleton] using hterm
      | cons next terms =>
          rw [List.intercalate_cons_cons]
          simp [hterm, hsep, ih hterms]

omit [DecidableEq A] in
theorem nil_intercalate (terms : List (List A)) :
    ([] : List A).intercalate terms = terms.flatten := by
  induction terms with
  | nil => rfl
  | cons term terms ih =>
      cases terms with
      | nil => simp [List.intercalate_singleton]
      | cons next terms =>
          rw [List.intercalate_cons_cons, ih, List.append_nil]
          rfl

omit [DecidableEq A] in
theorem filter_intercalate (keep : A → Bool) (sep : List A) (terms : List (List A)) :
    (sep.intercalate terms).filter keep
      = (sep.filter keep).intercalate (terms.map (·.filter keep)) := by
  induction terms with
  | nil => rfl
  | cons term terms ih =>
      cases terms with
      | nil => simp [List.intercalate_singleton]
      | cons next terms =>
          rw [List.intercalate_cons_cons, List.filter_append, List.filter_append, ih]
          simp [List.intercalate_cons_cons]

omit [DecidableEq A] in
theorem infix_append_cons {word p s : List A} {sep : A} (hne : word ≠ []) (h : sep ∉ word) :
    word <:+: p ++ sep :: s ↔ word <:+: p ∨ word <:+: s := by
  induction p with
  | nil =>
      have hstart : ¬ word <+: sep :: s := by
        have hcut := prefix_append_cons (p := []) (s := s) h
        rw [List.nil_append, List.prefix_nil] at hcut
        exact fun hword => hne (hcut.mp hword)
      simp [List.infix_cons_iff, hstart, hne]
  | cons c p ih =>
      rw [List.cons_append, List.infix_cons_iff, ih, List.infix_cons_iff, ← List.cons_append,
        prefix_append_cons h, or_assoc]

end Words

section Search

/-- The run of members of `among` behind the word that a text begins with. -/
def runBehind (word : List A) (among : A → Bool) (text : List A) : Option (List A) :=
  if word <+: text then
    let run := (text.drop word.length).takeWhile among
    if run = [] then none else some run
  else none

/-- The leftmost run that stands behind the word. -/
def search (word : List A) (among : A → Bool) : List A → Option (List A)
  | [] => none
  | c :: text => (runBehind word among (c :: text)).or (search word among text)

variable {word : List A} {among : A → Bool} {p s : List A} {sep : A}

theorem runBehind_append_cons (hword : sep ∉ word) (hamong : among sep = false) :
    runBehind word among (p ++ sep :: s) = runBehind word among p := by
  simp only [runBehind, prefix_append_cons hword]
  split
  · rename_i h
    obtain ⟨tail, rfl⟩ := h
    have hrun : (tail ++ sep :: s).takeWhile among = tail.takeWhile among := by
      rw [List.takeWhile_append]
      split
      · rename_i hall
        rw [List.takeWhile_cons_of_neg (by simp [hamong]), List.append_nil]
        exact (List.takeWhile_prefix among).eq_of_length hall |>.symm
      · rfl
    rw [List.append_assoc, List.drop_left, List.drop_left, hrun]
  · rfl

/-- A symbol that can be no part of what is searched cuts the search in two. -/
theorem search_append_cons (hne : word ≠ []) (hword : sep ∉ word) (hamong : among sep = false) :
    search word among (p ++ sep :: s) = (search word among p).or (search word among s) := by
  induction p with
  | nil =>
      have hstart : runBehind word among ([] ++ sep :: s) = none := by
        rw [runBehind_append_cons hword hamong]
        simp [runBehind, hne]
      rw [List.nil_append] at hstart
      simp [search, hstart]
  | cons c p ih =>
      have hrun := runBehind_append_cons (p := c :: p) (s := s) hword hamong
      rw [List.cons_append] at hrun
      rw [List.cons_append, search, search, hrun, ih, Option.or_assoc]

theorem search_eq_none_of_not_mem {c : A} (hc : c ∈ word) (htext : c ∉ s) :
    search word among s = none := by
  induction s with
  | nil => rfl
  | cons d s ih =>
      have hstart : ¬ word <+: d :: s := fun h => htext (h.subset hc)
      rw [search, ih (fun h => htext (List.mem_cons_of_mem d h))]
      simp [runBehind, hstart]

/-- Where no symbol begins the word, nothing is found. -/
theorem search_append_of_head (hne : word ≠ []) (hp : p.all (word.head? ≠ some ·) = true) :
    search word among (p ++ s) = search word among s := by
  induction p with
  | nil => rfl
  | cons c p ih =>
      rw [List.all_cons, Bool.and_eq_true, decide_eq_true_eq] at hp
      obtain ⟨hc, hp⟩ := hp
      have hstart : ¬ word <+: c :: (p ++ s) := by
        intro h
        cases word with
        | nil => exact hne rfl
        | cons d word => exact hc (congrArg some (List.cons_prefix_cons.mp h).1)
      rw [List.cons_append, search, ih hp]
      simp [runBehind, hstart]

theorem search_word (hword : word ≠ []) (hne : s ≠ []) (hall : ∀ c ∈ s, among c = true) :
    search word among (word ++ s) = some s := by
  have hrun : runBehind word among (word ++ s) = some s := by
    simp [runBehind, List.takeWhile_eq_self_iff.mpr hall, hne]
  cases htext : word ++ s with
  | nil => exact absurd (List.append_eq_nil_iff.mp htext).1 hword
  | cons c text =>
      rw [search, ← htext, hrun]
      rfl

/-- A search through separated terms is a search through each of them. -/
theorem search_intercalate (hne : word ≠ []) (hword : sep ∉ word) (hamong : among sep = false)
    (terms : List (List A)) :
    search word among ([sep, sep].intercalate terms) = terms.findSome? (search word among) := by
  induction terms with
  | nil => rfl
  | cons term terms ih =>
      cases terms with
      | nil => simp [List.intercalate_singleton]
      | cons next terms =>
          have hcut := search_append_cons (p := []) (s := [sep, sep].intercalate (next :: terms))
            hne hword hamong
          rw [List.nil_append] at hcut
          rw [List.intercalate_cons_cons, List.append_assoc, List.cons_append,
            List.cons_append, List.nil_append, search_append_cons hne hword hamong, hcut, ih]
          cases hterm : search word among term <;> simp [search, hterm]

end Search

section Enclosed

/-- The text before the first closing symbol that is followed as it has to be. -/
def upTo (closing : A) (follows : List A → Bool) : List A → Option (List A)
  | [] => none
  | c :: text =>
      if c = closing ∧ follows text then some [] else (upTo closing follows text).map (c :: ·)

/-- The enclosed texts from left to right; `skip` symbols are part of the last one. -/
def enclosed (word : List A) (closing : A) (follows : List A → Bool) :
    ℕ → List A → List (List A)
  | _, [] => []
  | skip + 1, _ :: text => enclosed word closing follows skip text
  | 0, c :: text =>
      if word <+: c :: text then
        match upTo closing follows ((c :: text).drop word.length) with
        | some inner => inner :: enclosed word closing follows (word.length + inner.length) text
        | none => enclosed word closing follows 0 text
      else enclosed word closing follows 0 text

variable {word : List A} {closing : A} {follows : List A → Bool} {inner rest text : List A}

theorem upTo_append (hinner : closing ∉ inner) (hfollows : follows rest = true) :
    upTo closing follows (inner ++ closing :: rest) = some inner := by
  induction inner with
  | nil => simp [upTo, hfollows]
  | cons c inner ih =>
      obtain ⟨hc, hinner⟩ := not_or.mp (mt List.mem_cons.mpr hinner)
      rw [List.cons_append, upTo, if_neg (fun h => hc h.1.symm), ih hinner]
      rfl

theorem enclosed_skip (p : List A) :
    enclosed word closing follows p.length (p ++ text) = enclosed word closing follows 0 text := by
  induction p with
  | nil => rfl
  | cons c p ih => exact ih

theorem enclosed_nil_of_not_infix (h : ¬ word <:+: text) :
    enclosed word closing follows 0 text = [] := by
  induction text with
  | nil => rfl
  | cons c text ih =>
      obtain ⟨hstart, hrest⟩ := not_or.mp (mt List.infix_cons_iff.mpr h)
      rw [enclosed, if_neg hstart, ih hrest]

theorem enclosed_append (hword : word ≠ []) (hinner : closing ∉ inner)
    (hfollows : follows rest = true) :
    enclosed word closing follows 0 (word ++ (inner ++ closing :: rest))
      = inner :: enclosed word closing follows 0 rest := by
  cases word with
  | nil => exact absurd rfl hword
  | cons c word =>
      have hstart : c :: word <+: c :: (word ++ (inner ++ closing :: rest)) := by
        rw [← List.cons_append]
        exact List.prefix_append _ _
      have hlength : (c :: word).length + inner.length = (word ++ (inner ++ [closing])).length := by
        simp only [List.length_cons, List.length_append, List.length_nil]
        omega
      have hsplit : word ++ (inner ++ closing :: rest)
          = (word ++ (inner ++ [closing])) ++ rest := by
        simp
      rw [List.cons_append, enclosed, if_pos hstart, ← List.cons_append, List.drop_left,
        upTo_append hinner hfollows]
      simp only [hlength]
      rw [hsplit, enclosed_skip]

end Enclosed

end Scan
