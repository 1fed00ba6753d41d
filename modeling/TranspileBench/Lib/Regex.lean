import Mathlib.Data.List.Basic

/-!
Regular expressions as a backtracking matcher reads them: the ways to match are listed in
the order they are tried, and `findall` goes through a text from left to right. The anchors
are those of lines.
-/

inductive Regex
  | lineStart
  | lineEnd
  | literal (s : List Char)
  | one (p : Char → Bool)
  /-- As many characters as possible, then fewer. -/
  | many (p : Char → Bool)
  | seq (a b : Regex)
  | alt (a b : Regex)
  | group (a : Regex)

namespace Regex

/-- What was matched, the groups of it, and the text after it. -/
structure Match where
  text : List Char
  groups : List (List Char)
  rest : List Char

/-- Whether a line starts after `w`, which was read from a place where one does or not. -/
def starts (start : Bool) (w : List Char) : Bool :=
  match w.getLast? with
  | none => start
  | some c => c == '\n'

def manyOf (p : Char → Bool) : List Char → List Match
  | [] => [⟨[], [], []⟩]
  | c :: rest =>
      if p c then
        (manyOf p rest).map (fun m => { m with text := c :: m.text }) ++ [⟨[], [], c :: rest⟩]
      else [⟨[], [], c :: rest⟩]

/-- The matches at one place, in the order they are tried. -/
def run : Regex → Bool → List Char → List Match
  | .lineStart, start, rest => if start then [⟨[], [], rest⟩] else []
  | .lineEnd, _, rest => if rest.head?.all (· == '\n') then [⟨[], [], rest⟩] else []
  | .literal s, _, rest => if s <+: rest then [⟨s, [], rest.drop s.length⟩] else []
  | .one p, _, rest =>
      match rest with
      | [] => []
      | c :: rest => if p c then [⟨[c], [], rest⟩] else []
  | .many p, _, rest => manyOf p rest
  | .seq a b, start, rest =>
      (a.run start rest).flatMap fun m =>
        (b.run (starts start m.text) m.rest).map fun m' =>
          ⟨m.text ++ m'.text, m.groups ++ m'.groups, m'.rest⟩
  | .alt a b, start, rest => a.run start rest ++ b.run start rest
  | .group a, start, rest =>
      (a.run start rest).map fun m => { m with groups := m.text :: m.groups }

/-- The groups of the matches from left to right, of a pattern that matches no empty text:
`skip` characters are part of the last match. -/
def findall (r : Regex) : Nat → Bool → List Char → List (List (List Char))
  | _, _, [] => []
  | skip + 1, _, c :: rest => r.findall skip (c == '\n') rest
  | 0, start, c :: rest =>
      match r.run start (c :: rest) with
      | [] => r.findall 0 (c == '\n') rest
      | m :: _ => m.groups :: r.findall (m.text.length - 1) (c == '\n') rest

variable {start : Bool} {rest : List Char} {m : Match} {a b : Regex} {p : Char → Bool}

theorem mem_lineStart : m ∈ lineStart.run start rest ↔ start = true ∧ m = ⟨[], [], rest⟩ := by
  cases start <;> simp [run]

theorem mem_lineEnd :
    m ∈ lineEnd.run start rest ↔ (∀ c ∈ rest.head?, c = '\n') ∧ m = ⟨[], [], rest⟩ := by
  cases rest with
  | nil => simp [run]
  | cons c rest => by_cases h : c = '\n' <;> simp [run, h]

theorem mem_literal {s : List Char} :
    m ∈ (literal s).run start rest ↔ rest = s ++ m.rest ∧ m = ⟨s, [], m.rest⟩ := by
  simp only [run]
  split
  · rename_i hs
    obtain ⟨tail, rfl⟩ := hs
    simp only [List.drop_left, List.mem_singleton, List.append_cancel_left_eq]
    constructor
    · rintro rfl
      exact ⟨rfl, rfl⟩
    · rintro ⟨rfl, hm⟩
      exact hm
  · rename_i hs
    simp only [List.not_mem_nil, false_iff, not_and]
    rintro h -
    exact hs ⟨m.rest, h.symm⟩

theorem mem_one :
    m ∈ (one p).run start rest ↔
      ∃ c, p c = true ∧ rest = c :: m.rest ∧ m = ⟨[c], [], m.rest⟩ := by
  cases rest with
  | nil => simp [run]
  | cons c rest =>
      by_cases h : p c
      · simp only [run, h, if_true, List.mem_singleton, List.cons.injEq]
        constructor
        · rintro rfl
          exact ⟨c, h, ⟨rfl, rfl⟩, rfl⟩
        · rintro ⟨_, -, ⟨rfl, rfl⟩, hm⟩
          exact hm
      · simp only [run, h, List.cons.injEq, Bool.false_eq_true, if_false, List.not_mem_nil,
          false_iff, not_exists, not_and]
        rintro d hd ⟨rfl, -⟩
        exact absurd hd h

theorem mem_many : m ∈ (many p).run start rest ↔
    rest = m.text ++ m.rest ∧ m.groups = [] ∧ ∀ c ∈ m.text, p c = true := by
  simp only [run]
  induction rest generalizing m with
  | nil =>
      obtain ⟨text, groups, rest⟩ := m
      simp only [manyOf, List.mem_singleton, Match.mk.injEq]
      constructor
      · rintro ⟨rfl, rfl, rfl⟩
        simp
      · rintro ⟨h, rfl, -⟩
        simpa using h.symm
  | cons c rest ih =>
      obtain ⟨text, groups, after⟩ := m
      have stop : (⟨text, groups, after⟩ : Match) = ⟨[], [], c :: rest⟩ ↔
          text = [] ∧ groups = [] ∧ after = c :: rest := by simp
      by_cases h : p c
      · simp only [manyOf, h, if_true, List.mem_append, List.mem_map, List.mem_singleton, stop]
        constructor
        · rintro (⟨m, hm, hmk⟩ | ⟨rfl, rfl, rfl⟩)
          · cases hmk
            obtain ⟨rfl, hgroups, hall⟩ := ih.mp hm
            exact ⟨rfl, hgroups, List.forall_mem_cons.mpr ⟨h, hall⟩⟩
          · simp
        · rintro ⟨heq, rfl, hall⟩
          cases text with
          | nil => exact .inr ⟨rfl, rfl, heq.symm⟩
          | cons c' text =>
              obtain ⟨rfl, rfl⟩ := List.cons.inj heq
              exact .inl ⟨⟨text, [], after⟩,
                ih.mpr ⟨rfl, rfl, (List.forall_mem_cons.mp hall).2⟩, rfl⟩
      · simp only [manyOf, h, Bool.false_eq_true, if_false, List.mem_singleton, stop]
        constructor
        · rintro ⟨rfl, rfl, rfl⟩
          simp
        · rintro ⟨heq, rfl, hall⟩
          cases text with
          | nil => exact ⟨rfl, rfl, heq.symm⟩
          | cons c' text =>
              obtain ⟨rfl, -⟩ := List.cons.inj heq
              exact absurd (hall _ List.mem_cons_self) h

theorem mem_seq : m ∈ (seq a b).run start rest ↔
    ∃ m₁ ∈ a.run start rest, ∃ m₂ ∈ b.run (starts start m₁.text) m₁.rest,
      m = ⟨m₁.text ++ m₂.text, m₁.groups ++ m₂.groups, m₂.rest⟩ := by
  simp [run, eq_comm]

theorem mem_alt : m ∈ (alt a b).run start rest ↔ m ∈ a.run start rest ∨ m ∈ b.run start rest :=
  List.mem_append

theorem mem_group : m ∈ (group a).run start rest ↔
    ∃ m₁ ∈ a.run start rest, m = { m₁ with groups := m₁.text :: m₁.groups } := by
  simp [run, eq_comm]

theorem findall_skip (r : Regex) {w rest : List Char} :
    r.findall w.length start (w ++ rest) = r.findall 0 (starts start w) rest := by
  induction w generalizing start with
  | nil => rfl
  | cons c w ih =>
      have hstart : starts start (c :: w) = starts (c == '\n') w := by
        cases w with
        | nil => rfl
        | cons d w => simp [starts, List.getLast?_cons]
      rw [hstart, ← ih]
      rfl

/-! ## A pattern that is anchored at line starts and reads one line, but for blanks after it -/

section Lines

def lines (text : List Char) : List (List Char) := text.splitOn '\n'

/-- The groups of the pattern on a line of its own. -/
def line (r : Regex) (l : List Char) : Option (List (List Char)) :=
  (r.run true l).head?.map (·.groups)

/-- The text ends here, or its line does. -/
def AtEnd (rest : List Char) : Prop := ∀ c ∈ rest.head?, c = '\n'

/-- With more text after a line, the pattern matches as on the line alone, and takes only
blanks of the rest, up to the end of a line. -/
structure ByLine (r : Regex) (blank : Char → Bool) : Prop where
  anchored : ∀ rest, r.run false rest = []
  idle : ∀ l, (∀ c ∈ l, blank c = true) → r.line l = none
  alike : ∀ l rest, '\n' ∉ l → AtEnd rest →
    (r.run true (l ++ rest)).head?.map (·.groups) = r.line l
  ends : ∀ l rest, '\n' ∉ l → AtEnd rest → ∀ m ∈ r.run true (l ++ rest),
    ∃ w, m.text = l ++ w ∧ rest = w ++ m.rest ∧ (∀ c ∈ w, blank c = true) ∧ AtEnd m.rest

variable {r : Regex} {blank : Char → Bool} {l w text : List Char}

theorem atEnd_cases (h : AtEnd rest) : rest = [] ∨ ∃ tail, rest = '\n' :: tail := by
  cases rest with
  | nil => exact .inl rfl
  | cons c tail => exact .inr ⟨tail, by rw [h c rfl]⟩

theorem exists_line (text : List Char) : ∃ l rest, text = l ++ rest ∧ '\n' ∉ l ∧ AtEnd rest := by
  induction text with
  | nil => exact ⟨[], [], rfl, List.not_mem_nil, fun _ h => nomatch h⟩
  | cons c text ih =>
      obtain ⟨l, rest, rfl, hl, hend⟩ := ih
      by_cases hc : c = '\n'
      · exact ⟨[], c :: (l ++ rest), rfl, List.not_mem_nil, by simpa [AtEnd] using hc⟩
      · exact ⟨c :: l, rest, rfl, by simp [hl, Ne.symm hc], hend⟩

theorem lines_single (h : '\n' ∉ l) : lines l = [l] := by
  rw [lines, List.splitOn_eq_splitOnP]
  refine List.splitOnP_eq_singleton fun c hc => ?_
  simpa using ne_of_mem_of_not_mem hc h

theorem lines_append (l rest : List Char) : lines (l ++ '\n' :: rest) = lines l ++ lines rest := by
  simp only [lines, List.splitOn_eq_splitOnP]
  exact List.splitOnP_append_cons l rest rfl

theorem mem_of_mem_lines {c : Char} (text : List Char) (hl : l ∈ lines text) (hc : c ∈ l) :
    c ∈ text := by
  obtain ⟨first, rest, rfl, hfirst, hend⟩ := exists_line text
  rcases atEnd_cases hend with rfl | ⟨tail, rfl⟩
  · rw [List.append_nil, lines_single hfirst, List.mem_singleton] at hl
    simpa [hl] using hc
  · rw [lines_append, lines_single hfirst, List.singleton_append, List.mem_cons] at hl
    rcases hl with rfl | hl
    · exact List.mem_append_left _ hc
    · exact List.mem_append_right _ (List.mem_cons_of_mem _ (mem_of_mem_lines tail hl hc))
termination_by text.length
decreasing_by simp [*]; omega

theorem newline_free_of_mem_lines (text : List Char) (hl : l ∈ lines text) : '\n' ∉ l := by
  obtain ⟨first, rest, rfl, hfirst, hend⟩ := exists_line text
  rcases atEnd_cases hend with rfl | ⟨tail, rfl⟩
  · rw [List.append_nil, lines_single hfirst, List.mem_singleton] at hl
    rwa [hl]
  · rw [lines_append, lines_single hfirst, List.singleton_append, List.mem_cons] at hl
    rcases hl with rfl | hl
    · exact hfirst
    · exact newline_free_of_mem_lines tail hl
termination_by text.length
decreasing_by simp [*]; omega

namespace ByLine
variable (h : ByLine r blank)
include h

theorem run_nil (start : Bool) (hend : AtEnd rest) : r.run start rest = [] := by
  cases start with
  | false => exact h.anchored rest
  | true =>
      have none := h.alike [] rest (List.not_mem_nil) hend
      rw [h.idle [] (by simp)] at none
      simpa using none

/-- Outside of a line's start nothing is found until the line ends. -/
theorem findall_within (hl : '\n' ∉ l) :
    r.findall 0 false (l ++ rest) = r.findall 0 false rest := by
  induction l with
  | nil => rfl
  | cons c l ih =>
      obtain ⟨hc, hl⟩ := not_or.mp (mt List.mem_cons.mpr hl)
      have hne : (c == '\n') = false := by simpa using Ne.symm hc
      rw [← ih hl]
      simp only [List.cons_append, findall, h.anchored, hne]

theorem findall_newline (start : Bool) :
    r.findall 0 start ('\n' :: rest) = r.findall 0 true rest := by
  have none : r.run start ('\n' :: rest) = [] := h.run_nil start (by simp [AtEnd])
  simp [findall, none]

theorem lines_blank (hw : ∀ c ∈ w, blank c = true) : (lines w).filterMap r.line = [] := by
  refine List.filterMap_eq_nil_iff.mpr fun l hl => h.idle l fun c hc => ?_
  exact hw c (mem_of_mem_lines w hl hc)

theorem lines_found (hl : '\n' ∉ l) (hend : AtEnd (w ++ rest))
    (hw : ∀ c ∈ w, blank c = true) :
    (lines (l ++ w)).filterMap r.line = (r.line l).toList := by
  cases w with
  | nil => rw [List.append_nil, lines_single hl]; cases hline : r.line l <;> simp [hline]
  | cons c w =>
      obtain rfl : c = '\n' := hend c rfl
      rw [lines_append, lines_single hl, List.filterMap_append,
        h.lines_blank (List.forall_mem_cons.mp hw).2, List.append_nil]
      cases hline : r.line l <;> simp [hline]

theorem findall_lines (text : List Char) :
    r.findall 0 true text = (lines text).filterMap r.line := by
  obtain ⟨l, rest, htext, hl, hend⟩ := exists_line text
  have next : ∀ start, ∀ w tail : List Char, AtEnd tail → w ++ tail = rest →
      (lines (l ++ w)).filterMap r.line ++ r.findall 0 start tail
        = (lines (l ++ w ++ tail)).filterMap r.line := by
    intro start w tail htail hrest
    rcases atEnd_cases htail with rfl | ⟨tail, rfl⟩
    · simp [findall]
    · rw [h.findall_newline, lines_append, List.filterMap_append, findall_lines tail]
  rw [htext]
  have alike := h.alike l rest hl hend
  cases hrun : r.run true (l ++ rest) with
  | nil =>
      rw [hrun] at alike
      have away : r.findall 0 true (l ++ rest) = r.findall 0 (l == []) rest := by
        cases l with
        | nil => rfl
        | cons c l =>
            obtain ⟨hc, hl⟩ := not_or.mp (mt List.mem_cons.mpr hl)
            have hne : (c == '\n') = false := by simpa using Ne.symm hc
            rw [List.cons_append] at hrun
            rw [List.cons_append, findall, hrun]
            simpa [hne] using h.findall_within hl
      have hnone : r.line l = none := alike.symm
      have hnext := next (l == []) [] rest hend rfl
      rw [List.append_nil, lines_single hl] at hnext
      rw [away]
      simpa [hnone] using hnext
  | cons m ms =>
      rw [hrun] at alike
      have hsome : r.line l = some m.groups := alike.symm
      obtain ⟨w, hmatch, hrest, hw, hafter⟩ := h.ends l rest hl hend m (hrun ▸ List.mem_cons_self)
      cases l with
      | nil => cases (h.idle [] (by simp)).symm.trans hsome
      | cons c l =>
          have hnext := next (starts (c == '\n') (l ++ w)) w m.rest hafter hrest.symm
          rw [h.lines_found hl (hrest ▸ hend) hw, hsome, List.append_assoc, ← hrest] at hnext
          rw [List.cons_append] at hrun
          rw [List.cons_append, findall, hrun]
          simp only [hmatch, List.cons_append, List.length_cons, Nat.add_sub_cancel]
          rw [hrest, ← List.append_assoc, findall_skip]
          simpa [hrest] using hnext
termination_by text.length
decreasing_by
  rw [htext, ← hrest]
  simp only [List.length_append, List.length_cons]
  omega

end ByLine

end Lines

end Regex
