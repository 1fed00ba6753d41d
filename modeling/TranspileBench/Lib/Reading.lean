import Mathlib

/-!
Readers of texts. A reader takes a value off the front of a text and leaves the rest. A loop
of rounds that each take something ends with the text, and it reads back what was printed one
item at a time whenever a round reads back one item.
-/
namespace Reading
variable {A α β : Type}

/-- A value off the front of a text, with the rest of the text. -/
abbrev Reader (A α : Type) := List A → Option (α × List A)

/-- What one round of a loop found: an item with more to come, the last item, or the end. -/
inductive Round (α : Type)
  | next (x : α)
  | last (x : α)
  | close

/-- The items of the rounds up to the last one; `fuel` bounds their number. -/
def loop (round : Reader A (Round α)) : ℕ → Reader A (List α)
  | 0, _ => none
  | fuel + 1, text =>
      (round text).bind fun out =>
        match out.1 with
        | .next x => (loop round fuel out.2).map fun more => (x :: more.1, more.2)
        | .last x => some ([x], out.2)
        | .close => some ([], out.2)

section Loop
variable {round : Reader A (Round α)} {fuel : ℕ} {text : List A}

theorem loop_next {x : α} {rest : List A} (h : round text = some (.next x, rest)) :
    loop round (fuel + 1) text
      = (loop round fuel rest).map fun more => (x :: more.1, more.2) := by
  rw [loop, h, Option.bind_some]

theorem loop_last {x : α} {rest : List A} (h : round text = some (.last x, rest)) :
    loop round (fuel + 1) text = some ([x], rest) := by
  rw [loop, h, Option.bind_some]

theorem loop_close {rest : List A} (h : round text = some (.close, rest)) :
    loop round (fuel + 1) text = some ([], rest) := by
  rw [loop, h, Option.bind_some]

theorem loop_none (h : round text = none) : loop round (fuel + 1) text = none := by
  rw [loop, h, Option.bind_none]

/-- What a loop that ended did in its first round. -/
theorem loop_cases {xs : List α} {rest : List A} (h : loop round fuel text = some (xs, rest)) :
    ∃ left, fuel = left + 1 ∧
      ((∃ x more between, round text = some (.next x, between)
          ∧ loop round left between = some (more, rest) ∧ xs = x :: more)
        ∨ (∃ x, round text = some (.last x, rest) ∧ xs = [x])
        ∨ (round text = some (.close, rest) ∧ xs = [])) := by
  cases fuel with
  | zero => exact absurd h (by simp [loop])
  | succ left =>
      refine ⟨left, rfl, ?_⟩
      cases hround : round text with
      | none => exact absurd (h.symm.trans (loop_none hround)) (by simp)
      | some out =>
          obtain ⟨found, between⟩ := out
          cases found with
          | next x =>
              rw [loop_next hround] at h
              obtain ⟨more, hmore, heq⟩ := Option.map_eq_some_iff.mp h
              cases heq
              exact .inl ⟨x, more.1, between, rfl, hmore, rfl⟩
          | last x =>
              rw [loop_last hround] at h
              cases h
              exact .inr (.inl ⟨x, rfl, rfl⟩)
          | close =>
              rw [loop_close hround] at h
              cases h
              exact .inr (.inr ⟨rfl, rfl⟩)

/-- Each item was found by a round. -/
theorem mem_of_loop {xs : List α} {rest : List A} (h : loop round fuel text = some (xs, rest))
    {x : α} (hx : x ∈ xs) :
    ∃ t r, round t = some (.next x, r) ∨ round t = some (.last x, r) := by
  induction fuel generalizing text xs with
  | zero => exact absurd h (by simp [loop])
  | succ fuel ih =>
      obtain ⟨left, hleft, hcases⟩ := loop_cases h
      cases hleft
      obtain ⟨y, more, between, hnext, hmore, hxs⟩ | ⟨y, hlast, hxs⟩ | ⟨_, hxs⟩ := hcases
      · rw [hxs] at hx
        cases List.mem_cons.mp hx with
        | inl heq => exact ⟨text, between, .inl (heq ▸ hnext)⟩
        | inr hin => exact ih hmore hin
      · rw [hxs] at hx
        exact ⟨text, rest, .inr (List.mem_singleton.mp hx ▸ hlast)⟩
      · exact absurd (hxs ▸ hx) List.not_mem_nil

/-- Items printed one after another up to the end. -/
theorem loop_flatMap {print : α → List A} {closing rest : List A} {xs : List α}
    (hitem : ∀ x ∈ xs, ∀ t, round (print x ++ t) = some (.next x, t))
    (hclose : round (closing ++ rest) = some (.close, rest)) (hfuel : xs.length < fuel) :
    loop round fuel (xs.flatMap print ++ (closing ++ rest)) = some (xs, rest) := by
  induction xs generalizing fuel with
  | nil =>
      obtain ⟨left, rfl⟩ := Nat.exists_eq_add_one.mpr hfuel
      exact loop_close hclose
  | cons x xs ih =>
      obtain ⟨hx, hxs⟩ := List.forall_mem_cons.mp hitem
      obtain ⟨left, rfl⟩ := Nat.exists_eq_add_one.mpr (Nat.zero_lt_of_lt hfuel)
      rw [List.flatMap_cons, List.append_assoc, loop_next (hx _),
        ih hxs (Nat.lt_of_succ_lt_succ hfuel)]
      rfl

/-- Items printed with a separator between them up to the end. -/
theorem loop_intercalate {print : α → List A} {sep closing : A} {rest : List A} {xs : List α}
    (hne : xs ≠ []) (hnext : ∀ x ∈ xs, ∀ t, round (print x ++ sep :: t) = some (.next x, t))
    (hlast : ∀ x ∈ xs, round (print x ++ closing :: rest) = some (.last x, rest))
    (hfuel : xs.length ≤ fuel) :
    loop round fuel ([sep].intercalate (xs.map print) ++ closing :: rest) = some (xs, rest) := by
  induction xs generalizing fuel with
  | nil => exact absurd rfl hne
  | cons x xs ih =>
      obtain ⟨hx, hxs⟩ := List.forall_mem_cons.mp hnext
      obtain ⟨hx', hxs'⟩ := List.forall_mem_cons.mp hlast
      obtain ⟨left, rfl⟩ := Nat.exists_eq_add_one.mpr (Nat.lt_of_lt_of_le Nat.succ_pos' hfuel)
      cases xs with
      | nil =>
          rw [List.map_singleton, List.intercalate_singleton]
          exact loop_last hx'
      | cons y ys =>
          have hmore := ih (List.cons_ne_nil y ys) hxs hxs' (Nat.le_of_succ_le_succ hfuel)
          rw [List.map_cons, List.map_cons, List.intercalate_cons_cons, List.append_assoc,
            List.append_assoc, List.singleton_append, loop_next (hx _), ← List.map_cons, hmore]
          rfl

end Loop

/-! ## Items between brackets -/

theorem length_le_intercalate (sep : A) (terms : List (List A)) :
    terms.length ≤ ([sep].intercalate terms).length + 1 := by
  induction terms with
  | nil => exact Nat.zero_le _
  | cons term terms ih =>
      cases terms with
      | nil => exact Nat.succ_le_succ (Nat.zero_le _)
      | cons next terms =>
          rw [List.intercalate_cons_cons, List.length_append, List.length_append,
            List.length_singleton, List.length_cons]
          omega

theorem length_le_intercalate_map (sep : List A) (print : α → List A) {xs : List α} {x : α}
    (h : x ∈ xs) : (print x).length ≤ (sep.intercalate (xs.map print)).length := by
  induction xs with
  | nil => exact absurd h List.not_mem_nil
  | cons first xs ih =>
      cases xs with
      | nil => rw [List.mem_singleton.mp h, List.map_singleton, List.intercalate_singleton]
      | cons next xs =>
          rw [List.map_cons, List.map_cons, List.intercalate_cons_cons, List.length_append,
            List.length_append]
          cases List.mem_cons.mp h with
          | inl heq =>
              rw [heq]
              omega
          | inr hmem =>
              have hrest := ih hmem
              rw [List.map_cons] at hrest
              omega

section Bracketed
variable [DecidableEq A] (blank : A → Bool) (sep closing : A) (item : Reader A α)

/-- An item with the separator or the closing symbol behind it, blanks around the item. -/
def separatedRound : Reader A (Round α) := fun text =>
  (item (text.dropWhile blank)).bind fun one =>
    match one.2.dropWhile blank with
    | [] => none
    | c :: rest =>
        if c = sep then some (.next one.1, rest)
        else if c = closing then some (.last one.1, rest)
        else none

/-- The items behind an opening symbol. -/
def bracketed : Reader A (List α) := fun text =>
  match text.dropWhile blank with
  | [] => none
  | c :: rest =>
      if c = closing then some ([], rest)
      else loop (separatedRound blank sep closing item) (c :: rest).length (c :: rest)

variable {blank sep closing item}

/-- What a round found is an item that was read inside its text. -/
theorem separatedRound_cases {text rest : List A} {found : Round α}
    (h : separatedRound blank sep closing item text = some (found, rest)) :
    ∃ x between, item (text.dropWhile blank) = some (x, between)
      ∧ rest.length < between.length ∧ (found = .next x ∨ found = .last x) := by
  obtain ⟨⟨x, between⟩, hone, hrest⟩ := Option.bind_eq_some_iff.mp h
  have hskip := (List.dropWhile_sublist blank (l := between)).length_le
  refine ⟨x, between, hone, ?_⟩
  revert hrest hskip
  dsimp only
  cases between.dropWhile blank with
  | nil => exact fun hrest _ => nomatch hrest
  | cons c left =>
      intro hrest hskip
      rw [List.length_cons] at hskip
      dsimp only at hrest
      split at hrest
      · cases hrest
        exact ⟨by omega, .inl rfl⟩
      · split at hrest
        · cases hrest
          exact ⟨by omega, .inr rfl⟩
        · cases hrest

theorem mem_of_bracketed {text rest : List A} {xs : List α}
    (h : bracketed blank sep closing item text = some (xs, rest)) {x : α} (hx : x ∈ xs) :
    ∃ t r, item t = some (x, r) := by
  rw [bracketed] at h
  revert h
  cases text.dropWhile blank with
  | nil => exact fun h => nomatch h
  | cons c left =>
      intro h
      dsimp only at h
      split at h
      · cases h
        exact absurd hx List.not_mem_nil
      · obtain ⟨t, r, hround⟩ := mem_of_loop h hx
        cases hround with
        | inl hnext =>
            obtain ⟨y, between, hone, _, heq | heq⟩ := separatedRound_cases hnext
            · cases heq
              exact ⟨_, _, hone⟩
            · cases heq
        | inr hlast =>
            obtain ⟨y, between, hone, _, heq | heq⟩ := separatedRound_cases hlast
            · cases heq
            · cases heq
              exact ⟨_, _, hone⟩

/-- What is printed between brackets is read back. -/
theorem bracketed_print {print : α → List A} {xs : List α} {rest : List A}
    (hsep : blank sep = false) (hclosing : blank closing = false) (hne : closing ≠ sep)
    (hhead : ∀ x ∈ xs, ∃ c ∈ (print x).head?, blank c = false ∧ c ≠ closing)
    (hitem : ∀ x ∈ xs, ∀ t : List A, (∃ c ∈ t.head?, c = sep ∨ c = closing) →
      item (print x ++ t) = some (x, t)) :
    bracketed blank sep closing item ([sep].intercalate (xs.map print) ++ closing :: rest)
      = some (xs, rest) := by
  have hround : ∀ x ∈ xs, ∀ c t, (c = sep ∨ c = closing) →
      separatedRound blank sep closing item (print x ++ c :: t)
        = if c = sep then some (.next x, t) else some (.last x, t) := by
    intro x hx c t hc
    obtain ⟨d, hd, hblank, _⟩ := hhead x hx
    obtain ⟨left, hprint⟩ := List.head?_eq_some_iff.mp hd
    have hstart : (print x ++ c :: t).dropWhile blank = print x ++ c :: t := by
      rw [hprint, List.cons_append, List.dropWhile_cons_of_neg (by simp [hblank])]
    have hend : (c :: t).dropWhile blank = c :: t := by
      apply List.dropWhile_cons_of_neg
      cases hc with
      | inl heq => simp [heq, hsep]
      | inr heq => simp [heq, hclosing]
    rw [separatedRound, hstart, hitem x hx _ ⟨c, rfl, hc⟩, Option.bind_some, hend]
    cases hc with
    | inl heq => simp only [heq, if_true]
    | inr heq => simp only [heq, hne, if_false, if_true]
  cases xs with
  | nil =>
      rw [bracketed, List.map_nil, List.intercalate_nil, List.nil_append,
        List.dropWhile_cons_of_neg (by simp [hclosing])]
      exact if_pos rfl
  | cons x xs =>
      obtain ⟨d, hd, hblank, hopen⟩ := hhead x List.mem_cons_self
      obtain ⟨left, hprint⟩ := List.head?_eq_some_iff.mp hd
      obtain ⟨more, hmore⟩ : ∃ more, [sep].intercalate ((x :: xs).map print) ++ closing :: rest
          = d :: more := by
        rw [List.map_cons, hprint, List.intercalate_cons_cons_left]
        exact ⟨_, rfl⟩
      have hfuel : (x :: xs).length ≤ (d :: more).length := by
        have hterms := length_le_intercalate sep ((x :: xs).map print)
        rw [List.length_map] at hterms
        have hend : (closing :: rest).length = rest.length + 1 := rfl
        rw [← hmore, List.length_append]
        omega
      have hloop : loop (separatedRound blank sep closing item) (d :: more).length (d :: more)
          = some (x :: xs, rest) := by
        rw [← hmore] at hfuel ⊢
        apply loop_intercalate (List.cons_ne_nil x xs) _ _ hfuel
        · exact fun y hy t => (hround y hy sep t (.inl rfl)).trans (if_pos rfl)
        · exact fun y hy => (hround y hy closing rest (.inr rfl)).trans (if_neg hne)
      rw [hmore, bracketed, List.dropWhile_cons_of_neg (by simp [hblank])]
      exact (if_neg hopen).trans hloop

end Bracketed

end Reading
