import TranspileBench.Lib.Program
import Mathlib.Data.List.DropRight
import Mathlib.Data.List.Basic

/-!
Append-only files of newline-terminated records. A writer can be stopped at any
byte, so a file holds its complete records and an unterminated tail; readers stop
at the tail and the next writer removes it. Appending therefore adds the record
or, however it is cut short, adds nothing.
-/
namespace RecordLog
variable {Row : Type}

def newline : UInt8 := 10

/-- A line encoding of rows: no newline inside a line, and decoding undoes it. -/
structure LineCodec (Row : Type) where
  encode : Row → List UInt8
  decode : List UInt8 → Option Row
  newline_free : ∀ row, newline ∉ encode row
  decode_encode : ∀ row, decode (encode row) = some row

/-- The terminated lines of a file and its unterminated tail. -/
def lines : List UInt8 → List (List UInt8) × List UInt8
  | [] => ([], [])
  | b :: rest =>
      match lines rest with
      | (ls, tail) =>
          if b = newline then ([] :: ls, tail)
          else
            match ls with
            | [] => ([], b :: tail)
            | l :: ls => ((b :: l) :: ls, tail)

/-- The complete rows of a file; `none` when a complete line is no row. -/
def readRecords (codec : LineCodec Row) (file : List UInt8) : Option (List Row) :=
  (lines file).1.mapM codec.decode

/-- The file without its unterminated tail. -/
def dropTail (file : List UInt8) : List UInt8 := file.rdropWhile (· ≠ newline)

/-- The bytes of complete rows. -/
def frame (codec : LineCodec Row) (rows : List Row) : List UInt8 :=
  rows.flatMap fun row => codec.encode row ++ [newline]

/-- `Holds codec rows file`: the complete rows of `file` are `rows`. -/
def Holds (codec : LineCodec Row) (rows : List Row) (file : List UInt8) : Prop :=
  ∃ tail, newline ∉ tail ∧ file = frame codec rows ++ tail

/-- Remove a stopped writer's tail, then write the row and its newline byte by byte. -/
def appendRecord {ε : Type} (codec : LineCodec Row) (errors : ε → Prop) (row : Row) :
    Prog (List UInt8) ε Unit := do
  Prog.fallible errors fun file (_ : Unit) file' => file' = dropTail file
  Prog.each (fun byte => Prog.fallible errors fun file _ file' => file' = file ++ [byte])
    (codec.encode row ++ [newline])
  -- the final flush may still fail, with the row in the file
  Prog.fallible errors fun file _ file' => file' = file

variable {codec : LineCodec Row}

@[simp]
theorem frame_nil : frame codec [] = [] := rfl

@[simp]
theorem frame_cons (row : Row) (rows : List Row) :
    frame codec (row :: rows) = codec.encode row ++ newline :: frame codec rows := by
  simp [frame]

theorem frame_append (xs ys : List Row) :
    frame codec (xs ++ ys) = frame codec xs ++ frame codec ys := by
  simp [frame]

theorem lines_tail {tail : List UInt8} (h : newline ∉ tail) : lines tail = ([], tail) := by
  induction tail with
  | nil => rfl
  | cons b rest ih =>
      obtain ⟨hb, hrest⟩ := not_or.mp (mt List.mem_cons.mpr h)
      simp [lines, ih hrest, Ne.symm hb]

theorem lines_line {l : List UInt8} (h : newline ∉ l) (file : List UInt8) :
    lines (l ++ newline :: file) = (l :: (lines file).1, (lines file).2) := by
  induction l with
  | nil => simp [lines]
  | cons b rest ih =>
      obtain ⟨hb, hrest⟩ := not_or.mp (mt List.mem_cons.mpr h)
      simp [lines, ih hrest, Ne.symm hb]

theorem lines_frame (rows : List Row) {tail : List UInt8} (h : newline ∉ tail) :
    lines (frame codec rows ++ tail) = (rows.map codec.encode, tail) := by
  induction rows with
  | nil => simpa using lines_tail h
  | cons row rows ih =>
      rw [frame_cons, List.append_assoc, List.cons_append, lines_line (codec.newline_free row), ih]
      rfl

theorem lines_join (file : List UInt8) :
    (lines file).1.flatMap (· ++ [newline]) ++ (lines file).2 = file := by
  induction file with
  | nil => rfl
  | cons b rest ih =>
      rw [lines]
      generalize lines rest = out at ih ⊢
      obtain ⟨ls, tail⟩ := out
      dsimp only at ih ⊢
      by_cases hb : b = newline
      · rw [if_pos hb, List.flatMap_cons, List.append_assoc, ih, hb]
        rfl
      · rw [if_neg hb]
        cases ls with
        | nil => exact congrArg (b :: ·) ih
        | cons l ls => exact congrArg (b :: ·) ih

theorem mapM_decode (rows : List Row) :
    (rows.map codec.encode).mapM codec.decode = some rows := by
  induction rows with
  | nil => rfl
  | cons row rows ih => simp [codec.decode_encode, ih]

/-- Readers see exactly the complete rows. -/
theorem Holds.readRecords {rows : List Row} {file : List UInt8} (h : Holds codec rows file) :
    readRecords codec file = some rows := by
  obtain ⟨tail, htail, rfl⟩ := h
  rw [RecordLog.readRecords, lines_frame rows htail]
  exact mapM_decode rows

theorem Holds.nil : Holds codec [] [] := ⟨[], by simp, rfl⟩

theorem Holds.of_frame (rows : List Row) : Holds codec rows (frame codec rows) :=
  ⟨[], by simp, (List.append_nil _).symm⟩

theorem Holds.unique {rows rows' : List Row} {file : List UInt8} (h : Holds codec rows file)
    (h' : Holds codec rows' file) : rows = rows' :=
  Option.some.inj (h.readRecords.symm.trans h'.readRecords)

theorem frame_ends (codec : LineCodec Row) (rows : List Row) :
    frame codec rows = [] ∨ ∃ file, frame codec rows = file ++ [newline] := by
  induction rows using List.reverseRecOn with
  | nil => exact .inl rfl
  | append_singleton rows row _ =>
      right
      exact ⟨frame codec rows ++ codec.encode row, by simp [frame_append]⟩

theorem Holds.dropTail {rows : List Row} {file : List UInt8} (h : Holds codec rows file) :
    dropTail file = frame codec rows := by
  obtain ⟨tail, htail, rfl⟩ := h
  induction tail using List.reverseRecOn with
  | nil =>
      rw [List.append_nil]
      rcases frame_ends codec rows with hnil | ⟨file, hfile⟩
      · rw [hnil]; rfl
      · rw [hfile]
        exact List.rdropWhile_concat_neg _ _ _ (by simp)
  | append_singleton tail b ih =>
      have hb : b ≠ newline := fun hb => htail (by simp [hb])
      rw [← List.append_assoc, RecordLog.dropTail,
        List.rdropWhile_concat_pos _ _ _ (by simpa using hb)]
      exact ih (fun hmem => htail (List.mem_append_left _ hmem))

/-- Appending, stopped at any byte, leaves the rows as they were or adds the row; it
returns only after adding it. -/
theorem wp_appendRecord {ε : Type} {errors : ε → Prop} {rows : List Row} {row : Row}
    {file : List UInt8} (h : Holds codec rows file) :
    (appendRecord codec errors row).wp
      (Contract.alone (fun file => Holds codec rows file ∨ Holds codec (rows ++ [row]) file)
        fun _ _ => True)
      (fun _ file => Holds codec (rows ++ [row]) file)
      (fun e file => errors e ∧ (Holds codec rows file ∨ Holds codec (rows ++ [row]) file))
      file := by
  have complete : Holds codec (rows ++ [row])
      (frame codec rows ++ (codec.encode row ++ [newline])) :=
    ⟨[], by simp, by simp [frame_append]⟩
  -- what is still to be written is a suffix of the line; what is there ends in the rest of it
  have partly : ∀ done todo, done ++ todo = codec.encode row ++ [newline] →
      Holds codec rows (frame codec rows ++ done) ∨
        Holds codec (rows ++ [row]) (frame codec rows ++ done) := by
    intro done todo hline
    cases todo with
    | nil => rw [List.append_nil] at hline; exact .inr (hline ▸ complete)
    | cons b todo =>
        refine .inl ⟨done, fun hmem => ?_, rfl⟩
        have hdone : done <+: codec.encode row := by
          have hlast := congrArg List.dropLast hline
          rw [List.dropLast_concat] at hlast
          rw [← hlast, List.dropLast_append_of_ne_nil (by simp)]
          exact List.prefix_append _ _
        exact codec.newline_free row (hdone.subset hmem)
  unfold appendRecord
  rw [Prog.wp_bind]
  refine Prog.wp_fallible (fun _ => trivial) ?_ fun _ _ hinv _ he => ⟨he, hinv⟩
  rintro _ rfl _ _ _ rfl
  rw [h.dropTail]
  have hstart := partly [] (codec.encode row ++ [newline]) rfl
  rw [List.append_nil] at hstart
  refine ⟨trivial, hstart, ?_⟩
  rw [Prog.wp_bind]
  refine Prog.wp_mono (Prog.wp_each
    (fun todo file => ∃ done, done ++ todo = codec.encode row ++ [newline] ∧
      file = frame codec rows ++ done) ?_ ⟨[], rfl, by simp⟩) ?_ fun _ _ he => he
  · rintro byte rest _ ⟨done, hline, rfl⟩
    refine Prog.wp_fallible (fun _ => trivial) ?_ fun _ _ hinv _ he => ⟨he, hinv⟩
    rintro _ rfl _ _ _ rfl
    have hline' : (done ++ [byte]) ++ rest = codec.encode row ++ [newline] := by simpa using hline
    rw [List.append_assoc]
    exact ⟨trivial, partly _ rest hline', _, hline', rfl⟩
  · rintro _ _ ⟨done, hline, rfl⟩
    refine Prog.wp_fallible (fun _ => trivial) ?_ fun _ _ hinv _ he => ⟨he, hinv⟩
    rintro _ rfl hinv _ _ rfl
    refine ⟨trivial, hinv, ?_⟩
    rw [List.append_nil] at hline
    exact hline ▸ complete

end RecordLog
