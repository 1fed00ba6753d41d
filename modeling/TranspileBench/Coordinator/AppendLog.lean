import TranspileBench.Evaluator.Verdict
import TranspileBench.Lib.RecordLog

/-!
`append_record` and `read_records` byte by byte: the repair of a torn tail by a backward
scan in blocks, and what survives of a log whose writers are killed anywhere.
-/
namespace TranspileBench.Coordinator
open RecordLog

/-- Python's `bytes.rfind` of a newline. -/
def rfind : List UInt8 → Option Nat
  | [] => none
  | b :: rest =>
      match rfind rest with
      | some i => some (i + 1)
      | none => if b = newline then some 0 else none

/-- The scan, in blocks, for the end of the last complete row before `cursor`. -/
def scanBack (block : Nat) (pos : 0 < block) (file : List UInt8) (cursor : Nat) : Nat :=
  if cursor = 0 then 0
  else
    let start := cursor - block
    match rfind ((file.drop start).take (cursor - start)) with
    | some found => start + found + 1
    | none => scanBack block pos file start
termination_by cursor

def SCAN_BLOCK : Nat := 65536

theorem SCAN_BLOCK_pos : 0 < SCAN_BLOCK := Nat.zero_lt_succ 65535

/-- A log file: its bytes, once it is there. `terminated` is history: the rows whose
newline has been written. -/
structure LogFile (Row : Type) where
  content : Option (List UInt8) := none
  terminated : List Row := []

variable {Row : Type}

def LogFile.bytes (f : LogFile Row) : List UInt8 := f.content.getD []

/-- `open("a+b")` creates the file. -/
def openLog : Prog (LogFile Row) Exn Unit :=
  Prog.fallible (fun _ => True) fun f _ f' => f' = { f with content := some f.bytes }

/-- Remove an unterminated tail. -/
def repair : Prog (LogFile Row) Exn Unit := do
  let bytes ← Prog.fallible (fun _ => True) fun f b f' => b = f.bytes ∧ f' = f
  if bytes.getLast?.any (· ≠ newline) then
    Prog.fallible (fun _ => True) fun f _ f' =>
      f' = { f with
        content := some (f.bytes.take (scanBack SCAN_BLOCK SCAN_BLOCK_pos bytes bytes.length)) }
  else pure ()

/-- The row reaches the file byte by byte, its newline last. -/
def writeRow (codec : LineCodec Row) (row : Row) : Prog (LogFile Row) Exn Unit := do
  Prog.each (fun byte => Prog.fallible (fun _ => True) fun f _ f' =>
    f' = { f with content := some (f.bytes ++ [byte]) }) (codec.encode row)
  Prog.fallible (fun _ => True) fun f _ f' =>
    f' = { f with content := some (f.bytes ++ [newline]), terminated := f.terminated ++ [row] }

/-- `append_record` under the lock of the file. -/
def append_record (codec : LineCodec Row) (row : Row) : Prog (LogFile Row) Exn Unit := do
  openLog
  repair
  writeRow codec row
  -- the flush
  Prog.fallible (fun _ => True) fun f _ f' => f' = f

def read_records (codec : LineCodec Row) (f : LogFile Row) : Except Exn (List Row) :=
  match f.content with
  | none => .ok []
  | some bytes =>
      match RecordLog.readRecords codec bytes with
      | some rows => .ok rows
      | none => .error (.harness "Corrupt completed record")

/-- The moments of a log: before the first call, and wherever a call is, or ends, or is
killed. Calls follow each other, since each holds the lock of the file. -/
inductive Moment (codec : LineCodec Row) : LogFile Row → Prop
  | absent : Moment codec {}
  | call {f f' : LogFile Row} {row : Row} {outcome : Option (Except Exn Unit)}
      (before : Moment codec f) (run : Exec (append_record codec row) f outcome f') :
      Moment codec f'

section Scan

theorem rfind_spec (chunk : List UInt8) :
    (rfind chunk = none ∧ ∀ j : Nat, chunk[j]? ≠ some newline) ∨
      ∃ i : Nat, rfind chunk = some i ∧ chunk[i]? = some newline ∧
        ∀ j : Nat, i < j → chunk[j]? ≠ some newline := by
  induction chunk with
  | nil => exact .inl ⟨rfl, by simp⟩
  | cons b rest ih =>
      rw [rfind]
      rcases ih with ⟨hnone, hfree⟩ | ⟨i, hsome, hat, hafter⟩
      · rw [hnone]
        by_cases hb : b = newline
        · refine .inr ⟨0, by simp [hb], by simp [hb], fun j hj => ?_⟩
          cases j with
          | zero => omega
          | succ j => exact hfree j
        · refine .inl ⟨by simp [hb], fun j => ?_⟩
          cases j with
          | zero => simpa using hb
          | succ j => exact hfree j
      · refine .inr ⟨i + 1, by rw [hsome], hat, fun j hj => ?_⟩
        cases j with
        | zero => omega
        | succ j => exact hafter j (by omega)

/-- The scan finds the end of the complete rows, however long the tail is and wherever
the blocks fall. -/
theorem scanBack_eq {block : Nat} (pos : 0 < block) {file : List UInt8} {boundary cursor : Nat}
    (ends : boundary = 0 ∨ file[boundary - 1]? = some newline)
    (torn : ∀ i, boundary ≤ i → file[i]? ≠ some newline) (le : boundary ≤ cursor) :
    scanBack block pos file cursor = boundary := by
  induction cursor using Nat.strong_induction_on with
  | _ cursor ih =>
      rw [scanBack]
      split_ifs with hcursor
      · omega
      have chunk : ∀ j, ((file.drop (cursor - block)).take (cursor - (cursor - block)))[j]? =
          if j < cursor - (cursor - block) then file[cursor - block + j]? else none := by
        intro j
        rw [List.getElem?_take, List.getElem?_drop]
      -- a newline at the boundary is in the block as soon as the block reaches back to it
      have seen : boundary ≠ 0 → cursor - block < boundary →
          ((file.drop (cursor - block)).take (cursor - (cursor - block)))[boundary - 1 -
            (cursor - block)]? = some newline := by
        intro hne hlt
        rw [chunk, if_pos (by omega), show cursor - block + (boundary - 1 - (cursor - block)) =
          boundary - 1 by omega]
        exact ends.resolve_left hne
      rcases rfind_spec ((file.drop (cursor - block)).take (cursor - (cursor - block))) with
        ⟨hnone, hfree⟩ | ⟨i, hsome, hat, hafter⟩
      · dsimp only
        rw [hnone]
        refine ih _ (by omega) ?_
        by_contra hlt
        exact hfree _ (seen (by omega) (by omega))
      · dsimp only
        rw [hsome]
        change cursor - block + i + 1 = boundary
        have hi : i < cursor - (cursor - block) ∧ file[cursor - block + i]? = some newline := by
          rw [chunk] at hat
          split_ifs at hat with hlt
          exact ⟨hlt, hat⟩
        have hbelow : cursor - block + i < boundary := by
          by_contra hge
          exact torn _ (by omega) hi.2
        by_contra hne
        exact hafter (boundary - 1 - (cursor - block)) (by omega) (seen (by omega) (by omega))

end Scan

section Log
variable {codec : LineCodec Row} {rows : List Row} {row : Row} {file : List UInt8}

/-- Truncation at the scanned boundary leaves the complete rows. -/
theorem take_scanBack (h : Holds codec rows file) :
    file.take (scanBack SCAN_BLOCK SCAN_BLOCK_pos file file.length) = frame codec rows := by
  obtain ⟨tail, htail, rfl⟩ := h
  have hscan : scanBack SCAN_BLOCK SCAN_BLOCK_pos (frame codec rows ++ tail)
      (frame codec rows ++ tail).length = (frame codec rows).length := by
    refine scanBack_eq SCAN_BLOCK_pos ?_ ?_ (by simp)
    · rcases frame_ends codec rows with hnil | ⟨front, hfront⟩
      · exact .inl (by rw [hnil]; rfl)
      · right
        rw [hfront]
        simp
    · intro i hi hat
      rw [List.getElem?_append_right hi] at hat
      exact htail (List.mem_of_getElem? hat)
  rw [hscan, List.take_left]

/-- A file that does not end in a newline has a tail; one that does, or is empty, has none. -/
theorem holds_of_no_tail (h : Holds codec rows file)
    (ends : file.getLast?.any (· ≠ newline) = false) : file = frame codec rows := by
  obtain ⟨tail, htail, rfl⟩ := h
  cases tail using List.reverseRecOn with
  | nil => simp
  | append_singleton tail b =>
      rw [← List.append_assoc, List.getLast?_concat] at ends
      have hb : b = newline := by simpa using ends
      exact absurd (by simp [hb]) htail

/-- What a log holds at every moment. -/
def Intact (codec : LineCodec Row) (f : LogFile Row) : Prop := Holds codec f.terminated f.bytes

/-- What a call of `append_record` may have done to the rows. -/
def Appends (rows : List Row) (row : Row) (f : LogFile Row) : Prop :=
  f.terminated = rows ∨ f.terminated = rows ++ [row]

/-- The contract of a call, under the lock. -/
def appendContract (codec : LineCodec Row) (rows : List Row) (row : Row) :
    Contract (LogFile Row) :=
  Contract.alone (fun f => Intact codec f ∧ Appends rows row f) fun _ _ => True

theorem wp_openLog {f : LogFile Row} {Q : Unit → LogFile Row → Prop}
    (next : ∀ f', f'.bytes = f.bytes → f'.terminated = f.terminated → Q () f') :
    (openLog : Prog (LogFile Row) Exn Unit).wp (appendContract codec rows row) Q
      (fun _ _ => True) f := by
  refine Prog.wp_fallible (fun _ => trivial) ?_ fun _ _ _ _ _ => trivial
  rintro _ rfl hinv _ _ rfl
  exact ⟨trivial, hinv, next _ rfl rfl⟩

theorem wp_repair {f : LogFile Row} {Q : Unit → LogFile Row → Prop} (hf : f.terminated = rows)
    (next : ∀ f', f'.bytes = frame codec rows → f'.terminated = rows → Q () f') :
    (repair : Prog (LogFile Row) Exn Unit).wp (appendContract codec rows row) Q
      (fun _ _ => True) f := by
  unfold repair
  rw [Prog.wp_bind]
  refine Prog.wp_fallible (fun _ => trivial) ?_ fun _ _ _ _ _ => trivial
  rintro _ rfl hinv _ g ⟨rfl, rfl⟩
  refine ⟨trivial, hinv, ?_⟩
  have hholds : Holds codec rows g.bytes := hf ▸ hinv.1
  split_ifs with htorn
  · refine Prog.wp_fallible (fun _ => trivial) ?_ fun _ _ _ _ _ => trivial
    rintro _ rfl _ _ _ rfl
    have hbytes := take_scanBack hholds
    refine ⟨trivial, ⟨?_, .inl hf⟩, next _ hbytes hf⟩
    exact ⟨[], by simp, by rw [List.append_nil, hf]; exact hbytes⟩
  · exact next g (holds_of_no_tail hholds (by simpa using htorn)) hf

/-- Once the file ends in complete rows, the row and its newline complete it. -/
theorem wp_writeRow {f : LogFile Row} {Q : Unit → LogFile Row → Prop}
    (hbytes : f.bytes = frame codec rows) (hf : f.terminated = rows)
    (next : ∀ f', f'.terminated = rows ++ [row] → Q () f') :
    (writeRow codec row).wp (appendContract codec rows row) Q (fun _ _ => True) f := by
  unfold writeRow
  rw [Prog.wp_bind]
  refine Prog.wp_mono (Prog.wp_each
    (fun todo g => ∃ done, done ++ todo = codec.encode row ∧
      g.bytes = frame codec rows ++ done ∧ g.terminated = rows) ?_ ⟨[], rfl, by simp [hbytes], hf⟩)
    ?_ fun _ _ he => he
  · rintro byte todo g ⟨done, hline, hg, hrows⟩
    refine Prog.wp_fallible (fun _ => trivial) ?_ fun _ _ _ _ _ => trivial
    rintro _ rfl _ _ _ rfl
    have hline' : (done ++ [byte]) ++ todo = codec.encode row := by simpa using hline
    have hbytes' : LogFile.bytes { g with content := some (g.bytes ++ [byte]) } =
        frame codec rows ++ (done ++ [byte]) := by
      rw [LogFile.bytes, Option.getD_some, hg, List.append_assoc]
    refine ⟨trivial, ⟨⟨done ++ [byte], ?_, ?_⟩, .inl hrows⟩, _, hline', hbytes', hrows⟩
    · exact fun hmem => codec.newline_free row (hline' ▸ List.mem_append_left _ hmem)
    · rw [hbytes', hrows]
  · rintro _ g ⟨done, hline, hg, hrows⟩
    rw [List.append_nil] at hline
    refine Prog.wp_fallible (fun _ => trivial) ?_ fun _ _ _ _ _ => trivial
    rintro _ rfl _ _ _ rfl
    have hterminated : g.terminated ++ [row] = rows ++ [row] := by rw [hrows]
    refine ⟨trivial, ⟨⟨[], by simp, ?_⟩, .inr hterminated⟩, next _ hterminated⟩
    rw [LogFile.bytes, Option.getD_some, hg, hline, hterminated, frame_append]
    simp

/-- A call keeps the rows, adds its own or not, and returns only with its own. -/
theorem wp_append_record {f : LogFile Row} (hf : f.terminated = rows) :
    (append_record codec row).wp (appendContract codec rows row)
      (fun _ f' => f'.terminated = rows ++ [row]) (fun _ _ => True) f := by
  unfold append_record
  rw [Prog.wp_bind]
  refine wp_openLog fun f₁ _ hf₁ => ?_
  rw [Prog.wp_bind]
  refine wp_repair (hf₁.trans hf) fun f₂ hbytes hf₂ => ?_
  rw [Prog.wp_bind]
  refine wp_writeRow hbytes hf₂ fun f₃ hf₃ => ?_
  refine Prog.wp_fallible (fun _ => trivial) ?_ fun _ _ _ _ _ => trivial
  rintro _ rfl hinv _ _ rfl
  exact ⟨trivial, hinv, hf₃⟩

theorem append_record_run {f f' : LogFile Row} {outcome : Option (Except Exn Unit)}
    (h : Intact codec f) (run : Exec (append_record codec row) f outcome f') :
    Intact codec f' ∧ Appends f.terminated row f' ∧
      (outcome = some (.ok ()) → f'.terminated = f.terminated ++ [row]) := by
  obtain ⟨⟨hintact, happends⟩, hends⟩ := run.sound ⟨h, .inl rfl⟩ (wp_append_record rfl)
  refine ⟨hintact, happends, ?_⟩
  rintro rfl
  exact hends

theorem Moment.intact {f : LogFile Row} (h : Moment codec f) : Intact codec f := by
  induction h with
  | absent => exact Holds.nil
  | call _ run ih => exact (append_record_run ih run).1

theorem Intact.read_records {f : LogFile Row} (h : Intact codec f) :
    read_records codec f = .ok f.terminated := by
  unfold Coordinator.read_records
  cases hcontent : f.content with
  | none =>
      have hnil : Holds codec f.terminated [] := by
        simpa [Intact, LogFile.bytes, hcontent] using h
      rw [Holds.unique hnil Holds.nil]
  | some bytes =>
      have hholds : Holds codec f.terminated bytes := by
        simpa [Intact, LogFile.bytes, hcontent] using h
      dsimp only
      rw [hholds.readRecords]

end Log

/-- At every moment of every sequence of calls, killed anywhere, the log reads as the rows
whose newline was written, in order; a call removes none of them, and adds its own before
it returns. -/
theorem append_only (codec : LineCodec Row) (f : LogFile Row) (h : Moment codec f) :
    read_records codec f = .ok f.terminated ∧
    ∀ (row : Row) (outcome : Option (Except Exn Unit)) (f' : LogFile Row),
      Exec (append_record codec row) f outcome f' →
      f.terminated <+: f'.terminated ∧
        (outcome = some (.ok ()) → f'.terminated = f.terminated ++ [row]) := by
  refine ⟨h.intact.read_records, fun row outcome f' run => ?_⟩
  obtain ⟨-, happends, hreturns⟩ := append_record_run h.intact run
  refine ⟨?_, hreturns⟩
  rcases happends with hsame | hadded
  · exact hsame ▸ List.prefix_rfl
  · rw [hadded]
    exact List.prefix_append _ _

/-- Rows that are all the empty object. -/
def objectCodec : LineCodec Unit where
  encode _ := [123, 125]
  decode line := if line = [123, 125] then some () else none
  newline_free _ := by decide
  decode_encode _ := rfl

/-- A call killed after one byte of its row. -/
theorem torn_moment : Moment objectCodec ⟨some [123], []⟩ := by
  have opened : Exec openLog ({} : LogFile Unit) (some (.ok ())) ⟨some [], []⟩ := .fallible rfl
  have repaired : Exec repair (⟨some [], []⟩ : LogFile Unit) (some (.ok ())) ⟨some [], []⟩ :=
    Exec.bind (.fallible (b := []) ⟨rfl, rfl⟩) (.ret _ _)
  have written : Exec (writeRow objectCodec ()) ⟨some [], []⟩ none ⟨some [123], []⟩ :=
    .stopped (.act (b := Except.ok ()) rfl (.stop _ _))
  exact .call .absent (opened.bind (repaired.bind (Exec.stopped written)))

theorem torn_log : read_records objectCodec ⟨some [123], []⟩ = .ok [] ∧
    ∀ (row : Unit) (outcome : Option (Except Exn Unit)) (f' : LogFile Unit),
      Exec (append_record objectCodec row) ⟨some [123], []⟩ outcome f' →
      [] <+: f'.terminated ∧ (outcome = some (.ok ()) → f'.terminated = [] ++ [row]) :=
  append_only objectCodec _ torn_moment

end TranspileBench.Coordinator
