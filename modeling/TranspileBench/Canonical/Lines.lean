import Mathlib
import TranspileBench.Canonical.Encoding
import TranspileBench.Coordinator.AppendLog
import TranspileBench.Lib.Fallible
import TranspileBench.Worker.Codec

/-!
Files of canonical lines: the logs that `append_record` writes and `read_records` reads, and
the circuits of `write_circuit`, which are read back only when every line is canonical. The
stream of a circuit is what its gzip container holds.
-/
namespace TranspileBench.Canonical
open Fallible
open RecordLog (newline lines)
open Worker (CIRCUIT_FORMAT)

variable {F : Type} (floats : Json.FloatText F)
  (wide : Encoding → List UInt8 → Option (List Char)) (path : String)

/-- `read_records` on a line. -/
def readRecord (line : List UInt8) : Except Exn (Value F) :=
  match loads floats wide line with
  | some value => .ok value
  | none => .error (.harness ("Corrupt completed record in " ++ path))

/-- `read_records`, up to a line without its newline. -/
def readRecords (file : List UInt8) : Except Exn (List (Value F)) :=
  ((lines file).1.map (· ++ [newline])).mapM (readRecord floats wide path)

/-- The lines of a stream with their newlines, and what is left behind the last newline. -/
def streamLines (stream : List UInt8) : List (List UInt8) :=
  (lines stream).1.map (· ++ [newline])
    ++ if (lines stream).2 = [] then [] else [(lines stream).2]

/-- `circuit_lines` on a line. -/
def circuitLine (line : List UInt8) : Except Exn (Value F) :=
  match loads floats wide line with
  | none => .error (.other "ValueError")
  | some value =>
      if recordLine floats value = line then .ok value
      else .error (.harness ("Non-canonical circuit encoding: " ++ path))

def formatKey : List Char := "format".toList

/-- `header.get("format") == CIRCUIT_FORMAT` of a dict. -/
def hasFormat (header : Value F) : Bool :=
  match header.json with
  | .obj fields =>
      match fields.lookup formatKey with
      | some (.str s) => s == CIRCUIT_FORMAT.toList
      | _ => false
  | _ => false

/-- `read_circuit`: the header is checked before the other lines are read. -/
def readCircuit (stream : List UInt8) : Except Exn (Value F × List (Value F)) :=
  match streamLines stream with
  | [] => .error (.harness "Empty circuit artifact")
  | first :: rest => do
      let header ← circuitLine floats wide path first
      if hasFormat header then do
        let operations ← rest.mapM (circuitLine floats wide path)
        .ok (header, operations)
      else .error (.harness "Unknown circuit format")

def writeCircuit (header : Value F) (operations : List (Value F)) : Except Exn (List UInt8) :=
  if hasFormat header then .ok ((header :: operations).flatMap (recordLine floats))
  else .error (.harness "Unknown circuit format")

variable {floats wide path}

theorem Value.sorted_same (v : Value F) : v.sorted.Same v := by
  rw [Value.same_iff, Value.sorted, Value.sorted, Value.mk.injEq]
  exact v.unique.sortKeys_sortKeys

theorem recordLine_inj {v w : Value F} :
    recordLine floats v = recordLine floats w ↔ v.Same w := by
  rw [recordLine, recordLine, List.append_left_inj, canonicalBytes_inj]

theorem flatMap_recordLine {vs ws : List (Value F)} (h : List.Forall₂ Value.Same vs ws) :
    vs.flatMap (recordLine floats) = ws.flatMap (recordLine floats) := by
  induction h with
  | nil => rfl
  | cons hsame _ ih => rw [List.flatMap_cons, List.flatMap_cons, ih, recordLine_inj.mpr hsame]

theorem forall₂_sorted (vs : List (Value F)) :
    List.Forall₂ Value.Same vs (vs.map Value.sorted) := by
  rw [List.forall₂_map_right_iff]
  apply List.forall₂_same.mpr
  intro v _
  rw [Value.same_iff]
  exact (Value.same_iff.mp v.sorted_same).symm

/-! ## Logs -/

variable (floats wide) in
/-- The canonical lines as a codec of values up to the orders of keys. -/
def canonicalCodec : RecordLog.LineCodec (Quotient (Value.setoid F)) where
  encode := Quotient.lift (canonicalBytes floats) fun _ _ h => canonicalBytes_inj.mpr h
  decode line := (loads floats wide (line ++ [newline])).map (Quotient.mk _)
  newline_free row := Quotient.inductionOn row newline_not_mem
  decode_encode row := by
    induction row using Quotient.inductionOn with
    | h v =>
        have hread : loads floats wide (canonicalBytes floats v ++ [newline]) = some v.sorted :=
          loads_recordLine v
        rw [Quotient.lift_mk, hread, Option.map_some]
        exact congrArg some (Quotient.sound v.sorted_same)

theorem frame_canonical (rows : List (Value F)) :
    RecordLog.frame (canonicalCodec floats wide) (rows.map (Quotient.mk _))
      = rows.flatMap (recordLine floats) := by
  rw [RecordLog.frame, List.flatMap_map]
  rfl

theorem lines_recordLines (rows : List (Value F)) :
    lines (rows.flatMap (recordLine floats)) = (rows.map (canonicalBytes floats), []) := by
  have hlines := @RecordLog.lines_frame _ (canonicalCodec floats fun _ _ => none)
    (rows.map (Quotient.mk _)) [] List.not_mem_nil
  rw [frame_canonical, List.append_nil, List.map_map] at hlines
  exact hlines

theorem readRecords_recordLines (rows : List (Value F)) :
    readRecords floats wide path (rows.flatMap (recordLine floats))
      = .ok (rows.map Value.sorted) := by
  rw [readRecords, lines_recordLines, List.map_map, mapM_eq_ok, List.forall₂_map_left_iff,
    List.forall₂_map_right_iff]
  apply List.forall₂_same.mpr
  intro v _
  have hread : loads floats wide (canonicalBytes floats v ++ [newline]) = some v.sorted :=
    loads_recordLine v
  rw [Function.comp_apply, readRecord, hread]

/-- `read_records` is what the log reads through the codec, up to the orders of keys. -/
theorem readRecords_codec (file : List UInt8) :
    ((readRecords floats wide path file).toOption.map fun rows =>
        rows.map (Quotient.mk (Value.setoid F)))
      = RecordLog.readRecords (canonicalCodec floats wide) file := by
  rw [readRecords, RecordLog.readRecords]
  induction (lines file).1 with
  | nil => rfl
  | cons line rest ih =>
      have hdecode : (canonicalCodec floats wide).decode line
          = (loads floats wide (line ++ [newline])).map (Quotient.mk _) := rfl
      rw [List.map_cons, List.mapM_cons, List.mapM_cons, ← ih, readRecord, hdecode]
      cases loads floats wide (line ++ [newline]) with
      | none => rfl
      | some value =>
          cases (rest.map (· ++ [newline])).mapM (readRecord floats wide path) with
          | ok rows => rfl
          | error e => rfl

/-! ## Circuits -/

theorem circuitLine_eq_ok {line : List UInt8} {v : Value F} :
    circuitLine floats wide path line = .ok v
      ↔ loads floats wide line = some v ∧ line = recordLine floats v := by
  rw [circuitLine.eq_def]
  cases loads floats wide line with
  | none => exact iff_of_false (fun h => nomatch h) fun h => nomatch h.1
  | some value =>
      dsimp only
      rw [Option.some.injEq]
      by_cases hline : recordLine floats value = line
      · rw [if_pos hline, Except.ok.injEq]
        constructor
        · intro heq
          exact ⟨heq, heq ▸ hline.symm⟩
        · exact fun h => h.1
      · rw [if_neg hline]
        exact iff_of_false (fun h => nomatch h) fun h => hline (h.1 ▸ h.2.symm)

theorem circuitLine_recordLine (v : Value F) :
    circuitLine floats wide path (recordLine floats v) = .ok v.sorted :=
  circuitLine_eq_ok.mpr ⟨loads_recordLine v, recordLine_inj.mpr (Value.same_iff.mpr
    (Value.same_iff.mp v.sorted_same).symm)⟩

theorem streamLines_flatten (stream : List UInt8) : (streamLines stream).flatten = stream := by
  have hjoin := RecordLog.lines_join stream
  rw [streamLines, List.flatten_append, ← List.flatMap_def]
  split
  · rename_i hnil
    rwa [hnil] at hjoin
  · rwa [List.flatten_singleton]

theorem streamLines_recordLines (items : List (Value F)) :
    streamLines (items.flatMap (recordLine floats)) = items.map (recordLine floats) := by
  rw [streamLines, lines_recordLines, List.map_map, if_pos rfl, List.append_nil]
  rfl

/-- A circuit that is accepted is what `write_circuit` writes of it. -/
theorem readCircuit_eq_ok {stream : List UInt8} {header : Value F} {operations : List (Value F)}
    (h : readCircuit floats wide path stream = .ok (header, operations)) :
    writeCircuit floats header operations = .ok stream := by
  have hjoin := streamLines_flatten stream
  rw [readCircuit] at h
  cases hlines : streamLines stream with
  | nil =>
      rw [hlines] at h
      exact nomatch h
  | cons first rest =>
      rw [hlines] at h hjoin
      obtain ⟨header', hheader, h⟩ := bind_eq_ok.mp h
      split at h
      · rename_i hformat
        obtain ⟨operations', hoperations, h⟩ := bind_eq_ok.mp h
        cases h
        have hrest : operations.flatMap (recordLine floats) = rest.flatMap id := by
          apply mapM_flatMap _ hoperations
          exact fun line v hv => (circuitLine_eq_ok.mp hv).2.symm
        rw [writeCircuit, if_pos hformat, ← hjoin, List.flatMap_cons, hrest,
          ← (circuitLine_eq_ok.mp hheader).2, List.flatten_cons, List.flatMap_id]
      · exact nomatch h

theorem hasFormat_iff {v : Value F} :
    hasFormat v = true
      ↔ ∃ fields, v.json = .obj fields ∧ (formatKey, .str CIRCUIT_FORMAT.toList) ∈ fields := by
  obtain ⟨json, hunique⟩ := v
  cases json with
  | obj fields =>
      obtain ⟨hkeys, _⟩ := Json.uniqueKeys_obj.mp hunique
      have hlookup : hasFormat ⟨.obj fields, hunique⟩ = true
          ↔ fields.lookup formatKey = some (.str CIRCUIT_FORMAT.toList) := by
        rw [hasFormat]
        dsimp only
        split
        · rename_i s hs
          rw [hs, beq_iff_eq, Option.some.injEq, Json.str.injEq]
        · rename_i hs
          exact iff_of_false Bool.false_ne_true (hs _)
      rw [hlookup]
      constructor
      · exact fun h => ⟨fields, rfl, Assoc.mem_of_lookup h⟩
      · intro ⟨fields', heq, hmem⟩
        cases heq
        exact Assoc.lookup_of_nodup hkeys hmem
  | _ =>
      apply iff_of_false
      · exact Bool.false_ne_true
      · intro ⟨fields, heq, _⟩
        exact nomatch heq

/-- The format is found in the header with its keys in order too. -/
theorem hasFormat_sorted {v : Value F} (h : hasFormat v = true) : hasFormat v.sorted = true := by
  obtain ⟨fields, hfields, hmem⟩ := hasFormat_iff.mp h
  apply hasFormat_iff.mpr
  refine ⟨Json.sortByKey (Json.sortFields fields), ?_, ?_⟩
  · change v.json.sortKeys = _
    rw [hfields, Json.sortKeys]
  · apply (List.perm_insertionSort _ _).symm.subset
    rw [Json.sortFields_eq]
    exact List.mem_map.mpr ⟨_, hmem, rfl⟩

/-- What `write_circuit` writes is accepted, and reads as the header and the operations. -/
theorem readCircuit_writeCircuit {header : Value F} {operations : List (Value F)}
    {stream : List UInt8} (h : writeCircuit floats header operations = .ok stream) :
    ∃ header' operations', readCircuit floats wide path stream = .ok (header', operations')
      ∧ header.Same header' ∧ List.Forall₂ Value.Same operations operations' := by
  rw [writeCircuit] at h
  split at h
  · rename_i hformat
    cases h
    have hall := forall₂_sorted (header :: operations)
    obtain ⟨hheader, hoperations⟩ := List.forall₂_cons.mp hall
    refine ⟨header.sorted, operations.map Value.sorted, ?_, hheader, hoperations⟩
    have hrest : (operations.map (recordLine floats)).mapM (circuitLine floats wide path)
        = .ok (operations.map Value.sorted) := by
      rw [mapM_eq_ok, List.forall₂_map_left_iff, List.forall₂_map_right_iff]
      exact List.forall₂_same.mpr fun v _ => circuitLine_recordLine v
    rw [readCircuit, streamLines_recordLines, List.map_cons]
    dsimp only
    rw [circuitLine_recordLine, hrest]
    exact if_pos (hasFormat_sorted hformat)
  · exact nomatch h

/-- The canonical bytes of a value are its own up to the orders of keys; a concatenation of
canonical lines is read as the values it was made of; and the lines of a circuit that are
accepted are the canonical ones, so a circuit is the one encoding of its header and operations. -/
theorem canonical_encoding_unique (floats : Json.FloatText F)
    (wide : Encoding → List UInt8 → Option (List Char)) (path : String) :
    (∀ v w : Value F, canonicalBytes floats v = canonicalBytes floats w → v.Same w)
      ∧ (∀ v : Value F, newline ∉ canonicalBytes floats v)
      ∧ (∀ values : List (Value F), ∃ rows,
          readRecords floats wide path (values.flatMap (recordLine floats)) = .ok rows
            ∧ List.Forall₂ Value.Same values rows)
      ∧ (∀ (line : List UInt8) (v : Value F), circuitLine floats wide path line = .ok v
          ↔ loads floats wide line = some v ∧ line = canonicalBytes floats v ++ [newline])
      ∧ (∀ line : List UInt8, (∃ v, circuitLine floats wide path line = .ok v)
          ↔ ∃ v : Value F, line = canonicalBytes floats v ++ [newline])
      ∧ ∀ (stream : List UInt8) (header : Value F) (operations : List (Value F)),
          readCircuit floats wide path stream = .ok (header, operations) →
            writeCircuit floats header operations = .ok stream
              ∧ ∀ (other : List UInt8) (header' : Value F) (operations' : List (Value F)),
                  readCircuit floats wide path other = .ok (header', operations') →
                    header.Same header' → List.Forall₂ Value.Same operations operations' →
                      other = stream := by
  refine ⟨fun v w => canonicalBytes_inj.mp, newline_not_mem, ?_, ?_, ?_, ?_⟩
  · intro values
    exact ⟨_, readRecords_recordLines values, forall₂_sorted values⟩
  · intro line v
    exact circuitLine_eq_ok
  · intro line
    constructor
    · intro ⟨v, hv⟩
      exact ⟨v, (circuitLine_eq_ok.mp hv).2⟩
    · intro ⟨v, hline⟩
      exact ⟨v.sorted, hline ▸ circuitLine_recordLine v⟩
  · intro stream header operations hread
    have hwrite := readCircuit_eq_ok hread
    refine ⟨hwrite, ?_⟩
    intro other header' operations' hother hheader hoperations
    have hother' := readCircuit_eq_ok hother
    have hsame := @flatMap_recordLine F floats _ _ (.cons hheader hoperations)
    rw [writeCircuit] at hwrite hother'
    split at hwrite
    · split at hother'
      · cases hwrite
        cases hother'
        exact hsame.symm
      · exact nomatch hother'
    · exact nomatch hwrite

/-- A row with its keys out of order. -/
def sampleRow : Value ℤ where
  json := .obj [(['b'], .float 1), (['a'], .arr [.bool true, .null])]
  unique := by simp [Json.UniqueKeys, Json.UniqueFields, Json.UniqueItems]

theorem canonical_encoding_unique_row : ∃ rows,
    readRecords Json.wholeFloats (fun _ _ => none) "log.jsonl"
        ([sampleRow, sampleRow].flatMap (recordLine Json.wholeFloats)) = .ok rows
      ∧ List.Forall₂ Value.Same [sampleRow, sampleRow] rows :=
  (canonical_encoding_unique Json.wholeFloats (fun _ _ => none) "log.jsonl").2.2.1
    [sampleRow, sampleRow]

end TranspileBench.Canonical
