import Mathlib
import TranspileBench.Lib.JsonText
import TranspileBench.Lib.RecordLog

/-!
`canonical_bytes`, and the bytes that `json.loads` takes. A value with a float that is not
finite, or with a lone surrogate, has no canonical bytes; a text with one is refused here where
`json.loads` would read it.
-/
namespace TranspileBench.Canonical
open RecordLog (newline)

/-- A value as `json.loads` gives it and the callers build it: no object has a key twice. -/
structure Value (F : Type) where
  json : Json F
  unique : json.UniqueKeys

variable {F : Type}

namespace Value

/-- Equal up to the orders of keys. -/
def Same (v w : Value F) : Prop := v.json.Same w.json

/-- The value with the keys of its objects in order. -/
def sorted (v : Value F) : Value F := ⟨v.json.sortKeys, v.unique.sortKeys⟩

theorem same_iff {v w : Value F} : v.Same w ↔ v.sorted = w.sorted := by
  rw [Same, Json.same_iff v.unique w.unique, sorted, sorted, mk.injEq]

instance setoid (F : Type) : Setoid (Value F) where
  r := Same
  iseqv := by
    have heq : (Same : Value F → Value F → Prop) = fun v w => v.sorted = w.sorted := by
      funext v w
      exact propext same_iff
    rw [heq]
    exact ⟨fun _ => rfl, fun h => h.symm, fun h h' => h.trans h'⟩

end Value

/-! ## Bytes -/

/-- `str.encode("utf-8")`. -/
def encodeUtf8 (text : List Char) : List UInt8 := text.flatMap String.utf8EncodeChar

/-- `bytes.decode("utf-8")`. -/
def decodeUtf8 (bytes : List UInt8) : Option (List Char) :=
  bytes.toByteArray.utf8Decode?.map Array.toList

theorem decodeUtf8_encodeUtf8 (text : List Char) : decodeUtf8 (encodeUtf8 text) = some text := by
  have hbytes : (encodeUtf8 text).toByteArray = text.utf8Encode := rfl
  rw [decodeUtf8, hbytes, List.utf8Decode?_utf8Encode, Option.map_some, List.toList_toArray]

/-- A character of ASCII is one byte, and the bytes of the others are not of ASCII. -/
theorem utf8EncodeChar_ge {c : Char} (hc : 0x20 ≤ c.toNat) {b : UInt8}
    (hb : b ∈ String.utf8EncodeChar c) : 0x20 ≤ b.toNat := by
  have hvalue : c.val.toNat = c.toNat := rfl
  simp only [String.utf8EncodeChar, hvalue] at hb
  split at hb
  · rw [List.mem_singleton.mp hb, UInt8.toNat_ofNat']
    omega
  · obtain ⟨n, rfl, hn⟩ : ∃ n, b = UInt8.ofNat n ∧ 0x80 ≤ n ∧ n < 0x100 := by
      split at hb
      · simp only [List.mem_cons, List.not_mem_nil, or_false] at hb
        obtain heq | heq := hb <;> exact ⟨_, heq, by omega⟩
      · split at hb
        · simp only [List.mem_cons, List.not_mem_nil, or_false] at hb
          obtain heq | heq | heq := hb <;> exact ⟨_, heq, by omega⟩
        · simp only [List.mem_cons, List.not_mem_nil, or_false] at hb
          obtain heq | heq | heq | heq := hb <;> exact ⟨_, heq, by omega⟩
    rw [UInt8.toNat_ofNat']
    omega

theorem utf8EncodeChar_ascii {c : Char} (hc : c.toNat < 0x80) :
    String.utf8EncodeChar c = [UInt8.ofNat c.toNat] := by
  have hvalue : c.val.toNat = c.toNat := rfl
  rw [String.utf8EncodeChar, hvalue]
  exact if_pos (by omega)

theorem encodeUtf8_ge {text : List Char} (h : Json.Printable text) {b : UInt8}
    (hb : b ∈ encodeUtf8 text) : 0x20 ≤ b.toNat := by
  obtain ⟨c, hc, hmem⟩ := List.mem_flatMap.mp hb
  exact utf8EncodeChar_ge (h c hc) hmem

/-- The encodings that `json.detect_encoding` tells apart. -/
inductive Encoding
  | utf8
  | utf8Sig
  | utf16
  | utf16BE
  | utf16LE
  | utf32
  | utf32BE
  | utf32LE
  deriving DecidableEq, Repr

/-- `json.detect_encoding`: by a byte order mark, or by the zeros among the first bytes. -/
def detectEncoding (bytes : List UInt8) : Encoding :=
  if [0x00, 0x00, 0xfe, 0xff] <+: bytes ∨ [0xff, 0xfe, 0x00, 0x00] <+: bytes then .utf32
  else if [0xfe, 0xff] <+: bytes ∨ [0xff, 0xfe] <+: bytes then .utf16
  else if [0xef, 0xbb, 0xbf] <+: bytes then .utf8Sig
  else
    match bytes with
    | a :: b :: c :: d :: _ =>
        if a = 0 then (if b = 0 then .utf32BE else .utf16BE)
        else if b = 0 then (if c = 0 ∧ d = 0 then .utf32LE else .utf16LE)
        else .utf8
    | [a, b] => if a = 0 then .utf16BE else if b = 0 then .utf16LE else .utf8
    | _ => .utf8

/-- Bytes that begin with one of ASCII and hold no zero are UTF-8. -/
theorem detectEncoding_utf8 {a : UInt8} {bytes : List UInt8} (ha : a.toNat < 0x80)
    (hbytes : ∀ b ∈ a :: bytes, b ≠ 0) : detectEncoding (a :: bytes) = .utf8 := by
  obtain ⟨hzero, htail⟩ := List.forall_mem_cons.mp hbytes
  have hmark : ∀ (x : UInt8) (p : List UInt8), (x = 0 ∨ 0x80 ≤ x.toNat) →
      ¬(x :: p) <+: a :: bytes := by
    intro x p hx hprefix
    have heq : x = a := (List.cons_prefix_cons.mp hprefix).1
    rw [heq] at hx
    cases hx with
    | inl h => exact hzero h
    | inr h => omega
  have h32 : ¬([0x00, 0x00, 0xfe, 0xff] <+: a :: bytes
      ∨ [0xff, 0xfe, 0x00, 0x00] <+: a :: bytes) := fun h =>
    h.elim (hmark 0 _ (.inl rfl)) (hmark 0xff _ (.inr (by decide)))
  have h16 : ¬([0xfe, 0xff] <+: a :: bytes ∨ [0xff, 0xfe] <+: a :: bytes) :=
    fun h => h.elim (hmark 0xfe _ (.inr (by decide))) (hmark 0xff _ (.inr (by decide)))
  have h8 : ¬[0xef, 0xbb, 0xbf] <+: a :: bytes := hmark 0xef _ (.inr (by decide))
  rw [detectEncoding.eq_def, if_neg h32, if_neg h16, if_neg h8]
  cases bytes with
  | nil => rfl
  | cons b bytes =>
      have hb : b ≠ 0 := htail b List.mem_cons_self
      cases bytes with
      | nil => exact (if_neg hzero).trans (if_neg hb)
      | cons c bytes =>
          cases bytes with
          | nil => rfl
          | cons d bytes => exact (if_neg hzero).trans (if_neg hb)

section Values
variable (floats : Json.FloatText F) (wide : Encoding → List UInt8 → Option (List Char))

/-- `bytes.decode(detect_encoding(bytes))`; `wide` decodes the encodings of two and four bytes. -/
def decode (bytes : List UInt8) : Option (List Char) :=
  match detectEncoding bytes with
  | .utf8 => decodeUtf8 bytes
  | .utf8Sig => decodeUtf8 (bytes.drop 3)
  | encoding => wide encoding bytes

def canonicalBytes (v : Value F) : List UInt8 := encodeUtf8 (Json.print floats v.json.sortKeys)

/-- `canonical_bytes(value) + b"\n"`. -/
def recordLine (v : Value F) : List UInt8 := canonicalBytes floats v ++ [newline]

/-- `json.loads` of bytes. -/
def loads (bytes : List UInt8) : Option (Value F) :=
  (decode wide bytes).bind fun text =>
    (Json.loads floats text).pmap Value.mk fun _ h => Json.uniqueKeys_of_loads h

variable {floats wide}

theorem canonicalBytes_inj {v w : Value F} :
    canonicalBytes floats v = canonicalBytes floats w ↔ v.Same w := by
  rw [Value.same_iff]
  constructor
  · intro h
    have htext := congrArg decodeUtf8 h
    rw [canonicalBytes, canonicalBytes, decodeUtf8_encodeUtf8, decodeUtf8_encodeUtf8] at htext
    have hjson := Json.print_injective v.sorted.unique w.sorted.unique (Option.some.inj htext)
    rw [Value.sorted, Value.sorted, Value.mk.injEq]
    exact hjson
  · intro h
    have hjson : v.json.sortKeys = w.json.sortKeys := congrArg Value.json h
    rw [canonicalBytes, canonicalBytes, hjson]

theorem canonicalBytes_ge {v : Value F} {b : UInt8} (hb : b ∈ canonicalBytes floats v) :
    0x20 ≤ b.toNat :=
  encodeUtf8_ge (Json.print_printable _) hb

theorem newline_not_mem (v : Value F) : newline ∉ canonicalBytes floats v := by
  intro h
  exact absurd (canonicalBytes_ge h) (by decide)

theorem recordLine_eq (v : Value F) :
    recordLine floats v = encodeUtf8 (Json.print floats v.json.sortKeys ++ ['\n']) := by
  rw [recordLine, canonicalBytes, encodeUtf8, encodeUtf8, List.flatMap_append]
  rfl

/-- A canonical line is taken for UTF-8, which it is. -/
theorem decode_recordLine (v : Value F) :
    decode wide (recordLine floats v) = some (Json.print floats v.json.sortKeys ++ ['\n']) := by
  obtain ⟨c, hc, _, _, hascii⟩ := @Json.print_head F floats v.json.sortKeys
  obtain ⟨s, hs⟩ := List.head?_eq_some_iff.mp hc
  have hzero : ∀ b ∈ recordLine floats v, b ≠ 0 := by
    intro b hb heq
    cases List.mem_append.mp hb with
    | inl hmem => exact absurd (canonicalBytes_ge hmem) (by rw [heq]; decide)
    | inr hmem => exact absurd (List.mem_singleton.mp hmem) (by rw [heq]; decide)
  obtain ⟨a, bytes, ha, hline⟩ : ∃ a bytes, a.toNat < 0x80 ∧ recordLine floats v = a :: bytes := by
    rw [recordLine_eq, hs, List.cons_append, encodeUtf8, List.flatMap_cons,
      utf8EncodeChar_ascii hascii]
    refine ⟨_, _, ?_, rfl⟩
    rw [UInt8.toNat_ofNat']
    omega
  rw [hline] at hzero
  rw [decode, hline, detectEncoding_utf8 ha hzero, ← hline, recordLine_eq]
  exact decodeUtf8_encodeUtf8 _

theorem loads_eq_some {bytes : List UInt8} {v : Value F} :
    loads floats wide bytes = some v
      ↔ ∃ text, decode wide bytes = some text ∧ Json.loads floats text = some v.json := by
  rw [loads, Option.bind_eq_some_iff]
  apply exists_congr
  intro text
  apply and_congr_right
  intro _
  rw [Option.pmap_eq_some_iff]
  constructor
  · intro ⟨json, _, hread, heq⟩
    rw [hread, heq]
  · intro hread
    exact ⟨v.json, v.unique, hread, rfl⟩

/-- A canonical line is read as its value with the keys in order. -/
theorem loads_recordLine (v : Value F) :
    loads floats wide (recordLine floats v) = some v.sorted := by
  have hread : Json.loads floats (Json.print floats v.json.sortKeys ++ ['\n'])
      = some v.json.sortKeys := Json.loads_print v.unique.sortKeys (by decide)
  exact loads_eq_some.mpr ⟨_, decode_recordLine v, hread⟩

end Values

end TranspileBench.Canonical
