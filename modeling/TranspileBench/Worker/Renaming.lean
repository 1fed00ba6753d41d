import TranspileBench.Worker.Codec
import TranspileBench.Lib.Fallible

/-!
What an imported operation has in common with the one it was exported from: it is
exported alike, and its parameters are the new objects of the same ids.
-/
namespace TranspileBench.Worker
open Fallible

variable {F E S : Type}

/-- A table of objects has the names of a table of ids. -/
def Agrees (ids : String → Option Nat) (objects : Nat → Option Param) : Prop :=
  ∀ name id, ids name = some id → ∃ p, objects id = some p ∧ p.name = name

/-- The parameters `new` are the objects of the ids of `old`. -/
def Renames (ids : String → Option Nat) (objects : Nat → Option Param) (old new : List Param) :
    Prop :=
  ∀ p, p ∈ new ↔ ∃ p₀ ∈ old, (ids p₀.name).bind objects = some p

/-- What the adapter relies on: a float is a float, and an expression rebuilt from its tree
is the same expression of the new parameters. -/
structure Qiskit.Lawful (q : Qiskit F E) : Prop where
  toFloat : ∀ x, q.toFloat (.float x) = .ok x
  rebuilt : ∀ ids objects, Agrees ids objects → ∀ e tree, q.parameters e ≠ [] →
    encodeTree q ids (q.sympify e) = .ok tree →
      ∃ e', decodeTree q objects tree = .ok (.expr e') ∧ q.sympify e' = q.sympify e ∧
        q.parameters e' ≠ [] ∧ Renames ids objects (q.parameters e) (q.parameters e')

section Renames
variable {ids : String → Option Nat} {objects : Nat → Option Param}

theorem Renames.nil : Renames ids objects [] [] := by simp [Renames]

theorem Renames.append {old new old' new' : List Param} (h : Renames ids objects old new)
    (h' : Renames ids objects old' new') : Renames ids objects (old ++ old') (new ++ new') := by
  intro p
  rw [List.mem_append, h p, h' p]
  constructor
  · rintro (⟨p₀, hp₀, hp⟩ | ⟨p₀, hp₀, hp⟩)
    · exact ⟨p₀, List.mem_append_left _ hp₀, hp⟩
    · exact ⟨p₀, List.mem_append_right _ hp₀, hp⟩
  · rintro ⟨p₀, hp₀, hp⟩
    exact (List.mem_append.mp hp₀).imp (fun h => ⟨p₀, h, hp⟩) fun h => ⟨p₀, h, hp⟩

theorem Renames.flatMap {α : Type} {f : α → List Param} {xs ys : List α}
    (h : List.Forall₂ (fun x y => Renames ids objects (f x) (f y)) xs ys) :
    Renames ids objects (xs.flatMap f) (ys.flatMap f) := by
  induction h with
  | nil => exact .nil
  | cons hxy _ ih => exact hxy.append ih

end Renames

section Values
variable {q : Qiskit F E}

@[simp]
theorem number_eq_ok {x y : F} : number q x = .ok y ↔ q.finite x = true ∧ y = x := by
  unfold number
  by_cases h : q.finite x = true
  · simp [h, eq_comm]
  · simp [h]

/-- Numbers are written as they are. -/
theorem numbers_eq {matrix encoded : Matrix F} (h : numbers q matrix = .ok encoded) :
    encoded = matrix := by
  refine mapM_same (fun row out hrow => mapM_same (fun entry out hentry => ?_) hrow) h
  obtain ⟨re, hre, hentry⟩ := bind_eq_ok.mp hentry
  obtain ⟨im, him, hentry⟩ := bind_eq_ok.mp hentry
  cases hentry
  rw [(number_eq_ok.mp hre).2, (number_eq_ok.mp him).2]

theorem numberTerms_eq {groups encoded : List (Terms F)} (h : numberTerms q groups = .ok encoded) :
    encoded = groups := by
  refine mapM_same (fun terms out hterms => mapM_same (fun entry out hentry => ?_) hterms) h
  obtain ⟨re, hre, hentry⟩ := bind_eq_ok.mp hentry
  obtain ⟨im, him, hentry⟩ := bind_eq_ok.mp hentry
  cases hentry
  rw [(number_eq_ok.mp hre).2, (number_eq_ok.mp him).2]

variable {ids : String → Option Nat} {objects : Nat → Option Param}

theorem encode_float (laws : q.Lawful) {x : F} (hfinite : q.finite x = true) :
    encode_value q ids (.float x) = .ok (.number x) := by
  simp [encode_value, laws.toFloat, number, hfinite, bind, Except.bind, Except.map]

/-- A value and what it is read back as: an expression of the new parameters, or the number
that was written. -/
structure Value.Copied (q : Qiskit F E) (ids : String → Option Nat) (objects : Nat → Option Param)
    (v v' : Value F E) : Prop where
  renames : Renames ids objects (v.parameters q) (v'.parameters q)
  kind : (∃ e, v' = .expr e ∧ q.parameters e ≠ []) ∨
    v.parameters q = [] ∧ ∃ x, v' = .float x ∧ q.toFloat v = .ok x

theorem Value.Copied.fraction_eq_none {v v' : Value F E} (h : Value.Copied q ids objects v v') :
    v'.fraction? = none := by
  cases h.kind with
  | inl symbolic =>
      obtain ⟨e, rfl, -⟩ := symbolic
      rfl
  | inr constant =>
      obtain ⟨-, x, rfl, -⟩ := constant
      rfl

/-- A value is rebuilt as one that is written alike, of the new parameters. -/
theorem value_copies (laws : q.Lawful) (agrees : Agrees ids objects) :
    Copies (Value.Copied q ids objects) (encode_value q ids) (decode_value q objects) := by
  have constant : ∀ (v : Value F E) encoded, v.parameters q = [] →
      ((do let x ← q.toFloat v; (number q x).map Encoded.number) : Except Refusal (Encoded F)) =
        .ok encoded →
      ∃ v', decode_value q objects encoded = .ok v' ∧ encode_value q ids v' = .ok encoded ∧
        Value.Copied q ids objects v v' := by
    intro v encoded hnone h
    obtain ⟨x, hx, h⟩ := bind_eq_ok.mp h
    cases hnumber : number q x with
    | error e =>
        rw [hnumber] at h
        cases h
    | ok y =>
        rw [hnumber] at h
        cases h
        obtain ⟨hfinite, rfl⟩ := number_eq_ok.mp hnumber
        refine ⟨.float y, ?_, encode_float laws hfinite, ?_, .inr ⟨hnone, y, rfl, hx⟩⟩
        · simp [decode_value, number, hfinite, Except.map]
        · rw [hnone]
          exact .nil
  intro v encoded h
  cases v with
  | int n => exact constant _ _ rfl h
  | fraction r => exact constant _ _ rfl h
  | float x => exact constant _ _ rfl h
  | expr e =>
      by_cases hfree : q.parameters e ≠ []
      · rw [encode_value, if_pos hfree] at h
        cases htree : encodeTree q ids (q.sympify e) with
        | error e' =>
            rw [htree] at h
            cases h
        | ok tree =>
            rw [htree] at h
            cases h
            obtain ⟨e', hdecode, hsame, hfree', hrenames⟩ :=
              laws.rebuilt ids objects agrees e tree hfree htree
            refine ⟨.expr e', hdecode, ?_, hrenames, .inl ⟨e', rfl, hfree'⟩⟩
            rw [encode_value, if_pos hfree', hsame, htree]
            rfl
      · rw [encode_value, if_neg hfree] at h
        exact constant _ _ (not_not.mp hfree) h

theorem modifier_copies (laws : q.Lawful) (agrees : Agrees ids objects) :
    Copies (fun m m' : Modifier F E => m'.num_ctrl_qubits = m.num_ctrl_qubits)
      (encodeModifier q ids) (decodeModifier q objects) := by
  intro m encoded h
  cases m with
  | inverse => cases h; exact ⟨.inverse, rfl, rfl, rfl⟩
  | control n state => cases h; exact ⟨.control n state, rfl, rfl, rfl⟩
  | other kind => cases h
  | power power =>
      cases hvalue : encode_value q ids power with
      | error e =>
          simp only [encodeModifier, hvalue] at h
          cases h
      | ok value =>
          simp only [encodeModifier, hvalue] at h
          cases h
          obtain ⟨v', hdecode, hencode, -⟩ := value_copies laws agrees _ _ hvalue
          refine ⟨.power v', ?_, ?_, rfl⟩
          · rw [decodeModifier, hdecode]
            rfl
          · rw [encodeModifier, hencode]
            rfl

end Values
end TranspileBench.Worker
