import Mathlib
import TranspileBench.Lib.Assoc

/-!
JSON values over a type of floats. An object is the list of its fields. Two values are the same
when they differ in the orders of fields alone; with the fields of every object sorted by key
there is one value of each kind.
-/

inductive Json (F : Type)
  | null
  | bool (b : Bool)
  | int (i : ℤ)
  | float (x : F)
  | str (s : List Char)
  | arr (items : List (Json F))
  | obj (fields : List (List Char × Json F))

namespace Json
variable {F : Type}

/-- A value is reached from the values inside it. -/
theorem nested_induction {motive : Json F → Prop} (null : motive .null)
    (bool : ∀ b, motive (.bool b))
    (int : ∀ i, motive (.int i)) (float : ∀ x, motive (.float x)) (str : ∀ s, motive (.str s))
    (arr : ∀ items, (∀ v ∈ items, motive v) → motive (.arr items))
    (obj : ∀ fields, (∀ f ∈ fields, motive f.2) → motive (.obj fields)) (v : Json F) :
    motive v :=
  @Json.rec F motive (fun items => ∀ v ∈ items, motive v) (fun fields => ∀ f ∈ fields, motive f.2)
    (fun f => motive f.2) null bool int float str arr obj
    (fun _ h => absurd h List.not_mem_nil)
    (fun _ _ hv hvs => List.forall_mem_cons.mpr ⟨hv, hvs⟩)
    (fun _ h => absurd h List.not_mem_nil)
    (fun _ _ hf hfs => List.forall_mem_cons.mpr ⟨hf, hfs⟩) (fun _ _ h => h) v

/-! ## Fields -/

section Fields
variable {κ α : Type}

def sortByKey [LinearOrder κ] (fields : List (κ × α)) : List (κ × α) :=
  fields.insertionSort fun f g => f.1 ≤ g.1

/-- Fields with different keys have one sorted order. -/
theorem sortByKey_eq_iff [LinearOrder κ] {fields fields' : List (κ × α)}
    (h : (fields.map (·.1)).Nodup) :
    sortByKey fields = sortByKey fields' ↔ fields.Perm fields' := by
  have hperm (fs : List (κ × α)) : (sortByKey fs).Perm fs := List.perm_insertionSort _ fs
  have htotal : Std.Total fun f g : κ × α => f.1 ≤ g.1 := ⟨fun f g => le_total f.1 g.1⟩
  have htrans : IsTrans (κ × α) fun f g => f.1 ≤ g.1 := ⟨fun _ _ _ => le_trans⟩
  constructor
  · intro heq
    exact (hperm fields).symm.trans (heq ▸ hperm fields')
  · intro hsame
    apply List.Perm.eq_of_pairwise _ (List.pairwise_insertionSort _ _)
      (List.pairwise_insertionSort _ _) (((hperm fields).trans hsame).trans (hperm fields').symm)
    intro f g hf hg hle hge
    apply List.inj_on_of_nodup_map h ((hperm fields).subset hf)
      (hsame.symm.subset ((hperm fields').subset hg))
    exact le_antisymm hle hge

variable [DecidableEq κ]

/-- Give a key its value, in the place the key has. -/
def put (key : κ) (value : α) : List (κ × α) → List (κ × α)
  | [] => [(key, value)]
  | f :: fields => if f.1 = key then (key, value) :: fields else f :: put key value fields

/-- The object with the fields of a list: the last value of each key. -/
def dict (pairs : List (κ × α)) : List (κ × α) :=
  pairs.foldl (fun fields f => put f.1 f.2 fields) []

theorem keys_put (key : κ) (value : α) (fields : List (κ × α)) :
    (put key value fields).map (·.1)
      = if key ∈ fields.map (·.1) then fields.map (·.1) else fields.map (·.1) ++ [key] := by
  induction fields with
  | nil => rfl
  | cons f fields ih =>
      by_cases hf : f.1 = key
      · simp [put, hf]
      · simp only [put, hf, if_false, List.map_cons, ih, List.mem_cons, Ne.symm hf, false_or]
        split <;> rfl

theorem mem_put {key : κ} {value : α} {fields : List (κ × α)} {f : κ × α}
    (h : f ∈ put key value fields) : f = (key, value) ∨ f ∈ fields := by
  induction fields with
  | nil => exact .inl (List.mem_singleton.mp h)
  | cons g fields ih =>
      rw [put] at h
      split at h
      · exact (List.mem_cons.mp h).imp_right (List.mem_cons_of_mem g)
      · cases List.mem_cons.mp h with
        | inl heq => exact .inr (heq ▸ List.mem_cons_self)
        | inr hmem => exact (ih hmem).imp_right (List.mem_cons_of_mem g)

theorem put_of_not_mem {key : κ} {fields : List (κ × α)} (h : key ∉ fields.map (·.1))
    (value : α) : put key value fields = fields ++ [(key, value)] := by
  induction fields with
  | nil => rfl
  | cons f fields ih =>
      obtain ⟨hf, hfields⟩ := not_or.mp (mt List.mem_cons.mpr h)
      rw [put, if_neg (Ne.symm hf), ih hfields]
      rfl

theorem dict_concat (pairs : List (κ × α)) (f : κ × α) :
    dict (pairs ++ [f]) = put f.1 f.2 (dict pairs) := by
  rw [dict, List.foldl_append]
  rfl

theorem nodup_dict (pairs : List (κ × α)) : ((dict pairs).map (·.1)).Nodup := by
  induction pairs using List.reverseRecOn with
  | nil => exact List.nodup_nil
  | append_singleton pairs f ih =>
      rw [dict_concat, keys_put]
      split
      · exact ih
      · rename_i hnew
        exact List.nodup_append_comm.mp (List.nodup_cons.mpr ⟨hnew, ih⟩)

theorem mem_of_mem_dict {pairs : List (κ × α)} {f : κ × α} (h : f ∈ dict pairs) : f ∈ pairs := by
  induction pairs using List.reverseRecOn with
  | nil => exact h
  | append_singleton pairs e ih =>
      rw [dict_concat] at h
      cases mem_put h with
      | inl heq => exact heq ▸ List.mem_append_right pairs List.mem_cons_self
      | inr hmem => exact List.mem_append_left [e] (ih hmem)

theorem dict_of_nodup {pairs : List (κ × α)} (h : (pairs.map (·.1)).Nodup) :
    dict pairs = pairs := by
  induction pairs using List.reverseRecOn with
  | nil => rfl
  | append_singleton pairs f ih =>
      rw [List.map_append, List.nodup_append_comm, List.map_singleton, List.singleton_append,
        List.nodup_cons] at h
      rw [dict_concat, ih h.2]
      exact put_of_not_mem h.1 f.2

end Fields

/-! ## Objects without repeated keys -/

mutual
/-- No object in the value has a key twice. -/
def UniqueKeys : Json F → Prop
  | .arr items => UniqueItems items
  | .obj fields => (fields.map (·.1)).Nodup ∧ UniqueFields fields
  | .null | .bool _ | .int _ | .float _ | .str _ => True

def UniqueItems : List (Json F) → Prop
  | [] => True
  | v :: items => UniqueKeys v ∧ UniqueItems items

def UniqueFields : List (List Char × Json F) → Prop
  | [] => True
  | (_, v) :: fields => UniqueKeys v ∧ UniqueFields fields

end

theorem uniqueItems_iff {items : List (Json F)} :
    UniqueItems items ↔ ∀ v ∈ items, v.UniqueKeys := by
  induction items with
  | nil => exact iff_of_true trivial fun _ h => absurd h List.not_mem_nil
  | cons v items ih => rw [UniqueItems, ih, List.forall_mem_cons]

theorem uniqueFields_iff {fields : List (List Char × Json F)} :
    UniqueFields fields ↔ ∀ f ∈ fields, f.2.UniqueKeys := by
  induction fields with
  | nil => exact iff_of_true trivial fun _ h => absurd h List.not_mem_nil
  | cons f fields ih => rw [UniqueFields, ih, List.forall_mem_cons]

@[simp]
theorem uniqueKeys_arr {items : List (Json F)} :
    (arr items).UniqueKeys ↔ ∀ v ∈ items, v.UniqueKeys := by
  rw [UniqueKeys, uniqueItems_iff]

@[simp]
theorem uniqueKeys_obj {fields : List (List Char × Json F)} :
    (obj fields).UniqueKeys
      ↔ (fields.map (·.1)).Nodup ∧ ∀ f ∈ fields, f.2.UniqueKeys := by
  rw [UniqueKeys, uniqueFields_iff]

/-! ## Values up to the orders of fields -/

mutual
/-- The values differ in the orders of the fields of their objects alone. -/
def Same : Json F → Json F → Prop
  | .null, .null => True
  | .bool b, .bool b' => b = b'
  | .int i, .int i' => i = i'
  | .float x, .float x' => x = x'
  | .str s, .str s' => s = s'
  | .arr items, .arr items' => SameItems items items'
  | .obj fields, .obj fields' => fields.length = fields'.length ∧ SameFields fields fields'
  | _, _ => False

def SameItems : List (Json F) → List (Json F) → Prop
  | [], [] => True
  | v :: items, v' :: items' => Same v v' ∧ SameItems items items'
  | _, _ => False

/-- Each field has its key's value among the other fields. -/
def SameFields : List (List Char × Json F) → List (List Char × Json F) → Prop
  | [], _ => True
  | (key, v) :: fields, fields' =>
      (∃ v', fields'.lookup key = some v' ∧ Same v v') ∧ SameFields fields fields'

end

theorem sameFields_iff {fields fields' : List (List Char × Json F)} :
    SameFields fields fields'
      ↔ ∀ f ∈ fields, ∃ v', fields'.lookup f.1 = some v' ∧ Same f.2 v' := by
  induction fields with
  | nil => simp [SameFields]
  | cons f fields ih => rw [SameFields, ih, List.forall_mem_cons]

mutual
/-- Sort the fields of every object by their keys. -/
def sortKeys : Json F → Json F
  | .null => .null
  | .bool b => .bool b
  | .int i => .int i
  | .float x => .float x
  | .str s => .str s
  | .arr items => .arr (sortItems items)
  | .obj fields => .obj (sortByKey (sortFields fields))

def sortItems : List (Json F) → List (Json F)
  | [] => []
  | v :: items => sortKeys v :: sortItems items

def sortFields : List (List Char × Json F) → List (List Char × Json F)
  | [] => []
  | (key, v) :: fields => (key, sortKeys v) :: sortFields fields

end

theorem sortItems_eq (items : List (Json F)) : sortItems items = items.map sortKeys := by
  induction items with
  | nil => rfl
  | cons v items ih => rw [sortItems, ih, List.map_cons]

theorem sortFields_eq (fields : List (List Char × Json F)) :
    sortFields fields = fields.map fun f => (f.1, f.2.sortKeys) := by
  induction fields with
  | nil => rfl
  | cons f fields ih => rw [sortFields, ih, List.map_cons]

theorem keys_sortFields (fields : List (List Char × Json F)) :
    (sortFields fields).map (·.1) = fields.map (·.1) := by
  rw [sortFields_eq, List.map_map]
  rfl

theorem UniqueKeys.sortKeys {v : Json F} (h : v.UniqueKeys) : v.sortKeys.UniqueKeys := by
  induction v using nested_induction with
  | null | bool _ | int _ | float _ | str _ => exact h
  | arr items ih =>
      rw [uniqueKeys_arr] at h
      rw [Json.sortKeys, sortItems_eq, uniqueKeys_arr, List.forall_mem_map]
      exact fun v hv => ih v hv (h v hv)
  | obj fields ih =>
      rw [uniqueKeys_obj] at h
      have hperm : (sortByKey (sortFields fields)).Perm (sortFields fields) :=
        List.perm_insertionSort _ _
      rw [Json.sortKeys, uniqueKeys_obj]
      constructor
      · rw [(hperm.map _).nodup_iff, keys_sortFields]
        exact h.1
      · intro f hf
        have hmem := hperm.subset hf
        rw [sortFields_eq] at hmem
        obtain ⟨g, hg, heq⟩ := List.mem_map.mp hmem
        rw [← heq]
        exact ih g hg (h.2 g hg)

theorem UniqueKeys.sortKeys_sortKeys {v : Json F} (h : v.UniqueKeys) :
    v.sortKeys.sortKeys = v.sortKeys := by
  induction v using nested_induction with
  | null | bool _ | int _ | float _ | str _ => rfl
  | arr items ih =>
      rw [uniqueKeys_arr] at h
      rw [Json.sortKeys, Json.sortKeys, sortItems_eq, sortItems_eq, List.map_map, arr.injEq]
      exact List.map_congr_left fun v hv => ih v hv (h v hv)
  | obj fields ih =>
      rw [uniqueKeys_obj] at h
      have hsorted : (sortByKey (sortFields fields)).Perm (sortFields fields) :=
        List.perm_insertionSort _ _
      have hfields : sortFields (sortFields fields) = sortFields fields := by
        rw [sortFields_eq, sortFields_eq, List.map_map]
        apply List.map_congr_left
        intro f hf
        exact congrArg (f.1, ·) (ih f hf (h.2 f hf))
      have hperm : (sortFields (sortByKey (sortFields fields))).Perm (sortFields fields) := by
        have hmap := hsorted.map fun f => (f.1, f.2.sortKeys)
        rwa [← sortFields_eq, ← sortFields_eq, hfields] at hmap
      have hnodup : ((sortFields (sortByKey (sortFields fields))).map (·.1)).Nodup := by
        rw [(hperm.map _).nodup_iff, keys_sortFields]
        exact h.1
      rw [Json.sortKeys, Json.sortKeys, obj.injEq]
      exact (sortByKey_eq_iff hnodup).mpr hperm

theorem same_items_iff {items items' : List (Json F)}
    (h : ∀ v ∈ items, ∀ w ∈ items', v.Same w ↔ v.sortKeys = w.sortKeys) :
    SameItems items items' ↔ items.map Json.sortKeys = items'.map Json.sortKeys := by
  induction items generalizing items' with
  | nil => cases items' <;> simp [SameItems]
  | cons v items ih =>
      cases items' with
      | nil => simp [SameItems]
      | cons w items' =>
          rw [SameItems, h v List.mem_cons_self w List.mem_cons_self, ih fun v hv w hw =>
            h v (List.mem_cons_of_mem _ hv) w (List.mem_cons_of_mem _ hw)]
          simp

/-- Fields with the same values under each key are the same set of sorted fields. -/
theorem same_fields_iff {fields fields' : List (List Char × Json F)}
    (hkeys : (fields.map (·.1)).Nodup) (hkeys' : (fields'.map (·.1)).Nodup)
    (h : ∀ f ∈ fields, ∀ g ∈ fields', f.2.Same g.2 ↔ f.2.sortKeys = g.2.sortKeys) :
    (fields.length = fields'.length ∧ SameFields fields fields')
      ↔ (sortFields fields).Perm (sortFields fields') := by
  rw [sameFields_iff]
  constructor
  · intro ⟨hlen, hsame⟩
    have hnodup : (sortFields fields).Nodup := by
      apply List.Nodup.of_map (·.1)
      rw [keys_sortFields]
      exact hkeys
    have hsub : sortFields fields ⊆ sortFields fields' := by
      intro e he
      rw [sortFields_eq] at he
      obtain ⟨f, hf, rfl⟩ := List.mem_map.mp he
      obtain ⟨v', hv', hvalue⟩ := hsame f hf
      have hmem := Assoc.mem_of_lookup hv'
      rw [sortFields_eq, (h f hf _ hmem).mp hvalue]
      exact List.mem_map.mpr ⟨_, hmem, rfl⟩
    apply (List.subperm_of_subset hnodup hsub).perm_of_length_le
    simp only [sortFields_eq, List.length_map, hlen, le_refl]
  · intro hperm
    constructor
    · have hlen := hperm.length_eq
      rwa [sortFields_eq, sortFields_eq, List.length_map, List.length_map] at hlen
    · intro f hf
      have hmem : (f.1, f.2.sortKeys) ∈ sortFields fields' := by
        apply hperm.subset
        rw [sortFields_eq]
        exact List.mem_map.mpr ⟨f, hf, rfl⟩
      rw [sortFields_eq] at hmem
      obtain ⟨g, hg, heq⟩ := List.mem_map.mp hmem
      obtain ⟨hkey, hvalue⟩ := Prod.mk.inj heq
      have hlookup : fields'.lookup f.1 = some g.2 := by
        apply Assoc.lookup_of_nodup hkeys'
        rw [← hkey]
        exact hg
      exact ⟨g.2, hlookup, (h f hf g hg).mpr hvalue.symm⟩

/-- The sorted value stands for the values that are the same. -/
theorem same_iff {v w : Json F} (hv : v.UniqueKeys) (hw : w.UniqueKeys) :
    v.Same w ↔ v.sortKeys = w.sortKeys := by
  induction v using nested_induction generalizing w with
  | null | bool _ | int _ | float _ | str _ => cases w <;> simp [Same, sortKeys]
  | arr items ih =>
      cases w with
      | arr items' =>
          rw [uniqueKeys_arr] at hv hw
          rw [Same, sortKeys, sortKeys, arr.injEq, sortItems_eq, sortItems_eq]
          exact same_items_iff fun v hmem w hmem' => ih v hmem (hv v hmem) (hw w hmem')
      | _ => simp [Same, sortKeys]
  | obj fields ih =>
      cases w with
      | obj fields' =>
          rw [uniqueKeys_obj] at hv hw
          have hnodup : ((sortFields fields).map (·.1)).Nodup := by
            rw [keys_sortFields]
            exact hv.1
          rw [Same, sortKeys, sortKeys, obj.injEq, sortByKey_eq_iff hnodup]
          exact same_fields_iff hv.1 hw.1 fun f hf g hg => ih f hf (hv.2 f hf) (hw.2 g hg)
      | _ => simp [Same, sortKeys]

end Json
