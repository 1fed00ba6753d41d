import Mathlib.Algebra.BigOperators.Group.List.Basic
import Mathlib.Algebra.GroupWithZero.Nat
import Mathlib.Data.List.AList
import Mathlib.Data.List.Chain
import Mathlib.Data.List.MinMax
import Mathlib.Order.Bounds.Basic

/-!
Streams of items that touch keys, and what a single pass with one value for each key
finds out about them: by the last finish of every key, whether the spans on each key
follow each other; by a level of every key, the heaviest chain of items that share keys.
-/
namespace Keyed
variable {K T I : Type}

section Dictionary
variable [DecidableEq K] {V : Type}

/-- Set every one of the keys. -/
def assign (m : AList fun _ : K => V) (keys : List K) (value : V) : AList fun _ : K => V :=
  keys.foldl (fun m k => m.insert k value) m

theorem lookup_assign (m : AList fun _ : K => V) (keys : List K) (value : V) (k : K) :
    (assign m keys value).lookup k = if k ∈ keys then some value else m.lookup k := by
  unfold assign
  induction keys generalizing m with
  | nil => simp
  | cons x keys ih =>
      rw [List.foldl_cons, ih]
      by_cases hk : k ∈ keys
      · simp [hk]
      · by_cases hx : k = x
        · subst hx; simp
        · simp [hk, hx, AList.lookup_insert_ne hx]

theorem getD_assign (m : AList fun _ : K => V) (keys : List K) (value v : V) (k : K) :
    ((assign m keys value).lookup k).getD v =
      if k ∈ keys then value else (m.lookup k).getD v := by
  rw [lookup_assign]
  split <;> rfl

def peak (m : AList fun _ : K => Nat) : Nat := (m.entries.map (·.2)).max?.getD 0

theorem le_peak {m : AList fun _ : K => Nat} {k : K} {v : Nat} (h : m.lookup k = some v) :
    v ≤ peak m := by
  have hmem : v ∈ m.entries.map (·.2) :=
    List.mem_map.mpr ⟨⟨k, v⟩, AList.mem_lookup_iff.mp h, rfl⟩
  unfold peak
  cases hmax : (m.entries.map (·.2)).max? with
  | none => rw [List.max?_eq_none_iff.mp hmax] at hmem; cases hmem
  | some top => exact (List.max?_eq_some_iff.mp hmax).2 v hmem

theorem peak_attained (m : AList fun _ : K => Nat) :
    peak m = 0 ∨ ∃ k, m.lookup k = some (peak m) := by
  unfold peak
  cases hmax : (m.entries.map (·.2)).max? with
  | none => exact .inl rfl
  | some top =>
      obtain ⟨⟨k, v⟩, hmem, rfl⟩ := List.mem_map.mp (List.max?_eq_some_iff.mp hmax).1
      exact .inr ⟨k, AList.mem_lookup_iff.mpr hmem⟩

end Dictionary

/-! ## Spans -/

/-- The spans follow each other by `r`, the first one after `t`. -/
def Follows (r : T → T → Prop) : T → List (T × T) → Prop
  | _, [] => True
  | t, (start, finish) :: rest => r t start ∧ Follows r finish rest

section Spans
variable [DecidableEq K] (keys : I → List K) (span : I → T × T)

/-- The last finish of every key behind an item. -/
def occupy (last : K → T) (item : I) : K → T :=
  fun k => if k ∈ keys item then (span item).2 else last k

/-- The spans on one key. -/
def track (k : K) (items : List I) : List (T × T) :=
  (items.filter fun item => k ∈ keys item).map span

/-- What a pass checks: every item starts after the last finish of each of its keys. -/
def Passes (r : K → T → T → Prop) : (K → T) → List I → Prop
  | _, [] => True
  | last, item :: rest =>
      (∀ k ∈ keys item, r k (last k) (span item).1) ∧
        Passes r (occupy keys span last item) rest

variable {keys span}

theorem track_cons_of_mem {k : K} {item : I} (h : k ∈ keys item) (items : List I) :
    track keys span k (item :: items) = span item :: track keys span k items := by
  simp [track, h]

theorem track_cons_of_not_mem {k : K} {item : I} (h : k ∉ keys item) (items : List I) :
    track keys span k (item :: items) = track keys span k items := by
  simp [track, h]

/-- A pass succeeds exactly when the chain of every key does. -/
theorem passes_iff {r : K → T → T → Prop} {last : K → T} {items : List I} :
    Passes keys span r last items ↔ ∀ k, Follows (r k) (last k) (track keys span k items) := by
  induction items generalizing last with
  | nil => simp [Passes, track, Follows]
  | cons item items ih =>
      have key : ∀ k, Follows (r k) (last k) (track keys span k (item :: items)) ↔
          (k ∈ keys item → r k (last k) (span item).1) ∧
            Follows (r k) (occupy keys span last item k) (track keys span k items) := by
        intro k
        by_cases hk : k ∈ keys item
        · rw [track_cons_of_mem hk]
          simp [Follows, occupy, hk]
        · rw [track_cons_of_not_mem hk]
          simp [occupy, hk]
      simp only [Passes, ih, key, forall_and]

end Spans

/-! ## Levels -/

section Levels
variable (keys : I → List K) (weight : I → Nat)

/-- Two items share a key. -/
def Linked (a b : I) : Prop := ∃ k, k ∈ keys a ∧ k ∈ keys b

/-- A chain: items in the order of the stream, each linked to the next. -/
structure IsChainOf (items chain : List I) : Prop where
  sublist : chain.Sublist items
  linked : chain.IsChain (Linked keys)

def weigh (chain : List I) : Nat := (chain.map weight).sum

def EndsOn (k : K) (chain : List I) : Prop := ∃ item ∈ chain.getLast?, k ∈ keys item

/-- The level of an item above the levels of its keys. -/
def levelOf (levels : K → Nat) (item : I) : Nat :=
  ((keys item).map levels).max?.getD 0 + weight item

def raiseLevels [DecidableEq K] (levels : K → Nat) (item : I) : K → Nat :=
  fun k => if k ∈ keys item then levelOf keys weight levels item else levels k

/-- The levels behind a stream. -/
def levels [DecidableEq K] (items : List I) : K → Nat :=
  items.foldl (raiseLevels keys weight) fun _ => 0

variable {keys weight}

theorem le_levelOf (weight : I → Nat) (levels : K → Nat) {item : I} {k : K} (h : k ∈ keys item) :
    levels k + weight item ≤ levelOf keys weight levels item := by
  have hmem : levels k ∈ (keys item).map levels := List.mem_map_of_mem h
  unfold levelOf
  cases hmax : ((keys item).map levels).max? with
  | none => rw [List.max?_eq_none_iff.mp hmax] at hmem; cases hmem
  | some top =>
      have := (List.max?_eq_some_iff.mp hmax).2 _ hmem
      simpa using this

theorem levelOf_attained (weight : I → Nat) (levels : K → Nat) {item : I} {k : K}
    (h : k ∈ keys item) :
    ∃ k' ∈ keys item, levelOf keys weight levels item = levels k' + weight item := by
  unfold levelOf
  cases hmax : ((keys item).map levels).max? with
  | none =>
      rw [List.max?_eq_none_iff, List.map_eq_nil_iff] at hmax
      rw [hmax] at h
      cases h
  | some top =>
      obtain ⟨k', hk', rfl⟩ := List.mem_map.mp (List.max?_eq_some_iff.mp hmax).1
      exact ⟨k', hk', rfl⟩

theorem weigh_append (a b : List I) :
    weigh weight (a ++ b) = weigh weight a + weigh weight b := by
  simp [weigh]

theorem IsChainOf.mono {items chain : List I} (h : IsChainOf keys items chain) (item : I) :
    IsChainOf keys (items ++ [item]) chain :=
  ⟨h.sublist.trans (List.sublist_append_left _ _), h.linked⟩

/-- A chain of a longer stream is one of the stream, or one of it with the last item. -/
theorem IsChainOf.cases_last {items chain : List I} {item : I}
    (h : IsChainOf keys (items ++ [item]) chain) :
    IsChainOf keys items chain ∨ ∃ front, chain = front ++ [item] ∧ IsChainOf keys items front ∧
      (front = [] ∨ ∃ k ∈ keys item, EndsOn keys k front) := by
  obtain ⟨front, back, rfl, hfront, hback⟩ := List.sublist_append_iff.mp h.sublist
  rcases List.sublist_singleton.mp hback with rfl | rfl
  · exact .inl ⟨by simpa using hfront, by simpa using h.linked⟩
  · obtain ⟨hlinked, -, hlast⟩ := List.isChain_append.mp h.linked
    refine .inr ⟨front, rfl, ⟨hfront, hlinked⟩, ?_⟩
    cases hend : front.getLast? with
    | none => exact .inl (List.getLast?_eq_none_iff.mp hend)
    | some last =>
        obtain ⟨k, hk, hitem⟩ := hlast last hend item rfl
        exact .inr ⟨k, hitem, last, hend, hk⟩

/-- The level of a key is the weight of the heaviest chain that ends on it. -/
theorem levels_spec [DecidableEq K] (weight : I → Nat) (items : List I) (k : K) :
    (∃ chain, IsChainOf keys items chain ∧ (chain = [] ∨ EndsOn keys k chain) ∧
      weigh weight chain = levels keys weight items k) ∧
    ∀ chain, IsChainOf keys items chain → EndsOn keys k chain →
      weigh weight chain ≤ levels keys weight items k := by
  induction items using List.reverseRecOn generalizing k with
  | nil =>
      refine ⟨⟨[], ⟨.slnil, .nil⟩, .inl rfl, rfl⟩, ?_⟩
      rintro chain h ⟨last, hlast, -⟩
      rw [List.sublist_nil.mp h.sublist] at hlast
      cases hlast
  | append_singleton items item ih =>
      have hlevels : levels keys weight (items ++ [item]) k =
          raiseLevels keys weight (levels keys weight items) item k := by
        simp [levels]
      rw [hlevels, raiseLevels]
      by_cases hk : k ∈ keys item
      · rw [if_pos hk]
        constructor
        · obtain ⟨k', hk', hlevel⟩ := levelOf_attained weight
            (levels keys weight items) hk
          obtain ⟨chain, hchain, hends, hweigh⟩ := (ih k').1
          refine ⟨chain ++ [item], ⟨hchain.sublist.append_right _, ?_⟩,
            .inr ⟨item, by simp, hk⟩, by rw [weigh_append, hweigh, hlevel]; simp [weigh]⟩
          refine List.isChain_append.mpr ⟨hchain.linked, .singleton _, ?_⟩
          intro last hlast next hnext
          obtain rfl : item = next := Option.some.inj hnext
          rcases hends with rfl | ⟨last', hlast', hkey⟩
          · cases hlast
          · obtain rfl : last' = last := Option.some.inj (hlast'.symm.trans hlast)
            exact ⟨k', hkey, hk'⟩
        · rintro chain hchain hends
          rcases hchain.cases_last with hchain | ⟨front, rfl, hfront, hnil | ⟨k', hk', hends'⟩⟩
          · exact ((ih k).2 chain hchain hends).trans (le_trans (Nat.le_add_right _ _)
              (le_levelOf weight _ hk))
          · subst hnil
            simp [weigh, levelOf]
          · rw [weigh_append]
            have hle := (ih k').2 front hfront hends'
            have hlevel := le_levelOf weight (levels keys weight items) hk'
            simp only [weigh, List.map_cons, List.map_nil, List.sum_cons, List.sum_nil] at hle ⊢
            omega
      · rw [if_neg hk]
        constructor
        · obtain ⟨chain, hchain, hends, hweigh⟩ := (ih k).1
          exact ⟨chain, hchain.mono item, hends, hweigh⟩
        · rintro chain hchain hends
          rcases hchain.cases_last with hchain | ⟨front, rfl, -, -⟩
          · exact (ih k).2 chain hchain hends
          · obtain ⟨last, hlast, hkey⟩ := hends
            rw [List.getLast?_concat] at hlast
            exact absurd (Option.some.inj hlast ▸ hkey) hk

/-- The top of the levels is the weight of the heaviest chain of all, when only items that
touch a key weigh anything. -/
theorem levels_greatest [DecidableEq K] (weight : I → Nat) (items : List I) {top : Nat}
    (weightless : ∀ item ∈ items, keys item = [] → weight item = 0)
    (le : ∀ k, levels keys weight items k ≤ top)
    (attained : top = 0 ∨ ∃ k, levels keys weight items k = top) :
    IsGreatest {n | ∃ chain, IsChainOf keys items chain ∧ weigh weight chain = n} top := by
  constructor
  · rcases attained with rfl | ⟨k, hk⟩
    · exact ⟨[], ⟨List.nil_sublist _, .nil⟩, rfl⟩
    · obtain ⟨chain, hchain, -, hweigh⟩ := (levels_spec weight items k).1
      exact ⟨chain, hchain, hweigh.trans hk⟩
  · rintro n ⟨chain, hchain, rfl⟩
    cases chain using List.reverseRecOn with
    | nil => exact Nat.zero_le _
    | append_singleton front last =>
        cases hkeys : keys last with
        | cons k rest =>
            exact ((levels_spec weight items k).2 _ hchain ⟨last, by simp, by simp [hkeys]⟩).trans
              (le k)
        | nil =>
            -- an item without keys links to nothing, so it is the whole chain
            have hmem : last ∈ items := hchain.sublist.subset (by simp)
            cases hend : front.getLast? with
            | none =>
                rw [List.getLast?_eq_none_iff.mp hend]
                simp [weigh, weightless last hmem hkeys]
            | some before =>
                obtain ⟨k, -, hk⟩ := (List.isChain_append.mp hchain.linked).2.2 before hend last rfl
                rw [hkeys] at hk
                cases hk

end Levels
end Keyed
