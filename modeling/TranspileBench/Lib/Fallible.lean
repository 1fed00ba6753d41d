import Mathlib.Data.List.Forall2

/-!
Fallible functions over lists: when a map or a fold succeeds, and with what.
-/
namespace Fallible
variable {α β γ σ ε : Type}

theorem bind_eq_ok {x : Except ε α} {f : α → Except ε β} {b : β} :
    x >>= f = .ok b ↔ ∃ a, x = .ok a ∧ f a = .ok b := by
  cases x with
  | error e => simp [bind, Except.bind]
  | ok a => simp [bind, Except.bind]

theorem isOk_iff {x : Except ε α} : x.isOk = true ↔ ∃ a, x = .ok a := by
  cases x with
  | error e => simp [Except.isOk, Except.toBool]
  | ok a => simp [Except.isOk, Except.toBool]

theorem toOption_eq_some {x : Except ε α} {a : α} : x.toOption = some a ↔ x = .ok a := by
  cases x with
  | error e => exact ⟨nofun, nofun⟩
  | ok b => simp [Except.toOption]

/-- A check that throws before the rest. -/
theorem check_eq_ok {c : Prop} [Decidable c] {e : ε} {f : Unit → Except ε β} {b : β} :
    (if c then throw e >>= f else f ()) = .ok b ↔ ¬ c ∧ f () = .ok b := by
  by_cases hc : c
  · rw [if_pos hc]
    exact ⟨fun h => (nomatch h), fun h => absurd hc h.1⟩
  · rw [if_neg hc]
    exact ⟨fun h => ⟨hc, h⟩, fun h => h.2⟩

theorem forM_eq_ok {f : α → Except ε Unit} {xs : List α} :
    xs.forM f = .ok () ↔ ∀ x ∈ xs, f x = .ok () := by
  induction xs with
  | nil => simp [pure, Except.pure]
  | cons x xs ih =>
      change (f x >>= fun _ => xs.forM f) = .ok () ↔ _
      rw [bind_eq_ok, List.forall_mem_cons]
      exact ⟨fun ⟨u, hx, hxs⟩ => ⟨hx, ih.mp hxs⟩, fun ⟨hx, hxs⟩ => ⟨(), hx, ih.mpr hxs⟩⟩

theorem bind_pure_ok_iff {x : Except ε α} {f : α → β} :
    (∃ b, (x >>= fun a => pure (f a)) = .ok b) ↔ ∃ a, x = .ok a := by
  cases x with
  | error e => simp [bind, Except.bind]
  | ok a => simp [bind, Except.bind, pure, Except.pure]

/-- A map succeeds exactly when it does on every element. -/
theorem mapM_ok_iff (f : α → Except ε β) (xs : List α) :
    (∃ ys, xs.mapM f = .ok ys) ↔ ∀ x ∈ xs, ∃ y, f x = .ok y := by
  induction xs with
  | nil => simp [pure, Except.pure]
  | cons x xs ih =>
      rw [List.forall_mem_cons, ← ih, List.mapM_cons]
      constructor
      · rintro ⟨ys, h⟩
        obtain ⟨y, hy, h⟩ := bind_eq_ok.mp h
        obtain ⟨zs, hzs, -⟩ := bind_eq_ok.mp h
        exact ⟨⟨y, hy⟩, zs, hzs⟩
      · rintro ⟨⟨y, hy⟩, ys, hys⟩
        exact ⟨y :: ys, by rw [hy, hys]; rfl⟩

/-- A map succeeds with what the function gives on every element, in order. -/
theorem mapM_eq_ok {f : α → Except ε β} {xs : List α} {ys : List β} :
    xs.mapM f = .ok ys ↔ List.Forall₂ (fun x y => f x = .ok y) xs ys := by
  induction xs generalizing ys with
  | nil =>
      rw [List.forall₂_nil_left_iff, List.mapM_nil]
      exact ⟨fun h => by cases h; rfl, fun h => by rw [h]; rfl⟩
  | cons x xs ih =>
      rw [List.mapM_cons, List.forall₂_cons_left_iff]
      constructor
      · intro h
        obtain ⟨y, hy, h⟩ := bind_eq_ok.mp h
        obtain ⟨zs, hzs, h⟩ := bind_eq_ok.mp h
        cases h
        exact ⟨y, zs, hy, ih.mp hzs, rfl⟩
      · intro ⟨y, zs, hy, hzs, heq⟩
        rw [hy, ih.mpr hzs, heq]
        rfl

theorem mapM_length {f : α → Except ε β} {xs : List α} {ys : List β} (h : xs.mapM f = .ok ys) :
    ys.length = xs.length :=
  (mapM_eq_ok.mp h).length_eq.symm

/-- Every element has its result among those of the map. -/
theorem mapM_mem {f : α → Except ε β} {xs : List α} {ys : List β} (h : xs.mapM f = .ok ys)
    {x : α} (hx : x ∈ xs) : ∃ y ∈ ys, f x = .ok y := by
  have hall := mapM_eq_ok.mp h
  clear h
  induction hall with
  | nil => cases hx
  | cons hxy _ ih =>
      cases List.mem_cons.mp hx with
      | inl heq => exact ⟨_, List.mem_cons_self .., heq ▸ hxy⟩
      | inr hrest =>
          obtain ⟨y, hy, hfy⟩ := ih hrest
          exact ⟨y, List.mem_cons_of_mem _ hy, hfy⟩

/-- What holds of every result of a fallible map. -/
theorem mapM_all {f : α → Except ε β} {P : β → Prop} (h : ∀ a b, f a = .ok b → P b)
    {xs : List α} {ys : List β} (hys : xs.mapM f = .ok ys) : ∀ y ∈ ys, P y := by
  have hall := mapM_eq_ok.mp hys
  clear hys
  induction hall with
  | nil => simp
  | cons hxy _ ih => exact List.forall_mem_cons.mpr ⟨h _ _ hxy, ih⟩

/-- A map that changes nothing. -/
theorem mapM_same {f : α → Except ε α} (h : ∀ a b, f a = .ok b → b = a) {xs ys : List α}
    (hys : xs.mapM f = .ok ys) : ys = xs := by
  have hall := mapM_eq_ok.mp hys
  clear hys
  induction hall with
  | nil => rfl
  | cons hxy _ ih => rw [h _ _ hxy, ih]

theorem mapM_flatMap {f : α → Except ε β} {g : β → List γ} {g' : α → List γ}
    (h : ∀ a b, f a = .ok b → g b = g' a) {xs : List α} {ys : List β}
    (hys : xs.mapM f = .ok ys) : ys.flatMap g = xs.flatMap g' := by
  have hall := mapM_eq_ok.mp hys
  clear hys
  induction hall with
  | nil => rfl
  | cons hxy _ ih => rw [List.flatMap_cons, List.flatMap_cons, h _ _ hxy, ih]

/-- A map to lists gives the lists of its elements one after the other. -/
theorem flatMapM_eq_ok {f : α → Except ε (List β)} {xs : List α} {ys : List β} :
    xs.flatMapM f = .ok ys ↔ ∃ parts, xs.mapM f = .ok parts ∧ ys = parts.flatten := by
  induction xs generalizing ys with
  | nil =>
      rw [List.flatMapM_nil, List.mapM_nil]
      constructor
      · intro h
        cases h
        exact ⟨[], rfl, rfl⟩
      · intro ⟨parts, hparts, h⟩
        cases hparts
        rw [h]
        rfl
  | cons x xs ih =>
      rw [List.flatMapM_cons, List.mapM_cons]
      constructor
      · intro h
        obtain ⟨bs, hbs, h⟩ := bind_eq_ok.mp h
        obtain ⟨zs, hzs, h⟩ := bind_eq_ok.mp h
        obtain ⟨parts, hparts, rfl⟩ := ih.mp hzs
        cases h
        exact ⟨bs :: parts, by rw [hbs, hparts]; rfl, rfl⟩
      · intro ⟨parts, hparts, h⟩
        obtain ⟨bs, hbs, hparts⟩ := bind_eq_ok.mp hparts
        obtain ⟨rest, hrest, hparts⟩ := bind_eq_ok.mp hparts
        cases hparts
        rw [hbs, ih.mpr ⟨rest, hrest, rfl⟩, h]
        rfl

theorem flatMapM_all {f : α → Except ε (List β)} {P : β → Prop}
    (h : ∀ a bs, f a = .ok bs → ∀ b ∈ bs, P b) {xs : List α} {ys : List β}
    (hys : xs.flatMapM f = .ok ys) : ∀ y ∈ ys, P y := by
  obtain ⟨parts, hparts, rfl⟩ := flatMapM_eq_ok.mp hys
  intro y hy
  obtain ⟨part, hpart, hy⟩ := List.mem_flatten.mp hy
  exact mapM_all h hparts part hpart y hy

theorem flatMapM_flatMap {f : α → Except ε (List β)} {g : β → List γ} {g' : α → List γ}
    (h : ∀ a bs, f a = .ok bs → bs.flatMap g = g' a) {xs : List α} {ys : List β}
    (hys : xs.flatMapM f = .ok ys) : ys.flatMap g = xs.flatMap g' := by
  obtain ⟨parts, hparts, rfl⟩ := flatMapM_eq_ok.mp hys
  rw [← mapM_flatMap h hparts, List.flatMap_def, List.map_flatten, List.flatten_flatten,
    List.map_map, List.flatMap_def]
  rfl

/-! ## Where every step succeeds, the plain functions are computed -/

theorem mapM_total {f : α → Except ε β} {g : α → β} {xs : List α}
    (h : ∀ x ∈ xs, f x = .ok (g x)) : xs.mapM f = .ok (xs.map g) := by
  rw [mapM_eq_ok, List.forall₂_map_right_iff]
  exact List.forall₂_same.mpr h

theorem flatMapM_total {f : α → Except ε (List β)} {g : α → List β} {xs : List α}
    (h : ∀ x ∈ xs, f x = .ok (g x)) : xs.flatMapM f = .ok (xs.flatMap g) :=
  flatMapM_eq_ok.mpr ⟨_, mapM_total h, List.flatMap_def⟩

theorem foldlM_total {f : σ → α → Except ε σ} {g : σ → α → σ} {xs : List α}
    (h : ∀ s, ∀ x ∈ xs, f s x = .ok (g s x)) (s : σ) : xs.foldlM f s = .ok (xs.foldl g s) := by
  induction xs generalizing s with
  | nil => rfl
  | cons x xs ih =>
      rw [List.foldlM_cons, List.foldl_cons, h s x (List.mem_cons_self ..)]
      exact ih (fun s y hy => h s y (List.mem_cons_of_mem _ hy)) _

/-- Results satisfy `P` and errors satisfy `E`; where no error does, there is a result. -/
def Gives (E : ε → Prop) (P : α → Prop) : Except ε α → Prop
  | .ok a => P a
  | .error e => E e

section Gives
variable {E : ε → Prop} {P : α → Prop} {Q : β → Prop} {x : Except ε α}

theorem Gives.result (h : Gives E P x) {a : α} (ha : x = .ok a) : P a := by
  rw [ha] at h
  exact h

theorem Gives.exists_ok (h : Gives (fun _ => False) P x) : ∃ a, x = .ok a ∧ P a := by
  cases x with
  | ok a => exact ⟨a, rfl, h⟩
  | error e => exact h.elim

theorem Gives.imp (h : Gives E P x) {P' : α → Prop} (hP : ∀ a, P a → P' a) : Gives E P' x := by
  cases x with
  | ok a => exact hP a h
  | error e => exact h

theorem gives_of_ok (h : ∀ a, x = .ok a → P a) : Gives (fun _ : ε => True) P x := by
  cases x with
  | ok a => exact h a rfl
  | error e => exact trivial

theorem Gives.bind {f : α → Except ε β} (h : Gives E P x) (hf : ∀ a, P a → Gives E Q (f a)) :
    Gives E Q (x >>= f) := by
  cases x with
  | ok a => exact hf a h
  | error e => exact h

theorem Gives.check {c : Prop} [Decidable c] {e : ε} {f : Unit → Except ε β} (hc : c → E e)
    (hf : ¬ c → Gives E Q (f ())) : Gives E Q (if c then throw e >>= f else f ()) := by
  by_cases h : c
  · rw [if_pos h]
    exact hc h
  · rw [if_neg h]
    exact hf h

theorem Gives.mapM {R : α → β → Prop} {f : α → Except ε β} {xs : List α}
    (h : ∀ a ∈ xs, Gives E (R a) (f a)) : Gives E (List.Forall₂ R xs) (xs.mapM f) := by
  induction xs with
  | nil => exact .nil
  | cons x xs ih =>
      rw [List.mapM_cons]
      refine (h x (List.mem_cons_self ..)).bind fun b hb => ?_
      exact (ih fun a ha => h a (List.mem_cons_of_mem _ ha)).bind fun bs hbs => .cons hb hbs

theorem Gives.mapM_all {f : α → Except ε β} {xs : List α} (h : ∀ a ∈ xs, Gives E Q (f a)) :
    Gives E (fun bs => ∀ b ∈ bs, Q b) (xs.mapM f) := by
  refine (Gives.mapM h).imp fun bs hbs => ?_
  induction hbs with
  | nil => simp
  | cons hb _ ih =>
      exact List.forall_mem_cons.mpr ⟨hb, ih fun a ha => h a (List.mem_cons_of_mem _ ha)⟩

theorem Gives.flatMapM_all {f : α → Except ε (List β)} {xs : List α}
    (h : ∀ a ∈ xs, Gives E (fun bs => ∀ b ∈ bs, Q b) (f a)) :
    Gives E (fun bs => ∀ b ∈ bs, Q b) (xs.flatMapM f) := by
  induction xs with
  | nil => exact fun b hb => (nomatch hb)
  | cons x xs ih =>
      rw [List.flatMapM_cons]
      refine (h x (List.mem_cons_self ..)).bind fun bs hbs => ?_
      refine (ih fun a ha => h a (List.mem_cons_of_mem _ ha)).bind fun cs hcs => ?_
      exact fun b hb => (List.mem_append.mp hb).elim (hbs b) (hcs b)

end Gives

/-- Two computations fail alike, or give related results. -/
inductive Related (R : α → β → Prop) : Except ε α → Except ε β → Prop
  | ok {a : α} {b : β} (h : R a b) : Related R (.ok a) (.ok b)
  | error (e : ε) : Related R (.error e) (.error e)

section Related
variable {R : α → β → Prop} {x : Except ε α} {y : Except ε β}

theorem Related.swap (h : Related R x y) : Related (fun b a => R a b) y x := by
  cases h with
  | ok h => exact .ok h
  | error e => exact .error e

theorem Related.map {γ' : Type} {S : γ → γ' → Prop} {f : α → γ} {g : β → γ'} (h : Related R x y)
    (hfg : ∀ a b, R a b → S (f a) (g b)) :
    Related S (x >>= fun a => pure (f a)) (y >>= fun b => pure (g b)) := by
  cases h with
  | ok h => exact .ok (hfg _ _ h)
  | error e => exact .error e

theorem Related.exists_ok (h : Related R x y) {a : α} (ha : x = .ok a) :
    ∃ b, y = .ok b ∧ R a b := by
  cases h with
  | ok h => cases ha; exact ⟨_, rfl, h⟩
  | error e => cases ha

theorem Related.mapM {γ' : Type} {S : γ → γ' → Prop} {f : α → Except ε γ} {g : β → Except ε γ'}
    {xs : List α} {ys : List β} (h : List.Forall₂ (fun a b => Related S (f a) (g b)) xs ys) :
    Related (List.Forall₂ S) (xs.mapM f) (ys.mapM g) := by
  induction h with
  | nil => exact .ok .nil
  | @cons a b as bs hab _ ih =>
      rw [List.mapM_cons, List.mapM_cons]
      generalize f a = u at hab ⊢
      generalize g b = v at hab ⊢
      cases hab with
      | error e => exact .error e
      | ok hab => exact ih.map fun us vs huv => .cons hab huv

end Related

/-- What encodes can be decoded, into something that encodes alike and is related to it. -/
def Copies (R : α → α → Prop) (encode : α → Except ε β) (decode : β → Except ε α) : Prop :=
  ∀ a b, encode a = .ok b → ∃ a', decode b = .ok a' ∧ encode a' = .ok b ∧ R a a'

theorem Copies.mapM {R : α → α → Prop} {encode : α → Except ε β} {decode : β → Except ε α}
    (h : Copies R encode decode) {xs : List α} {ys : List β} (hys : xs.mapM encode = .ok ys) :
    ∃ xs', ys.mapM decode = .ok xs' ∧ xs'.mapM encode = .ok ys ∧ List.Forall₂ R xs xs' := by
  have hall := mapM_eq_ok.mp hys
  clear hys
  induction hall with
  | nil => exact ⟨[], rfl, rfl, .nil⟩
  | cons hxy _ ih =>
      obtain ⟨a', hdecode, hencode, hR⟩ := h _ _ hxy
      obtain ⟨as', hdecodes, hencodes, hRs⟩ := ih
      refine ⟨a' :: as', ?_, ?_, .cons hR hRs⟩
      · rw [List.mapM_cons, hdecode, hdecodes]
        rfl
      · rw [List.mapM_cons, hencode, hencodes]
        rfl

/-- A computation succeeds exactly when `c` holds, and then with what `R` says. -/
structure Succeeds (c : Prop) (R : α → Prop) (x : Except ε α) : Prop where
  iff : (∃ a, x = .ok a) ↔ c
  result : ∀ a, x = .ok a → R a

section Succeeds
variable {c c' : Prop} {R R' : α → Prop} {x : Except ε α}

theorem Succeeds.ok {a : α} (hx : x = .ok a) (hc : c) (hR : R a) : Succeeds c R x where
  iff := ⟨fun _ => hc, fun _ => ⟨a, hx⟩⟩
  result b hb := by
    rw [hx] at hb
    cases hb
    exact hR

theorem Succeeds.error {e : ε} (hx : x = .error e) (hc : ¬ c) : Succeeds c R x where
  iff := ⟨fun ⟨_, h⟩ => (nomatch hx.symm.trans h), fun h => absurd h hc⟩
  result _ h := nomatch hx.symm.trans h

theorem Succeeds.bind {d : Prop} {S : β → Prop} {f : α → Except ε β} (h : Succeeds c R x)
    (hf : ∀ a, R a → Succeeds d S (f a)) : Succeeds (c ∧ d) S (x >>= f) where
  iff := by
    constructor
    · intro ⟨b, hb⟩
      obtain ⟨a, ha, hb⟩ := bind_eq_ok.mp hb
      exact ⟨h.iff.mp ⟨a, ha⟩, (hf a (h.result a ha)).iff.mp ⟨b, hb⟩⟩
    · intro ⟨hc, hd⟩
      obtain ⟨a, ha⟩ := h.iff.mpr hc
      obtain ⟨b, hb⟩ := (hf a (h.result a ha)).iff.mpr hd
      exact ⟨b, bind_eq_ok.mpr ⟨a, ha, hb⟩⟩
  result b hb := by
    obtain ⟨a, ha, hb⟩ := bind_eq_ok.mp hb
    exact (hf a (h.result a ha)).result b hb

theorem Succeeds.condition (h : Succeeds c R x) : Succeeds c (fun a => c ∧ R a) x where
  iff := h.iff
  result a ha := ⟨h.iff.mp ⟨a, ha⟩, h.result a ha⟩

theorem Succeeds.imp (h : Succeeds c R x) (hc : c ↔ c') (hR : ∀ a, R a → R' a) :
    Succeeds c' R' x where
  iff := h.iff.trans hc
  result a ha := hR a (h.result a ha)

/-- A result that is only put into another form. -/
theorem Succeeds.then {S : β → Prop} {f : α → Except ε β} (h : Succeeds c R x)
    (hf : ∀ a, R a → ∃ b, f a = .ok b ∧ S b) : Succeeds c S (x >>= f) := by
  refine (h.bind (d := True) fun a ha => ?_).imp (Iff.of_eq (and_true _)) fun _ hb => hb
  obtain ⟨b, hb, hS⟩ := hf a ha
  exact .ok hb trivial hS

end Succeeds

/-- A fold whose steps fail, and report something, by the element alone: it succeeds exactly
when no element fails, and reports what the elements do. -/
theorem foldlM_reports {f : σ → α → Except ε σ} {report : σ → List β}
    {reports : α → Except ε (List β)}
    {xs : List α}
    (fails : ∀ s, ∀ x ∈ xs, ∀ e, reports x = .error e → f s x = .error e)
    (step : ∀ s, ∀ x ∈ xs, ∀ ys, reports x = .ok ys →
      ∃ s', f s x = .ok s' ∧ report s' = report s ++ ys) (s : σ) :
    ((∃ s', xs.foldlM f s = .ok s') ↔ ∀ x ∈ xs, ∃ ys, reports x = .ok ys) ∧
    ∀ s', xs.foldlM f s = .ok s' →
      (report s' = [] ↔ report s = [] ∧ ∀ x ∈ xs, reports x = .ok []) := by
  induction xs generalizing s with
  | nil => simp [pure, Except.pure]
  | cons x xs ih =>
      have ih := ih (fun s y hy => fails s y (List.mem_cons_of_mem _ hy))
        fun s y hy => step s y (List.mem_cons_of_mem _ hy)
      simp only [List.foldlM_cons, List.forall_mem_cons]
      cases hx : reports x with
      | error e =>
          have hf := fails s x (List.mem_cons_self ..) e hx
          simp [hf, bind, Except.bind]
      | ok ys =>
          obtain ⟨s₁, hs₁, hreport⟩ := step s x (List.mem_cons_self ..) ys hx
          rw [hs₁]
          obtain ⟨hok, hnil⟩ := ih s₁
          refine ⟨by simpa [bind, Except.bind] using hok, fun s' hs' => ?_⟩
          rw [hnil s' hs', hreport]
          simp only [List.append_eq_nil_iff, Except.ok.injEq]
          exact and_assoc

end Fallible
