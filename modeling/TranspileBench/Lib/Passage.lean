import TranspileBench.Lib.Interleaving
import Mathlib

/-!
The passage of one program among the steps of the others: a process that is not running
takes the actions of the program, and between any two of them the other processes take
any steps. A program that only looks changes nothing, so whatever the others keep holds
from each world it has passed to each that comes after.
-/

namespace System
variable {W ε : Type} (S : System W ε)

/-- `S.Passage p prog c ws r c'`: process `p`, which has no thread in `c`, runs `prog` among
the steps of the others, passes the worlds `ws` and ends with `r` in `c'`. -/
inductive Passage (p : ℕ) {α : Type} :
    Prog W ε α → Config W ε → List W → Except ε α → Config W ε → Prop
  | ret (a : α) (c : Config W ε) : Passage p (.ret a) c [] (.ok a) c
  | raise (e : ε) (c : Config W ε) : Passage p (.raise e) c [] (.error e) c
  | act {β : Type} {A : W → β → W → Prop} {k : β → Prog W ε α} {c c' : Config W ε} {b : β} {w : W}
      {ws : List W} {r : Except ε α} (step : A c.world b w)
      (rest : Passage p (k b) ⟨w, c.thread⟩ ws r c') :
      Passage p (.act A k) c (c.world :: ws) r c'
  | beside {prog : Prog W ε α} {c c₁ c' : Config W ε} {ws : List W} {r : Except ε α}
      (next : S.Step c c₁) (free : c₁.thread p = none) (rest : Passage p prog c₁ ws r c') :
      Passage p prog c (c.world :: ws) r c'

section Cases
variable {S} {p : ℕ} {α β : Type} {prog : Prog W ε α} {c c' : Config W ε} {ws : List W}

/-- A sequence passes through the end of its first part. -/
theorem Passage.bind_ok {f : α → Prog W ε β} {b : β}
    (h : S.Passage p (prog >>= f) c ws (.ok b) c') :
    ∃ a c₁ ws₁ ws₂, S.Passage p prog c ws₁ (.ok a) c₁ ∧ S.Passage p (f a) c₁ ws₂ (.ok b) c' ∧
      ws = ws₁ ++ ws₂ := by
  generalize hseq : prog >>= f = seq at h
  generalize hr : (Except.ok b : Except ε β) = r at h
  induction h generalizing prog with
  | ret b' c =>
      cases hr
      cases prog with
      | ret a =>
          have hseq : f a = .ret b := hseq
          exact ⟨a, c, [], [], .ret a c, hseq ▸ .ret b c, rfl⟩
      | raise e => cases hseq
      | act A k => cases hseq
  | raise e c => cases hr
  | @act γ A k c c' d w ws r step rest ih =>
      cases prog with
      | ret a =>
          have hseq : f a = .act A k := hseq
          exact ⟨a, c, [], _, .ret a c, hseq ▸ .act step (hr ▸ rest), rfl⟩
      | raise e => cases hseq
      | act A' k' =>
          cases hseq
          obtain ⟨a, c₁, ws₁, ws₂, first, second, rfl⟩ := ih rfl hr
          exact ⟨a, c₁, _, ws₂, .act step first, second, rfl⟩
  | beside next free rest ih =>
      obtain ⟨a, c₁, ws₁, ws₂, first, second, rfl⟩ := ih hseq hr
      exact ⟨a, c₁, _, ws₂, .beside next free first, second, rfl⟩

theorem Passage.attempt_ok {result : Except ε α}
    (h : S.Passage p prog.attempt c ws (.ok result) c') :
    S.Passage p prog c ws result c' := by
  generalize hseq : prog.attempt = seq at h
  generalize hr : (Except.ok result : Except ε (Except ε α)) = r at h
  induction h generalizing prog with
  | ret a c =>
      cases hr
      cases prog with
      | ret a => cases hseq; exact .ret a c
      | raise e => cases hseq; exact .raise e c
      | act A k => cases hseq
  | raise e c => cases hr
  | act step rest ih =>
      cases prog with
      | ret a => cases hseq
      | raise e => cases hseq
      | act A k =>
          cases hseq
          exact .act step (ih rfl hr)
  | beside next free rest ih => exact .beside next free (ih hseq hr)

/-- What the others do while the process does nothing. -/
def Others (S : System W ε) (p : ℕ) (c : Config W ε) (ws : List W) (c' : Config W ε) : Prop :=
  S.Passage p (.ret () : Prog W ε Unit) c ws (.ok ()) c'

theorem Passage.ret_cases {a : α} {r : Except ε α} (h : S.Passage p (.ret a) c ws r c') :
    r = .ok a ∧ S.Others p c ws c' := by
  generalize hseq : Prog.ret a = seq at h
  induction h with
  | ret b c =>
      cases hseq
      exact ⟨rfl, .ret () c⟩
  | raise e c => cases hseq
  | act step rest ih => cases hseq
  | beside next free rest ih => exact ⟨(ih hseq).1, .beside next free (ih hseq).2⟩

theorem Passage.raise_not_ok {e : ε} {a : α} : ¬ S.Passage p (.raise e) c ws (.ok a) c' := by
  intro h
  generalize hseq : (Prog.raise e : Prog W ε α) = seq at h
  generalize hr : (Except.ok a : Except ε α) = r at h
  induction h with
  | ret b c => cases hseq
  | raise e c => cases hr
  | act step rest ih => cases hseq
  | beside next free rest ih => exact ih hseq hr

theorem Passage.map_ok {f : α → β} {b : β} (h : S.Passage p (f <$> prog) c ws (.ok b) c') :
    ∃ a c₁ ws₁ ws₂, S.Passage p prog c ws₁ (.ok a) c₁ ∧ b = f a ∧ S.Others p c₁ ws₂ c' ∧
      ws = ws₁ ++ ws₂ := by
  obtain ⟨a, c₁, ws₁, ws₂, first, last, hws⟩ := Passage.bind_ok (f := fun a => .ret (f a)) h
  obtain ⟨hb, others⟩ := last.ret_cases
  exact ⟨a, c₁, ws₁, ws₂, first, Except.ok.inj hb, others, hws⟩

/-- The worlds of a passage, with the one it ends in, begin with the one it starts in. -/
theorem Passage.starts {r : Except ε α} (h : S.Passage p prog c ws r c') :
    ∃ rest, ws ++ [c'.world] = c.world :: rest := by
  cases h with
  | ret a c => exact ⟨[], rfl⟩
  | raise e c => exact ⟨[], rfl⟩
  | act step rest => exact ⟨_, rfl⟩
  | beside next free rest => exact ⟨_, rfl⟩

theorem Passage.act_cases {A : W → β → W → Prop} {k : β → Prog W ε α} {r : Except ε α}
    (h : S.Passage p (.act A k) c ws r c') :
    ∃ c₁ b w ws₁ ws₂, S.Others p c ws₁ c₁ ∧ A c₁.world b w ∧
      S.Passage p (k b) ⟨w, c₁.thread⟩ ws₂ r c' ∧ ws = ws₁ ++ c₁.world :: ws₂ := by
  generalize hseq : Prog.act A k = seq at h
  induction h with
  | ret a c => cases hseq
  | raise e c => cases hseq
  | @act γ B k' c c' b w ws r step rest ih =>
      cases hseq
      exact ⟨c, b, w, [], ws, .ret () c, step, rest, rfl⟩
  | beside next free rest ih =>
      obtain ⟨c₁, b, w, ws₁, ws₂, before, step, after, rfl⟩ := ih hseq
      exact ⟨c₁, b, w, _, ws₂, .beside next free before, step, after, rfl⟩

/-- An action that took effect did so in a world that was passed. -/
theorem Passage.fallible_ok {errors : ε → Prop} {A : W → β → W → Prop} {b : β}
    (h : S.Passage p (Prog.fallible errors A) c ws (.ok b) c') :
    ∃ c₁ w ws₁ ws₂, S.Others p c ws₁ c₁ ∧ A c₁.world b w ∧ S.Others p ⟨w, c₁.thread⟩ ws₂ c' ∧
      ws = ws₁ ++ c₁.world :: ws₂ := by
  obtain ⟨c₁, d, w, ws₁, ws₂, before, step, after, hws⟩ := Passage.act_cases h
  cases d with
  | error e => exact absurd after Passage.raise_not_ok
  | ok d =>
      obtain ⟨hd, others⟩ := Passage.ret_cases after
      cases hd
      exact ⟨c₁, w, ws₁, ws₂, before, step, others, hws⟩

/-- A moment of a part of a passage is one of the whole. -/
theorem moment_of_part {W : Type} (ws₀ : List W) {ws ws' before after later : List W} {w w₁ w₂ : W}
    (part : ws ++ [w₁] = before ++ w :: after) (rest : ws' ++ [w₂] = w₁ :: later) :
    ws₀ ++ (ws ++ ws') ++ [w₂] = (ws₀ ++ before) ++ w :: (after ++ later) := by
  calc ws₀ ++ (ws ++ ws') ++ [w₂] = ws₀ ++ (ws ++ (ws' ++ [w₂])) := by
        rw [List.append_assoc, List.append_assoc]
    _ = ws₀ ++ ((ws ++ [w₁]) ++ later) := by
        rw [rest, List.append_assoc, List.singleton_append]
    _ = (ws₀ ++ before) ++ w :: (after ++ later) := by
        rw [part, List.append_assoc, List.append_assoc, List.cons_append]

/-- A fold that sets one place after another reads each of them once. -/
theorem Passage.fold_update {ι : Type} [DecidableEq ι] {read : ι → Prog W ε β} {xs : List ι}
    (nodup : xs.Nodup) {start found : ι → β}
    (h : S.Passage p (Prog.fold (fun found i => (fun b => Function.update found i b) <$> read i)
      start xs) c ws (.ok found) c') :
    (∀ i, i ∉ xs → found i = start i) ∧
      ∀ i ∈ xs, ∃ c₁ ws₁ c₂, S.Passage p (read i) c₁ ws₁ (.ok (found i)) c₂ ∧ ws₁ ⊆ ws := by
  induction xs generalizing start c ws with
  | nil =>
      obtain ⟨hfound, -⟩ := Passage.ret_cases h
      exact ⟨fun i _ => congrFun (Except.ok.inj hfound) i, fun i hi => (nomatch hi)⟩
  | cons x rest ih =>
      obtain ⟨hx, hrest⟩ := List.nodup_cons.mp nodup
      obtain ⟨next, c₁, ws₁, ws₂, first, others, rfl⟩ := Passage.bind_ok h
      obtain ⟨b, c₂, ws₃, ws₄, reads, rfl, -, rfl⟩ := Passage.map_ok first
      obtain ⟨outside, inside⟩ := ih hrest others
      refine ⟨fun i hi => ?_, fun i hi => ?_⟩
      · rw [List.mem_cons, not_or] at hi
        rw [outside i hi.2, Function.update_of_ne hi.1]
      · cases hi with
        | head =>
            refine ⟨c, ws₃, c₂, ?_, fun w hw => List.mem_append_left _ (List.mem_append_left _ hw)⟩
            rw [outside x hx, Function.update_self]
            exact reads
        | tail _ hi =>
            obtain ⟨c₃, ws₅, c₄, passage, hws⟩ := inside i hi
            exact ⟨c₃, ws₅, c₄, passage, fun w hw => List.mem_append_right _ (hws hw)⟩

/-- A run alone is a passage. -/
theorem Exec.passage {w w' : W} {r : Except ε α} (h : Exec prog w (some r) w') (p : ℕ)
    (thread : ℕ → Option (Prog W ε Unit)) :
    ∃ ws, S.Passage p prog ⟨w, thread⟩ ws r ⟨w', thread⟩ := by
  generalize ho : some r = o at h
  induction h with
  | stop prog w => cases ho
  | ret a w => cases ho; exact ⟨[], .ret a _⟩
  | raise e w => cases ho; exact ⟨[], .raise e _⟩
  | @act β A k w w₁ w₂ b o step rest ih =>
      obtain ⟨ws, run⟩ := ih ho
      exact ⟨w :: ws, .act step run⟩

end Cases
end System

/-! ## Looking -/

/-- A program that changes nothing. -/
def Prog.Looks {W ε α : Type} : Prog W ε α → Prop
  | .ret _ => True
  | .raise _ => True
  | .act A k => (∀ w b w', A w b w' → w' = w) ∧ ∀ b, (k b).Looks

namespace Prog.Looks
variable {W ε α β γ : Type}

theorem pure (a : α) : (Pure.pure a : Prog W ε α).Looks := trivial

theorem throw (e : ε) : (MonadExcept.throw e : Prog W ε α).Looks := trivial

theorem bind {p : Prog W ε α} {f : α → Prog W ε β} (hp : p.Looks) (hf : ∀ a, (f a).Looks) :
    (p >>= f).Looks := by
  induction p with
  | ret a => exact hf a
  | raise e => trivial
  | act A k ih => exact ⟨hp.1, fun b => ih b (hp.2 b)⟩

theorem map {p : Prog W ε α} (f : α → β) (hp : p.Looks) : (f <$> p).Looks :=
  hp.bind fun a => pure (f a)

theorem fallible {errors : ε → Prop} {A : W → β → W → Prop} (h : ∀ w b w', A w b w' → w' = w) :
    (Prog.fallible errors A).Looks := by
  refine ⟨fun w r w' hA => ?_, fun r => ?_⟩
  · cases r with
    | ok b => exact h w b w' hA
    | error e => exact hA.2
  · cases r with
    | ok b => trivial
    | error e => trivial

theorem fold {f : γ → α → Prog W ε γ} {xs : List α} (hf : ∀ s x, (f s x).Looks) (s : γ) :
    (Prog.fold f s xs).Looks := by
  induction xs generalizing s with
  | nil => trivial
  | cons x rest ih => exact bind (hf s x) ih

end Prog.Looks

namespace System.Outline
variable {W ε : Type} {S : System W ε} (O : S.Outline)

/-- A configuration as the others of process `p` keep it. -/
structure Around (p : ℕ) (c : Config W ε) : Prop where
  free : c.thread p = none
  inv : O.inv c.world
  live : ∀ q, q ≠ p → O.Live q (c.thread q) c.world

/-- What the others of process `p` may do to the world. -/
def Changes (p : ℕ) (w w' : W) : Prop :=
  w' = w ∨ (∃ q, q ≠ p ∧ O.guar q w w') ∨ (∃ q, q ≠ p ∧ w' = S.release q w) ∨ S.env w w'

variable {O} {p : ℕ} {c c' : Config W ε}

theorem Holds.around (h : O.Holds c) (free : c.thread p = none) : O.Around p c :=
  ⟨free, h.1, fun q _ => h.2 q⟩

/-- An action of the process that the others can live with. -/
theorem Around.own {w : W} (h : O.Around p c) (inv : O.inv w)
    (rely : ∀ q, q ≠ p → O.rely q c.world w) : O.Around p ⟨w, c.thread⟩ :=
  ⟨h.free, inv, fun q hq => (h.live q hq).rely O (rely q hq)⟩

theorem Around.beside (h : O.Around p c) (next : S.Step c c') (free : c'.thread p = none) :
    O.Around p c' ∧ O.Changes p c.world c'.world := by
  cases next with
  | start q prog hfree entry =>
      have hq : q ≠ p := by
        intro heq
        simp [heq] at free
      have hidle : O.idle q c.world := by
        have live := h.live q hq
        rwa [hfree] at live
      refine ⟨⟨free, h.inv, fun q' hq' => ?_⟩, .inl rfl⟩
      by_cases heq : q' = q
      · have safe := O.safe q prog c.world entry h.inv hidle
        rw [heq]
        simpa [Live, contract] using safe
      · simpa [heq] using h.live q' hq'
  | act q acts =>
      cases acts with
      | @act β A k b w next action =>
          have hq : q ≠ p := by
            intro heq
            rw [heq, h.free] at next
            cases next
          have live := h.live q hq
          rw [next] at live
          obtain ⟨hguar, hinv, hk⟩ := live _ (O.rely_refl q _) h.inv _ _ action
          refine ⟨⟨free, hinv, fun q' hq' => ?_⟩, .inr (.inl ⟨q, hq, hguar⟩)⟩
          by_cases heq : q' = q
          · rw [heq]
            simpa [Live] using hk
          · simpa [heq] using
              (h.live q' hq').rely O (O.compatible q q' _ _ (Ne.symm heq) h.inv hguar)
  | stop q live =>
      have hq : q ≠ p := fun heq => live (heq ▸ h.free)
      obtain ⟨hinv, hidle, hrely⟩ := O.release q c.world h.inv
      refine ⟨⟨free, hinv, fun q' hq' => ?_⟩, .inr (.inr (.inl ⟨q, hq, rfl⟩))⟩
      by_cases heq : q' = q
      · rw [heq]
        simpa [Live] using hidle
      · simpa [heq] using (h.live q' hq').rely O (hrely q' heq)
  | env change =>
      obtain ⟨hinv, hrely⟩ := O.env c.world _ h.inv change
      exact ⟨⟨free, hinv, fun q' hq' => (h.live q' hq').rely O (hrely q')⟩,
        .inr (.inr (.inr change))⟩

/-- Whatever the others keep from one world to the next holds, while a program only looks,
from where it starts to each world it passes, and from there to where it ends. -/
theorem Around.passage {α : Type} {prog : Prog W ε α} {ws : List W} {r : Except ε α}
    {T : W → W → Prop} (h : O.Around p c) (refl : ∀ w, T w w)
    (trans : ∀ w w' w'', T w w' → T w' w'' → T w w'')
    (changes : ∀ w w', O.inv w → O.inv w' → O.Changes p w w' → T w w') (looks : prog.Looks)
    (run : S.Passage p prog c ws r c') :
    O.Around p c' ∧ T c.world c'.world ∧ ∀ w ∈ ws, O.inv w ∧ T c.world w ∧ T w c'.world := by
  induction run with
  | ret a c => exact ⟨h, refl _, fun w hw => (nomatch hw)⟩
  | raise e c => exact ⟨h, refl _, fun w hw => (nomatch hw)⟩
  | @act β A k c c' b w ws r step rest ih =>
      obtain rfl : w = c.world := looks.1 _ _ _ step
      obtain ⟨around, hT, hws⟩ := ih h (looks.2 b)
      exact ⟨around, hT, List.forall_mem_cons.mpr ⟨⟨h.inv, refl _, hT⟩, hws⟩⟩
  | @beside prog c c₁ c' ws r next free rest ih =>
      obtain ⟨around₁, hchanges⟩ := h.beside next free
      have first := changes _ _ h.inv around₁.inv hchanges
      obtain ⟨around, hT, hws⟩ := ih around₁ looks
      refine ⟨around, trans _ _ _ first hT, List.forall_mem_cons.mpr
        ⟨⟨h.inv, refl _, trans _ _ _ first hT⟩, fun w hw => ?_⟩⟩
      obtain ⟨inv, sofar, onward⟩ := hws w hw
      exact ⟨inv, trans _ _ _ first sofar, onward⟩

end System.Outline
