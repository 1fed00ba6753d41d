import TranspileBench.Lib.Program
import Mathlib.Data.Nat.Notation

/-!
Systems of processes that run programs over one world: processes start, take
their actions in any order, and end or are killed between any two of them, upon
which the system releases what they held. An invariant of the world and a
contract for every program carry over to whole runs.
-/

/-- Processes over worlds `W`: how a run may start, which programs a process may
run, what ending or killing it does, and what the outside may do to the world. -/
structure System (W ε : Type) where
  init : W → Prop
  entry : ℕ → Prog W ε Unit → Prop
  release : ℕ → W → W
  env : W → W → Prop

/-- A world and what is left of every live process. -/
structure Config (W ε : Type) where
  world : W
  thread : ℕ → Option (Prog W ε Unit)

namespace System
variable {W ε : Type} (S : System W ε)

/-- `S.Acts p c c'`: process `p` takes its next action. -/
inductive Acts (p : ℕ) : Config W ε → Config W ε → Prop
  | act {c : Config W ε} {β : Type} {A : W → β → W → Prop} {k : β → Prog W ε Unit} {b : β} {w : W}
      (next : c.thread p = some (.act A k)) (action : A c.world b w) :
      Acts p c ⟨w, fun q => if q = p then some (k b) else c.thread q⟩

inductive Step : Config W ε → Config W ε → Prop
  | start {c : Config W ε} (p : ℕ) (prog : Prog W ε Unit) (free : c.thread p = none)
      (entry : S.entry p prog) :
      Step c ⟨c.world, fun q => if q = p then some prog else c.thread q⟩
  | act {c c' : Config W ε} (p : ℕ) (acts : Acts p c c') : Step c c'
  /-- A process ends, or is killed wherever it is. -/
  | stop {c : Config W ε} (p : ℕ) (live : c.thread p ≠ none) :
      Step c ⟨S.release p c.world, fun q => if q = p then none else c.thread q⟩
  | env {c : Config W ε} {w : W} (change : S.env c.world w) : Step c ⟨w, c.thread⟩

/-- A run may start in any initial world, with no process. -/
def Initial (c : Config W ε) : Prop := S.init c.world ∧ ∀ p, c.thread p = none

inductive Reachable : Config W ε → Prop
  | init {c : Config W ε} (h : S.Initial c) : Reachable c
  | step {c c' : Config W ε} (h : Reachable c) (next : S.Step c c') : Reachable c'

/-- A run, one configuration a moment; nothing needs to happen in a moment. -/
structure Run where
  config : ℕ → Config W ε
  initial : S.Initial (config 0)
  step : ∀ n, S.Step (config n) (config (n + 1)) ∨ config (n + 1) = config n

variable {S} in
/-- A process takes the actions of its program while the others wait. -/
theorem Reachable.advance {w w' : W} {thread : ℕ → Option (Prog W ε Unit)}
    {prog rest : Prog W ε Unit} {p : ℕ} (h : S.Reachable ⟨w, thread⟩)
    (next : thread p = some prog) (run : Reaches prog w rest w') :
    S.Reachable ⟨w', fun q => if q = p then some rest else thread q⟩ := by
  induction run generalizing thread with
  | refl prog w =>
      have same : (fun q => if q = p then some prog else thread q) = thread := by
        funext q
        by_cases hq : q = p <;> simp [hq, next]
      rwa [same]
  | @act β A k rest w w₁ w₂ b step _ ih =>
      have acted := Reachable.step h (.act p (.act next step))
      have same : (fun q => if q = p then some rest else
          if q = p then some (k b) else thread q) =
          fun q => if q = p then some rest else thread q := by
        funext q
        by_cases hq : q = p <;> simp [hq]
      exact same ▸ ih acted (if_pos rfl)

/-- A process runs what is left of its program while the others wait, and ends or is
stopped. -/
theorem Reachable.finish {w w' : W} {thread : ℕ → Option (Prog W ε Unit)} {prog : Prog W ε Unit}
    {o : Option (Except ε Unit)} {p : ℕ} (h : S.Reachable ⟨w, thread⟩)
    (next : thread p = some prog) (run : Exec prog w o w') :
    S.Reachable ⟨S.release p w', fun q => if q = p then none else thread q⟩ := by
  obtain ⟨rest, run⟩ := run.exists_reaches
  have stopped := (h.advance next run).step (.stop p (by simp))
  have same : (fun q => if q = p then none else if q = p then some rest else thread q) =
      fun q => if q = p then none else thread q := by
    funext q
    by_cases hq : q = p <;> simp [hq]
  rwa [same] at stopped

/-- A process that starts beside others that wait, runs its program and ends or is
stopped, leaves a reachable world. -/
theorem Reachable.exec {w w' : W} {thread : ℕ → Option (Prog W ε Unit)} {prog : Prog W ε Unit}
    {o : Option (Except ε Unit)} (p : ℕ) (h : S.Reachable ⟨w, thread⟩) (free : thread p = none)
    (entry : S.entry p prog) (run : Exec prog w o w') :
    S.Reachable ⟨S.release p w', thread⟩ := by
  have ended := (h.step (.start p prog free entry)).finish S (if_pos rfl) run
  have same : (fun q => if q = p then none else if q = p then some prog else thread q) =
      thread := by
    funext q
    by_cases hq : q = p <;> simp [hq, free]
  rwa [same] at ended

theorem Run.reachable (r : S.Run) (n : ℕ) : S.Reachable (r.config n) := by
  induction n with
  | zero => exact .init r.initial
  | succ n ih =>
      cases r.step n with
      | inl h => exact .step ih h
      | inr h => exact h ▸ ih

/-- A run may go on otherwise after any moment. -/
theorem Run.exists_branch (r : S.Run) (n : ℕ) {c : Config W ε} (next : S.Step (r.config n) c) :
    ∃ r' : S.Run, r'.config n = r.config n ∧ r'.config (n + 1) = c := by
  refine ⟨⟨fun k => if k ≤ n then r.config k else c, ?_, fun k => ?_⟩, if_pos (Nat.le_refl n),
    if_neg (Nat.not_succ_le_self n)⟩
  · rw [if_pos (Nat.zero_le n)]
    exact r.initial
  · by_cases hk : k + 1 ≤ n
    · rw [if_pos hk, if_pos (by omega)]
      exact r.step k
    · rw [if_neg hk]
      by_cases hle : k ≤ n
      · obtain rfl : k = n := by omega
        rw [if_pos hle]
        exact .inl next
      · rw [if_neg hle]
        exact .inr rfl

/-- What is reachable is a moment of a run. -/
theorem Reachable.exists_run {c : Config W ε} (h : S.Reachable c) :
    ∃ (r : S.Run) (n : ℕ), r.config n = c := by
  induction h with
  | @init c h => exact ⟨⟨fun _ => c, h, fun _ => .inr rfl⟩, 0, rfl⟩
  | step _ next ih =>
      obtain ⟨r, n, rfl⟩ := ih
      obtain ⟨r', -, hlast⟩ := r.exists_branch S n next
      exact ⟨r', n + 1, hlast⟩

/-- A proof outline of a system: an invariant, what each process promises of its
actions and assumes of the others, and that every program keeps its contract. -/
structure Outline where
  inv : W → Prop
  guar : ℕ → W → W → Prop
  rely : ℕ → W → W → Prop
  /-- What holds of a process that is not running. -/
  idle : ℕ → W → Prop
  rely_refl : ∀ p w, rely p w w
  rely_trans : ∀ p {w w' w''}, rely p w w' → rely p w' w'' → rely p w w''
  init : ∀ w, S.init w → inv w ∧ ∀ p, idle p w
  compatible : ∀ p q w w', p ≠ q → inv w → guar p w w' → rely q w w'
  release : ∀ p w, inv w → inv (S.release p w) ∧ idle p (S.release p w) ∧
    ∀ q, q ≠ p → rely q w (S.release p w)
  env : ∀ w w', inv w → S.env w w' → inv w' ∧ ∀ q, rely q w w'
  idle_rely : ∀ p w w', idle p w → rely p w w' → idle p w'
  safe : ∀ p prog w, S.entry p prog → inv w → idle p w →
    prog.wp ⟨rely p, guar p, inv, rely_refl p, rely_trans p⟩ (fun _ _ => True)
      (fun _ _ => True) w

namespace Outline
variable {S} (O : S.Outline)

/-- The contract a process runs under. -/
def contract (p : ℕ) : Contract W := ⟨O.rely p, O.guar p, O.inv, O.rely_refl p, O.rely_trans p⟩

/-- What holds of a process in a world: it is idle, or the rest of its program
keeps its contract from here. -/
def Live (p : ℕ) (t : Option (Prog W ε Unit)) (w : W) : Prop :=
  match t with
  | none => O.idle p w
  | some prog => prog.wp (O.contract p) (fun _ _ => True) (fun _ _ => True) w

theorem Live.rely {p : ℕ} {t : Option (Prog W ε Unit)} {w w' : W} (h : O.Live p t w)
    (hrely : O.rely p w w') : O.Live p t w' := by
  cases t with
  | none => exact O.idle_rely p w w' h hrely
  | some prog => exact Prog.wp_rely h hrely (fun _ => id) (fun _ => id)

/-- The invariant of a configuration. -/
def Holds (c : Config W ε) : Prop := O.inv c.world ∧ ∀ p, O.Live p (c.thread p) c.world

theorem Holds.act {c c' : Config W ε} {p : ℕ} (h : O.Holds c) (acts : Acts p c c') :
    O.guar p c.world c'.world ∧ O.Holds c' := by
  cases acts with
  | act next action =>
      rename_i A k b w
      have hp := h.2 p
      rw [next] at hp
      obtain ⟨hguar, hinv, hk⟩ := hp _ (O.rely_refl p _) h.1 _ _ action
      refine ⟨hguar, hinv, fun q => ?_⟩
      by_cases hq : q = p
      · simpa [hq, Live] using hk
      · simpa [hq] using (h.2 q).rely O (O.compatible p q _ _ (Ne.symm hq) h.1 hguar)

/-- One step keeps the invariant, and changes the world as the process that takes
it promises, as its ending does, or as the outside may. -/
theorem Holds.step {c c' : Config W ε} (h : O.Holds c) (next : S.Step c c') :
    O.Holds c' ∧ (c'.world = c.world ∨ (∃ p, O.guar p c.world c'.world) ∨
      (∃ p, c'.world = S.release p c.world) ∨ S.env c.world c'.world) := by
  cases next with
  | start p prog free entry =>
      have hidle : O.idle p c.world := by simpa [Live, free] using h.2 p
      refine ⟨⟨h.1, fun q => ?_⟩, .inl rfl⟩
      by_cases hq : q = p
      · subst hq
        simp only [Live, if_true]
        exact O.safe q prog c.world entry h.1 hidle
      · simpa [hq] using h.2 q
  | act p acts =>
      obtain ⟨hguar, hc'⟩ := h.act O acts
      exact ⟨hc', .inr (.inl ⟨p, hguar⟩)⟩
  | stop p live =>
      obtain ⟨hinv, hidle, hrely⟩ := O.release p c.world h.1
      refine ⟨⟨hinv, fun q => ?_⟩, .inr (.inr (.inl ⟨p, rfl⟩))⟩
      by_cases hq : q = p
      · subst hq
        simpa [Live] using hidle
      · simpa [hq] using (h.2 q).rely O (hrely q hq)
  | env change =>
      obtain ⟨hinv, hrely⟩ := O.env c.world _ h.1 change
      exact ⟨⟨hinv, fun q => (h.2 q).rely O (hrely q)⟩, .inr (.inr (.inr change))⟩

theorem Holds.initial {c : Config W ε} (h : S.Initial c) : O.Holds c := by
  obtain ⟨hinv, hidle⟩ := O.init c.world h.1
  refine ⟨hinv, fun p => ?_⟩
  simpa [Live, h.2 p] using hidle p

theorem holds {c : Config W ε} (h : S.Reachable c) : O.Holds c := by
  induction h with
  | init h => exact Holds.initial O h
  | step _ next ih => exact (ih.step O next).1

/-- What every action, ending and outside change keeps from one world to the next
holds between any two moments of a run. -/
theorem run_induction (r : S.Run) {T : W → W → Prop} (refl : ∀ w, T w w)
    (trans : ∀ w w' w'', T w w' → T w' w'' → T w w'')
    (guar : ∀ p w w', O.inv w → O.inv w' → O.guar p w w' → T w w')
    (release : ∀ p w, O.inv w → T w (S.release p w))
    (env : ∀ w w', O.inv w → S.env w w' → T w w') {i j : ℕ} (hij : i ≤ j) :
    T (r.config i).world (r.config j).world := by
  induction hij with
  | refl => exact refl _
  | @step n _ ih =>
      refine trans _ _ _ ih ?_
      have hn := O.holds (r.reachable S n)
      cases r.step n with
      | inr h => rw [Nat.succ_eq_add_one, h]; exact refl _
      | inl h =>
          have hn' := hn.step O h
          rcases hn'.2 with heq | ⟨p, hp⟩ | ⟨p, hp⟩ | henv
          · rw [Nat.succ_eq_add_one, heq]; exact refl _
          · exact guar p _ _ hn.1 hn'.1.1 hp
          · rw [Nat.succ_eq_add_one, hp]; exact release p _ hn.1
          · exact env _ _ hn.1 henv

end Outline
end System
