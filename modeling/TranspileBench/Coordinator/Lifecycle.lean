import TranspileBench.Coordinator.Holding

/-!
An invocation of a stage keeps its contract: it starts only behind final prerequisites
and an open gate, and each state it writes may follow the one before.
-/
namespace TranspileBench.Coordinator
open Evaluator

variable {N H α β : Type}

/-- What is read of a final stage stays so. -/
theorem Stable.and_stage {p : Nat} {A : World N H → Prop} {P : StageFiles N → Prop}
    (stable : Stable p A) (t : Stage)
    (final : ∀ w, A w → w.Final t) : Stable p fun w => A w ∧ P (w.stages t) :=
  fun w w' h hrely => ⟨stable w w' h.1 hrely, by rw [hrely.extend.final t (final w h.1)]; exact h.2⟩

theorem committedRows_eq_nil {state : Option StageState} {evidence : List (Record N)} {s : Stage}
    (h : isCommitted state = false) : committedRows s state evidence = [] := by
  cases state with
  | none => rfl
  | some st =>
      simp only [isCommitted, Option.any_some, Bool.or_eq_false_iff, beq_eq_false_iff_ne] at h
      simp [committedRows, h.1, h.2]

section Preconditions
variable [Arith N] {platform : Platform N H} {p : Nat} {s : Stage} {A : World N H → Prop}
  {w : World N H} {view : Run N} {previous : Option StageState} {checked : List Stage}

/-- The committed evidence of a final stage, read in two steps. -/
theorem wp_committedEvidence {t : Stage} (stable : Stable p A) (final : ∀ w, A w → w.Final t)
    (h : A w) :
    (committedEvidence t).wp (sessionContract platform p)
      (fun rows w => A w ∧ rows = w.committed t) (fun _ => A) w := by
  unfold committedEvidence
  rw [Prog.wp_bind]
  refine wp_readFile stable h (fun w₁ _ h₁ => ?_) fun _ _ _ h₁ => h₁
  have hread := stable.and_stage (P := fun f => (w₁.stages t).state = f.state) t final
  split_ifs with hcommitted
  · rw [Prog.wp_bind]
    refine wp_readFile hread ⟨h₁, rfl⟩ (fun w₂ _ h₂ => ?_) fun _ _ _ h₂ => h₂.1
    exact ⟨h₂.1, by rw [h₂.2]; rfl⟩
  · exact ⟨h₁, (committedRows_eq_nil (by simpa using hcommitted)).symm⟩

/-- `cost_due` of three final stages, read file by file. -/
theorem wp_costDue (stable : Stable p A) (compile : ∀ w, A w → w.Final .compile)
    (quality : ∀ w, A w → w.Final .quality) (correctness : ∀ w, A w → w.Final .correctness)
    (h : A w) :
    (costDue platform view).wp (sessionContract platform p)
      (fun due w => A w ∧ w.costDue platform view = .ok due) (fun _ => A) w := by
  unfold costDue
  rw [Prog.wp_bind]
  refine wp_readFile stable h (fun w₁ _ h₁ => ?_) fun _ _ _ h₁ => h₁
  let file := (w₁.stages .quality).observations
  have stable₁ := stable.and_stage (P := fun f => f.observations = file) .quality quality
  rw [Prog.wp_bind, wp_ofExcept]
  refine ⟨fun rows hrows => ?_, fun _ _ => h₁⟩
  rw [Prog.wp_bind]
  refine Prog.wp_mono (wp_committedEvidence stable₁ (fun w hw => compile w hw.1) ⟨h₁, rfl⟩) ?_
    fun _ _ h => h.1
  rintro rows₁ w₂ ⟨h₂, hrows₁⟩
  have stable₂ : Stable p fun w : World N H => (A w ∧ (w.stages .quality).observations = file) ∧
      rows₁ = w.committed .compile :=
    stable₁.and_stage (P := fun f => rows₁ = committedRows .compile f.state f.evidence) .compile
      fun w hw => compile w hw.1
  rw [Prog.wp_bind]
  refine Prog.wp_mono (wp_committedEvidence stable₂ (fun w hw => quality w hw.1.1) ⟨h₂, hrows₁⟩)
    ?_ fun _ _ h => h.1.1
  rintro rows₂ w₃ ⟨h₃, hrows₂⟩
  have stable₃ : Stable p fun w : World N H => ((A w ∧ (w.stages .quality).observations = file) ∧
      rows₁ = w.committed .compile) ∧ rows₂ = w.committed .quality :=
    stable₂.and_stage (P := fun f => rows₂ = committedRows .quality f.state f.evidence) .quality
      fun w hw => quality w hw.1.1
  rw [Prog.wp_bind]
  refine Prog.wp_mono (wp_committedEvidence stable₃ (fun w hw => correctness w hw.1.1.1)
    ⟨h₃, hrows₂⟩) ?_ fun _ _ h => h.1.1.1
  rintro rows₃ w₄ ⟨⟨⟨⟨h₄, hfile⟩, hcompile⟩, hquality⟩, hcorrectness⟩
  rw [wp_ofExcept]
  refine ⟨fun due hdue => ⟨h₄, ?_⟩, fun _ _ => h₄⟩
  rw [World.costDue, hfile, hrows, ← hcompile, ← hquality, ← hcorrectness]
  exact hdue

/-- Every prerequisite is final when all have been looked at. -/
theorem wp_requireFinals {needed : List Stage}
    (h : Opened platform p s view previous checked w) :
    (Prog.each (requireFinal s) needed).wp (sessionContract platform p)
      (fun _ => Opened platform p s view previous (checked ++ needed))
      (fun _ w => Holding p s w) w := by
  refine Prog.wp_mono (Prog.wp_each (fun todo w => ∃ done, done ++ todo = needed ∧
    Opened platform p s view previous (checked ++ done) w) ?_ ⟨[], rfl, by simpa using h⟩) ?_
    fun _ _ he => he
  · rintro q todo w ⟨done, hdone, hw⟩
    unfold requireFinal
    rw [Prog.wp_bind]
    refine wp_readFile (Opened.stable platform p s view previous _) hw (fun w₁ _ h₁ => ?_)
      fun _ _ _ h₁ => h₁.toHolding
    split_ifs with hfinal
    · refine ⟨done ++ [q], by simpa using hdone, h₁.toEntered, h₁.shows, fun t ht => ?_⟩
      rw [← List.append_assoc, List.mem_append, List.mem_singleton] at ht
      rcases ht with ht | rfl
      · exact h₁.checked t ht
      · exact World.final_iff.mpr hfinal
    · exact h₁.toHolding
  · rintro _ w ⟨done, hdone, hw⟩
    rw [List.append_nil] at hdone
    exact hdone ▸ hw

/-- Why a stage is about to be skipped. -/
structure Refused (platform : Platform N H) (p : Nat) (s : Stage) (view : Run N)
    (previous : Option StageState) (w : World N H) : Prop
    extends Opened platform p s view previous (PREREQUISITES s) w where
  gated : s ∈ GATED
  why : w.GateClosed ∨ (s = .cost ∧ (w.Final .compile ∧ w.Final .quality) ∧
    w.status .correctness = some .complete ∧ w.costDue platform view = .ok none)

theorem Refused.stable (platform : Platform N H) (p : Nat) (s : Stage) (view : Run N)
    (previous : Option StageState) : Stable p (Refused platform p s view previous) := by
  intro w w' h hrely
  refine ⟨Opened.stable platform p s view previous _ _ _ h.toOpened hrely, h.gated, ?_⟩
  rcases h.why with hclosed | ⟨hs, ⟨hcompile, hquality⟩, hcorrect, hdue⟩
  · exact .inl (hrely.extend.gateClosed hclosed)
  · have hfinal := World.final_of_status hcorrect
    refine .inr ⟨hs, ⟨hrely.extend.keeps hcompile, hrely.extend.keeps hquality⟩,
      (hrely.extend.status hfinal).trans hcorrect, ?_⟩
    rw [hrely.extend.costDue hcompile hquality hfinal, hdue]

theorem Refused.skippable (h : Refused platform p s view previous w) : w.Skippable platform s := by
  rcases h.why with hclosed | ⟨hs, -, hcorrect, hdue⟩
  · exact .inl hclosed
  · obtain ⟨run, hrun, hprofile, -⟩ := h.shows
    exact .inr ⟨hs, hcorrect, run, view, hrun, hprofile.symm, hdue⟩

/-- A final quality stage is complete: it is never skipped. -/
theorem Inv.quality_complete (h : Inv platform w) (final : w.Final .quality) :
    ∃ st, (w.stages .quality).state = some st ∧ st.status = .complete := by
  obtain ⟨status, hfinal, hstatus⟩ := final
  cases hst : (w.stages .quality).state with
  | none => simp [World.status, hst] at hstatus
  | some st =>
      refine ⟨st, rfl, ?_⟩
      obtain rfl : st.status = status := by simpa [World.status, hst] using hstatus
      simp only [FINAL, List.mem_cons, List.not_mem_nil, or_false] at hfinal
      refine hfinal.resolve_right fun hskip => ?_
      exact absurd ((h.stage .quality).skipped st hst hskip).1 (by decide)

theorem Inv.correctness_complete (h : Inv platform w) (final : w.Final .correctness)
    (gate : w.GateOpen) : w.status .correctness = some .complete := by
  obtain ⟨status, hfinal, hstatus⟩ := final
  simp only [FINAL, List.mem_cons, List.not_mem_nil, or_false] at hfinal
  rcases hfinal with rfl | rfl
  · exact hstatus
  · cases hst : (w.stages .correctness).state with
    | none => simp [World.status, hst] at hstatus
    | some st =>
        have hskip : st.status = .skipped := by simpa [World.status, hst] using hstatus
        obtain ⟨-, -, hclosed | ⟨hs, -⟩⟩ := (h.stage .correctness).skipped st hst hskip
        · obtain ⟨st₁, hst₁, -, hopen⟩ := gate
          obtain ⟨st₂, reason, hst₂, -, hgate⟩ := hclosed
          obtain rfl : st₁ = st₂ := Option.some.inj (hst₁.symm.trans hst₂)
          exact absurd hgate (hopen reason)
        · cases hs

theorem Opened.admitted (h : Opened platform p s view previous (PREREQUISITES s) w)
    (gate : s ∈ GATED → w.GateOpen) (cost : s = .cost → (w.Final .compile ∧ w.Final .quality) ∧
      w.status .correctness = some .complete ∧ ∃ due, w.costDue platform view = .ok (some due)) :
    Admitted platform p s view previous w :=
  ⟨h.toEntered, h.shows, ⟨h.checked, gate, fun hs => (cost hs).2.1⟩, fun hs => (cost hs).1,
    fun hs => (cost hs).2.2⟩

/-- Whether a stage is skipped, and why. -/
def Judges (platform : Platform N H) (p : Nat) (s : Stage) (view : Run N)
    (previous : Option StageState) (reason : Option String) (w : World N H) : Prop :=
  if reason.isSome then Refused platform p s view previous w
  else Admitted platform p s view previous w

/-- Cost is skipped when correctness found a failure. -/
theorem wp_costSkipReason (hinv : Inv platform w) (gate : w.GateOpen)
    (h : Opened platform p .cost view previous (PREREQUISITES .cost) w) :
    (costSkipReason platform view).wp (sessionContract platform p)
      (fun reason => Judges platform p .cost view previous reason) (fun _ w => Holding p .cost w)
      w := by
  have hcorrect := h.checked .correctness (by decide)
  obtain ⟨hcompile, hquality⟩ := final_before hinv.stage hcorrect
  have stable : Stable p fun w => Opened platform p .cost view previous (PREREQUISITES .cost) w ∧
      w.GateOpen ∧ w.Final .compile ∧ w.status .correctness = some .complete := by
    rintro w w' ⟨hw, hgate, hfinal, hstatus⟩ hrely
    exact ⟨Opened.stable platform p .cost view previous _ _ _ hw hrely,
      hrely.extend.gateOpen hgate, hrely.extend.keeps hfinal,
      (hrely.extend.status (World.final_of_status hstatus)).trans hstatus⟩
  unfold costSkipReason
  rw [Prog.wp_bind]
  refine wp_readFile stable ⟨h, gate, hcompile, hinv.correctness_complete hcorrect gate⟩
    (fun w₁ _ h₁ => ?_) fun _ _ _ h₁ => h₁.1.toHolding
  split_ifs with hcomplete
  · rw [Prog.wp_bind]
    refine Prog.wp_mono (wp_costDue stable (fun _ hw => hw.2.2.1) (fun _ hw => hw.2.1.final)
      (fun _ hw => World.final_of_status hw.2.2.2) h₁) ?_ fun _ _ he => he.1.toHolding
    rintro due w₂ ⟨⟨h₂, hgate, hcompile, hstatus⟩, hdue⟩
    cases due with
    | none =>
        exact ⟨h₂, by decide, .inr ⟨rfl, ⟨hcompile, hgate.final⟩, hstatus, hdue⟩⟩
    | some due =>
        exact h₂.admitted (fun _ => hgate) fun _ => ⟨⟨hcompile, hgate.final⟩, hstatus, due, hdue⟩
  · obtain ⟨-, -, -, hstatus⟩ := h₁
    cases hst : (w₁.stages .correctness).state with
    | none => simp [World.status, hst] at hstatus
    | some st =>
        obtain hst' : st.status = .complete := by simpa [World.status, hst] using hstatus
        simp [isComplete, hst, hst'] at hcomplete

/-- The recorded gate decides first; only cost asks further. -/
theorem wp_skipReason (gated : s ∈ GATED)
    (h : Opened platform p s view previous (PREREQUISITES s) w) :
    (skipReason platform s view).wp (sessionContract platform p)
      (fun reason => Judges platform p s view previous reason) (fun _ w => Holding p s w) w := by
  unfold skipReason
  rw [Prog.wp_bind]
  refine wp_readFile (Opened.stable platform p s view previous _) h (fun w₁ hinv h₁ => ?_)
    fun _ _ _ h₁ => h₁.toHolding
  have hfinal : w₁.Final .quality := by
    have hpre := h₁.checked
    cases s with
    | compile | quality => exact absurd gated (by decide)
    | correctness | unit_tests => exact hpre .quality (by decide)
    | cost => exact (final_before hinv.stage (hpre .correctness (by decide))).2
  obtain ⟨st, hst, hcomplete⟩ := hinv.quality_complete hfinal
  rw [hst, if_pos (by simp [isComplete, hcomplete]), Option.bind_some]
  have hopen : (∀ reason, st.gate ≠ some (.closed, reason)) → w₁.GateOpen := fun hgate =>
    ⟨st, hst, hcomplete, hgate⟩
  split
  · rename_i reason hgate
    exact ⟨h₁, gated, .inl ⟨st, reason, hst, hcomplete, hgate⟩⟩
  · rename_i hgate
    have gate := hopen hgate
    split_ifs with hs
    · subst hs
      exact wp_costSkipReason hinv gate h₁
    · exact h₁.admitted (fun _ => gate) fun hcost => absurd hcost hs

theorem wp_gatedReason (h : Opened platform p s view previous (PREREQUISITES s) w) :
    (gatedReason platform s view).wp (sessionContract platform p)
      (fun reason => Judges platform p s view previous reason) (fun _ w => Holding p s w) w := by
  unfold gatedReason
  split_ifs with hgated
  · exact wp_skipReason (by simpa using hgated) h
  · have hnot : s ∉ GATED := by simpa using hgated
    refine h.admitted (fun hs => absurd hs hnot) fun hs => absurd ?_ hnot
    rw [hs]
    decide

/-- Skipping a refused stage is its last step. -/
theorem wp_skip {reason : String} (live : isFinal previous = false)
    (h : Refused platform p s view previous w) :
    (skip s previous reason).wp (sessionContract platform p) (fun _ => Holding p s)
      (fun _ => Holding p s) w := by
  unfold skip writeState
  rw [Prog.wp_bind]
  refine wp_write (Refused.stable platform p s view previous) h (fun w₁ hinv h₁ => ?_)
    (fun w₁ _ h₁ => ?_) fun _ _ _ h₁ => h₁.toHolding
  · refine .write w₁ s _ (hinv.stateStep h₁.toHolding h₁.clean h₁.shows.created ?_ ?_
      (absurd rfl) (fun _ => ⟨h₁.gated, h₁.checked, h₁.skippable⟩) ?_ ?_ ?_)
    · rw [World.final_iff, h₁.state, live]
      decide
    · exact .inr (.inl ⟨rfl, by rw [h₁.state]; rfl⟩)
    all_goals exact fun heq => by cases heq
  · exact keeps_ask (Holding.stable p s) _ h₁.toHolding.setStage

theorem wp_requireStore (h : Opened platform p s view previous checked w) :
    (requireStore s view).wp (sessionContract platform p)
      (fun _ => Opened platform p s view previous checked) (fun _ => Holding p s) w := by
  unfold requireStore
  split_ifs
  · exact h
  · exact h.toHolding
  · split
    · exact h.toHolding
    · exact wp_ask (Opened.stable platform p s view previous _) h (fun _ _ _ h₁ => h₁)
        fun _ _ _ h₁ => h₁.toHolding

theorem wp_checkHost (h : Admitted platform p s view previous w) :
    (checkHost s).wp (sessionContract platform p)
      (fun _ => Admitted platform p s view previous) (fun _ => Holding p s) w := by
  unfold checkHost
  split_ifs
  · exact h
  · exact wp_ask (Admitted.stable platform p s view previous) h (fun _ _ _ h₁ => h₁)
      fun _ _ _ h₁ => h₁.toHolding

/-- An invocation passes the preconditions only when it is admitted. -/
theorem wp_preconditions (live : isFinal previous = false)
    (h : Opened platform p s view previous [] w) :
    (preconditions platform s view previous).wp (sessionContract platform p)
      (fun ended w => if ended then Holding p s w else Admitted platform p s view previous w)
      (fun _ => Holding p s) w := by
  unfold preconditions
  rw [Prog.wp_bind]
  refine Prog.wp_mono (wp_requireFinals h) (fun _ w₁ h₁ => ?_) fun _ _ he => he
  rw [Prog.wp_bind]
  refine Prog.wp_mono (wp_requireStore h₁) (fun _ w₂ h₂ => ?_) fun _ _ he => he
  rw [Prog.wp_bind]
  refine Prog.wp_mono (wp_gatedReason h₂) (fun reason w₃ h₃ => ?_) fun _ _ he => he
  cases reason with
  | some reason =>
      change ((skip s previous reason) >>= _).wp _ _ _ _
      rw [Prog.wp_bind]
      exact Prog.wp_mono (wp_skip live h₃) (fun _ _ h₄ => h₄) fun _ _ he => he
  | none =>
      change ((checkHost s) >>= _).wp _ _ _ _
      rw [Prog.wp_bind]
      exact Prog.wp_mono (wp_checkHost h₃) (fun _ _ h₄ => h₄) fun _ _ he => he

end Preconditions

end TranspileBench.Coordinator
