import TranspileBench.Lsf.Orchestration

/-!
What holds in every run of the orchestration: nothing is decided or cleaned while a job may
still run, and a job stops counting as live only on evidence that it ended.
-/
namespace TranspileBench.Lsf
open Coordinator Evaluator

/-! ## One step -/

section Step
variable {n n' : Notes} {e : Entry}

/-- Entries are never removed, and keep what identifies them. -/
theorem Step.persists (step : Step n n') (h : Sound n) (he : e ∈ n.ledger.jobs) :
    ∃ e' ∈ n'.ledger.jobs, e'.identity = e.identity := by
  cases step with
  | account jobs _ => exact ⟨e, jobs ▸ he, rfl⟩
  | entry found step =>
      refine ⟨_, List.mem_map_of_mem he, ?_⟩
      rcases h.update_cases found step e he with heq | hstep
      · rw [heq]
      · exact hstep.identity
  | reserve reserved =>
      obtain ⟨-, rfl⟩ := Ledger.reserve_eq reserved
      exact ⟨e, List.mem_append_left _ he, rfl⟩
  | resume | submitted | reported | seen | decided | cleaned => exact ⟨e, he, rfl⟩

/-- What comes new into the ledger was reserved, as it was due. -/
theorem Step.reserved_cases (step : Step n n') (h : Sound n) {x : Entry}
    (hx : x ∈ n'.ledger.jobs) :
    (∃ y ∈ n.ledger.jobs, y.identity = x.identity) ∨
      x.epoch = n.ledger.epoch ∧ (x.stage = .manager ∨ Reservable n.ledger x.stage x.attempt) := by
  cases step with
  | account jobs _ => exact .inl ⟨x, jobs ▸ hx, rfl⟩
  | entry found step =>
      obtain ⟨y, hy, rfl⟩ := Ledger.mem_update hx
      refine .inl ⟨y, hy, ?_⟩
      rcases h.update_cases found step y hy with heq | hstep
      · rw [heq]
      · exact hstep.identity.symm
  | reserve reserved _ _ _ due =>
      obtain ⟨-, rfl⟩ := Ledger.reserve_eq reserved
      rcases List.mem_append.mp hx with hx | hx
      · exact .inl ⟨x, hx, rfl⟩
      · obtain rfl := List.mem_singleton.mp hx
        exact .inr ⟨rfl, due⟩
  | resume | submitted | reported | seen | decided | cleaned => exact .inl ⟨x, hx, rfl⟩

/-- What a step leaves alone while a job is given up but not confirmed to have ended. -/
structure Withheld (n n' : Notes) (stage : Job) : Prop where
  decided : n'.decided = n.decided
  cleaned : n'.cleaned = n.cleaned
  reserved : ∀ x ∈ n'.ledger.jobs, x.stage = stage → ∃ y ∈ n.ledger.jobs, y.identity = x.identity
  submitted : n'.submitted = n.submitted ∨ ∃ x ∈ n.ledger.jobs, ∃ answer,
    n'.submitted = n.submitted ++ [(x.name, answer)] ∧ x.stage ≠ stage ∧ x.stage ≠ .clean

theorem Withheld.refl (n : Notes) (stage : Job) : Withheld n n stage :=
  ⟨rfl, rfl, fun x hx _ => ⟨x, hx, rfl⟩, .inl rfl⟩

theorem Step.withheld (step : Step n n') (h : Sound n) (he : e ∈ n.ledger.jobs)
    (hmanager : e.stage ≠ .manager) (lost : e.status = .unreconciled) :
    Withheld n n' e.stage := by
  have hopen : e.unsettled = true := by simp [Entry.unsettled_iff, lost]
  have reserved : ∀ x ∈ n'.ledger.jobs, x.stage = e.stage →
      ∃ y ∈ n.ledger.jobs, y.identity = x.identity := by
    intro x hx hstage
    refine (step.reserved_cases h hx).resolve_right ?_
    rintro ⟨-, due⟩
    have hquiet := (due.resolve_left fun hm => hmanager (hstage ▸ hm)).quiet e he hstage.symm
    rw [hopen] at hquiet
    cases hquiet
  have loud : ¬ n.ledger.Quiet := by
    intro hquiet
    have hsettled := hquiet e he hmanager
    rw [hopen] at hsettled
    cases hsettled
  cases step with
  | account | entry | reserve | resume | reported | seen => exact ⟨rfl, rfl, reserved, .inl rfl⟩
  | decided quiet => exact absurd quiet loud
  | cleaned quiet => exact absurd quiet loud
  | @submitted x mem hreserved alone answer =>
      have hx : x.unsettled = true := by simp [Entry.unsettled_iff, hreserved]
      have hne : e ≠ x := by
        rintro rfl
        rw [lost] at hreserved
        cases hreserved
      refine ⟨rfl, rfl, reserved, .inr ⟨x, mem, answer, rfl, ?_, ?_⟩⟩
      · exact fun hstage => hne (h.unsettled_unique he mem hstage.symm hmanager hopen hx)
      · intro hclean
        have hsettled := alone hclean e he hne hmanager
        rw [hopen] at hsettled
        cases hsettled

/-- A clean job is submitted where no other job may run. -/
theorem Step.clean_alone (step : Step n n') {name : String} {answer : SubmitOutcome}
    (h : Sound n) (submitted : n'.submitted = n.submitted ++ [(name, answer)])
    (he : e ∈ n.ledger.jobs) (hname : e.name = name) (hclean : e.stage = .clean) :
    ∀ x ∈ n.ledger.jobs, x ≠ e → x.stage ≠ .manager → x.unsettled = false := by
  cases step with
  | @submitted y mem _ alone answer' =>
      have heq := List.append_cancel_left submitted
      simp only [List.cons.injEq, Prod.mk.injEq, and_true] at heq
      obtain rfl := h.name_inj mem he (heq.1.trans hname.symm)
      exact alone hclean
  | _ => exact absurd submitted (by simp)

end Step

/-! ## Runs -/

/-- How a job stands: it may be running, its own job was reported to have ended, every one of
its submissions was refused, or it is given up without being confirmed to have ended. -/
inductive Standing (n : Notes) (e : Entry) : Prop
  | active (status : ACTIVE.contains e.status = true)
  | ended (status : e.status = .terminal) (evidence : Ended n e)
  | rejected (status : e.status = .rejected)
      (answers : n.answers e.name = List.replicate MAX_REJECTIONS .rejected)
  | unreconciled (status : e.status = .unreconciled)

theorem Attested.standing {n : Notes} {e : Entry} (h : Attested n e) : Standing n e := by
  cases hs : e.status with
  | reserved | submitted | ambiguous => exact .active (by simp [hs, ACTIVE])
  | rejected => exact .rejected hs (h.rejected hs)
  | terminal => exact .ended hs (h.terminal hs)
  | unreconciled => exact .unreconciled hs

/-- The history of a run never decides over a live job. -/
structure NeverOverLive (note : ℕ → Notes) : Prop where
  decided : ∀ i, ∀ l ∈ (note i).decided, l.Quiet
  cleaned : ∀ i, ∀ l ∈ (note i).cleaned, l.Quiet
  clean_alone : ∀ i, ∀ e ∈ (note i).ledger.jobs, e.stage = .clean → ∀ answer,
    (note (i + 1)).submitted = (note i).submitted ++ [(e.name, answer)] →
      ∀ x ∈ (note i).ledger.jobs, x ≠ e → x.stage ≠ .manager → x.unsettled = false
  standing : ∀ i j, i ≤ j → ∀ e ∈ (note i).ledger.jobs, e.stage ≠ .manager →
    ∃ e' ∈ (note j).ledger.jobs, e'.identity = e.identity ∧ Standing (note j) e'
  withheld : ∀ i, ∀ e ∈ (note i).ledger.jobs, e.stage ≠ .manager → e.status = .unreconciled →
    Withheld (note i) (note (i + 1)) e.stage

section Run
variable {N H Q : Type} [Arith N] [DecidableEq N] [DecidableEq H] {S : Scheduler Q}
variable {platform : Platform N H} (r : (orchestration S platform).Run)

theorem run_sound (i : ℕ) : Sound (r.config i).world.notes :=
  ((orchestrationOutline.holds (r.reachable _ i))).1

/-- From one moment to the next the notes stay as they are or take one step. -/
theorem run_step (i : ℕ) : (r.config (i + 1)).world.notes = (r.config i).world.notes ∨
    Step (r.config i).world.notes (r.config (i + 1)).world.notes := by
  rcases r.step i with next | same
  · have holds := orchestrationOutline.holds (r.reachable _ i)
    rcases (holds.step _ next).2 with heq | ⟨p, hguar⟩ | ⟨p, hreleased⟩ | ⟨s, q, o, v, henv⟩
    · exact .inl (by rw [heq])
    · exact hguar.1.imp_right And.right
    · exact .inl (by rw [hreleased]; rfl)
    · exact .inl (by rw [henv]; rfl)
  · exact .inl (by rw [same])

theorem run_persists {i j : ℕ} (hij : i ≤ j) {e : Entry}
    (he : e ∈ (r.config i).world.notes.ledger.jobs) :
    ∃ e' ∈ (r.config j).world.notes.ledger.jobs, e'.identity = e.identity := by
  induction hij with
  | refl => exact ⟨e, he, rfl⟩
  | @step j _ ih =>
      obtain ⟨x, hx, hidentity⟩ := ih
      rcases run_step r j with heq | step
      · exact ⟨x, heq ▸ hx, hidentity⟩
      · obtain ⟨e', he', hstep⟩ := step.persists (run_sound r j) hx
        exact ⟨e', he', hstep.trans hidentity⟩

/-- Whatever the scheduler answers, wherever the managers are killed and whenever they are
started again, none decides or cleans while a job may still run. -/
theorem never_decides_over_live : NeverOverLive fun i => (r.config i).world.notes where
  decided i := (run_sound r i).decided
  cleaned i := (run_sound r i).cleaned
  clean_alone i e he hclean answer hsubmitted := by
    rcases run_step r i with heq | step
    · rw [heq] at hsubmitted
      exact absurd hsubmitted (by simp)
    · exact step.clean_alone (run_sound r i) hsubmitted he rfl hclean
  standing i j hij e he hmanager := by
    obtain ⟨e', he', hidentity⟩ := run_persists r hij he
    have hstage : e'.stage = e.stage := congrArg (·.2.1) hidentity
    have hv := (run_sound r j).attested e' he' (hstage ▸ hmanager)
    exact ⟨e', he', hidentity, hv.standing⟩
  withheld i e he hmanager lost := by
    rcases run_step r i with heq | step
    · rw [heq]
      exact .refl _ _
    · exact step.withheld (run_sound r i) he hmanager lost

end Run
end TranspileBench.Lsf
