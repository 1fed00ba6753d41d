import TranspileBench.Lsf.LiveJobs

/-!
The retry protocol over whole runs: the budget of an epoch, what may follow a cost job, one
live job of a stage at a time, and the numbers of the attempts.
-/
namespace TranspileBench.Lsf
open Coordinator Evaluator

/-- The scheduler may still run a job under the entry's name: not all of its submissions were
refused, and its own job was not reported to have ended. -/
def Notes.MayLive (n : Notes) (e : Entry) : Prop :=
  n.answers e.name ≠ List.replicate MAX_REJECTIONS .rejected ∧ ¬ Ended n e

/-- What a new cost entry follows: nothing of its epoch, or a noisy end with the highest
number there. -/
def Follows (n : Notes) (epoch : ℕ) : Prop :=
  (∀ x ∈ n.ledger.jobs, x.stage = .cost → x.epoch = epoch → x.status = .rejected) ∨
    ∃ x ∈ n.ledger.jobs, x.stage = .cost ∧ x.epoch = epoch ∧ x.status = .terminal ∧
      x.outcome.map (·.kind) = some .noisy ∧ Contaminated n x ∧
      ∀ y ∈ n.ledger.jobs, y.stage = .cost → y.epoch = epoch → y.status ≠ .rejected →
        y.attempt.getD 0 ≤ x.attempt.getD 0

/-- The history of a run keeps to the retry protocol. -/
structure RetryProtocol (note : ℕ → Notes) : Prop where
  budget : ∀ i epoch, (note i).ledger.jobs.countP (·.consumes epoch) ≤ MAX_COST_ATTEMPTS
  follows : ∀ i, ∀ e ∈ (note (i + 1)).ledger.jobs, e.stage = .cost →
    (∀ x ∈ (note i).ledger.jobs, x.key ≠ e.key) →
      e.epoch = (note i).ledger.epoch ∧ Follows (note i) e.epoch
  known : ∀ i, ∀ x ∈ (note i).submitted, ∃ e ∈ (note i).ledger.jobs, e.name = x.1
  live : ∀ i, ∀ e ∈ (note i).ledger.jobs, ∀ e' ∈ (note i).ledger.jobs, e.stage ≠ .manager →
    e.stage = e'.stage → (note i).MayLive e → (note i).MayLive e' → e = e'
  once : ∀ i, ∀ e ∈ (note i).ledger.jobs, ∀ e' ∈ (note i).ledger.jobs, e.stage ≠ .manager →
    e.stage ≠ .cost → e.stage = e'.stage → e.epoch = e'.epoch → e.status ≠ .rejected →
      e'.status ≠ .rejected → e = e'
  rising : ∀ i, (note i).ledger.jobs.Pairwise fun a b => a.epoch ≤ b.epoch ∧
    (a.stage = .cost → b.stage = .cost → a.attempt.getD 0 < b.attempt.getD 0)
  budgetUsed : ∀ i, (note i).ledger.budgetUsed ≤ MAX_COST_ATTEMPTS

section Sound
variable {n : Notes} {e e' : Entry}

theorem Sound.unsettled_of_mayLive (h : Sound n) (he : e ∈ n.ledger.jobs)
    (hmanager : e.stage ≠ .manager) (hlive : n.MayLive e) : e.unsettled = true := by
  have hv := h.attested e he hmanager
  rw [Entry.unsettled_iff]
  exact ⟨fun hs => hlive.2 (hv.terminal hs), fun hs => hlive.1 (hv.rejected hs)⟩

theorem Sound.once (h : Sound n) (he : e ∈ n.ledger.jobs) (he' : e' ∈ n.ledger.jobs)
    (hmanager : e.stage ≠ .manager) (hcost : e.stage ≠ .cost) (hstage : e.stage = e'.stage)
    (hepoch : e.epoch = e'.epoch) (hs : e.status ≠ .rejected) (hs' : e'.status ≠ .rejected) :
    e = e' := by
  by_contra hne
  rcases h.ordered_or he he' hne with ho | ho
  · exact hs (ho.once hstage hmanager hcost hepoch)
  · exact hs' (ho.once hstage.symm (hstage ▸ hmanager) (hstage ▸ hcost) hepoch.symm)

/-- A cost job that is due follows nothing, or a verified contamination. -/
theorem Reservable.follows {attempt : Option ℕ} (h : Sound n)
    (due : Reservable n.ledger .cost attempt) : Follows n n.ledger.epoch := by
  refine (due.noisy rfl).imp_right ?_
  rintro ⟨x, hx, hstage, hepoch, hterminal, hnoisy, hgreatest⟩
  have hmanager : x.stage ≠ .manager := by
    rw [hstage]
    decide
  have hcontaminated := ((h.attested x hx hmanager).noisy hnoisy).2
  exact ⟨x, hx, hstage, hepoch, hterminal, hnoisy, hcontaminated, hgreatest⟩

end Sound

section Run
variable {N H Q : Type} [Arith N] [DecidableEq N] [DecidableEq H] {S : Scheduler Q}
variable {platform : Platform N H} (r : (orchestration S platform).Run)

/-- Whatever the scheduler answers and however the jobs end, across kills and new managers. -/
theorem retry_protocol : RetryProtocol fun i => (r.config i).world.notes where
  budget i := (run_sound r i).budget
  follows i e he hstage hnew := by
    have hsound := run_sound r i
    rcases run_step r i with heq | step
    · rw [heq] at he
      exact absurd rfl (hnew e he)
    · rcases step.reserved_cases hsound he with ⟨y, hy, hidentity⟩ | ⟨hepoch, due⟩
      · exact absurd (congrArg (·.1) hidentity) (hnew y hy)
      · rw [hstage] at due
        refine ⟨hepoch, ?_⟩
        rw [hepoch]
        exact Reservable.follows hsound (due.resolve_left (by decide))
  known i := (run_sound r i).known
  live i e he e' he' hmanager hstage hlive hlive' := by
    have hsound := run_sound r i
    exact hsound.unsettled_unique he he' hstage hmanager
      (hsound.unsettled_of_mayLive he hmanager hlive)
      (hsound.unsettled_of_mayLive he' (hstage ▸ hmanager) hlive')
  once i e he e' he' hmanager hcost hstage hepoch hs hs' :=
    (run_sound r i).once he he' hmanager hcost hstage hepoch hs hs'
  rising i := (run_sound r i).ordered.imp fun h => ⟨h.epoch, h.rising⟩
  budgetUsed i := by
    rw [Ledger.budgetUsed_eq]
    exact (run_sound r i).budget _

end Run
end TranspileBench.Lsf
