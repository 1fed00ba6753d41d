import TranspileBench.Lsf.Keeping

/-!
The pipeline under the lock: what is known of the ledger when a job is reserved, submitted,
decided over or cleaned after, and that a whole invocation takes only steps of the ledger.
-/
namespace TranspileBench.Lsf
open Coordinator Evaluator

variable {N H Q : Type} {p : ℕ} {n : Notes} {S : Scheduler Q} {watch : Watch}

/-! ## Submitting -/

/-- A reserved job, with nothing but rejections of its submissions so far. -/
structure Submitting (n : Notes) (r : Request) (rejections : ℕ) (e : Entry) : Prop where
  found : n.ledger.job r.key = some e
  reserved : e.status = .reserved
  name : r.name = e.name
  answers : n.answers e.name = List.replicate rejections .rejected
  alone : e.stage = .clean →
    ∀ x ∈ n.ledger.jobs, x ≠ e → x.stage ≠ .manager → x.unsettled = false

theorem runs_submitJob {r : Request} {e : Entry} {R : SubmitOutcome → Notes → Prop}
    (mem : e ∈ n.ledger.jobs) (reserved : e.status = .reserved) (name : r.name = e.name)
    (alone : e.stage = .clean →
      ∀ x ∈ n.ledger.jobs, x ≠ e → x.stage ≠ .manager → x.unsettled = false)
    (h : ∀ answer, R answer { n with submitted := n.submitted ++ [(e.name, answer)] }) :
    (lockView p).Runs (submitJob S r : Prog (Cluster N H Q) Halt _) n R := by
  refine .perform ?_
  rintro w answer _ hw rfl ⟨q, -, rfl⟩
  have hnotes : Cluster.notes { w with
      queue := q
      site := { w.site with submitted := w.site.submitted ++ [(r.name, answer)] } } =
      { w.notes with submitted := w.notes.submitted ++ [(e.name, answer)] } := by
    rw [name]
    rfl
  refine ⟨hw, .inr ?_, ?_⟩
  · change Step w.notes (Cluster.notes _)
    rw [hnotes]
    exact .submitted mem reserved alone answer
  · change R answer (Cluster.notes _)
    rw [hnotes]
    exact h answer

/-- The submissions of a job that is reserved. -/
theorem runs_submitReserved {r : Request} (left : ℕ) {rejections : ℕ} {e : Entry}
    (h : Submitting n r rejections e) (limit : rejections + left = MAX_REJECTIONS) :
    (lockView p).Runs (submitReserved S r left : Prog (Cluster N H Q) Halt _) n
      fun _ _ => True := by
  induction left generalizing n rejections with
  | zero =>
      obtain rfl : rejections = MAX_REJECTIONS := limit
      obtain ⟨mem, hkey⟩ := Ledger.mem_of_job h.found
      have step : EntryStep n e { e with status := .rejected } := .rejected h.reserved h.answers
      have found : n.ledger.job e.key = some e := hkey ▸ h.found
      unfold submitReserved
      rw [← hkey]
      exact .bind (runs_save (.entry found step) (.pure _ trivial))
  | succ left ih =>
      obtain ⟨mem, hkey⟩ := Ledger.mem_of_job h.found
      refine .bind (runs_submitJob mem h.reserved h.name h.alone fun answer => ?_)
      have found : n.ledger.job e.key = some e := hkey ▸ h.found
      cases answer with
      | accepted job_id =>
          dsimp only
          rw [← hkey]
          exact .bind (runs_save (.entry found (.accepted job_id h.reserved)) (.pure _ trivial))
      | ambiguous =>
          dsimp only
          rw [← hkey]
          exact .bind (runs_save (.entry found (.unanswered h.reserved)) (.pure _ trivial))
      | rejected =>
          have next : Submitting { n with submitted := n.submitted ++ [(e.name, .rejected)] } r
              (rejections + 1) e := by
            refine ⟨h.found, h.reserved, h.name, ?_, h.alone⟩
            have hbefore := h.answers
            simp only [Notes.answers] at hbefore ⊢
            rw [List.filter_append, List.map_append, hbefore, List.replicate_succ']
            simp
          exact .bind (runs_account rfl rfl (ih next (by omega)))

/-- The reservation of a job that is due. -/
theorem runs_reserve {r : Request} (name : r.name = jobName n.run_id r.key)
    (due : Reservable n.ledger r.stage r.attempt) (alone : r.stage = .clean → n.ledger.Quiet) :
    (lockView p).Runs (reserve r : Prog (Cluster N H Q) Halt Unit) n
      fun _ n' => ∃ e, Submitting n' r 0 e := by
  refine .sound fun hsound => .bind (.answer fun reserved_at _ => .bind (runs_consult ?_))
  dsimp only [id]
  split
  · exact .throw _
  rename_i reserved hreserved
  obtain ⟨hkey, rfl⟩ := Ledger.reserve_eq hreserved
  set e : Entry := ⟨r.key, r.stage, r.attempt, r.name, n.ledger.epoch, reserved_at, .reserved,
    none, none, none, none, 0⟩ with he
  have step : Step n { n with ledger := { n.ledger with jobs := n.ledger.jobs ++ [e] } } :=
    .reserve hreserved rfl ⟨rfl, rfl⟩ name (.inr due)
  have hsound' := step.sound hsound
  refine runs_save step ⟨e, ⟨?_, rfl, rfl, ?_, fun hclean x hx hne hmanager => ?_⟩⟩
  · exact hsound'.job_of_mem (e := e) (by simp)
  · -- nothing was submitted under the name of a new key
    simp only [Notes.answers, List.replicate_zero, List.map_eq_nil_iff, List.filter_eq_nil_iff]
    intro x hx hname
    obtain ⟨y, hy, hyname⟩ := Sound.known hsound x hx
    rw [Sound.named hsound y hy, beq_iff_eq.mp hname] at hyname
    exact hkey y hy (jobName_inj (hyname.trans name))
  · rcases List.mem_append.mp hx with hx | hx
    · exact alone hclean x hx hmanager
    · exact absurd (List.mem_singleton.mp hx) hne

theorem runs_submit {stage : Job} {attempt : Option ℕ}
    (due : Reservable n.ledger stage attempt) (alone : stage = .clean → n.ledger.Quiet) :
    (lockView p).Runs (submit S stage attempt : Prog (Cluster N H Q) Halt _) n
      fun _ _ => True := by
  refine .bind (.answer fun nonce _ => .bind (runs_consult (.bind (.read fun w _ hw => ?_))))
  refine .bind (.request fun _ _ => .bind (runs_clock fun fits => ?_))
  obtain rfl := hw
  cases fits with
  | false => exact .pure _ trivial
  | true =>
      refine .andThen (runs_reserve rfl due alone) ?_
      rintro _ n' ⟨e, h⟩
      exact runs_submitReserved MAX_REJECTIONS h (Nat.zero_add _)

/-! ## The stages -/

/-- A question to the session leaves the ledger as it is. -/
theorem runs_finished {s : Stage} :
    (lockView p).Runs (finished s : Prog (Cluster N H Q) Halt Bool) n
      fun _ n' => n'.ledger = n.ledger :=
  .bind (runs_stageState fun _ _ => .pure _ rfl)

theorem Stage.toJob_ne_manager (s : Stage) : Stage.toJob s ≠ .manager := by
  cases s <;> decide

theorem Stage.toJob_ne_clean (s : Stage) : Stage.toJob s ≠ .clean := by
  cases s <;> decide

theorem runs_stageJob {s : Stage} (hcost : s ≠ .cost) :
    (lockView p).Runs (stageJob S s : Prog (Cluster N H Q) Halt _) n fun _ _ => True := by
  refine .bind (runs_consult ?_)
  split_ifs with hadopted
  · exact .pure _ trivial
  refine .andThen runs_finished fun final n' hledger => ?_
  by_cases hdone : final = true ∨ (n.ledger.latest (Stage.toJob s)).isSome = true
  · rw [if_pos hdone]
    exact .pure _ trivial
  rw [if_neg hdone]
  have hlatest : n'.ledger.latest (Stage.toJob s) = none := by
    rw [hledger]
    simpa using fun h => hdone (.inr h)
  have hjob : Stage.toJob s ≠ .cost := by
    cases s <;> simp_all [Stage.toJob]
  refine .sound fun hsound => .andThen (runs_submit ?_ ?_) fun _ _ _ => .pure _ trivial
  · exact Sound.reservable_once hsound (Stage.toJob_ne_manager s) hjob hlatest none
  · exact fun h => absurd h (Stage.toJob_ne_clean s)

theorem runs_stageJobs {stages : List Stage} (hcost : ∀ s ∈ stages, s ≠ .cost) :
    (lockView p).Runs (stageJobs S watch stages : Prog (Cluster N H Q) Halt Unit) n
      fun _ _ => True := by
  refine .andThen (View.Runs.fold (fun _ rest _ => ∀ s ∈ rest, s ≠ .cost) ?_ hcost) ?_
  · intro keys s rest n h
    refine .andThen (runs_stageJob (h s List.mem_cons_self)) fun _ _ _ => .pure _ ?_
    exact fun t ht => h t (List.mem_cons_of_mem _ ht)
  · refine fun keys n' _ => .andThen (runs_wait watch.rounds) fun _ n'' _ => ?_
    refine .bind (runs_consult ?_)
    split_ifs
    · exact .throw _
    · exact .pure _ trivial

theorem runs_costJob :
    (lockView p).Runs (costJob S : Prog (Cluster N H Q) Halt _) n fun _ _ => True := by
  refine .bind (runs_consult ?_)
  split_ifs with hallowed hexhausted
  · refine .sound fun hsound => .andThen (runs_submit (Sound.reservable_cost hsound hallowed)
      nofun) fun submitted n' _ => ?_
    cases submitted with
    | ok key => exact .pure _ trivial
    | error reason => exact .bind (runs_account rfl rfl (.pure _ trivial))
  · refine .bind (runs_account ?_ ?_ (.pure _ trivial)) <;>
      (unfold Ledger.recordExhaustion; split_ifs <;> rfl)
  · exact .bind (runs_account rfl rfl (.pure _ trivial))

theorem runs_costLoop (rounds : ℕ) :
    (lockView p).Runs (costLoop S watch rounds : Prog (Cluster N H Q) Halt Unit) n
      fun _ _ => True := by
  induction rounds generalizing n with
  | zero => exact .never
  | succ rounds ih =>
      refine .bind (runs_consult ?_)
      split
      · exact .andThen (runs_wait watch.rounds) fun _ _ _ => ih
      · refine .andThen runs_finished fun final n' _ => ?_
        split_ifs
        · exact .pure _ trivial
        · refine .andThen runs_costJob fun key n'' _ => ?_
          cases key with
          | none => exact .pure _ trivial
          | some key => exact .andThen (runs_wait watch.rounds) fun _ _ _ => ih

theorem runs_whenFinal {s : Stage} {next : Prog (Cluster N H Q) Halt Unit}
    (h : ∀ n, (lockView p).Runs next n fun _ _ => True) :
    (lockView p).Runs (whenFinal s next) n fun _ _ => True := by
  refine .andThen runs_finished fun final n' _ => ?_
  split_ifs
  · exact h n'
  · exact .pure _ trivial

theorem runs_runStages :
    (lockView p).Runs (runStages S watch : Prog (Cluster N H Q) Halt _) n fun _ _ => True := by
  refine .andThen (runs_stageJobs (by decide)) fun _ n' _ => ?_
  refine .bind (runs_inspect fun created => ?_)
  cases created with
  | false => exact .pure _ trivial
  | true =>
      refine .andThen (runs_whenFinal fun _ => runs_stageJobs (by decide)) fun _ n' _ => ?_
      refine .bind (.read fun w _ _ => ?_)
      refine .andThen (runs_whenFinal fun _ => runs_stageJobs ?_) fun _ n'' _ => ?_
      · split_ifs <;> decide
      · exact .andThen (runs_whenFinal fun _ => runs_costLoop _) fun _ _ _ => .pure _ trivial

theorem runs_atDeadline (e : Halt) :
    (lockView p).Runs (atDeadline S watch e : Prog (Cluster N H Q) Halt _) n
      fun _ _ => True := by
  cases e with
  | deadline reason =>
      refine .andThen (runs_cancelOwned _ _) fun _ n' _ => ?_
      exact .bind (runs_inspect fun created => .pure _ trivial)
  | cancelled signum => exact .throw _
  | failed text => exact .throw _

/-! ## The verdict and the cleanup -/

theorem runs_cleanupResult {key : String} :
    (lockView p).Runs (cleanupResult key : Prog (Cluster N H Q) Halt _) n fun _ _ => True :=
  .bind (runs_entryOf fun _ _ => .bind (runs_inspect fun _ => .pure _ trivial))

theorem runs_finishClean {key : String} :
    (lockView p).Runs (finishClean S watch key : Prog (Cluster N H Q) Halt _) n
      fun _ _ => True := by
  have waited : (lockView p).Runs (waitClean S watch key : Prog (Cluster N H Q) Halt _) n
      fun _ _ => True := by
    refine .tryCatch (.andThen (runs_wait _) fun _ _ _ => .pure _ trivial) fun e n' => ?_
    cases e with
    | deadline reason => exact .andThen (runs_cancelOwned _ _) fun _ _ _ => .pure _ trivial
    | cancelled signum => exact .throw _
    | failed text => exact .throw _
  refine .andThen waited fun cut n' _ => ?_
  cases cut with
  | some reason => exact .pure _ trivial
  | none => exact runs_cleanupResult

/-- `clean` is submitted only where nothing else may still run. -/
theorem runs_cleanupJob (quiet : n.ledger.Quiet) :
    (lockView p).Runs (cleanupJob S watch : Prog (Cluster N H Q) Halt _) n fun _ _ => True := by
  refine .bind (runs_consult ?_)
  split
  · split_ifs
    · exact runs_finishClean
    · exact runs_cleanupResult
  · rename_i hlatest
    have step : Step n { n with cleaned := n.cleaned ++ [n.ledger] } := .cleaned quiet
    refine .bind (.modify fun w hw hv => ⟨hw, .inr ?_, ?_⟩)
    · obtain rfl := hv
      exact step
    · obtain rfl := hv
      refine .sound fun hsound => .andThen (runs_submit ?_ fun _ => quiet) fun submitted _ _ => ?_
      · exact Sound.reservable_once hsound (by decide) (by decide) hlatest none
      · cases submitted with
        | error reason => exact .pure _ trivial
        | ok key => exact runs_finishClean

theorem runs_afterDecide {decision : Coordinator.Decision N H} (quiet : n.ledger.Quiet) :
    (lockView p).Runs (afterDecide S watch decision : Prog (Cluster N H Q) Halt _) n
      fun _ _ => True := by
  refine .tryCatch (.bind (runs_inspect fun blocker => ?_)) fun e n' => ?_
  · cases blocker with
    | some reason => exact .pure _ trivial
    | none => exact runs_cleanupJob quiet
  · cases e with
    | cancelled signum => exact .throw _
    | deadline reason => exact .pure _ trivial
    | failed text => exact .pure _ trivial

section Verdict
variable [Arith N] [DecidableEq N] [DecidableEq H] {platform : Platform N H}

/-- `decide` does not touch the ledger. -/
theorem runs_sessionVerdict :
    (lockView p).Runs (sessionVerdict watch platform p : Prog (Cluster N H Q) Halt _) n
      fun _ n' => n' = n := by
  refine .keeps (Prog.Keeps.mapError (Prog.Keeps.zoom (clusterLens.comp sessionLens) ?_ ?_ _))
  · rintro w w' ⟨hw, hv⟩ hrely
    obtain ⟨hw', heq⟩ := hrely hw
    exact ⟨hw', heq.trans hv⟩
  · rintro w v hinv ⟨hw, hv⟩
    exact ⟨⟨.inl rfl, .inl rfl⟩, hinv, hw, hv⟩

/-- `decide` is entered only where nothing may still run. -/
theorem runs_takeVerdict (quiet : n.ledger.Quiet) :
    (lockView p).Runs (takeVerdict S watch platform p : Prog (Cluster N H Q) Halt ℕ) n
      fun _ _ => True := by
  refine .bind (.modify fun w hw hv => ?_)
  obtain rfl := hv
  refine ⟨hw, .inr (.decided quiet), .andThen runs_sessionVerdict ?_⟩
  rintro verdict n' rfl
  cases verdict with
  | error e => exact .bind (runs_account rfl rfl (.pure _ trivial))
  | ok decision =>
      refine .bind (runs_account rfl rfl (.andThen (runs_afterDecide quiet) fun cleanup n' _ => ?_))
      exact .bind (runs_account rfl rfl (.pure _ trivial))

theorem runs_pipeline :
    (lockView p).Runs (pipeline S watch platform p : Prog (Cluster N H Q) Halt ℕ) n
      fun _ _ => True := by
  have early : (lockView p).Runs (tryCatch (runStages S watch) (atDeadline S watch) :
      Prog (Cluster N H Q) Halt _) n fun _ _ => True :=
    .tryCatch runs_runStages fun e _ => runs_atDeadline e
  refine .andThen early fun code n' _ => ?_
  cases code with
  | some code => exact .pure _ trivial
  | none =>
      refine .bind (runs_consult ?_)
      split_ifs with howned
      · exact runs_takeVerdict (Ledger.quiet_of_owned howned)
      · exact .pure _ trivial

/-! ## Invocations -/

theorem runs_runManager :
    (lockView p).Runs (runManager S watch platform p : Prog (Cluster N H Q) Halt Unit) n
      fun _ _ => True := by
  have checked : ∀ n, (lockView p).Runs (checkSession watch : Prog (Cluster N H Q) Halt Unit) n
      fun _ _ => True := by
    refine fun n => .bind (runs_inspect fun found => ?_)
    cases found with
    | none => exact .pure _ trivial
    | some run =>
        dsimp only
        split_ifs
        · exact .pure _ trivial
        · exact .throw _
  have working : ∀ n, (lockView p).Runs (work S watch platform p : Prog (Cluster N H Q) Halt ℕ) n
      fun _ _ => True := fun n =>
    .andThen runs_reconcile fun _ _ _ => .andThen (checked _) fun _ _ _ => runs_pipeline
  have cut : ∀ ended n, (lockView p).Runs (cutShort S watch ended : Prog (Cluster N H Q) Halt ℕ) n
      fun _ _ => True := by
    intro ended n
    rcases ended with e | code
    · cases e <;> exact .andThen (runs_cancelOwned _ _) fun _ _ _ => .pure _ trivial
    · exact .pure _ trivial
  have attempted : ∀ {prog : Prog (Cluster N H Q) Halt ℕ} {n},
      (lockView p).Runs prog n (fun _ _ => True) →
        (lockView p).Runs (ε := Halt) prog.attempt n fun _ _ => True :=
    fun h => .attempt h fun _ _ _ => trivial
  refine .bind (runs_account rfl rfl ?_)
  refine .andThen (attempted (.interrupted (working _))) fun ended n' _ => ?_
  refine .andThen (attempted (cut ended n')) fun code n'' _ => ?_
  exact .bind (runs_account rfl rfl (runs_writeReport trivial))

end Verdict

end TranspileBench.Lsf
