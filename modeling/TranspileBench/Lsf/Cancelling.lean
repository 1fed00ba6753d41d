import TranspileBench.Lsf.Custody
import TranspileBench.Lsf.Pipeline
import TranspileBench.Lsf.Playback

/-!
A manager has a job killed only on the scheduler's latest word that the job is the session's
own, and gives up owning it only on word of its end, over whatever ledger it finds.
-/
namespace TranspileBench.Lsf
open Coordinator Evaluator

variable {N H Q : Type}

namespace Custody
section Jobs
variable {p : ℕ} {user key : String} {c : Custody} {e : Entry} {S : Scheduler Q}

theorem runs_classify {status : Option JobStatus} {record : Option JobRecord} {lost : Bool} :
    (custodyView user p).Runs (classify e status record lost : Prog (Cluster N H Q) Halt _) c
      fun _ c' => c' = c := by
  unfold classify
  by_cases hlost : lost = true ∨ e.status = .unreconciled
  · rw [if_pos hlost]
    exact .pure _ rfl
  rw [if_neg hlost]
  cases record with
  | none => exact .pure _ rfl
  | some r =>
      dsimp only
      cases e.stage.toStage with
      | none => exact .pure _ rfl
      | some s => exact .bind (runs_stageState fun _ => .pure _ rfl)

/-- Settle a job that is given up, or whose end the latest answer reports. -/
theorem runs_settle {status : Option JobStatus} {lost cancelled : Bool}
    (found : c.ledger.job e.key = some e)
    (due : e.status = .unreconciled ∨ Relinquished c e) :
    (custodyView user p).Runs
      (settle e.key status lost cancelled : Prog (Cluster N H Q) Halt Unit) c fun _ _ => True := by
  refine .bind (runs_entryOf fun e' hkey found' => ?_)
  obtain rfl : e = e' := Option.some.inj (found.symm.trans (hkey ▸ found'))
  refine .bind (runs_outcomeRecord fun record => .andThen runs_classify ?_)
  rintro kind _ rfl
  refine .bind (runs_save (.entry found (fun _ => ⟨rfl, rfl⟩) fun _ => ?_)
    (runs_writeReport trivial))
  refine due.imp_left fun hlost => ?_
  simp [Entry.unsettled_iff, Entry.settled, hlost]

theorem runs_settle_latest {s : JobStatus} {status : Option JobStatus} {cancelled : Bool}
    (found : c.ledger.job e.key = some e)
    (latest : s ∈ latestAnswer c.exchanges (e.job_id.getD "")) (terminal : s.terminal = true) :
    (custodyView user p).Runs
      (settle e.key status false cancelled : Prog (Cluster N H Q) Halt Unit) c fun _ _ => True :=
  runs_settle found (.inr (.ended s latest terminal))

/-- Duplicates are killed as the lookup listed them: under the entry's name, of the user. -/
theorem runs_cancelExtra {extra : List JobStatus}
    (h : ∀ s ∈ extra, Attributed c user s.job_id) :
    (custodyView user p).Runs
      (Prog.each (fun s => cancelJob S s.job_id) extra : Prog (Cluster N H Q) Halt Unit) c
      fun _ _ => True := by
  refine (View.Runs.each (fun rest c' => ∀ s ∈ rest, Attributed c' user s.job_id) ?_ h).mono
    fun _ _ _ _ => trivial
  intro s rest c' h
  refine runs_cancelJob (h s List.mem_cons_self) fun t ht => ?_
  obtain ⟨e, he, x, hx, hname⟩ := h t (List.mem_cons_of_mem _ ht)
  exact ⟨e, he, x, (latestAnswer_killed _ _ _).symm ▸ hx, hname⟩

theorem runs_reconcileByName (found : c.ledger.job e.key = some e) :
    (custodyView user p).Runs (reconcileByName S user e : Prog (Cluster N H Q) Halt Unit) c
      fun _ _ => True := by
  refine .bind (runs_findJobs fun answer => ?_)
  cases answer with
  | error _ => exact .pure _ trivial
  | ok listed =>
      dsimp only
      split
      · rename_i first extra hmine
        refine .bind (runs_save (.entry found (fun _ => ⟨rfl, rfl⟩) fun _ => .inl ?_)
          (runs_cancelExtra fun s hs => ?_))
        · simp [Entry.unsettled_iff]
        · have hmem : s ∈ listed.filter fun s => s.user == some user && s.name == some e.name := by
            rw [hmine]
            exact List.mem_cons_of_mem _ hs
          simp only [List.mem_filter, Bool.and_eq_true, beq_iff_eq] at hmem
          obtain ⟨hlisted, huser, hname⟩ := hmem
          have he := (Ledger.mem_of_job found).1
          refine ⟨_, List.mem_map_of_mem he, s, mem_latestAnswer_found _ hlisted, huser, ?_⟩
          rw [if_pos rfl]
          exact hname
      · refine .bind (runs_clock fun silent => runs_save (.entry found (fun _ => ⟨rfl, rfl⟩)
          fun hopen => .inl ?_) trivial)
        rw [Entry.unsettled_iff] at hopen ⊢
        dsimp only
        split_ifs
        · simp
        · exact hopen

theorem runs_poll (found : c.ledger.job e.key = some e) :
    (custodyView user p).Runs (poll S e : Prog (Cluster N H Q) Halt Bool) c
      fun _ _ => True := by
  refine .bind (runs_queryJob fun answer => ?_)
  cases answer with
  | error _ => exact .bind (runs_account rfl (.pure _ trivial))
  | ok status =>
      dsimp only
      split_ifs with hgone hterminal
      · refine .bind (runs_jobHistory fun answer hterminal => ?_)
        cases answer with
        | some s =>
            refine .andThen (runs_settle_latest found ?_ (hterminal s rfl)) fun _ _ _ =>
              .pure _ trivial
            exact (latestAnswer_recalled _ _ s).symm ▸ List.mem_singleton_self s
        | none =>
            refine .bind (runs_clock fun lost => ?_)
            cases lost with
            | false => exact .pure _ trivial
            | true =>
                -- given up, not settled: the entry is still owned
                refine .bind (runs_save (.entry found (fun _ => ⟨rfl, rfl⟩) fun _ => .inl ?_) ?_)
                · simp [Entry.unsettled_iff]
                · exact .andThen (runs_settle (e := { e with status := .unreconciled })
                    (Ledger.job_update found fun _ => rfl) (.inl rfl)) fun _ _ _ => .pure _ trivial
      · refine .andThen (runs_settle_latest found ?_ hterminal) fun _ _ _ => .pure _ trivial
        exact (latestAnswer_queried _ _ (.ok status)).symm ▸ List.mem_singleton_self status
      · exact .pure _ trivial

theorem runs_observe :
    (custodyView user p).Runs (observe S user key : Prog (Cluster N H Q) Halt Bool) c
      fun _ _ => True := by
  refine .bind (runs_entryOf fun e hkey found => ?_)
  split_ifs with hnew hactive
  · refine .andThen (runs_reconcileByName found) fun _ c' _ => ?_
    refine .bind (runs_entryOf fun e' hkey' found' => ?_)
    by_cases hlost : e'.status = .unreconciled
    · rw [if_pos hlost, ← hkey']
      exact .andThen (runs_settle found' (.inl hlost)) fun _ _ _ => .pure _ trivial
    · rw [if_neg hlost]
      split_ifs
      · exact .pure _ trivial
      · exact runs_poll found'
  · exact .pure _ trivial
  · exact runs_poll found

theorem runs_observeAll {keys : List String} :
    (custodyView user p).Runs (observeAll S user keys : Prog (Cluster N H Q) Halt _) c
      fun _ _ => True := by
  refine .fold (fun _ _ _ => True) (fun pending key rest c _ => ?_) trivial
  exact .andThen runs_observe fun _ _ _ => .pure _ trivial

theorem runs_wait (rounds : ℕ) {keys : List String} :
    (custodyView user p).Runs (wait S user rounds keys : Prog (Cluster N H Q) Halt Unit) c
      fun _ _ => True := by
  induction rounds generalizing keys c with
  | zero =>
      cases keys with
      | nil => exact .pure _ trivial
      | cons key rest => exact .never
  | succ rounds ih =>
      cases keys with
      | nil => exact .pure _ trivial
      | cons key rest =>
          refine .andThen runs_observeAll fun pending c' _ => ?_
          split_ifs with hdone
          · exact .pure _ trivial
          · refine .bind (runs_clock fun late => ?_)
            cases late with
            | true => exact .throw _
            | false => exact ih

/-! ## Reconciling and cancelling -/

theorem runs_reconcileJob :
    (custodyView user p).Runs (reconcileJob S user key : Prog (Cluster N H Q) Halt Unit) c
      fun _ _ => True := by
  refine .bind (runs_entryOf fun e hkey found => ?_)
  subst hkey
  split_ifs
  · exact runs_reconcileByName found
  · refine .andThen runs_currentStatus ?_
    rintro answer c' ⟨hledger, hlatest⟩
    cases answer with
    | error _ => exact .pure _ trivial
    | ok status =>
        dsimp only
        split_ifs with hterminal
        · exact runs_settle_latest (hledger ▸ found) (hlatest _ rfl) hterminal
        · exact .pure _ trivial

theorem runs_reconcile :
    (custodyView user p).Runs (reconcile S user : Prog (Cluster N H Q) Halt Unit) c
      fun _ _ => True :=
  .bind (runs_consult (.each (fun _ _ => True) (fun _ _ _ _ => runs_reconcileJob) trivial))

/-- A job is killed after its name and user are checked against the latest answer. -/
theorem runs_cancelChecked (found : c.ledger.job e.key = some e) :
    (custodyView user p).Runs (cancelChecked S user e.key e : Prog (Cluster N H Q) Halt Bool) c
      fun _ _ => True := by
  refine .andThen runs_currentStatus ?_
  rintro answer c' ⟨hledger, hlatest⟩
  have found' : c'.ledger.job e.key = some e := hledger ▸ found
  cases answer with
  | error _ => exact .pure _ trivial
  | ok status =>
      dsimp only
      split_ifs with hterminal hforeign
      · exact .andThen (runs_settle_latest found' (hlatest _ rfl) hterminal)
          fun _ _ _ => .pure _ trivial
      · exact .pure _ trivial
      · obtain ⟨hname, huser⟩ := not_or.mp hforeign
        have attributed : Attributed c' user (e.job_id.getD "") :=
          ⟨e, (Ledger.mem_of_job found').1, status, hlatest _ rfl, not_not.mp huser,
            not_not.mp hname⟩
        exact .bind (runs_cancelJob attributed (.bind (runs_account rfl (.pure _ trivial))))

theorem runs_cancelOne :
    (custodyView user p).Runs (cancelOne S user key : Prog (Cluster N H Q) Halt Bool) c
      fun _ _ => True := by
  refine .bind (runs_entryOf fun e hkey found => ?_)
  subst hkey
  split_ifs
  · refine .andThen (runs_reconcileByName found) fun _ c' _ => ?_
    refine .bind (runs_entryOf fun e' hkey found' => ?_)
    split_ifs
    · exact .pure _ trivial
    · exact hkey ▸ runs_cancelChecked found'
  · exact runs_cancelChecked found

theorem runs_confirmEnd :
    (custodyView user p).Runs (confirmEnd S key : Prog (Cluster N H Q) Halt Bool) c
      fun _ _ => True := by
  refine .bind (runs_entryOf fun e hkey found => ?_)
  subst hkey
  refine .andThen runs_currentStatus ?_
  rintro answer c' ⟨hledger, hlatest⟩
  cases answer with
  | error _ => exact .pure _ trivial
  | ok status =>
      dsimp only
      split_ifs with hterminal
      · exact .andThen (runs_settle_latest (hledger ▸ found) (hlatest _ rfl) hterminal)
          fun _ _ _ => .pure _ trivial
      · exact .pure _ trivial

theorem runs_confirmAll (rounds : ℕ) {keys : List String} :
    (custodyView user p).Runs (confirmAll S rounds keys : Prog (Cluster N H Q) Halt Unit) c
      fun _ _ => True := by
  induction rounds generalizing keys c with
  | zero =>
      cases keys with
      | nil => exact .pure _ trivial
      | cons key rest => exact .never
  | succ rounds ih =>
      cases keys with
      | nil => exact .pure _ trivial
      | cons key rest =>
          refine .bind (runs_clock fun late => ?_)
          cases late with
          | true => exact .pure _ trivial
          | false =>
              refine .andThen (View.Runs.fold (fun _ _ _ => True) ?_ trivial) fun _ _ _ => ih
              exact fun _ _ _ _ _ => .andThen runs_confirmEnd fun _ _ _ => .pure _ trivial

theorem runs_cancelOwned (rounds : ℕ) (manager : Bool) :
    (custodyView user p).Runs
      (cancelOwned S user rounds manager : Prog (Cluster N H Q) Halt Unit) c fun _ _ => True := by
  refine .bind (runs_consult (.andThen (View.Runs.fold (fun _ _ _ => True) ?_ trivial)
    fun _ _ _ => runs_confirmAll rounds))
  exact fun _ _ _ _ _ => .andThen runs_cancelOne fun _ _ _ => .pure _ trivial

/-! ## Submitting -/

/-- The submissions of a reserved job: it is given up only after a refusal. -/
theorem runs_submitReserved {r : Request} (left : ℕ) (found : c.ledger.job r.key = some e)
    (name : e.name = r.name)
    (refused : left = 0 → c.submitted.getLast? = some (e.name, .rejected)) :
    (custodyView user p).Runs (submitReserved S r left : Prog (Cluster N H Q) Halt _) c
      fun _ _ => True := by
  have hkey := (Ledger.mem_of_job found).2
  have found' : c.ledger.job e.key = some e := hkey.symm ▸ found
  induction left generalizing c with
  | zero =>
      unfold submitReserved
      rw [← hkey]
      exact .bind (runs_save (.entry found' (fun _ => ⟨rfl, rfl⟩) fun _ =>
        .inr (.refused (refused rfl)))
        (.pure _ trivial))
  | succ left ih =>
      refine .bind (runs_submitJob fun answer => ?_)
      have submitted : ∀ {f : Entry → Entry}, (∀ x, (f x).key = x.key ∧ (f x).name = x.name) →
          (f e).unsettled = true → Step user
          { c with submitted := c.submitted ++ [(r.name, answer)] }
            (update { c with submitted := c.submitted ++ [(r.name, answer)] } e.key f) :=
        fun hf hopen => .entry found' hf fun _ => .inl hopen
      cases answer with
      | accepted job_id =>
          dsimp only
          rw [← hkey]
          exact .bind (runs_save (submitted (fun _ => ⟨rfl, rfl⟩) (by simp [Entry.unsettled_iff]))
            (.pure _ trivial))
      | ambiguous =>
          dsimp only
          rw [← hkey]
          exact .bind (runs_save (submitted (fun _ => ⟨rfl, rfl⟩) (by simp [Entry.unsettled_iff]))
            (.pure _ trivial))
      | rejected =>
          refine .bind (runs_account rfl (ih found (fun _ => ?_) found'))
          rw [List.getLast?_append, name]
          rfl

theorem runs_reserve {r : Request} :
    (custodyView user p).Runs (reserve r : Prog (Cluster N H Q) Halt Unit) c
      fun _ c' => ∃ e, c'.ledger.job r.key = some e ∧ e.name = r.name := by
  refine .bind (.answer fun reserved_at _ => .bind (runs_consult ?_))
  dsimp only [id]
  split
  · exact .throw _
  rename_i reserved hreserved
  refine runs_save (.reserve hreserved) ?_
  obtain ⟨hnew, rfl⟩ := Ledger.reserve_eq hreserved
  -- the key is new, so the last entry is found under it
  have hnone : c.ledger.jobs.find? (fun x => x.key == r.key) = none :=
    List.find?_eq_none.mpr fun x hx => by simpa using hnew x hx
  refine ⟨⟨r.key, r.stage, r.attempt, r.name, c.ledger.epoch, reserved_at, .reserved, none, none,
    none, none, 0⟩, ?_, rfl⟩
  simp [Ledger.job, List.find?_append, hnone]

theorem runs_submit {stage : Job} {attempt : Option ℕ} :
    (custodyView user p).Runs (submit S stage attempt : Prog (Cluster N H Q) Halt _) c
      fun _ _ => True := by
  refine .bind (.answer fun nonce _ => .bind (runs_consult (.bind (.read fun w _ _ => ?_))))
  refine .bind (.request fun _ _ => .bind (runs_clock fun fits => ?_))
  cases fits with
  | false => exact .pure _ trivial
  | true =>
      refine .andThen runs_reserve ?_
      rintro _ c' ⟨e, found, name⟩
      exact runs_submitReserved MAX_REJECTIONS found name fun h => by cases h

end Jobs

/-! ## The pipeline -/

section Pipeline
variable {p : ℕ} {c : Custody} {S : Scheduler Q} {watch : Watch}

theorem runs_finished {s : Stage} {user : String} :
    (custodyView user p).Runs (finished s : Prog (Cluster N H Q) Halt Bool) c fun _ _ => True :=
  .bind (runs_stageState fun _ => .pure _ trivial)

theorem runs_stageJob {s : Stage} {user : String} :
    (custodyView user p).Runs (stageJob S s : Prog (Cluster N H Q) Halt _) c fun _ _ => True := by
  refine .bind (runs_consult ?_)
  split_ifs
  · exact .pure _ trivial
  refine .andThen runs_finished fun final c' _ => ?_
  split_ifs
  · exact .pure _ trivial
  · exact .andThen runs_submit fun _ _ _ => .pure _ trivial

theorem runs_stageJobs {stages : List Stage} :
    (custodyView watch.user p).Runs (stageJobs S watch stages : Prog (Cluster N H Q) Halt Unit) c
      fun _ _ => True := by
  refine .andThen (View.Runs.fold (fun _ _ _ => True) ?_ trivial) fun keys c' _ => ?_
  · exact fun _ _ _ _ _ => .andThen runs_stageJob fun _ _ _ => .pure _ trivial
  · refine .andThen (runs_wait watch.rounds) fun _ c'' _ => .bind (runs_consult ?_)
    split_ifs
    · exact .throw _
    · exact .pure _ trivial

theorem runs_costJob {user : String} :
    (custodyView user p).Runs (costJob S : Prog (Cluster N H Q) Halt _) c fun _ _ => True := by
  refine .bind (runs_consult ?_)
  split_ifs
  · refine .andThen runs_submit fun submitted c' _ => ?_
    cases submitted with
    | ok key => exact .pure _ trivial
    | error reason => exact .bind (runs_account rfl (.pure _ trivial))
  · refine .bind (runs_account ?_ (.pure _ trivial))
    unfold Ledger.recordExhaustion
    split_ifs <;> rfl
  · exact .bind (runs_account rfl (.pure _ trivial))

theorem runs_costLoop (rounds : ℕ) :
    (custodyView watch.user p).Runs (costLoop S watch rounds : Prog (Cluster N H Q) Halt Unit) c
      fun _ _ => True := by
  induction rounds generalizing c with
  | zero => exact .never
  | succ rounds ih =>
      refine .bind (runs_consult ?_)
      split
      · exact .andThen (runs_wait watch.rounds) fun _ _ _ => ih
      · refine .andThen runs_finished fun final c' _ => ?_
        split_ifs
        · exact .pure _ trivial
        · refine .andThen runs_costJob fun key c'' _ => ?_
          cases key with
          | none => exact .pure _ trivial
          | some key => exact .andThen (runs_wait watch.rounds) fun _ _ _ => ih

theorem runs_whenFinal {s : Stage} {user : String} {next : Prog (Cluster N H Q) Halt Unit}
    (h : ∀ c, (custodyView user p).Runs next c fun _ _ => True) :
    (custodyView user p).Runs (whenFinal s next) c fun _ _ => True := by
  refine .andThen runs_finished fun final c' _ => ?_
  split_ifs
  · exact h c'
  · exact .pure _ trivial

theorem runs_runStages :
    (custodyView watch.user p).Runs (runStages S watch : Prog (Cluster N H Q) Halt _) c
      fun _ _ => True := by
  refine .andThen runs_stageJobs fun _ c' _ => .bind (runs_inspect fun created => ?_)
  cases created with
  | false => exact .pure _ trivial
  | true =>
      refine .andThen (runs_whenFinal fun _ => runs_stageJobs) fun _ _ _ => ?_
      refine .bind (.read fun w _ _ =>
        .andThen (runs_whenFinal fun _ => runs_stageJobs) fun _ _ _ => ?_)
      exact .andThen (runs_whenFinal fun _ => runs_costLoop _) fun _ _ _ => .pure _ trivial

theorem runs_atDeadline (e : Halt) :
    (custodyView watch.user p).Runs (atDeadline S watch e : Prog (Cluster N H Q) Halt _) c
      fun _ _ => True := by
  cases e with
  | deadline reason =>
      refine .andThen (runs_cancelOwned _ _) fun _ c' _ => ?_
      exact .bind (runs_inspect fun created => .pure _ trivial)
  | cancelled signum => exact .throw _
  | failed text => exact .throw _

theorem runs_cleanupResult {key user : String} :
    (custodyView user p).Runs (cleanupResult key : Prog (Cluster N H Q) Halt _) c fun _ _ => True :=
  .bind (runs_entryOf fun _ _ _ => .bind (runs_inspect fun _ => .pure _ trivial))

theorem runs_finishClean {key : String} :
    (custodyView watch.user p).Runs (finishClean S watch key : Prog (Cluster N H Q) Halt _) c
      fun _ _ => True := by
  have waited : (custodyView watch.user p).Runs
      (waitClean S watch key : Prog (Cluster N H Q) Halt _) c fun _ _ => True := by
    refine .tryCatch (.andThen (runs_wait _) fun _ _ _ => .pure _ trivial) fun e c' => ?_
    cases e with
    | deadline reason => exact .andThen (runs_cancelOwned _ _) fun _ _ _ => .pure _ trivial
    | cancelled signum => exact .throw _
    | failed text => exact .throw _
  refine .andThen waited fun cut c' _ => ?_
  cases cut with
  | some reason => exact .pure _ trivial
  | none => exact runs_cleanupResult

theorem runs_cleanupJob :
    (custodyView watch.user p).Runs (cleanupJob S watch : Prog (Cluster N H Q) Halt _) c
      fun _ _ => True := by
  refine .bind (runs_consult ?_)
  split
  · split_ifs
    · exact runs_finishClean
    · exact runs_cleanupResult
  · refine .bind (.modify fun w hw hv =>
      ⟨hw, .inl hv, .andThen runs_submit fun submitted _ _ => ?_⟩)
    cases submitted with
    | error reason => exact .pure _ trivial
    | ok key => exact runs_finishClean

theorem runs_afterDecide {decision : Coordinator.Decision N H} :
    (custodyView watch.user p).Runs (afterDecide S watch decision : Prog (Cluster N H Q) Halt _) c
      fun _ _ => True := by
  refine .tryCatch (.bind (runs_inspect fun blocker => ?_)) fun e c' => ?_
  · cases blocker with
    | some reason => exact .pure _ trivial
    | none => exact runs_cleanupJob
  · cases e with
    | cancelled signum => exact .throw _
    | deadline reason => exact .pure _ trivial
    | failed text => exact .pure _ trivial

theorem runs_checkSession {user : String} :
    (custodyView user p).Runs (checkSession watch : Prog (Cluster N H Q) Halt Unit) c
      fun _ _ => True := by
  refine .bind (runs_inspect fun found => ?_)
  cases found with
  | none => exact .pure _ trivial
  | some run =>
      dsimp only
      split_ifs
      · exact .pure _ trivial
      · exact .throw _

/-- On a signal, at the deadline or on an error the manager cancels what it owns. -/
theorem runs_cutShort {ended : Except Halt ℕ} :
    (custodyView watch.user p).Runs (cutShort S watch ended : Prog (Cluster N H Q) Halt ℕ) c
      fun _ _ => True := by
  rcases ended with e | code
  · cases e <;> exact .andThen (runs_cancelOwned _ _) fun _ _ _ => .pure _ trivial
  · exact .pure _ trivial

section Verdict
variable [Arith N] [DecidableEq N] [DecidableEq H] {platform : Platform N H}

theorem runs_sessionVerdict {user : String} :
    (custodyView user p).Runs (sessionVerdict watch platform p : Prog (Cluster N H Q) Halt _) c
      fun _ c' => c' = c := by
  refine .keeps (Prog.Keeps.mapError (Prog.Keeps.zoom (clusterLens.comp sessionLens) ?_ ?_ _))
  · rintro w w' ⟨hw, hv⟩ hrely
    obtain ⟨hw', heq⟩ := hrely hw
    exact ⟨hw', heq.trans hv⟩
  · rintro w v hinv ⟨hw, hv⟩
    exact ⟨⟨.inl rfl, .inl rfl⟩, hinv, hw, hv⟩

theorem runs_takeVerdict :
    (custodyView watch.user p).Runs (takeVerdict S watch platform p : Prog (Cluster N H Q) Halt ℕ) c
      fun _ _ => True := by
  refine .bind (.modify fun w hw hv => ⟨hw, .inl hv, .andThen runs_sessionVerdict ?_⟩)
  rintro verdict c' -
  cases verdict with
  | error e => exact .bind (runs_account rfl (.pure _ trivial))
  | ok decision =>
      refine .bind (runs_account rfl (.andThen runs_afterDecide fun cleanup c' _ => ?_))
      exact .bind (runs_account rfl (.pure _ trivial))

theorem runs_pipeline :
    (custodyView watch.user p).Runs (pipeline S watch platform p : Prog (Cluster N H Q) Halt ℕ) c
      fun _ _ => True := by
  have early : (custodyView watch.user p).Runs (tryCatch (runStages S watch) (atDeadline S watch) :
      Prog (Cluster N H Q) Halt _) c fun _ _ => True :=
    .tryCatch runs_runStages fun e _ => runs_atDeadline e
  refine .andThen early fun code c' _ => ?_
  cases code with
  | some code => exact .pure _ trivial
  | none =>
      refine .bind (runs_consult ?_)
      split_ifs
      · exact runs_takeVerdict
      · exact .pure _ trivial

theorem runs_runManager :
    (custodyView watch.user p).Runs (runManager S watch platform p : Prog (Cluster N H Q) Halt Unit)
      c fun _ _ => True := by
  have working : ∀ c, (custodyView watch.user p).Runs
      (work S watch platform p : Prog (Cluster N H Q) Halt ℕ) c fun _ _ => True := fun c =>
    .andThen runs_reconcile fun _ _ _ => .andThen runs_checkSession fun _ _ _ => runs_pipeline
  have attempted : ∀ {prog : Prog (Cluster N H Q) Halt ℕ} {c},
      (custodyView watch.user p).Runs prog c (fun _ _ => True) →
        (custodyView watch.user p).Runs (ε := Halt) prog.attempt c fun _ _ => True :=
    fun h => .attempt h fun _ _ _ => trivial
  refine .bind (runs_account rfl (.andThen
    (attempted (.interrupted (working _))) fun ended _ _ => ?_))
  refine .andThen (attempted runs_cutShort) fun code _ _ => ?_
  exact .bind (runs_account rfl (runs_writeReport trivial))

end Verdict
end Pipeline
end Custody

/-! ## Runs -/

section Tending
variable {user : String}

theorem wp_tending {rest : Unit → Prog (Cluster N H Q) Halt Unit} {p : ℕ} {w : Cluster N H Q}
    (h : ∀ c, (custodyView user p).Runs (rest ()) c fun _ _ => True) :
    (takeLock p >>= rest).wp (custodyContract user p) (fun _ _ => True) (fun _ _ => True) w := by
  rw [Prog.wp_bind]
  refine Prog.wp_fallible (fun _ => ⟨.inl rfl, .inl rfl⟩) ?_ fun _ _ _ _ _ => trivial
  rintro w₁ - hinv _ _ ⟨hfree, rfl⟩
  refine ⟨⟨.inl rfl, .inr ⟨hfree, rfl⟩⟩, hinv, ?_⟩
  exact Prog.wp_mono (h w₁.custody hinv _ rfl rfl) (fun _ _ _ => trivial) fun _ _ _ => trivial

variable [Arith N] [DecidableEq N] [DecidableEq H] (S : Scheduler Q) (platform : Platform N H)

/-- What everyone but a manager may change: whatever is not under the lock that a manager
holds, and never what the managers asked of the scheduler. -/
def Cluster.Around (w w' : Cluster N H Q) : Prop :=
  w'.ledger.Keyed ∧ w'.lock = w.lock ∧ w'.exchanges = w.exchanges ∧
    (w.lock ≠ none → w'.custody = w.custody)

/-- The managers and the reaps of one user over whatever ledger they find. -/
def tending (user : String) : System (Cluster N H Q) Halt where
  init w := w.ledger.Keyed
  entry p prog := ∃ watch : Watch, watch.user = user ∧
    (prog = manage S watch platform p ∨ prog = reap S watch p)
  release p w := { w with
    lock := if w.lock = some p then none else w.lock
    site := { w.site with session := w.site.session.release platform p } }
  env := Cluster.Around

variable {S platform}

/-- The proof outline of the managers of one user. -/
def tendingOutline : (tending (N := N) (H := H) S platform user).Outline where
  inv w := w.ledger.Keyed
  guar p := (custodyContract user p).guar
  rely p := (custodyContract user p).rely
  idle _ _ := True
  rely_refl p := (custodyContract user p).rely_refl
  rely_trans p := (custodyContract user p).rely_trans
  init w h := ⟨h, fun _ => trivial⟩
  compatible p q w w' hne _ hguar hq := by
    have hother : w.lock ≠ some p := by
      rw [hq]
      exact fun h => hne (Option.some.inj h).symm
    obtain ⟨hcustody, hlock⟩ := hguar
    have hfree : w.lock ≠ none := by simp [hq]
    exact ⟨(hlock.resolve_right fun h => hfree h.1).trans hq,
      hcustody.resolve_right fun h => hother h.1⟩
  release p w hinv := by
    refine ⟨hinv, trivial, fun q hne hq => ⟨?_, rfl⟩⟩
    change (if w.lock = some p then none else w.lock) = some q
    rw [hq, if_neg fun h => hne (Option.some.inj h)]
  env w w' hinv h := by
    obtain ⟨hkeyed, hlock, -, hheld⟩ := h
    exact ⟨hkeyed, fun q hq => ⟨hlock.trans hq, hheld (by simp [hq])⟩⟩
  idle_rely _ _ _ _ _ := trivial
  safe p prog w h _ _ := by
    obtain ⟨watch, rfl, rfl | rfl⟩ := h
    · exact wp_tending fun c => Custody.runs_runManager
    · refine wp_tending fun c => .andThen Custody.runs_reconcile fun _ _ _ => ?_
      exact .andThen (Custody.runs_cancelOwned _ _) fun _ _ _ => Custody.runs_writeReport trivial

/-- What a run of managers keeps to: each kill is of a job that the scheduler's latest answer
attributes to the user and to the name of an entry, and an entry that is owned stays owned
until the latest answer says that its job ended, or its submission was refused. -/
structure CancelSafe (user : String) (r : (tending (N := N) (H := H) S platform user).Run) :
    Prop where
  killed : ∀ i, (r.config (i + 1)).world.exchanges = (r.config i).world.exchanges ∨
    ∃ x, (r.config (i + 1)).world.exchanges = (r.config i).world.exchanges ++ [x] ∧
      ∀ id, x = .killed id → Attributed (r.config i).world.custody user id
  owned : ∀ i p, System.Acts p (r.config i) (r.config (i + 1)) →
    ∀ e ∈ (r.config i).world.ledger.jobs, e.unsettled = true →
      (∃ e' ∈ (r.config (i + 1)).world.ledger.jobs,
        e'.key = e.key ∧ e'.name = e.name ∧ e'.unsettled = true) ∨
      Relinquished (r.config i).world.custody e

/-- Whatever the ledger holds, whatever the scheduler answers and whenever jobs end or their
ids come to name others. -/
theorem cancel_safe (r : (tending (N := N) (H := H) S platform user).Run) : CancelSafe user r where
  killed i := by
    rcases r.step i with next | same
    · have holds := tendingOutline.holds (r.reachable _ i)
      rcases (holds.step _ next).2 with heq | ⟨p, hguar⟩ | ⟨p, hreleased⟩ | ⟨-, -, henv, -⟩
      · exact .inl (by rw [heq])
      · rcases hguar.1 with heq | ⟨-, step⟩
        · exact .inl (congrArg (·.exchanges) heq)
        · exact step.exchanges_cases
      · exact .inl (by rw [hreleased]; rfl)
      · exact .inl henv
    · exact .inl (by rw [same])
  owned i p acts e he hopen := by
    have holds := tendingOutline.holds (r.reachable _ i)
    have hguar := (System.Outline.Holds.act _ holds acts).1
    rcases hguar.1 with heq | ⟨-, step⟩
    · refine .inl ⟨e, ?_, rfl, rfl, hopen⟩
      have hledger : (r.config (i + 1)).world.ledger = (r.config i).world.ledger :=
        congrArg (·.ledger) heq
      rw [hledger]
      exact he
    · exact step.kept holds.1 he hopen

end Tending

/-! ## A job id that names another job -/

/-- A scheduler where job 5 is another user's job by now, and has ended. -/
def strangers : Scheduler Unit where
  bsub _ _ _ _ := True
  bjobs _ id answer := answer = .ok ⟨id, .DONE, some 0, none, some "nightly", some "bob"⟩
  named _ _ answer := answer = .ok []
  bhist _ _ answer := answer = none
  bkill _ _ _ := True

def submittedEntry : Entry :=
  ⟨"cost-1", .cost, some 1, "qtb-run-cost-1", 0, 0, .submitted, some "5", none, none, none, 0⟩

/-- The status of the ended job is enough to settle the entry, though nothing gives the job
id to the user under the entry's name: the identity is checked only before a kill. -/
theorem stranger_settles :
    ¬ ∀ (w w' : Cluster Int Unit Unit) (o : Option (Except Halt Unit)),
      Exec (cancelOwned strangers "ann" 0 false) w o w' →
        ∀ e ∈ w.ledger.jobs, e.unsettled = true →
          (∀ s ∈ latestAnswer w'.exchanges (e.job_id.getD ""),
            ¬ (s.user = some "ann" ∧ s.name = some e.name)) →
          ∃ e' ∈ w'.ledger.jobs, e'.key = e.key ∧ e'.unsettled = true := by
  intro h
  have checked : Exec (cancelOne strangers "ann" "cost-1" : Prog (Cluster Int Unit Unit) Halt Bool)
      (.resting () { jobs := [submittedEntry] }) (some (.ok false)) _ :=
    exec_cancelOne_ended (e := submittedEntry) rfl rfl rfl rfl rfl
  have run : Exec (cancelOwned strangers "ann" 0 false : Prog (Cluster Int Unit Unit) Halt Unit) _
      (some (.ok ())) _ := exec_cancelOwned_ended 0 rfl checked
  obtain ⟨e', he', -, hopen⟩ := h _ _ _ run submittedEntry (List.mem_singleton_self _) (by decide)
    (by decide)
  revert e'
  decide

end TranspileBench.Lsf
