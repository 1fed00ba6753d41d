import TranspileBench.Lsf.Conduct
import TranspileBench.Lib.View
import Mathlib.Data.List.Pairwise

/-!
Every program that holds the orchestration lock takes only the steps of the ledger: the
commands of the manager one by one, and from them the manager, `reap` and the resume.
-/
namespace TranspileBench.Lsf
open Coordinator Evaluator

/-! ## What the invariant says of a stage -/

section Stage
variable {n : Notes} {e e' : Entry} {stage : Job}

theorem Sound.ordered_or (h : Sound n) (he : e ∈ n.ledger.jobs) (he' : e' ∈ n.ledger.jobs)
    (hne : e ≠ e') : Ordered e e' ∨ Ordered e' e := by
  have : Std.Symm fun a b : Entry => Ordered a b ∨ Ordered b a := ⟨fun _ _ => Or.symm⟩
  have hpairs : n.ledger.jobs.Pairwise fun a b => Ordered a b ∨ Ordered b a :=
    h.ordered.imp Or.inl
  exact hpairs.forall he he' hne

theorem Sound.unsettled_unique (h : Sound n) (he : e ∈ n.ledger.jobs) (he' : e' ∈ n.ledger.jobs)
    (hstage : e.stage = e'.stage) (hmanager : e.stage ≠ .manager) (hu : e.unsettled = true)
    (hu' : e'.unsettled = true) : e = e' := by
  by_contra hne
  rcases h.ordered_or he he' hne with ho | ho
  · rw [ho.settled hstage hmanager] at hu
    cases hu
  · rw [ho.settled hstage.symm (hstage ▸ hmanager)] at hu'
    cases hu'

theorem Ledger.latestOf_none : ∀ {es : List Entry}, Ledger.latestOf es = none → es = []
  | [], _ => rfl
  | e :: rest, h => by
      simp only [Ledger.latestOf] at h
      split at h
      · cases h
      · split_ifs at h

theorem Ledger.rejected_of_latest {l : Ledger} (h : l.latest stage = none) :
    ∀ e ∈ l.jobs, e.stage = stage → e.epoch = l.epoch → e.status = .rejected := by
  intro e he hstage hepoch
  by_contra hstatus
  have hmem : e ∈ (l.ofStage stage).filter (·.status != .rejected) := by
    simp [Ledger.ofStage, he, hstage, hepoch, hstatus]
  rw [Ledger.latestOf_none h] at hmem
  cases hmem

/-- A stage other than cost may be reserved when it has no job in this epoch. -/
theorem Sound.reservable_once (h : Sound n) (hmanager : stage ≠ .manager) (hcost : stage ≠ .cost)
    (latest : n.ledger.latest stage = none) (attempt : Option ℕ) :
    Reservable n.ledger stage attempt where
  quiet e he hstage := by
    rcases (h.epoch e he).lt_or_eq with hlt | heq
    · exact h.past e he (hstage ▸ hmanager) hlt
    · have hrejected := Ledger.rejected_of_latest latest e he hstage heq
      rw [← Bool.not_eq_true, Entry.unsettled_iff]
      exact fun hu => hu.2 hrejected
  once _ := Ledger.rejected_of_latest latest
  rising hc := absurd hc hcost
  budget hc := absurd hc hcost
  noisy hc := absurd hc hcost

theorem Ledger.mem_costAttempts {l : Ledger} :
    e ∈ l.costAttempts ↔
      e ∈ l.jobs ∧ e.stage = .cost ∧ e.epoch = l.epoch ∧ e.status ≠ .rejected := by
  simp only [Ledger.costAttempts, Ledger.ofStage, List.mem_insertionSort, List.mem_filter,
    Bool.and_eq_true, beq_iff_eq, bne_iff_ne, and_assoc]

/-- The last cost attempt has the greatest number. -/
theorem Ledger.le_last {l : Ledger} {last : Entry} (h : l.costAttempts.getLast? = some last)
    (he : e ∈ l.costAttempts) : e.attempt.getD 0 ≤ last.attempt.getD 0 := by
  have : Std.Total fun a b : Entry => a.attempt.getD 0 ≤ b.attempt.getD 0 :=
    ⟨fun _ _ => Nat.le_total _ _⟩
  have : IsTrans Entry fun a b => a.attempt.getD 0 ≤ b.attempt.getD 0 :=
    ⟨fun _ _ _ => Nat.le_trans⟩
  have hsorted : l.costAttempts.Pairwise fun a b => a.attempt.getD 0 ≤ b.attempt.getD 0 :=
    List.pairwise_insertionSort _ _
  obtain ⟨init, hinit⟩ := List.getLast?_eq_some_iff.mp h
  rw [hinit] at he hsorted
  rcases List.mem_append.mp he with he | he
  · exact (List.pairwise_append.mp hsorted).2.2 e he last (List.mem_singleton_self _)
  · rw [List.mem_singleton.mp he]

theorem Ledger.lt_nextAttempt {l : Ledger} (he : e ∈ l.jobs) (hstage : e.stage = .cost) :
    e.attempt.getD 0 < l.nextAttempt := by
  have hmax : ∀ (xs : List ℕ) (m : ℕ), m ≤ xs.foldl max m ∧ ∀ x ∈ xs, x ≤ xs.foldl max m := by
    intro xs
    induction xs with
    | nil => simp
    | cons y rest ih =>
        intro m
        obtain ⟨hm, hrest⟩ := ih (max m y)
        refine ⟨(le_max_left ..).trans hm, fun x hx => ?_⟩
        rcases List.mem_cons.mp hx with rfl | hx
        · exact (le_max_right ..).trans hm
        · exact hrest x hx
  refine Nat.lt_succ_of_le ((hmax _ 0).2 _ ?_)
  exact List.mem_map.mpr ⟨e, by simp [he, hstage], rfl⟩

theorem decision_next (l : Ledger) : (decision l).next_attempt = l.nextAttempt := by
  unfold decision
  dsimp only
  split
  · split_ifs <;> rfl
  · split_ifs <;> rfl

/-- What allows another cost job. -/
theorem decision_allowed {l : Ledger} (h : (decision l).allowed = true) :
    l.budgetUsed < MAX_COST_ATTEMPTS ∧ ∀ last, l.costAttempts.getLast? = some last →
      last.outcome.map (·.kind) = some .noisy := by
  cases hlast : l.costAttempts.getLast? with
  | none =>
      refine ⟨?_, fun _ heq => by cases heq⟩
      by_contra hused
      simp [decision, hlast, Nat.not_lt.mp hused] at h
  | some last =>
      have hnoisy : last.outcome.map (·.kind) = some .noisy := by
        by_contra hnoisy
        simp only [decision, hlast, hnoisy, if_false] at h
        split_ifs at h
      refine ⟨?_, fun _ heq => Option.some.inj heq ▸ hnoisy⟩
      by_contra hused
      simp only [decision, hlast, hnoisy, Nat.not_lt.mp hused, if_true] at h
      split_ifs at h

theorem Sound.reservable_cost (h : Sound n) (allowed : (decision n.ledger).allowed = true) :
    Reservable n.ledger .cost (some (decision n.ledger).next_attempt) := by
  obtain ⟨hbudget, hnoisy⟩ := decision_allowed allowed
  have attempt : ∀ {x}, x ∈ n.ledger.jobs → x.stage = .cost → x.epoch = n.ledger.epoch →
      x.status ≠ .rejected → x ∈ n.ledger.costAttempts := fun hx hs he hr =>
    Ledger.mem_costAttempts.mpr ⟨hx, hs, he, hr⟩
  -- the last attempt ended, and it was noisy
  have ended : ∀ last, n.ledger.costAttempts.getLast? = some last →
      last ∈ n.ledger.jobs ∧ last.stage = .cost ∧ last.epoch = n.ledger.epoch ∧
        last.status = .terminal := by
    intro last hlast
    obtain ⟨hmem, hstage, hepoch, -⟩ :=
      Ledger.mem_costAttempts.mp (List.mem_of_getLast? hlast)
    have hv := h.attested last hmem (by rw [hstage]; decide)
    exact ⟨hmem, hstage, hepoch, (hv.noisy (hnoisy last hlast)).1⟩
  refine ⟨?_, fun hc => absurd rfl hc, ?_, fun _ => hbudget, fun _ => ?_⟩
  · intro e he hstage
    have hmanager : e.stage ≠ .manager := by
      rw [hstage]
      decide
    by_contra hopen
    rw [Bool.not_eq_false, Entry.unsettled_iff] at hopen
    have hepoch : e.epoch = n.ledger.epoch := by
      refine (h.epoch e he).antisymm (Nat.le_of_not_lt fun hlt => ?_)
      exact absurd (e.unsettled_iff.mpr hopen) (by simp [h.past e he hmanager hlt])
    have hattempt := attempt he hstage hepoch hopen.2
    cases hlast : n.ledger.costAttempts.getLast? with
    | none =>
        rw [List.getLast?_eq_none_iff.mp hlast] at hattempt
        cases hattempt
    | some last =>
        obtain ⟨hmem, hcost, -, hterminal⟩ := ended last hlast
        have hne : e ≠ last := by
          rintro rfl
          exact hopen.1 hterminal
        rcases h.ordered_or he hmem hne with ho | ho
        · have hsettled := ho.settled (hstage.trans hcost.symm) hmanager
          rw [e.unsettled_iff.mpr hopen] at hsettled
          cases hsettled
        · exact absurd (ho.rising hcost hstage) (Nat.not_lt.mpr (Ledger.le_last hlast hattempt))
  · intro _ e he hstage
    rw [decision_next, Option.getD_some]
    exact Ledger.lt_nextAttempt he hstage
  · cases hlast : n.ledger.costAttempts.getLast? with
    | none =>
        refine .inl fun e he hstage hepoch => ?_
        by_contra hstatus
        have hattempt := attempt he hstage hepoch hstatus
        rw [List.getLast?_eq_none_iff.mp hlast] at hattempt
        cases hattempt
    | some last =>
        obtain ⟨hmem, hcost, hepoch, hterminal⟩ := ended last hlast
        refine .inr ⟨last, hmem, hcost, hepoch, hterminal, hnoisy last hlast, ?_⟩
        exact fun e he hs hk hr => Ledger.le_last hlast (attempt he hs hk hr)

end Stage

/-! ## The holder of the lock -/

variable {N H Q α : Type}

/-- What a process assumes and promises: the ledger and its history change only by the steps
of the process that holds the lock, which nobody takes from it. -/
def lockContract (p : ℕ) : Contract (Cluster N H Q) where
  rely w w' := w.lock = some p → w'.lock = some p ∧ w'.notes = w.notes
  guar w w' := (w'.notes = w.notes ∨ w.lock = some p ∧ Step w.notes w'.notes) ∧
    (w'.lock = w.lock ∨ w.lock = none ∧ w'.lock = some p)
  inv w := Sound w.notes
  rely_refl _ h := ⟨h, rfl⟩
  rely_trans h h' hlock := by
    obtain ⟨hlock', heq⟩ := h hlock
    obtain ⟨hlock'', heq'⟩ := h' hlock'
    exact ⟨hlock'', heq'.trans heq⟩

/-- The ledger and its history, as the holder of the lock sees them. -/
def lockView (p : ℕ) : View (lockContract (N := N) (H := H) (Q := Q) p) Notes where
  held w := w.lock = some p
  view := Cluster.notes
  inv := Sound
  step := Step
  stable hw hrely _ := hrely hw
  kept hw hguar := hguar.2.elim (·.trans hw) (·.2)
  sound := id
  preserved hinv step := step.sound hinv
  allowed hw hinv hw' hstep := by
    refine ⟨⟨hstep.imp_right fun h => ⟨hw, h⟩, .inl (hw'.trans hw.symm)⟩, ?_⟩
    rcases hstep with heq | hstep
    · change Sound _
      rw [heq]
      exact hinv
    · exact hstep.sound hinv

/-- The notes after the scheduler said something of a job. -/
def Notes.reported (n : Notes) (id : String) (status : Option JobStatus) : Notes :=
  { n with reports := n.reports ++ status.toList.map fun s => (id, s) }

def Notes.sighted (n : Notes) (s : Sighting) : Notes := { n with seen := n.seen ++ [s] }

def Notes.update (n : Notes) (key : String) (f : Entry → Entry) : Notes :=
  { n with ledger := n.ledger.update key f }

section Commands
variable {p : ℕ} {n : Notes} {S : Scheduler Q}

theorem runs_inspect {f : Cluster N H Q → α} {R : α → Notes → Prop} (h : ∀ a, R a n) :
    (lockView p).Runs (inspect f) n R := by
  refine .fallible ?_
  rintro w a _ hw rfl ⟨-, rfl⟩
  exact ⟨hw, .inl rfl, h a⟩

theorem runs_consult {f : Ledger → α} {R : α → Notes → Prop} (h : R (f n.ledger) n) :
    (lockView p).Runs (consult f : Prog (Cluster N H Q) Halt α) n R := by
  refine .read ?_
  rintro w _ rfl
  exact h

theorem runs_clock {R : Bool → Notes → Prop} (h : ∀ b, R b n) :
    (lockView p).Runs (clock : Prog (Cluster N H Q) Halt Bool) n R :=
  .answer fun b _ => h b

theorem runs_entryOf {key : String} {R : Entry → Notes → Prop}
    (h : ∀ e, n.ledger.job key = some e → R e n) :
    (lockView p).Runs (entryOf key : Prog (Cluster N H Q) Halt Entry) n R := by
  refine .bind (runs_consult ?_)
  cases hfound : n.ledger.job key with
  | none => exact .throw _
  | some e => exact .pure e (h e hfound)

theorem runs_writeReport {R : Unit → Notes → Prop} (h : R () n) :
    (lockView p).Runs (writeReport : Prog (Cluster N H Q) Halt Unit) n R :=
  .request fun _ _ => h

/-- A save is a step of the ledger, also when it fails after all. -/
theorem runs_save {f : Ledger → Ledger} {R : Unit → Notes → Prop}
    (step : Step n { n with ledger := f n.ledger }) (h : R () { n with ledger := f n.ledger }) :
    (lockView p).Runs (save f : Prog (Cluster N H Q) Halt Unit) n R := by
  refine .act ?_
  rintro w r w' hw rfl ⟨heffect, -⟩
  rcases heffect with rfl | ⟨hfailed, rfl⟩
  · refine ⟨hw, .inr step, ?_⟩
    cases r with
    | ok _ => exact .ret _ h
    | error e => exact .raise e
  · refine ⟨hw, .inl rfl, ?_⟩
    cases r with
    | ok _ => exact absurd rfl hfailed
    | error e => exact .raise e

/-- A save that does not concern the jobs. -/
theorem runs_account {f : Ledger → Ledger} {R : Unit → Notes → Prop}
    (jobs : (f n.ledger).jobs = n.ledger.jobs) (resumes : (f n.ledger).resumes = n.ledger.resumes)
    (h : R () { n with ledger := f n.ledger }) :
    (lockView p).Runs (save f : Prog (Cluster N H Q) Halt Unit) n R :=
  runs_save (.account jobs resumes) h

theorem runs_queryJob {id : String} {R : Except String JobStatus → Notes → Prop}
    (h : ∀ answer, R answer (n.reported id answer.toOption)) :
    (lockView p).Runs (queryJob S id : Prog (Cluster N H Q) Halt _) n R := by
  refine .perform ?_
  rintro w answer _ hw rfl ⟨-, rfl⟩
  exact ⟨hw, .inr (.reported id _), h answer⟩

theorem runs_jobHistory {id : String} {R : Option JobStatus → Notes → Prop}
    (h : ∀ answer, (∀ s ∈ answer, s.terminal = true) → R answer (n.reported id answer)) :
    (lockView p).Runs (jobHistory S id : Prog (Cluster N H Q) Halt _) n R := by
  refine .perform ?_
  rintro w answer _ hw rfl ⟨-, hterminal, rfl⟩
  exact ⟨hw, .inr (.reported id _), h answer hterminal⟩

theorem runs_findJobs {name : String} {R : Except String (List JobStatus) → Notes → Prop}
    (h : ∀ answer, R answer n) :
    (lockView p).Runs (findJobs S name : Prog (Cluster N H Q) Halt _) n R := by
  refine .perform ?_
  rintro w answer _ hw rfl ⟨rfl, -⟩
  exact ⟨hw, .inl rfl, h answer⟩

theorem runs_cancelJob {id : String} {R : Unit → Notes → Prop} (h : R () n) :
    (lockView p).Runs (cancelJob S id : Prog (Cluster N H Q) Halt Unit) n R := by
  refine .perform ?_
  rintro w _ _ hw rfl ⟨q, -, rfl⟩
  exact ⟨hw, .inl rfl, h⟩

theorem runs_outcomeRecord {key : String} {R : Option JobRecord → Notes → Prop}
    (h : ∀ record, R record (n.sighted (.record key record))) :
    (lockView p).Runs (outcomeRecord key : Prog (Cluster N H Q) Halt _) n R := by
  refine .fallible ?_
  rintro w record _ hw rfl ⟨-, rfl⟩
  exact ⟨hw, .inr (.seen _), h record⟩

theorem runs_stageState {s : Stage} {R : Option StageStatus × Option String → Notes → Prop}
    (h : ∀ status invoker, R (status, invoker) (n.sighted (.state s status invoker))) :
    (lockView p).Runs (stageState s : Prog (Cluster N H Q) Halt _) n R := by
  refine .fallible ?_
  rintro w b _ hw rfl ⟨-, rfl⟩
  exact ⟨hw, .inr (.seen _), h b.1 b.2⟩

/-- `bjobs`, and `bhist` of a job it no longer knows: the ledger is as it was, and what they
said is on record. -/
theorem runs_currentStatus {id : String} :
    (lockView p).Runs (currentStatus S id : Prog (Cluster N H Q) Halt _) n fun answer n' =>
      n'.ledger = n.ledger ∧
        ∀ s, answer = .ok s → s.terminal = true → (id, s) ∈ n'.reports := by
  refine .bind (runs_queryJob fun answer => ?_)
  cases answer with
  | error text => exact .pure _ ⟨rfl, nofun⟩
  | ok status =>
      dsimp only
      have listed : (id, status) ∈ (n.reported id (some status)).reports := by
        simp [Notes.reported]
      split_ifs with hgone
      · refine .bind (runs_jobHistory fun ended _ => .pure _ ⟨rfl, ?_⟩)
        rintro s ⟨⟩ _
        cases ended with
        | none => exact List.mem_append_left _ listed
        | some s => simp [Notes.reported]
      · refine .pure _ ⟨rfl, ?_⟩
        rintro s ⟨⟩ _
        exact listed

end Commands

/-! ## Settling jobs -/

theorem Ledger.job_update_of_ne {l : Ledger} {key k : String} {f : Entry → Entry}
    (hf : ∀ e, (f e).key = e.key) (hk : k ≠ key) : (l.update key f).job k = l.job k := by
  simp only [Ledger.job, Ledger.update, List.find?_map]
  have hsame : ((fun e : Entry => e.key == k) ∘ fun e => if e.key = key then f e else e) =
      fun e => e.key == k := by
    funext e
    by_cases he : e.key = key <;> simp [he, hf]
  rw [hsame]
  cases hfound : l.jobs.find? (fun e => e.key == k) with
  | none => rfl
  | some e =>
      have hkey : e.key = k := by simpa using List.find?_some hfound
      simp [hkey, hk]

/-- All entries but one are as they were. -/
def Apart (key : String) (n n' : Notes) : Prop :=
  ∀ k, k ≠ key → n'.ledger.job k = n.ledger.job k

namespace Apart
variable {key : String} {n n' n'' : Notes}

theorem of_ledger (h : n'.ledger = n.ledger) : Apart key n n' := fun _ _ => by rw [h]

theorem trans (h : Apart key n n') (h' : Apart key n' n'') : Apart key n n'' :=
  fun k hk => (h' k hk).trans (h k hk)

theorem update {f : Entry → Entry} (hf : ∀ e, (f e).key = e.key) :
    Apart key n (n.update key f) := fun _ hk => Ledger.job_update_of_ne hf hk

end Apart

theorem Ledger.job_update {l : Ledger} {key : String} {e : Entry} {f : Entry → Entry}
    (found : l.job key = some e) (hf : ∀ e, (f e).key = e.key) :
    (l.update key f).job key = some (f e) := by
  have hsame : ((fun e : Entry => e.key == key) ∘ fun e => if e.key = key then f e else e) =
      fun e => e.key == key := by
    funext e
    by_cases he : e.key = key <;> simp [he, hf]
  simp only [Ledger.job, Ledger.update, List.find?_map, hsame] at found ⊢
  rw [found, Option.map_some, if_pos (Ledger.mem_of_job found).2]

section Settle
variable {p : ℕ} {n : Notes} {S : Scheduler Q} {user key : String} {e : Entry}

/-- Only a recorded exit 42 beside a noisy state of the job's own is noisy. -/
theorem stageOutcome_noisy {code : ℕ} {status : Option StageStatus} {mine : Bool}
    (h : stageOutcome code status mine = .noisy) :
    code = 42 ∧ status = some .noisy ∧ mine = true := by
  by_cases hcode : code = 42
  · by_cases hnoisy : status = some .noisy ∧ mine = true
    · exact ⟨hcode, hnoisy⟩
    · simp [stageOutcome, hcode, hnoisy] at h
  · unfold stageOutcome at h
    rw [if_neg hcode] at h
    split_ifs at h

theorem plainOutcome_ne_noisy (stage : Job) (code : ℕ) : plainOutcome stage code ≠ .noisy := by
  unfold plainOutcome
  split_ifs <;> decide

/-- What `classify` found: nothing but a verified contamination is noisy. -/
theorem runs_classify {status : Option JobStatus} {record : Option JobRecord} {lost : Bool}
    (seen : .record e.key record ∈ n.seen) :
    (lockView p).Runs (classify e status record lost : Prog (Cluster N H Q) Halt _) n
      fun kind n' => n'.ledger = n.ledger ∧ n'.reports = n.reports ∧
        (e.status = .unreconciled → kind = .lost) ∧ (kind = .noisy → Contaminated n' e) := by
  unfold classify
  by_cases hlost : lost = true ∨ e.status = .unreconciled
  · rw [if_pos hlost]
    exact .pure _ ⟨rfl, rfl, fun _ => rfl, nofun⟩
  rw [if_neg hlost]
  have known : e.status ≠ .unreconciled := fun h => hlost (.inr h)
  cases record with
  | none =>
      refine .pure _ ⟨rfl, rfl, fun h => absurd h known, fun h => ?_⟩
      cases hexit : status.any (·.state == .EXIT) <;> rw [hexit] at h <;> cases h
  | some r =>
      dsimp only
      cases hstage : e.stage.toStage with
      | none =>
          refine .pure _ ⟨rfl, rfl, fun h => absurd h known, fun h => ?_⟩
          exact absurd h (plainOutcome_ne_noisy _ _)
      | some s =>
          refine .bind (runs_stageState fun state invoker => ?_)
          refine .pure _ ⟨rfl, rfl, fun h => absurd h known, fun h => ?_⟩
          obtain ⟨hcode, rfl, hmine⟩ := stageOutcome_noisy h
          obtain rfl := beq_iff_eq.mp hmine
          exact ⟨r, s, List.mem_append_left _ seen, hcode, hstage, by simp [Notes.sighted]⟩

theorem cancelledKind_cases (cancelled : Bool) (kind : OutcomeKind) :
    cancelledKind cancelled kind = kind ∨ cancelledKind cancelled kind = .cancelled := by
  unfold cancelledKind
  split_ifs
  · exact .inr rfl
  · exact .inl rfl

theorem runs_settle {status : Option JobStatus} {lost cancelled : Bool}
    (found : n.ledger.job key = some e)
    (due : e.stage = .manager ∨ e.status = .unreconciled ∨ e.status = .submitted ∧ Ended n e) :
    (lockView p).Runs (settle key status lost cancelled : Prog (Cluster N H Q) Halt Unit) n
      fun _ n' => Apart key n n' := by
  obtain rfl := (Ledger.mem_of_job found).2
  refine .bind (runs_entryOf fun e' found' => ?_)
  obtain rfl := Option.some.inj (found.symm.trans found')
  refine .bind (runs_outcomeRecord fun record => ?_)
  refine .andThen (runs_classify (by simp [Notes.sighted])) ?_
  rintro kind n' ⟨hledger, hreports, hlost, hnoisy⟩
  have found' : n'.ledger.job e.key = some e := hledger ▸ found
  have hcancelled := cancelledKind_cases cancelled kind
  have step : EntryStep n' e (e.settled status record (cancelledKind cancelled kind)) := by
    by_cases hmanager : e.stage = .manager
    · exact .manager hmanager rfl
    refine .settled _ _ _ ?_ ?_ ?_
    · refine (due.resolve_left hmanager).imp_right ?_
      rintro ⟨hs, id, s, hid, hmem, hterminal⟩
      refine ⟨hs, id, s, hid, ?_, hterminal⟩
      rw [hreports]
      exact hmem
    · intro hs
      rcases hcancelled with hk | hk
      · exact .inl (hk.trans (hlost hs))
      · exact .inr hk
    · intro hk
      rcases hcancelled with hsame | hsame
      · exact hnoisy (hsame.symm.trans hk)
      · rw [hsame] at hk
        cases hk
  refine .bind (runs_save (.entry found' step) (runs_writeReport ?_))
  exact (Apart.of_ledger hledger).trans (Apart.update (n := n') fun _ => rfl)

/-- Settle a submitted job whose end was reported. -/
theorem runs_settle_reported {s : JobStatus} {status : Option JobStatus} {cancelled : Bool}
    (found : n.ledger.job key = some e) (due : e.stage = .manager ∨ e.status = .submitted)
    (reported : (e.job_id.getD "", s) ∈ n.reports) (terminal : s.terminal = true) :
    (lockView p).Runs (settle key status false cancelled : Prog (Cluster N H Q) Halt Unit) n
      fun _ n' => Apart key n n' := by
  refine .sound fun hsound => runs_settle found ?_
  by_cases hmanager : e.stage = .manager
  · exact .inl hmanager
  · have hs := due.resolve_left hmanager
    have hv := Sound.attested hsound e (Ledger.mem_of_job found).1 hmanager
    obtain ⟨id, hid⟩ := Option.ne_none_iff_exists'.mp (hv.submitted hs)
    rw [hid, Option.getD_some] at reported
    exact .inr (.inr ⟨hs, id, s, hid, reported, terminal⟩)

/-- Look up a submission by its name. -/
theorem runs_reconcileByName (found : n.ledger.job e.key = some e)
    (due : e.stage = .manager ∨ e.unsettled = true ∧ e.status ≠ .submitted) :
    (lockView p).Runs (reconcileByName S user e : Prog (Cluster N H Q) Halt Unit) n
      fun _ n' => Apart e.key n n' := by
  refine .bind (runs_findJobs fun answer => ?_)
  cases answer with
  | error _ => exact .pure _ (.of_ledger rfl)
  | ok listed =>
      dsimp only
      split
      · rename_i first extra _
        have step : EntryStep n e { e with status := .submitted, job_id := some first.job_id } := by
          by_cases hmanager : e.stage = .manager
          · exact .manager hmanager rfl
          · obtain ⟨hopen, hunknown⟩ := due.resolve_left hmanager
            exact .found first.job_id hopen hunknown
        refine .bind (runs_save (.entry found step) ?_)
        refine .each (fun _ n' => Apart e.key n n') (fun x rest n' h => runs_cancelJob h) ?_
        exact Apart.update fun _ => rfl
      · refine .bind (runs_clock fun silent => runs_save (.entry found ?_) ?_)
        · by_cases hmanager : e.stage = .manager
          · exact .manager hmanager rfl
          · obtain ⟨hopen, hunknown⟩ := due.resolve_left hmanager
            have step := EntryStep.missing (n := n) (e := e) (e.name_lookups + 1)
              (decide (NAME_LOOKUPS ≤ e.name_lookups + 1 ∧ silent)) hopen hunknown
            simpa only [decide_eq_true_eq] using step
        · exact Apart.update fun _ => rfl

theorem runs_poll (found : n.ledger.job e.key = some e)
    (due : e.stage = .manager ∨ e.status = .submitted) :
    (lockView p).Runs (poll S e : Prog (Cluster N H Q) Halt Bool) n
      fun _ n' => Apart e.key n n' := by
  have settles : ∀ {n' : Notes} {s : JobStatus}, n'.ledger = n.ledger →
      (e.job_id.getD "", s) ∈ n'.reports → s.terminal = true →
      (lockView p).Runs (do
        settle e.key (some s) false false
        pure true : Prog (Cluster N H Q) Halt Bool) n' fun _ n' => Apart e.key n n' := by
    intro n' s hledger hmem hterminal
    have found' : n'.ledger.job e.key = some e := hledger ▸ found
    exact .andThen (runs_settle_reported found' due hmem hterminal) fun _ n'' h =>
      .pure _ ((Apart.of_ledger hledger).trans h)
  refine .bind (runs_queryJob fun answer => ?_)
  cases answer with
  | error _ => exact .bind (runs_account rfl rfl (.pure _ (.of_ledger rfl)))
  | ok status =>
      dsimp only
      split_ifs with hgone hterminal
      · refine .bind (runs_jobHistory fun answer hterminal => ?_)
        cases answer with
        | some s => exact settles rfl (by simp [Notes.reported]) (hterminal s rfl)
        | none =>
            refine .bind (runs_clock fun lost => ?_)
            cases lost with
            | false => exact .pure _ (.of_ledger rfl)
            | true =>
                set n' := (n.reported (e.job_id.getD "") (Except.ok status).toOption).reported
                  (e.job_id.getD "") none
                have step : EntryStep n' e { e with status := .unreconciled } := by
                  by_cases hmanager : e.stage = .manager
                  · exact .manager hmanager rfl
                  · exact .lost (due.resolve_left hmanager)
                have found' : n'.ledger.job e.key = some e := found
                refine .bind (runs_save (.entry found' step) ?_)
                have apart : Apart e.key n' (n'.update e.key fun e =>
                  { e with status := .unreconciled }) := Apart.update fun _ => rfl
                exact .andThen (runs_settle (Ledger.job_update found' fun _ => rfl)
                  (.inr (.inl rfl))) fun _ n'' h => .pure _ (apart.trans h)
      · exact settles rfl (by simp [Notes.reported, Except.toOption]) hterminal
      · exact .pure _ (.of_ledger rfl)

/-- The entry of a key, if it has one, may still be settled. -/
def Notes.Open (n : Notes) (key : String) : Prop :=
  ∀ e, n.ledger.job key = some e → e.stage = .manager ∨ e.unsettled = true

/-- The entry of a key, if it has one, is a submitted job. -/
def Notes.Submitted (n : Notes) (key : String) : Prop :=
  ∀ e, n.ledger.job key = some e → e.stage = .manager ∨ e.status = .submitted

theorem Notes.Open.apart {n' : Notes} {k : String} (h : n.Open k) (apart : Apart key n n')
    (hk : k ≠ key) : n'.Open k := by
  intro e he
  exact h e (apart k hk ▸ he)

theorem Notes.Submitted.apart {n' : Notes} {k : String} (h : n.Submitted k)
    (apart : Apart key n n') (hk : k ≠ key) : n'.Submitted k := by
  intro e he
  exact h e (apart k hk ▸ he)

theorem runs_observe :
    (lockView p).Runs (observe S user key : Prog (Cluster N H Q) Halt Bool) n
      fun _ _ => True := by
  refine .bind (runs_entryOf fun e found => ?_)
  obtain rfl := (Ledger.mem_of_job found).2
  have polled : ∀ {n : Notes} {e' : Entry}, n.ledger.job e.key = some e' →
      e'.status = .submitted →
      (lockView p).Runs (poll S e' : Prog (Cluster N H Q) Halt Bool) n fun _ _ => True := by
    intro n e' found hs
    obtain hkey := (Ledger.mem_of_job found).2
    exact (runs_poll (hkey ▸ found) (.inr hs)).mono fun _ _ _ _ => trivial
  split_ifs with hnew hactive
  · have hopen : e.unsettled = true ∧ e.status ≠ .submitted := by
      rw [Entry.unsettled_iff]
      rcases hnew with h | h <;> simp [h]
    refine .andThen (runs_reconcileByName found (.inr hopen)) fun _ n' _ => ?_
    refine .bind (runs_entryOf fun e' found' => ?_)
    by_cases hlost : e'.status = .unreconciled
    · rw [if_pos hlost]
      exact .andThen (runs_settle found' (.inr (.inl hlost))) fun _ _ _ => .pure _ trivial
    rw [if_neg hlost]
    by_cases hs : e'.status = .submitted
    · rw [if_neg (not_not.mpr hs)]
      exact polled found' hs
    · rw [if_pos hs]
      exact .pure _ trivial
  · exact .pure _ trivial
  · refine polled found ?_
    cases hs : e.status <;> simp_all [ACTIVE]

theorem runs_observeAll {keys : List String} :
    (lockView p).Runs (observeAll S user keys : Prog (Cluster N H Q) Halt _) n
      fun _ _ => True := by
  refine .fold (fun _ _ _ => True) (fun pending key rest n _ => ?_) trivial
  exact .andThen runs_observe fun _ _ _ => .pure _ trivial

theorem runs_wait (rounds : ℕ) {keys : List String} :
    (lockView p).Runs (wait S user rounds keys : Prog (Cluster N H Q) Halt Unit) n
      fun _ _ => True := by
  induction rounds generalizing keys n with
  | zero =>
      cases keys with
      | nil => exact .pure _ trivial
      | cons key rest => exact .never
  | succ rounds ih =>
      cases keys with
      | nil => exact .pure _ trivial
      | cons key rest =>
          refine .andThen runs_observeAll fun pending n' _ => ?_
          split_ifs with hdone
          · exact .pure _ trivial
          · refine .bind (runs_clock fun late => ?_)
            cases late with
            | true => exact .throw _
            | false => exact ih

theorem runs_reconcileJob (hopen : n.Open key) :
    (lockView p).Runs (reconcileJob S user key : Prog (Cluster N H Q) Halt Unit) n
      fun _ n' => Apart key n n' := by
  refine .bind (runs_entryOf fun e found => ?_)
  obtain rfl := (Ledger.mem_of_job found).2
  by_cases hs : e.status = .submitted
  · rw [if_neg (not_not.mpr hs)]
    refine .andThen runs_currentStatus ?_
    rintro answer n' ⟨hledger, hreported⟩
    have found' : n'.ledger.job e.key = some e := hledger ▸ found
    cases answer with
    | error _ => exact .pure _ (.of_ledger hledger)
    | ok status =>
        dsimp only
        split_ifs with hterminal
        · exact (runs_settle_reported found' (.inr hs) (hreported _ rfl hterminal) hterminal).mono
            fun _ _ _ h => (Apart.of_ledger hledger).trans h
        · exact .pure _ (.of_ledger hledger)
  · rw [if_pos hs]
    exact runs_reconcileByName found ((hopen e found).imp_right fun h => ⟨h, hs⟩)

/-- The keys of the ledger's entries are distinct. -/
theorem Sound.owned_nodup (h : Sound n) (manager : Bool) :
    ((n.ledger.owned manager).map (·.key)).Nodup := by
  have keys : n.ledger.jobs.Pairwise fun a b => a.key ≠ b.key := h.ordered.imp (·.key)
  exact List.pairwise_map.mpr (keys.sublist List.filter_sublist)

theorem Sound.owned_open (h : Sound n) (manager : Bool) :
    ∀ k ∈ (n.ledger.owned manager).map (·.key), n.Open k := by
  intro k hk e found
  obtain ⟨x, hx, rfl⟩ := List.mem_map.mp hk
  simp only [Ledger.owned, List.mem_filter, Bool.and_eq_true] at hx
  rw [h.job_of_mem hx.1] at found
  exact .inr (Option.some.inj found ▸ hx.2.1)

theorem runs_reconcile :
    (lockView p).Runs (reconcile S user : Prog (Cluster N H Q) Halt Unit) n
      fun _ _ => True := by
  refine .sound fun hsound => .bind (runs_consult ?_)
  have round := View.Runs.each (O := lockView (N := N) (H := H) (Q := Q) p) (ε := Halt)
    (f := reconcileJob S user) (fun keys n => keys.Nodup ∧ ∀ k ∈ keys, n.Open k)
    (fun key rest n h => ?_) ⟨hsound.owned_nodup false, hsound.owned_open false⟩
  · exact round.mono fun _ _ _ _ => trivial
  · obtain ⟨hnodup, hopen⟩ := h
    obtain ⟨hkey, hrest⟩ := List.nodup_cons.mp hnodup
    refine (runs_reconcileJob (hopen key List.mem_cons_self)).mono fun _ n' _ h => ?_
    refine ⟨hrest, fun k hk => (hopen k (List.mem_cons_of_mem _ hk)).apart h ?_⟩
    rintro rfl
    exact hkey hk

theorem runs_cancelChecked (found : n.ledger.job key = some e)
    (due : e.stage = .manager ∨ e.status = .submitted) :
    (lockView p).Runs (cancelChecked S user key e : Prog (Cluster N H Q) Halt Bool) n
      fun asked n' => Apart key n n' ∧ (asked = true → n'.Submitted key) := by
  refine .andThen runs_currentStatus ?_
  rintro answer n' ⟨hledger, hreported⟩
  have found' : n'.ledger.job key = some e := hledger ▸ found
  cases answer with
  | error _ => exact .pure _ ⟨.of_ledger hledger, nofun⟩
  | ok status =>
      dsimp only
      split_ifs with hterminal hforeign
      · refine .andThen (runs_settle_reported found' due (hreported _ rfl hterminal) hterminal)
          fun _ _ h => .pure _ ⟨(Apart.of_ledger hledger).trans h, nofun⟩
      · exact .pure _ ⟨.of_ledger hledger, nofun⟩
      · refine .bind (runs_cancelJob (.bind (runs_account rfl rfl (.pure _ ?_))))
        refine ⟨.of_ledger hledger, fun _ e' he' => ?_⟩
        rwa [← Option.some.inj (found'.symm.trans he')]

theorem runs_cancelOne (hopen : n.Open key) :
    (lockView p).Runs (cancelOne S user key : Prog (Cluster N H Q) Halt Bool) n
      fun asked n' => Apart key n n' ∧ (asked = true → n'.Submitted key) := by
  refine .bind (runs_entryOf fun e found => ?_)
  obtain rfl := (Ledger.mem_of_job found).2
  by_cases hs : e.status = .submitted
  · rw [if_neg (not_not.mpr hs)]
    exact runs_cancelChecked found (.inr hs)
  · rw [if_pos hs]
    refine .andThen (runs_reconcileByName found ((hopen e found).imp_right fun h => ⟨h, hs⟩))
      fun _ n' apart => ?_
    refine .bind (runs_entryOf fun e' found' => ?_)
    by_cases hs' : e'.status = .submitted
    · rw [if_neg (not_not.mpr hs')]
      exact (runs_cancelChecked found' (.inr hs')).mono fun _ _ _ h => ⟨apart.trans h.1, h.2⟩
    · rw [if_pos hs']
      exact .pure _ ⟨apart, nofun⟩

theorem runs_confirmEnd (due : n.Submitted key) :
    (lockView p).Runs (confirmEnd S key : Prog (Cluster N H Q) Halt Bool) n
      fun done n' => Apart key n n' ∧ (done = false → n'.Submitted key) := by
  refine .bind (runs_entryOf fun e found => ?_)
  refine .andThen runs_currentStatus ?_
  rintro answer n' ⟨hledger, hreported⟩
  have found' : n'.ledger.job key = some e := hledger ▸ found
  have due' : n'.Submitted key := fun e' he' => due e' (hledger ▸ he')
  cases answer with
  | error _ => exact .pure _ ⟨.of_ledger hledger, fun _ => due'⟩
  | ok status =>
      dsimp only
      split_ifs with hterminal
      · exact .andThen (runs_settle_reported found' (due e found) (hreported _ rfl hterminal)
          hterminal) fun _ _ h => .pure _ ⟨(Apart.of_ledger hledger).trans h, nofun⟩
      · exact .pure _ ⟨.of_ledger hledger, fun _ => due'⟩

/-- Keys taken from a list one by one, each a submitted job, the others still in `P`. -/
structure Collecting (P : Notes → String → Prop) (taken rest : List String) (n : Notes) :
    Prop where
  nodup : (taken ++ rest).Nodup
  taken : ∀ k ∈ taken, n.Submitted k
  rest : ∀ k ∈ rest, P n k

theorem Collecting.round {P : Notes → String → Prop} {taken rest : List String} {n n' : Notes}
    (h : Collecting P taken (key :: rest) n) (apart : Apart key n n')
    (stable : ∀ k, k ≠ key → P n k → P n' k) (keep : Bool)
    (mine : keep = true → n'.Submitted key) :
    Collecting P (if keep then taken ++ [key] else taken) rest n' := by
  have hnodup := h.nodup
  rw [List.nodup_append, List.nodup_cons] at hnodup
  obtain ⟨htaken, ⟨hkey, hrest⟩, hdisjoint⟩ := hnodup
  have hother : ∀ k ∈ taken, n'.Submitted k := fun k hk =>
    (h.taken k hk).apart apart (hdisjoint k hk key List.mem_cons_self)
  refine ⟨?_, ?_, fun k hk => stable k ?_ (h.rest k (List.mem_cons_of_mem _ hk))⟩
  · cases keep with
    | true => simpa using h.nodup
    | false => exact h.nodup.sublist ((List.sublist_cons_self _ _).append_left _)
  · cases keep with
    | true =>
        intro k hk
        rcases List.mem_append.mp hk with hk | hk
        · exact hother k hk
        · obtain rfl := List.mem_singleton.mp hk
          exact mine rfl
    | false => exact hother
  · rintro rfl
    exact hkey hk

theorem runs_confirmAll (rounds : ℕ) {keys : List String} (hnodup : keys.Nodup)
    (due : ∀ k ∈ keys, n.Submitted k) :
    (lockView p).Runs (confirmAll S rounds keys : Prog (Cluster N H Q) Halt Unit) n
      fun _ _ => True := by
  induction rounds generalizing keys n with
  | zero =>
      cases keys with
      | nil => exact .pure _ trivial
      | cons key rest => exact .never
  | succ rounds ih =>
      cases keys with
      | nil => exact .pure _ trivial
      | cons key rest =>
          refine .bind (runs_clock fun late => ?_)
          cases late with
          | true => exact .pure _ trivial
          | false =>
              have start : Collecting Notes.Submitted [] (key :: rest) n := ⟨hnodup, nofun, due⟩
              refine .andThen (View.Runs.fold (Collecting Notes.Submitted) ?_ start) ?_
              · rintro pending key rest n h
                refine .andThen (runs_confirmEnd (h.rest key List.mem_cons_self)) ?_
                rintro done n' ⟨apart, mine⟩
                have next := h.round apart (fun k hk hs => hs.apart apart hk) (!done)
                  (by simpa using mine)
                refine .pure _ ?_
                cases done with
                | true => exact next
                | false => exact next
              · rintro pending n' h
                have hdone := h.nodup
                rw [List.append_nil] at hdone
                exact ih hdone h.taken

theorem runs_cancelOwned (rounds : ℕ) (manager : Bool) :
    (lockView p).Runs (cancelOwned S user rounds manager : Prog (Cluster N H Q) Halt Unit) n
      fun _ _ => True := by
  refine .sound fun hsound => .bind (runs_consult ?_)
  have start : Collecting Notes.Open [] ((n.ledger.owned manager).map (·.key)) n :=
    ⟨hsound.owned_nodup manager, nofun, hsound.owned_open manager⟩
  refine .andThen (View.Runs.fold (Collecting Notes.Open) ?_ start) ?_
  · rintro targets key rest n h
    refine .andThen (runs_cancelOne (h.rest key List.mem_cons_self)) ?_
    rintro asked n' ⟨apart, mine⟩
    exact .pure _ (h.round apart (fun k hk ho => ho.apart apart hk) asked mine)
  · rintro targets n' h
    have htargets := h.nodup
    rw [List.append_nil] at htargets
    exact runs_confirmAll rounds htargets h.taken

end Settle

end TranspileBench.Lsf
