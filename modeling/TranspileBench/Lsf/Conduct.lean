import TranspileBench.Lsf.Pipeline

/-!
What one step of a manager, of `reap` or of a resume may do to the ledger and to the records
of what the scheduler said, and the invariant that every such step keeps.
-/
namespace TranspileBench.Lsf
open Coordinator Evaluator

/-- The ledger with the history that vouches for it. -/
structure Notes where
  ledger : Ledger
  run_id : String
  submitted : List (String × SubmitOutcome)
  reports : List (String × JobStatus)
  seen : List Sighting
  decided : List Ledger
  cleaned : List Ledger

def Cluster.notes {N H Q : Type} (w : Cluster N H Q) : Notes :=
  ⟨w.ledger, w.site.launch.run_id, w.site.submitted, w.site.reports, w.seen, w.decided, w.cleaned⟩

/-- What `bsub` answered to the submissions under a name. -/
def Notes.answers (n : Notes) (name : String) : List SubmitOutcome :=
  (n.submitted.filter (·.1 == name)).map (·.2)

/-- No job but a manager's may still be in the scheduler. -/
def Ledger.Quiet (l : Ledger) : Prop := ∀ e ∈ l.jobs, e.stage ≠ .manager → e.unsettled = false

theorem Ledger.quiet_of_owned {l : Ledger} (h : l.owned false = []) : l.Quiet := by
  intro e he hstage
  have hnot : e ∉ l.owned false := by simp [h]
  simpa [Ledger.owned, he, hstage] using hnot

/-- A recorded exit 42 together with a noisy state of the stage by the same job. -/
def Contaminated (n : Notes) (e : Entry) : Prop :=
  ∃ r s, .record e.key (some r) ∈ n.seen ∧ r.exit_code = 42 ∧ e.stage.toStage = some s ∧
    .state s (some .noisy) (some e.key) ∈ n.seen

/-- `bjobs` or `bhist` said of the entry's own job that it ended. -/
def Ended (n : Notes) (e : Entry) : Prop :=
  ∃ id s, e.job_id = some id ∧ (id, s) ∈ n.reports ∧ s.terminal = true

/-- What identifies an entry for ever. -/
def Entry.identity (e : Entry) : String × Job × Option ℕ × String × ℕ :=
  (e.key, e.stage, e.attempt, e.name, e.epoch)

inductive EntryStep (n : Notes) (e : Entry) : Entry → Prop
  | manager {e' : Entry} (stage : e.stage = .manager) (same : e'.identity = e.identity) :
      EntryStep n e e'
  | accepted (job_id : String) (reserved : e.status = .reserved) :
      EntryStep n e { e with status := .submitted, job_id := some job_id }
  | unanswered (reserved : e.status = .reserved) :
      EntryStep n e { e with status := .ambiguous, name_lookups := 0 }
  | rejected (reserved : e.status = .reserved)
      (answers : n.answers e.name = List.replicate MAX_REJECTIONS .rejected) :
      EntryStep n e { e with status := .rejected }
  | found (job_id : String) (unsettled : e.unsettled = true) (unknown : e.status ≠ .submitted) :
      EntryStep n e { e with status := .submitted, job_id := some job_id }
  | missing (lookups : ℕ) (given_up : Bool) (unsettled : e.unsettled = true)
      (unknown : e.status ≠ .submitted) :
      EntryStep n e { e with
        name_lookups := lookups
        status := if given_up ∨ e.status = .unreconciled then .unreconciled else e.status }
  | lost (submitted : e.status = .submitted) : EntryStep n e { e with status := .unreconciled }
  | settled (status : Option JobStatus) (record : Option JobRecord) (kind : OutcomeKind)
      (ended : e.status = .unreconciled ∨ e.status = .submitted ∧ Ended n e)
      (lost : e.status = .unreconciled → kind = .lost ∨ kind = .cancelled)
      (noisy : kind = .noisy → Contaminated n e) :
      EntryStep n e (e.settled status record kind)

/-- When a job may be reserved: nothing of its stage may still run, and only cost jobs follow
others in an epoch, a noisy one within the budget. -/
structure Reservable (l : Ledger) (stage : Job) (attempt : Option ℕ) : Prop where
  quiet : ∀ e ∈ l.jobs, e.stage = stage → e.unsettled = false
  once : stage ≠ .cost → ∀ e ∈ l.jobs, e.stage = stage → e.epoch = l.epoch → e.status = .rejected
  rising : stage = .cost → ∀ e ∈ l.jobs, e.stage = .cost → e.attempt.getD 0 < attempt.getD 0
  budget : stage = .cost → l.budgetUsed < MAX_COST_ATTEMPTS
  noisy : stage = .cost →
    (∀ e ∈ l.jobs, e.stage = .cost → e.epoch = l.epoch → e.status = .rejected) ∨
      ∃ e ∈ l.jobs, e.stage = .cost ∧ e.epoch = l.epoch ∧ e.status = .terminal ∧
        e.outcome.map (·.kind) = some .noisy ∧
        ∀ e' ∈ l.jobs, e'.stage = .cost → e'.epoch = l.epoch → e'.status ≠ .rejected →
          e'.attempt.getD 0 ≤ e.attempt.getD 0

inductive Step : Notes → Notes → Prop
  | account {n : Notes} {l : Ledger} (jobs : l.jobs = n.ledger.jobs)
      (resumes : l.resumes = n.ledger.resumes) : Step n { n with ledger := l }
  | entry {n : Notes} {e : Entry} {f : Entry → Entry} (found : n.ledger.job e.key = some e)
      (step : EntryStep n e (f e)) : Step n { n with ledger := n.ledger.update e.key f }
  | reserve {n : Notes} {e : Entry} {l : Ledger} (reserved : n.ledger.reserve e = some l)
      (fresh : e.status = .reserved) (blank : e.outcome = none ∧ e.consumes_budget = none)
      (name : e.name = jobName n.run_id e.key)
      (due : e.stage = .manager ∨ Reservable n.ledger e.stage e.attempt) :
      Step n { n with ledger := l }
  | resume {n : Notes} (quiet : n.ledger.Quiet) (manager : String) (pending : List String)
      (amendment : Option ℕ) :
      Step n { n with ledger := n.ledger.beginEpoch manager pending amendment }
  | submitted {n : Notes} {e : Entry} (mem : e ∈ n.ledger.jobs) (reserved : e.status = .reserved)
      (alone : e.stage = .clean →
        ∀ x ∈ n.ledger.jobs, x ≠ e → x.stage ≠ .manager → x.unsettled = false)
      (answer : SubmitOutcome) : Step n { n with submitted := n.submitted ++ [(e.name, answer)] }
  | reported {n : Notes} (id : String) (status : Option JobStatus) :
      Step n { n with reports := n.reports ++ status.toList.map fun s => (id, s) }
  | seen {n : Notes} (s : Sighting) : Step n { n with seen := n.seen ++ [s] }
  | decided {n : Notes} (quiet : n.ledger.Quiet) : Step n
      { n with decided := n.decided ++ [n.ledger] }
  | cleaned {n : Notes} (quiet : n.ledger.Quiet) : Step n
      { n with cleaned := n.cleaned ++ [n.ledger] }

/-- What the history says of an entry. -/
structure Attested (n : Notes) (e : Entry) : Prop where
  submitted : e.status = .submitted → e.job_id ≠ none
  terminal : e.status = .terminal → Ended n e
  rejected : e.status = .rejected → n.answers e.name = List.replicate MAX_REJECTIONS .rejected
  noisy : e.outcome.map (·.kind) = some .noisy → e.status = .terminal ∧ Contaminated n e
  counted : e.unsettled = true → e.consumes_budget ≠ some false

/-- A cost entry that uses up one attempt of its epoch. -/
def Entry.consumes (e : Entry) (epoch : ℕ) : Bool :=
  e.stage == .cost && e.epoch == epoch && e.status != .rejected
    && (CONSUMING.contains e.status && e.consumes_budget != some false)

/-- What holds of two entries, one reserved before the other. -/
structure Ordered (a b : Entry) : Prop where
  key : a.key ≠ b.key
  epoch : a.epoch ≤ b.epoch
  settled : a.stage = b.stage → a.stage ≠ .manager → a.unsettled = false
  once : a.stage = b.stage → a.stage ≠ .manager → a.stage ≠ .cost → a.epoch = b.epoch →
    a.status = .rejected
  rising : a.stage = .cost → b.stage = .cost → a.attempt.getD 0 < b.attempt.getD 0

structure Sound (n : Notes) : Prop where
  ordered : n.ledger.jobs.Pairwise Ordered
  named : ∀ e ∈ n.ledger.jobs, e.name = jobName n.run_id e.key
  known : ∀ x ∈ n.submitted, ∃ e ∈ n.ledger.jobs, e.name = x.1
  epoch : ∀ e ∈ n.ledger.jobs, e.epoch ≤ n.ledger.epoch
  past : ∀ e ∈ n.ledger.jobs, e.stage ≠ .manager → e.epoch < n.ledger.epoch → e.unsettled = false
  attested : ∀ e ∈ n.ledger.jobs, e.stage ≠ .manager → Attested n e
  budget : ∀ epoch, n.ledger.jobs.countP (·.consumes epoch) ≤ MAX_COST_ATTEMPTS
  decided : ∀ l ∈ n.decided, l.Quiet
  cleaned : ∀ l ∈ n.cleaned, l.Quiet

/-! ## Entries -/

theorem Entry.unsettled_iff (e : Entry) :
    e.unsettled = true ↔ e.status ≠ .terminal ∧ e.status ≠ .rejected := by
  cases h : e.status <;> simp [Entry.unsettled, ACTIVE, h]

theorem jobName_inj {run_id a b : String} (h : jobName run_id a = jobName run_id b) : a = b := by
  have hlist := congrArg String.toList h
  simp only [jobName, String.toList_append, List.append_cancel_left_eq] at hlist
  exact String.toList_inj.mp hlist

section EntryStep
variable {n : Notes} {e e' : Entry}

theorem EntryStep.identity (h : EntryStep n e e') : e'.identity = e.identity := by
  cases h with
  | manager _ same => exact same
  | _ => rfl

/-- A settled entry never changes again. -/
theorem EntryStep.unsettled (h : EntryStep n e e') (hstage : e.stage ≠ .manager) :
    e.unsettled = true := by
  rw [Entry.unsettled_iff]
  cases h with
  | manager stage _ => exact absurd stage hstage
  | accepted _ reserved | unanswered reserved | rejected reserved _ => simp [reserved]
  | found _ unsettled _ | missing _ _ unsettled _ => exact e.unsettled_iff.mp unsettled
  | lost submitted => simp [submitted]
  | settled _ _ _ ended _ _ =>
      rcases ended with h | ⟨h, -⟩ <;> simp [h]

theorem EntryStep.attested (h : EntryStep n e e') (hstage : e.stage ≠ .manager)
    (hv : Attested n e) : Attested n e' := by
  have hopen := h.unsettled hstage
  have hclosed := e.unsettled_iff.mp hopen
  have hnoisy : e.outcome.map (·.kind) ≠ some .noisy := fun hn => hclosed.1 (hv.noisy hn).1
  have hcounted := hv.counted hopen
  cases h with
  | manager stage _ => exact absurd stage hstage
  | accepted | unanswered | found | lost =>
      exact ⟨by simp, by simp, by simp, fun hn => absurd hn hnoisy, fun _ => hcounted⟩
  | rejected _ answers =>
      exact ⟨by simp, by simp, fun _ => answers, fun hn => absurd hn hnoisy, fun _ => hcounted⟩
  | missing _ given_up _ unknown =>
      refine ⟨?_, ?_, ?_, fun hn => absurd hn hnoisy, fun _ => hcounted⟩ <;>
        (dsimp only; split_ifs <;> simp_all)
  | settled status record kind ended lost noisy =>
      have hkind : (e.settled status record kind).outcome.map (·.kind) = some kind := rfl
      by_cases hlost : e.status = .unreconciled
      · refine ⟨by simp [Entry.settled, hlost], by simp [Entry.settled, hlost],
          by simp [Entry.settled, hlost], fun hn => ?_, fun _ => ?_⟩
        · rw [hkind] at hn
          rcases lost hlost with rfl | rfl <;> cases hn
        · rcases lost hlost with rfl | rfl <;> simp [Entry.settled]
      · have hended : Ended n e := (ended.resolve_left hlost).2
        refine ⟨by simp [Entry.settled, hlost], fun _ => hended, by simp [Entry.settled, hlost],
          fun hn => ⟨by simp [Entry.settled, hlost], ?_⟩, fun hu => ?_⟩
        · rw [hkind] at hn
          exact noisy (Option.some.inj hn)
        · exact absurd (by simp [Entry.settled, hlost])
            ((e.settled status record kind).unsettled_iff.mp hu).1

theorem EntryStep.consumes (h : EntryStep n e e') (hv : e.stage ≠ .manager → Attested n e)
    (epoch : ℕ) : e'.consumes epoch = true → e.consumes epoch = true := by
  intro hc
  have hidentity := h.identity
  simp only [Entry.identity, Prod.mk.injEq] at hidentity
  obtain ⟨-, hstage, -, -, hepoch⟩ := hidentity
  simp only [Entry.consumes, Bool.and_eq_true, beq_iff_eq] at hc
  obtain ⟨⟨⟨hcost, hk⟩, -⟩, -⟩ := hc
  have hmanager : e.stage ≠ .manager := by
    rw [← hstage, hcost]
    decide
  have hopen := h.unsettled hmanager
  have hcounted := (hv hmanager).counted hopen
  have hclosed := e.unsettled_iff.mp hopen
  have hstatus : CONSUMING.contains e.status = true := by
    cases hs : e.status <;> simp_all [CONSUMING]
  simp only [Entry.consumes, ← hstage, hcost, ← hepoch, hk, hstatus]
  simp [hclosed.2, hcounted]

end EntryStep

/-! ## Ledgers -/

namespace Ordered
variable {n : Notes} {a a' b b' : Entry}

theorem congr (h : Ordered a b) (ha : a' = a ∨ EntryStep n a a') (hb : b' = b ∨ EntryStep n b b') :
    Ordered a' b' := by
  have hidb : b'.identity = b.identity := hb.elim (fun h => h ▸ rfl) (·.identity)
  have hida : a'.identity = a.identity := ha.elim (fun h => h ▸ rfl) (·.identity)
  simp only [Entry.identity, Prod.mk.injEq] at hida hidb
  obtain ⟨hak, has, haa, -, hae⟩ := hida
  obtain ⟨hbk, hbs, hba, -, hbe⟩ := hidb
  -- a settled entry is as it was
  have hsame : a.stage ≠ .manager → a.unsettled = false → a' = a := by
    intro hstage hsettled
    rcases ha with ha | ha
    · exact ha
    · rw [ha.unsettled hstage] at hsettled
      cases hsettled
  constructor
  · rw [hak, hbk]
    exact h.key
  · rw [hae, hbe]
    exact h.epoch
  · rw [has, hbs]
    intro hstage hmanager
    have hsettled := h.settled hstage hmanager
    rw [hsame hmanager hsettled, hsettled]
  · rw [has, hbs, hae, hbe]
    intro hstage hmanager hcost hepoch
    rw [hsame hmanager (h.settled hstage hmanager)]
    exact h.once hstage hmanager hcost hepoch
  · rw [has, hbs, haa, hba]
    exact h.rising

end Ordered

theorem Attested.mono {n n' : Notes} {e : Entry} (h : Attested n e)
    (answers : e.status = .rejected → n'.answers e.name = n.answers e.name)
    (reports : ∀ x ∈ n.reports, x ∈ n'.reports) (seen : ∀ x ∈ n.seen, x ∈ n'.seen) :
    Attested n' e where
  submitted := h.submitted
  terminal hs := by
    obtain ⟨id, s, hid, hmem, hs⟩ := h.terminal hs
    exact ⟨id, s, hid, reports _ hmem, hs⟩
  rejected hs := (answers hs).trans (h.rejected hs)
  noisy hn := by
    obtain ⟨hs, r, s, hr, hcode, hstage, hmem⟩ := h.noisy hn
    exact ⟨hs, r, s, seen _ hr, hcode, hstage, seen _ hmem⟩
  counted := h.counted

theorem Ledger.mem_of_job {l : Ledger} {key : String} {e : Entry} (h : l.job key = some e) :
    e ∈ l.jobs ∧ e.key = key :=
  ⟨List.mem_of_find?_eq_some h, by simpa using List.find?_some h⟩

@[simp]
theorem Ledger.update_epoch (l : Ledger) (key : String) (f : Entry → Entry) :
    (l.update key f).epoch = l.epoch := rfl

theorem Ledger.mem_update {l : Ledger} {key : String} {f : Entry → Entry} {e : Entry}
    (h : e ∈ (l.update key f).jobs) : ∃ x ∈ l.jobs, e = if x.key = key then f x else x := by
  obtain ⟨x, hx, rfl⟩ := List.mem_map.mp h
  exact ⟨x, hx, rfl⟩

/-- A reservation adds one entry of the current epoch, under a new key. -/
theorem Ledger.reserve_eq {l l' : Ledger} {e : Entry} (h : l.reserve e = some l') :
    (∀ x ∈ l.jobs, x.key ≠ e.key) ∧
      l' = { l with jobs := l.jobs ++ [{ e with epoch := l.epoch }] } := by
  unfold Ledger.reserve at h
  split_ifs at h with hkey
  refine ⟨fun x hx heq => hkey ?_, (Option.some.inj h).symm⟩
  rw [Ledger.job, List.find?_isSome]
  exact ⟨x, hx, by simpa using heq⟩

theorem Ledger.budgetUsed_eq (l : Ledger) : l.budgetUsed = l.jobs.countP (·.consumes l.epoch) := by
  rw [Ledger.budgetUsed, Ledger.costAttempts, (List.perm_insertionSort _ _).countP_eq,
    Ledger.ofStage, List.countP_filter, List.countP_filter]
  congr 1
  funext e
  simp only [Entry.consumes]
  ac_rfl

namespace Sound
variable {n : Notes} {e e' : Entry} {f : Entry → Entry}

theorem key_inj (h : Sound n) (he : e ∈ n.ledger.jobs) (he' : e' ∈ n.ledger.jobs)
    (hkey : e.key = e'.key) : e = e' := by
  have keys : n.ledger.jobs.Pairwise fun a b => a.key ≠ b.key := h.ordered.imp (·.key)
  exact List.inj_on_of_nodup_map (List.pairwise_map.mpr keys) he he' hkey

theorem name_inj (h : Sound n) (he : e ∈ n.ledger.jobs) (he' : e' ∈ n.ledger.jobs)
    (hname : e.name = e'.name) : e = e' := by
  rw [h.named e he, h.named e' he'] at hname
  exact h.key_inj he he' (jobName_inj hname)

theorem job_of_mem (h : Sound n) (he : e ∈ n.ledger.jobs) : n.ledger.job e.key = some e := by
  cases hfound : n.ledger.job e.key with
  | none =>
      rw [Ledger.job, List.find?_eq_none] at hfound
      exact absurd (beq_self_eq_true _) (hfound e he)
  | some x =>
      obtain ⟨hx, hkey⟩ := Ledger.mem_of_job hfound
      rw [h.key_inj hx he hkey]

/-- The entries after an update are those before it, one of them changed. -/
theorem update_cases (h : Sound n) (found : n.ledger.job e.key = some e)
    (step : EntryStep n e (f e)) (x : Entry) (hx : x ∈ n.ledger.jobs) :
    (if x.key = e.key then f x else x) = x ∨
      EntryStep n x (if x.key = e.key then f x else x) := by
  by_cases hkey : x.key = e.key
  · obtain rfl := h.key_inj hx (Ledger.mem_of_job found).1 hkey
    exact .inr (by simpa using step)
  · exact .inl (if_neg hkey)

theorem entry (h : Sound n) (found : n.ledger.job e.key = some e) (step : EntryStep n e (f e)) :
    Sound { n with ledger := n.ledger.update e.key f } := by
  have cases_ := h.update_cases found step
  have identity : ∀ x ∈ n.ledger.jobs, (if x.key = e.key then f x else x).identity = x.identity :=
    fun x hx => (cases_ x hx).elim (fun h => by rw [h]) (·.identity)
  simp only [Entry.identity, Prod.mk.injEq] at identity
  constructor
  · refine List.pairwise_map.mpr (h.ordered.imp_of_mem fun ha hb hab => ?_)
    exact hab.congr (cases_ _ ha) (cases_ _ hb)
  · intro x hx
    obtain ⟨y, hy, rfl⟩ := Ledger.mem_update hx
    rw [(identity y hy).1, (identity y hy).2.2.2.1]
    exact h.named y hy
  · intro x hx
    obtain ⟨y, hy, hname⟩ := h.known x hx
    exact ⟨_, List.mem_map_of_mem hy, (identity y hy).2.2.2.1.trans hname⟩
  · intro x hx
    obtain ⟨y, hy, rfl⟩ := Ledger.mem_update hx
    rw [(identity y hy).2.2.2.2]
    exact h.epoch y hy
  · intro x hx
    obtain ⟨y, hy, rfl⟩ := Ledger.mem_update hx
    rw [(identity y hy).2.1, (identity y hy).2.2.2.2]
    intro hstage hepoch
    have hsettled := h.past y hy hstage hepoch
    rcases cases_ y hy with heq | hstep
    · rw [heq, hsettled]
    · rw [hstep.unsettled hstage] at hsettled
      cases hsettled
  · intro x hx
    obtain ⟨y, hy, rfl⟩ := Ledger.mem_update hx
    rw [(identity y hy).2.1]
    intro hstage
    have hv := h.attested y hy hstage
    refine Attested.mono (n := n) ?_ (fun _ => rfl) (fun _ => id) fun _ => id
    rcases cases_ y hy with heq | hstep
    · rwa [heq]
    · exact hstep.attested hstage hv
  · intro epoch
    refine le_trans ?_ (h.budget epoch)
    change (n.ledger.jobs.map _).countP _ ≤ _
    rw [List.countP_map]
    refine List.countP_mono_left fun x hx hc => ?_
    rcases cases_ x hx with heq | hstep
    · simpa only [Function.comp, heq] using hc
    · exact hstep.consumes (h.attested x hx) epoch hc
  · exact h.decided
  · exact h.cleaned

theorem reserve {l : Ledger} (h : Sound n) (reserved : n.ledger.reserve e = some l)
    (fresh : e.status = .reserved) (blank : e.outcome = none ∧ e.consumes_budget = none)
    (name : e.name = jobName n.run_id e.key)
    (due : e.stage = .manager ∨ Reservable n.ledger e.stage e.attempt) :
    Sound { n with ledger := l } := by
  obtain ⟨hkey, rfl⟩ := Ledger.reserve_eq reserved
  set new : Entry := { e with epoch := n.ledger.epoch } with hnew
  have mem : ∀ {x}, x ∈ n.ledger.jobs ++ [new] → x ∈ n.ledger.jobs ∨ x = new := by
    intro x hx
    simpa using hx
  constructor
  · refine List.pairwise_append.mpr ⟨h.ordered, List.pairwise_singleton .., fun a ha b hb => ?_⟩
    obtain rfl := List.mem_singleton.mp hb
    have reservable : a.stage = e.stage → a.stage ≠ .manager →
        Reservable n.ledger e.stage e.attempt := by
      intro hstage hmanager
      exact due.resolve_left fun hm => hmanager (hstage.trans hm)
    constructor
    · exact hkey a ha
    · exact h.epoch a ha
    · exact fun hstage hmanager => (reservable hstage hmanager).quiet a ha hstage
    · intro hstage hmanager hcost hepoch
      exact (reservable hstage hmanager).once (fun hc => hcost (hstage.trans hc)) a ha hstage hepoch
    · intro hstage hcost
      have hmanager : a.stage ≠ .manager := by
        rw [hstage]
        decide
      exact (reservable (hstage.trans hcost.symm) hmanager).rising hcost a ha hstage
  · intro x hx
    rcases mem hx with hx | rfl
    · exact h.named x hx
    · exact name
  · intro x hx
    obtain ⟨y, hy, hname⟩ := h.known x hx
    exact ⟨y, List.mem_append_left _ hy, hname⟩
  · intro x hx
    rcases mem hx with hx | rfl
    · exact h.epoch x hx
    · exact le_refl _
  · intro x hx hstage hepoch
    rcases mem hx with hx | rfl
    · exact h.past x hx hstage hepoch
    · exact absurd hepoch (lt_irrefl _)
  · intro x hx hstage
    rcases mem hx with hx | rfl
    · exact (h.attested x hx hstage).mono (fun _ => rfl) (fun _ => id) fun _ => id
    · constructor <;> simp [hnew, fresh, blank]
  · intro epoch
    change (n.ledger.jobs ++ [new]).countP _ ≤ _
    rw [List.countP_append, List.countP_singleton]
    split_ifs with hc
    · simp only [Entry.consumes, Bool.and_eq_true, beq_iff_eq] at hc
      obtain ⟨⟨⟨hcost, rfl⟩, -⟩, -⟩ := hc
      have hbudget := (due.resolve_left fun hm => by
        rw [show new.stage = e.stage from rfl, hm] at hcost
        cases hcost).budget hcost
      rw [Ledger.budgetUsed_eq] at hbudget
      exact hbudget
    · simpa using h.budget epoch
  · exact h.decided
  · exact h.cleaned

/-- A change that leaves the entries as they are. -/
theorem congr {n' : Notes} (h : Sound n) (jobs : n'.ledger.jobs = n.ledger.jobs)
    (epoch : n.ledger.epoch ≤ n'.ledger.epoch)
    (past : ∀ e ∈ n.ledger.jobs, e.stage ≠ .manager → e.epoch < n'.ledger.epoch →
      e.unsettled = false)
    (run_id : n'.run_id = n.run_id)
    (known : ∀ x ∈ n'.submitted, ∃ e ∈ n.ledger.jobs, e.name = x.1)
    (attested : ∀ e ∈ n.ledger.jobs, Attested n e → Attested n' e)
    (decided : ∀ l ∈ n'.decided, l ∈ n.decided ∨ l.Quiet)
    (cleaned : ∀ l ∈ n'.cleaned, l ∈ n.cleaned ∨ l.Quiet) : Sound n' where
  ordered := jobs ▸ h.ordered
  named := by
    rw [jobs, run_id]
    exact h.named
  known := jobs ▸ known
  epoch := by
    rw [jobs]
    exact fun e he => (h.epoch e he).trans epoch
  past := jobs ▸ past
  attested := by
    rw [jobs]
    exact fun e he hstage => attested e he (h.attested e he hstage)
  budget := jobs ▸ h.budget
  decided l hl := (decided l hl).elim (h.decided l) id
  cleaned l hl := (cleaned l hl).elim (h.cleaned l) id

theorem submitted (h : Sound n) (mem : e ∈ n.ledger.jobs) (reserved : e.status = .reserved)
    (answer : SubmitOutcome) :
    Sound { n with submitted := n.submitted ++ [(e.name, answer)] } := by
  refine h.congr rfl (le_refl _) h.past rfl ?_ ?_ (fun _ => .inl) fun _ => .inl
  · intro x hx
    rcases List.mem_append.mp hx with hx | hx
    · exact h.known x hx
    · obtain rfl := List.mem_singleton.mp hx
      exact ⟨e, mem, rfl⟩
  · intro x hx hv
    refine hv.mono (fun hrejected => ?_) (fun _ => id) fun _ => id
    -- a rejected entry has another name than the reserved one
    have hname : e.name ≠ x.name := by
      intro heq
      rw [h.name_inj mem hx heq, hrejected] at reserved
      cases reserved
    simp [Notes.answers, hname]

end Sound

/-- Every step keeps the invariant. -/
theorem Step.sound {n n' : Notes} (step : Step n n') (h : Sound n) : Sound n' := by
  cases step with
  | @account l jobs resumes =>
      have hepoch : l.epoch = n.ledger.epoch := congrArg List.length resumes
      refine h.congr jobs (le_of_eq hepoch.symm) ?_ rfl h.known (fun e _ hv => ?_) (fun _ => .inl)
        fun _ => .inl
      · rw [hepoch]
        exact h.past
      · exact hv.mono (fun _ => rfl) (fun _ => id) fun _ => id
  | entry found step => exact h.entry found step
  | reserve reserved fresh blank name due => exact h.reserve reserved fresh blank name due
  | resume quiet manager pending amendment =>
      refine h.congr rfl ?_ (fun e he hstage _ => quiet e he hstage) rfl h.known (fun e _ hv => ?_)
        (fun _ => .inl) fun _ => .inl
      · simp [Ledger.epoch, Ledger.beginEpoch]
      · exact hv.mono (fun _ => rfl) (fun _ => id) fun _ => id
  | submitted mem reserved _ answer => exact h.submitted mem reserved answer
  | reported job_id status =>
      refine h.congr rfl (le_refl _) h.past rfl h.known (fun e _ hv => ?_) (fun _ => .inl)
        fun _ => .inl
      exact hv.mono (fun _ => rfl) (fun _ => List.mem_append_left _) fun _ => id
  | seen s =>
      refine h.congr rfl (le_refl _) h.past rfl h.known (fun e _ hv => ?_) (fun _ => .inl)
        fun _ => .inl
      exact hv.mono (fun _ => rfl) (fun _ => id) fun _ => List.mem_append_left _
  | decided quiet =>
      refine h.congr rfl (le_refl _) h.past rfl h.known (fun e _ hv => ?_) (fun l hl => ?_)
        fun _ => .inl
      · exact hv.mono (fun _ => rfl) (fun _ => id) fun _ => id
      · rcases List.mem_append.mp hl with hl | hl
        · exact .inl hl
        · obtain rfl := List.mem_singleton.mp hl
          exact .inr quiet
  | cleaned quiet =>
      refine h.congr rfl (le_refl _) h.past rfl h.known (fun e _ hv => ?_) (fun _ => .inl)
        fun l hl => ?_
      · exact hv.mono (fun _ => rfl) (fun _ => id) fun _ => id
      · rcases List.mem_append.mp hl with hl | hl
        · exact .inl hl
        · obtain rfl := List.mem_singleton.mp hl
          exact .inr quiet

end TranspileBench.Lsf
