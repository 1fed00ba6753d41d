import TranspileBench.Lsf.Keeping

/-!
Whose jobs a manager may have killed, over whatever ledger it finds: what the scheduler's
answers say of a job id, and the steps that the holder of the orchestration lock takes.
-/
namespace TranspileBench.Lsf
open Coordinator Evaluator

/-- What an exchange says about a job id: its statuses, none of them when the query failed.
Other exchanges are not about the id, nor is a history that shows no end. -/
def Exchange.about (id : String) : Exchange → Option (List JobStatus)
  | .queried asked answer => if asked = id then some answer.toOption.toList else none
  | .recalled asked answer => if asked = id then answer.map fun s => [s] else none
  | .found _ answer =>
      match (answer.toOption.getD []).filter (·.job_id == id) with
      | [] => none
      | listed => some listed
  | .killed _ => none

/-- What the scheduler's latest answer about a job id says of it. -/
def latestAnswer (exchanges : List Exchange) (id : String) : List JobStatus :=
  (exchanges.reverse.findSome? (·.about id)).getD []

/-- The ledger, what `bsub` answered and the exchanges about jobs. -/
structure Custody where
  ledger : Ledger
  submitted : List (String × SubmitOutcome)
  exchanges : List Exchange

def Cluster.custody {N H Q : Type} (w : Cluster N H Q) : Custody :=
  ⟨w.ledger, w.site.submitted, w.exchanges⟩

/-- The latest answer gives the job id to the user and to exactly the name of an entry. -/
def Attributed (c : Custody) (user id : String) : Prop :=
  ∃ e ∈ c.ledger.jobs, ∃ s ∈ latestAnswer c.exchanges id, s.user = some user ∧ s.name = some e.name

/-- Why an entry may stop being owned: the latest answer about its recorded job says that the
job ended, or `bsub` refused its submission. -/
inductive Relinquished (c : Custody) (e : Entry) : Prop
  | ended (s : JobStatus) (latest : s ∈ latestAnswer c.exchanges (e.job_id.getD ""))
      (terminal : s.terminal = true)
  | refused (last : c.submitted.getLast? = some (e.name, .rejected))

/-- A ledger's entries are found by their keys. -/
def Ledger.Keyed (l : Ledger) : Prop := (l.jobs.map (·.key)).Nodup

/-! ## The latest answer -/

theorem latestAnswer_append (exchanges : List Exchange) (x : Exchange) (id : String) :
    latestAnswer (exchanges ++ [x]) id = (x.about id).getD (latestAnswer exchanges id) := by
  rw [latestAnswer, List.reverse_append, List.reverse_singleton, List.singleton_append,
    List.findSome?_cons]
  cases x.about id <;> rfl

@[simp]
theorem latestAnswer_queried (exchanges : List Exchange) (id : String)
    (answer : Except String JobStatus) :
    latestAnswer (exchanges ++ [.queried id answer]) id = answer.toOption.toList := by
  simp [latestAnswer_append, Exchange.about]

@[simp]
theorem latestAnswer_recalled (exchanges : List Exchange) (id : String) (s : JobStatus) :
    latestAnswer (exchanges ++ [.recalled id (some s)]) id = [s] := by
  simp [latestAnswer_append, Exchange.about]

/-- A history that shows no end leaves the answer of the query. -/
@[simp]
theorem latestAnswer_recalled_none (exchanges : List Exchange) (id id' : String) :
    latestAnswer (exchanges ++ [.recalled id none]) id' = latestAnswer exchanges id' := by
  simp [latestAnswer_append, Exchange.about]

@[simp]
theorem latestAnswer_killed (exchanges : List Exchange) (id id' : String) :
    latestAnswer (exchanges ++ [.killed id]) id' = latestAnswer exchanges id' := by
  simp [latestAnswer_append, Exchange.about]

theorem mem_latestAnswer_found (exchanges : List Exchange) {name : String}
    {found : List JobStatus} {s : JobStatus} (h : s ∈ found) :
    s ∈ latestAnswer (exchanges ++ [.found name (.ok found)]) s.job_id := by
  have hs : s ∈ found.filter (·.job_id == s.job_id) := by simp [h]
  rw [latestAnswer_append]
  simp only [Exchange.about, Except.toOption, Option.getD_some]
  split
  · rename_i hnone
    rw [hnone] at hs
    cases hs
  · exact hs

/-! ## Steps -/

namespace Custody
variable {user : String} {c c' : Custody} {e : Entry}

def exchange (c : Custody) (x : Exchange) : Custody := { c with exchanges := c.exchanges ++ [x] }

def update (c : Custody) (key : String) (f : Entry → Entry) : Custody :=
  { c with ledger := c.ledger.update key f }

/-- What the holder of the lock does at once. -/
inductive Step (user : String) : Custody → Custody → Prop
  | account {c : Custody} {l : Ledger} (jobs : l.jobs = c.ledger.jobs) :
      Step user c { c with ledger := l }
  | entry {c : Custody} {e : Entry} {f : Entry → Entry} (found : c.ledger.job e.key = some e)
      (same : ∀ x, (f x).key = x.key ∧ (f x).name = x.name)
      (kept : e.unsettled = true → (f e).unsettled = true ∨ Relinquished c e) :
      Step user c (c.update e.key f)
  | reserve {c : Custody} {e : Entry} {l : Ledger} (reserved : c.ledger.reserve e = some l) :
      Step user c { c with ledger := l }
  | submitted {c : Custody} (x : String × SubmitOutcome) :
      Step user c { c with submitted := c.submitted ++ [x] }
  | exchanged {c : Custody} (x : Exchange)
      (attributed : ∀ id, x = .killed id → Attributed c user id) : Step user c (c.exchange x)

theorem keyed_update {f : Entry → Entry} {key : String} (hf : ∀ x, (f x).key = x.key) :
    (c.update key f).ledger.jobs.map (·.key) = c.ledger.jobs.map (·.key) := by
  simp only [update, Ledger.update, List.map_map]
  refine List.map_congr_left fun x _ => ?_
  by_cases hx : x.key = key <;> simp [hx, hf]

theorem Step.keyed (step : Step user c c') (h : c.ledger.Keyed) : c'.ledger.Keyed := by
  cases step with
  | account jobs =>
      unfold Ledger.Keyed
      rw [jobs]
      exact h
  | entry found same kept =>
      unfold Ledger.Keyed
      rw [keyed_update fun x => (same x).1]
      exact h
  | reserve reserved =>
      obtain ⟨hnew, rfl⟩ := Ledger.reserve_eq reserved
      unfold Ledger.Keyed
      rw [List.map_append, List.nodup_append]
      refine ⟨h, List.nodup_singleton _, ?_⟩
      intro a ha b hb hab
      obtain ⟨x, hx, rfl⟩ := List.mem_map.mp ha
      rw [List.map_singleton, List.mem_singleton] at hb
      exact hnew x hx (hab.trans hb)
  | submitted x => exact h
  | exchanged x _ => exact h

theorem Keyed.job_eq {l : Ledger} (h : l.Keyed) (he : e ∈ l.jobs) {x : Entry}
    (found : l.job e.key = some x) : x = e := by
  obtain ⟨hx, hkey⟩ := Ledger.mem_of_job found
  exact List.inj_on_of_nodup_map h hx he hkey

/-- An owned entry stays owned, unless its job ended or was never accepted. -/
theorem Step.kept (step : Step user c c') (h : c.ledger.Keyed) (he : e ∈ c.ledger.jobs)
    (hopen : e.unsettled = true) :
    (∃ e' ∈ c'.ledger.jobs, e'.key = e.key ∧ e'.name = e.name ∧ e'.unsettled = true) ∨
      Relinquished c e := by
  cases step with
  | account jobs => exact .inl ⟨e, jobs ▸ he, rfl, rfl, hopen⟩
  | @entry x f found same kept =>
      have hmem : (if e.key = x.key then f e else e) ∈ (c.update x.key f).ledger.jobs :=
        List.mem_map_of_mem (f := fun e => if e.key = x.key then f e else e) he
      by_cases hkey : e.key = x.key
      · obtain rfl := Keyed.job_eq h he (hkey ▸ found)
        rw [if_pos rfl] at hmem
        refine (kept hopen).imp_left fun hkept => ?_
        exact ⟨f x, hmem, (same x).1, (same x).2, hkept⟩
      · rw [if_neg hkey] at hmem
        exact .inl ⟨e, hmem, rfl, rfl, hopen⟩
  | reserve reserved =>
      obtain ⟨-, rfl⟩ := Ledger.reserve_eq reserved
      exact .inl ⟨e, List.mem_append_left _ he, rfl, rfl, hopen⟩
  | submitted x => exact .inl ⟨e, he, rfl, rfl, hopen⟩
  | exchanged x _ => exact .inl ⟨e, he, rfl, rfl, hopen⟩

/-- A step has at most one exchange, and it kills what the latest answer attributes. -/
theorem Step.exchanges_cases (step : Step user c c') :
    c'.exchanges = c.exchanges ∨ ∃ x, c'.exchanges = c.exchanges ++ [x] ∧
      ∀ id, x = .killed id → Attributed c user id := by
  cases step with
  | account | entry | reserve | submitted => exact .inl rfl
  | exchanged x attributed => exact .inr ⟨x, rfl, attributed⟩

end Custody

/-! ## The holder of the lock -/

variable {N H Q α : Type}

/-- What a manager assumes and promises over whatever ledger it finds. -/
def custodyContract (user : String) (p : ℕ) : Contract (Cluster N H Q) where
  rely w w' := w.lock = some p → w'.lock = some p ∧ w'.custody = w.custody
  guar w w' := (w'.custody = w.custody ∨ w.lock = some p ∧ Custody.Step user w.custody w'.custody) ∧
    (w'.lock = w.lock ∨ w.lock = none ∧ w'.lock = some p)
  inv w := w.ledger.Keyed
  rely_refl _ h := ⟨h, rfl⟩
  rely_trans h h' hlock := by
    obtain ⟨hlock', heq⟩ := h hlock
    obtain ⟨hlock'', heq'⟩ := h' hlock'
    exact ⟨hlock'', heq'.trans heq⟩

def custodyView (user : String) (p : ℕ) :
    View (custodyContract (N := N) (H := H) (Q := Q) user p) Custody where
  held w := w.lock = some p
  view := Cluster.custody
  inv c := c.ledger.Keyed
  step := Custody.Step user
  stable hw hrely _ := hrely hw
  kept hw hguar := hguar.2.elim (·.trans hw) (·.2)
  sound := id
  preserved hinv step := step.keyed hinv
  allowed {w w'} hw hinv hw' hstep := by
    refine ⟨⟨hstep.imp_right fun h => ⟨hw, h⟩, .inl (hw'.trans hw.symm)⟩, ?_⟩
    rcases hstep with heq | hstep
    · have hledger : w'.ledger = w.ledger := congrArg (·.ledger) heq
      change w'.ledger.Keyed
      rw [hledger]
      exact hinv
    · exact hstep.keyed hinv

namespace Custody
section Commands
variable {p : ℕ} {user : String} {c : Custody} {S : Scheduler Q}

theorem runs_inspect {f : Cluster N H Q → α} {R : α → Custody → Prop} (h : ∀ a, R a c) :
    (custodyView user p).Runs (inspect f) c R := by
  refine .fallible ?_
  rintro w a _ hw rfl ⟨-, rfl⟩
  exact ⟨hw, .inl rfl, h a⟩

theorem runs_consult {f : Ledger → α} {R : α → Custody → Prop} (h : R (f c.ledger) c) :
    (custodyView user p).Runs (consult f : Prog (Cluster N H Q) Halt α) c R := by
  refine .read ?_
  rintro w _ rfl
  exact h

theorem runs_clock {R : Bool → Custody → Prop} (h : ∀ b, R b c) :
    (custodyView user p).Runs (clock : Prog (Cluster N H Q) Halt Bool) c R :=
  .answer fun b _ => h b

theorem runs_entryOf {key : String} {R : Entry → Custody → Prop}
    (h : ∀ e, e.key = key → c.ledger.job e.key = some e → R e c) :
    (custodyView user p).Runs (entryOf key : Prog (Cluster N H Q) Halt Entry) c R := by
  refine .bind (runs_consult ?_)
  cases hfound : c.ledger.job key with
  | none => exact .throw _
  | some e =>
      have hkey := (Ledger.mem_of_job hfound).2
      exact .pure e (h e hkey (hkey ▸ hfound))

theorem runs_writeReport {R : Unit → Custody → Prop} (h : R () c) :
    (custodyView user p).Runs (writeReport : Prog (Cluster N H Q) Halt Unit) c R :=
  .request fun _ _ => h

/-- A save is a step of the ledger, also when it fails after all. -/
theorem runs_save {f : Ledger → Ledger} {R : Unit → Custody → Prop}
    (step : Step user c { c with ledger := f c.ledger })
    (h : R () { c with ledger := f c.ledger }) :
    (custodyView user p).Runs (save f : Prog (Cluster N H Q) Halt Unit) c R := by
  refine .act ?_
  rintro w r w' hw rfl ⟨heffect, -⟩
  rcases heffect with rfl | ⟨hfailed, rfl⟩
  · refine ⟨hw, .inr step, ?_⟩
    cases r with
    | ok _ => exact .ret _ h
    | error e => exact .raise e
  · refine ⟨hw, .inl rfl, ?_⟩
    cases r with
    | ok _ => exact absurd rfl hfailed
    | error e => exact .raise e

theorem runs_account {f : Ledger → Ledger} {R : Unit → Custody → Prop}
    (jobs : (f c.ledger).jobs = c.ledger.jobs) (h : R () { c with ledger := f c.ledger }) :
    (custodyView user p).Runs (save f : Prog (Cluster N H Q) Halt Unit) c R :=
  runs_save (.account jobs) h

/-- An exchange that kills nothing. -/
theorem Step.asked {x : Exchange} (h : ∀ id, x ≠ .killed id) : Step user c (c.exchange x) :=
  .exchanged x fun id hx => absurd hx (h id)

theorem runs_queryJob {id : String} {R : Except String JobStatus → Custody → Prop}
    (h : ∀ answer, R answer (c.exchange (.queried id answer))) :
    (custodyView user p).Runs (queryJob S id : Prog (Cluster N H Q) Halt _) c R := by
  refine .perform ?_
  rintro w answer _ hw rfl ⟨-, rfl⟩
  exact ⟨hw, .inr (.asked fun _ h => by cases h), h answer⟩

theorem runs_jobHistory {id : String} {R : Option JobStatus → Custody → Prop}
    (h : ∀ answer, (∀ s ∈ answer, s.terminal = true) → R answer
    (c.exchange (.recalled id answer))) :
    (custodyView user p).Runs (jobHistory S id : Prog (Cluster N H Q) Halt _) c R := by
  refine .perform ?_
  rintro w answer _ hw rfl ⟨-, hterminal, rfl⟩
  exact ⟨hw, .inr (.asked fun _ h => by cases h), h answer hterminal⟩

theorem runs_findJobs {name : String} {R : Except String (List JobStatus) → Custody → Prop}
    (h : ∀ answer, R answer (c.exchange (.found name answer))) :
    (custodyView user p).Runs (findJobs S name : Prog (Cluster N H Q) Halt _) c R := by
  refine .perform ?_
  rintro w answer _ hw rfl ⟨rfl, -⟩
  exact ⟨hw, .inr (.asked fun _ h => by cases h), h answer⟩

/-- The only command that kills. -/
theorem runs_cancelJob {id : String} {R : Unit → Custody → Prop}
    (attributed : Attributed c user id) (h : R () (c.exchange (.killed id))) :
    (custodyView user p).Runs (cancelJob S id : Prog (Cluster N H Q) Halt Unit) c R := by
  refine .perform ?_
  rintro w _ _ hw rfl ⟨q, -, rfl⟩
  refine ⟨hw, .inr (.exchanged (.killed id) ?_), h⟩
  rintro _ ⟨⟩
  exact attributed

theorem runs_submitJob {r : Request} {R : SubmitOutcome → Custody → Prop}
    (h : ∀ answer, R answer { c with submitted := c.submitted ++ [(r.name, answer)] }) :
    (custodyView user p).Runs (submitJob S r : Prog (Cluster N H Q) Halt _) c R := by
  refine .perform ?_
  rintro w answer _ hw rfl ⟨q, -, rfl⟩
  exact ⟨hw, .inr (.submitted _), h answer⟩

theorem runs_outcomeRecord {key : String} {R : Option JobRecord → Custody → Prop}
    (h : ∀ record, R record c) :
    (custodyView user p).Runs (outcomeRecord key : Prog (Cluster N H Q) Halt _) c R := by
  refine .fallible ?_
  rintro w record _ hw rfl ⟨-, rfl⟩
  exact ⟨hw, .inl rfl, h record⟩

theorem runs_stageState {s : Stage} {R : Option StageStatus × Option String → Custody → Prop}
    (h : ∀ b, R b c) :
    (custodyView user p).Runs (stageState s : Prog (Cluster N H Q) Halt _) c R := by
  refine .fallible ?_
  rintro w b _ hw rfl ⟨-, rfl⟩
  exact ⟨hw, .inl rfl, h b⟩

/-- The status that the manager goes by is what the latest answer says. -/
theorem runs_currentStatus {id : String} :
    (custodyView user p).Runs (currentStatus S id : Prog (Cluster N H Q) Halt _) c
      fun answer c' => c'.ledger = c.ledger ∧
        ∀ s, answer = .ok s → s ∈ latestAnswer c'.exchanges id := by
  refine .bind (runs_queryJob fun answer => ?_)
  cases answer with
  | error text => exact .pure _ ⟨rfl, fun _ h => by cases h⟩
  | ok status =>
      have listed : status ∈ latestAnswer (c.exchange (.queried id (.ok status))).exchanges id := by
        simp [exchange, Except.toOption]
      dsimp only
      split_ifs with hgone
      · refine .bind (runs_jobHistory fun ended _ => .pure _ ⟨rfl, ?_⟩)
        rintro s ⟨⟩
        cases ended with
        | none => exact (latestAnswer_recalled_none _ id id).symm ▸ listed
        | some s => exact (latestAnswer_recalled _ id s).symm ▸ List.mem_singleton_self s
      · refine .pure _ ⟨rfl, ?_⟩
        rintro s ⟨⟩
        exact listed

end Commands
end Custody
end TranspileBench.Lsf
