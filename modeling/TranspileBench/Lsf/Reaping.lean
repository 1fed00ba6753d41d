import TranspileBench.Lsf.Custody

/-!
A scheduler that answers truthfully about jobs that have all ended, and what each command of
a reap then makes of the entry it is about.
-/
namespace TranspileBench.Lsf
open Coordinator Evaluator

/-- What is true of a job: its name and user, its state, and whether `bjobs` still lists it. -/
structure KnownJob where
  name : String
  user : String
  state : JobState
  listed : Bool

def KnownJob.ended (j : KnownJob) : Bool := j.state == .DONE || j.state == .EXIT

/-- The status tells the truth about a listed job. -/
def KnownJob.Tells (j : KnownJob) (s : JobStatus) : Prop :=
  j.listed = true ∧ s.state = j.state ∧ s.name = some j.name ∧ s.user = some j.user

/-- From now on, in the states `good`, the scheduler answers truthfully about the jobs there
are: `bjobs` about what it lists, `bhist` about the end of every job. -/
structure Truthful {Q : Type} (S : Scheduler Q) (user : String) (jobs : String → Option KnownJob)
    (good : Q → Prop) : Prop where
  bjobs : ∀ q id answer, good q → S.bjobs q id answer → ∃ s, answer = .ok s ∧
    ((∃ j, jobs id = some j ∧ j.Tells s) ∨
      s.state = .NOTFOUND ∧ s.name = none ∧ ∀ j, jobs id = some j → j.listed = false)
  named : ∀ q name answer, good q → S.named q name answer → ∃ found, answer = .ok found ∧
    (∀ s ∈ found, s.state ≠ .NOTFOUND → ∃ j, jobs s.job_id = some j ∧ j.Tells s) ∧
    ∀ id j, jobs id = some j → j.listed = true → j.name = name → j.user = user →
      ∃ s ∈ found, j.Tells s
  bhist : ∀ q id answer, good q → S.bhist q id answer → ∀ j, jobs id = some j → j.ended = true →
    ∃ s, answer = some s ∧ s.state = j.state
  bkill : ∀ q id q' j, good q → jobs id = some j → j.ended = true → S.bkill q id q' → good q'

def Listed (user : String) (jobs : String → Option KnownJob) (name : String) : Prop :=
  ∃ id j, jobs id = some j ∧ j.listed = true ∧ j.name = name ∧ j.user = user

/-- Every job that the session had accepted has ended: those on record, and those under the
name of an entry. -/
structure AllEnded (l : Ledger) (user : String) (jobs : String → Option KnownJob) : Prop where
  recorded : ∀ e ∈ l.jobs, ∀ id, e.job_id = some id → ∃ j, jobs id = some j ∧ j.ended = true
  named : ∀ e ∈ l.jobs, ∀ id j, jobs id = some j → j.name = e.name → j.user = user → j.ended = true

/-- The ledger's record of the entry's end is the end of its own job. -/
def OwnEnd (jobs : String → Option KnownJob) (e : Entry) : Prop :=
  ∃ id j, e.job_id = some id ∧ jobs id = some j ∧ j.ended = true ∧
    e.scheduler.bind (·.state) = some j.state

/-- What a lookup by name makes of an entry: its job is found where it is listed, and has
ended; else the entry is as unknown as before. -/
def LookedUp (user : String) (jobs : String → Option KnownJob) (e e' : Entry) : Prop :=
  (Listed user jobs e.name ∧ e'.status = .submitted ∧
    ∃ id j, e'.job_id = some id ∧ jobs id = some j ∧ j.ended = true) ∨
  (¬ Listed user jobs e.name ∧ e'.unsettled = true ∧ e'.status ≠ .submitted ∧ e'.job_id = e.job_id)

/-! ## Entries -/

theorem KnownJob.ended_iff_terminal {j : KnownJob} {s : JobStatus} (h : s.state = j.state) :
    s.terminal = j.ended := by
  simp [JobStatus.terminal, KnownJob.ended, h]

@[simp]
theorem Entry.settled_status (status : Option JobStatus) (record : Option JobRecord)
    (kind : OutcomeKind) (e : Entry) : (e.settled status record kind).status =
      if e.status = .unreconciled then .unreconciled else .terminal := rfl

@[simp]
theorem Entry.settled_job_id (status : Option JobStatus) (record : Option JobRecord)
    (kind : OutcomeKind) (e : Entry) : (e.settled status record kind).job_id = e.job_id := rfl

@[simp]
theorem Entry.settled_state (s : JobStatus) (record : Option JobRecord) (kind : OutcomeKind)
    (e : Entry) : (e.settled (some s) record kind).scheduler.bind (·.state) = some s.state := rfl

theorem Ledger.update_update {l : Ledger} {key : String} {f g : Entry → Entry}
    (hf : ∀ x, (f x).key = x.key) :
    (l.update key f).update key g = l.update key fun x => g (f x) := by
  simp only [Ledger.update, List.map_map]
  congr 1
  refine List.map_congr_left fun x _ => ?_
  by_cases hx : x.key = key <;> simp [hx, hf]

theorem Ledger.update_id (l : Ledger) (key : String) : l.update key id = l := by
  simp [Ledger.update]

/-- The ledger differs only in the entry under the key, of which `P` holds. -/
def Becomes (key : String) (e : Entry) (P : Entry → Prop) (l l' : Ledger) : Prop :=
  ∃ f : Entry → Entry, l' = l.update key f ∧
    (∀ x, (f x).key = x.key ∧ (f x).name = x.name) ∧ P (f e)

namespace Becomes
variable {key : String} {e : Entry} {P P' : Entry → Prop} {l l' l'' : Ledger}

theorem same (h : P e) : Becomes key e P l l :=
  ⟨id, (Ledger.update_id l key).symm, fun _ => ⟨rfl, rfl⟩, h⟩

theorem mono (h : Becomes key e P l l') (himp : ∀ e', e'.key = e.key → e'.name = e.name →
    P e' → P' e') : Becomes key e P' l l' := by
  obtain ⟨f, rfl, hf, hP⟩ := h
  exact ⟨f, rfl, hf, himp _ (hf e).1 (hf e).2 hP⟩

theorem found (h : Becomes key e P l l') (hfound : l.job key = some e) :
    ∃ e', l'.job key = some e' ∧ e'.key = e.key ∧ e'.name = e.name ∧ P e' := by
  obtain ⟨f, rfl, hf, hP⟩ := h
  exact ⟨f e, Ledger.job_update hfound fun x => (hf x).1, (hf e).1, (hf e).2, hP⟩

theorem andThen (h : Becomes key e P l l') (hfound : l.job key = some e)
    (next : ∀ e', l'.job key = some e' → e'.key = e.key → e'.name = e.name → P e' →
      Becomes key e' P' l' l'') : Becomes key e P' l l'' := by
  obtain ⟨e', found', hkey, hname, hP⟩ := h.found hfound
  obtain ⟨g, rfl, hg, hP'⟩ := next e' found' hkey hname hP
  obtain ⟨f, rfl, hf, -⟩ := h
  obtain rfl : f e = e' := by
    have := Ledger.job_update hfound fun x => (hf x).1
    exact Option.some.inj (this.symm.trans found')
  refine ⟨fun x => g (f x), Ledger.update_update fun x => (hf x).1, fun x => ?_, hP'⟩
  exact ⟨((hg _).1).trans (hf x).1, ((hg _).2).trans (hf x).2⟩

theorem keys (h : Becomes key e P l l') : l'.jobs.map (·.key) = l.jobs.map (·.key) := by
  obtain ⟨f, rfl, hf, -⟩ := h
  simp only [Ledger.update, List.map_map]
  refine List.map_congr_left fun x _ => ?_
  by_cases hx : x.key = key <;> simp [hx, hf]

end Becomes

/-! ## The reap's part of the world -/

variable {N H Q α : Type}

/-- While a dead session is reaped nobody else touches its orchestration records, and the
scheduler goes on answering truthfully. -/
def reaping (good : Q → Prop) (p : ℕ) : Contract (Cluster N H Q) where
  rely w w' := w'.lock = w.lock ∧ w'.ledger = w.ledger ∧ (good w.queue → good w'.queue)
  guar w w' := (w.lock = some p → w'.lock = some p) ∧ (good w.queue → good w'.queue)
  inv _ := True
  rely_refl _ := ⟨rfl, rfl, id⟩
  rely_trans h h' := ⟨h'.1.trans h.1, h'.2.1.trans h.2.1, fun hg => h'.2.2 (h.2.2 hg)⟩

/-- The ledger, under the lock and beside a truthful scheduler. -/
def reapView (good : Q → Prop) (p : ℕ) : View (reaping (N := N) (H := H) good p) Ledger where
  held w := w.lock = some p ∧ good w.queue
  view := Cluster.ledger
  inv _ := True
  step l l' := l'.jobs.map (·.key) = l.jobs.map (·.key)
  stable hw hrely _ := ⟨⟨hrely.1.trans hw.1, hrely.2.2 hw.2⟩, hrely.2.1⟩
  kept hw hguar := ⟨hguar.1 hw.1, hguar.2 hw.2⟩
  sound _ := trivial
  preserved _ _ := trivial
  allowed _ _ hw' _ := ⟨⟨fun _ => hw'.1, fun _ => hw'.2⟩, trivial⟩

section Commands
variable {p : ℕ} {good : Q → Prop} {l : Ledger} {S : Scheduler Q} {user : String}
variable {jobs : String → Option KnownJob} {key : String} {e : Entry}

theorem reap_consult {f : Ledger → α} {R : α → Ledger → Prop} (h : R (f l) l) :
    (reapView good p).Runs (consult f : Prog (Cluster N H Q) Halt α) l R := by
  refine .read ?_
  rintro w _ rfl
  exact h

theorem reap_entryOf {R : Entry → Ledger → Prop} (found : l.job key = some e) (h : R e l) :
    (reapView good p).Runs (entryOf key : Prog (Cluster N H Q) Halt Entry) l R := by
  refine .bind (reap_consult ?_)
  rw [found]
  exact .pure e h

theorem reap_save {f : Ledger → Ledger} {R : Unit → Ledger → Prop}
    (keys : (f l).jobs.map (·.key) = l.jobs.map (·.key)) (h : R () (f l)) :
    (reapView good p).Runs (save f : Prog (Cluster N H Q) Halt Unit) l R := by
  refine .act ?_
  rintro w r w' hw rfl ⟨heffect, -⟩
  rcases heffect with rfl | ⟨hfailed, rfl⟩
  · refine ⟨hw, .inr keys, ?_⟩
    cases r with
    | ok _ => exact .ret _ h
    | error e => exact .raise e
  · refine ⟨hw, .inl rfl, ?_⟩
    cases r with
    | ok _ => exact absurd rfl hfailed
    | error e => exact .raise e

/-- Change one entry and save. -/
theorem reap_update {f : Entry → Entry} {R : Unit → Ledger → Prop} (e : Entry) (P : Entry → Prop)
    (hf : ∀ x, (f x).key = x.key ∧ (f x).name = x.name) (hP : P (f e))
    (h : ∀ l', Becomes key e P l l' → R () l') :
    (reapView good p).Runs (save (·.update key f) : Prog (Cluster N H Q) Halt Unit) l R := by
  have becomes : Becomes key e P l (l.update key f) := ⟨f, rfl, hf, hP⟩
  exact reap_save becomes.keys (h _ becomes)

/-- What is learnt of an id: the end of its job, or nothing that gives it to the user under
the name of an entry. -/
theorem reap_currentStatus {id : String} (truth : Truthful S user jobs good) :
    (reapView good p).Runs (currentStatus S id : Prog (Cluster N H Q) Halt _) l
      fun answer l' => l' = l ∧ ∃ s, answer = .ok s ∧
        (∀ j, jobs id = some j → j.ended = true → s.state = j.state) ∧
        (s.name = none ∨ s.terminal = true ∨ ∃ j, jobs id = some j ∧ j.Tells s) := by
  refine .bind (.perform ?_)
  rintro w answer _ ⟨hlock, hgood⟩ rfl ⟨hanswer, rfl⟩
  refine ⟨⟨hlock, hgood⟩, .inl rfl, ?_⟩
  obtain ⟨s, rfl, hs⟩ := truth.bjobs _ _ _ hgood hanswer
  dsimp only
  split_ifs with hgone
  · refine .bind (.perform ?_)
    rintro w' ended _ ⟨hlock', hgood'⟩ hv ⟨hended, hterminal, rfl⟩
    refine ⟨⟨hlock', hgood'⟩, .inl hv, .pure _ ⟨hv, _, rfl, fun j hj hend => ?_, ?_⟩⟩
    · obtain ⟨s', rfl, hstate⟩ := truth.bhist _ _ _ hgood' hended j hj hend
      exact hstate
    · cases ended with
      | none => exact hs.elim (fun h => .inr (.inr h)) fun h => .inl h.2.1
      | some s' => exact .inr (.inl (hterminal s' rfl))
  · obtain ⟨j, hj, htells⟩ : ∃ j, jobs id = some j ∧ j.Tells s :=
      hs.resolve_right fun h => hgone h.1
    refine .pure _ ⟨rfl, s, rfl, fun j' hj' _ => ?_, .inr (.inr ⟨j, hj, htells⟩)⟩
    rw [hj] at hj'
    rw [← Option.some.inj hj']
    exact htells.2.1

theorem reap_writeReport {R : Unit → Ledger → Prop} (h : R () l) :
    (reapView good p).Runs (writeReport : Prog (Cluster N H Q) Halt Unit) l R :=
  .request fun _ _ => h

theorem reap_classify {status : Option JobStatus} {record : Option JobRecord} {lost : Bool} :
    (reapView good p).Runs (classify e status record lost : Prog (Cluster N H Q) Halt _) l
      fun _ l' => l' = l := by
  unfold classify
  by_cases hlost : lost = true ∨ e.status = .unreconciled
  · rw [if_pos hlost]
    exact .pure _ rfl
  rw [if_neg hlost]
  cases record with
  | none => exact .pure _ rfl
  | some r =>
      dsimp only
      cases e.stage.toStage with
      | none => exact .pure _ rfl
      | some s =>
          refine .bind (.fallible ?_)
          rintro w b _ hw rfl ⟨-, rfl⟩
          exact ⟨hw, .inl rfl, .pure _ rfl⟩

theorem reap_settle {s : JobStatus} {lost cancelled : Bool} (found : l.job key = some e)
    (submitted : e.status = .submitted) :
    (reapView good p).Runs
      (settle key (some s) lost cancelled : Prog (Cluster N H Q) Halt Unit) l
      fun _ l' => Becomes key e (fun e' => e'.status = .terminal ∧ e'.job_id = e.job_id ∧
        e'.scheduler.bind (·.state) = some s.state) l l' := by
  refine .bind (reap_entryOf found (.bind (.fallible ?_)))
  rintro w record _ hw rfl ⟨-, rfl⟩
  refine ⟨hw, .inl rfl, .andThen reap_classify ?_⟩
  rintro kind _ rfl
  refine .bind (reap_update e _ (fun _ => ⟨rfl, rfl⟩) ?_ fun l' h => reap_writeReport h)
  exact ⟨by simp [submitted], rfl, rfl⟩

/-- A lookup by name finds a job where `bjobs` lists one, and that job has ended. -/
theorem reap_reconcileByName (truth : Truthful S user jobs good)
    (ended : ∀ id j, jobs id = some j → j.name = e.name → j.user = user → j.ended = true)
    (hopen : e.unsettled = true) (unknown : e.status ≠ .submitted) :
    (reapView good p).Runs (reconcileByName S user e : Prog (Cluster N H Q) Halt Unit) l
      fun _ l' => Becomes e.key e (LookedUp user jobs e) l l' := by
  refine .bind (.perform ?_)
  rintro w answer _ ⟨hlock, hgood⟩ rfl ⟨rfl, listed, hlisted, rfl⟩
  refine ⟨⟨hlock, hgood⟩, .inl rfl, ?_⟩
  obtain ⟨found, rfl, htrue, hall⟩ := truth.named _ _ _ hgood hlisted
  -- whatever is listed as the user's under the name is a job that has ended
  have mine : ∀ s ∈ (found.filter (·.state != .NOTFOUND)).filter
      (fun s => s.user == some user && s.name == some e.name),
      ∃ j, jobs s.job_id = some j ∧ j.ended = true ∧ Listed user jobs e.name := by
    intro s hs
    simp only [List.mem_filter, bne_iff_ne, Bool.and_eq_true, beq_iff_eq] at hs
    obtain ⟨⟨hmem, hstate⟩, huser, hname⟩ := hs
    obtain ⟨j, hj, htells⟩ := htrue s hmem hstate
    obtain ⟨hl, -, hjname, hjuser⟩ := htells
    rw [hname] at hjname
    rw [huser] at hjuser
    have hn := (Option.some.inj hjname).symm
    have hu := (Option.some.inj hjuser).symm
    exact ⟨j, hj, ended _ j hj hn hu, s.job_id, j, hj, hl, hn, hu⟩
  dsimp only [Except.map]
  split
  · rename_i first extra heq
    obtain ⟨j, hj, hend, hl⟩ := mine first (heq ▸ List.mem_cons_self)
    refine .bind (reap_update e (LookedUp user jobs e) (fun _ => ⟨rfl, rfl⟩)
      (.inl ⟨hl, rfl, _, j, rfl, hj, hend⟩) fun l' h => ?_)
    refine (View.Runs.each (fun rest l'' => l'' = l' ∧ ∀ s ∈ rest, ∃ j, jobs s.job_id = some j ∧
      j.ended = true) ?_ ⟨rfl, fun s hs => ?_⟩).mono ?_
    · rintro s rest _ ⟨rfl, hrest⟩
      obtain ⟨j, hj, hend⟩ := hrest s List.mem_cons_self
      refine .perform ?_
      rintro w _ _ ⟨hlock, hgood⟩ hv ⟨q, hkill, rfl⟩
      refine ⟨⟨hlock, truth.bkill _ _ _ j hgood hj hend hkill⟩, .inl hv, hv, ?_⟩
      exact fun t ht => hrest t (List.mem_cons_of_mem _ ht)
    · obtain ⟨j, hj, hend, -⟩ := mine s (heq ▸ List.mem_cons_of_mem _ hs)
      exact ⟨j, hj, hend⟩
    · rintro _ _ _ ⟨rfl, -⟩
      exact h
  · rename_i heq
    have unlisted : ¬ Listed user jobs e.name := by
      rintro ⟨id, j, hj, hl, hname, huser⟩
      obtain ⟨s, hs, -, hstate, hsname, hsuser⟩ := hall id j hj hl hname huser
      have hend := ended id j hj hname huser
      have hmem : s ∈ (found.filter (·.state != .NOTFOUND)).filter
          (fun s => s.user == some user && s.name == some e.name) := by
        have hne : s.state ≠ .NOTFOUND := by
          intro h
          rw [KnownJob.ended, ← hstate, h] at hend
          cases hend
        simp [hs, hne, hsname, hsuser, hname, huser]
      rw [heq] at hmem
      cases hmem
    refine .bind (.answer fun silent _ => reap_update e (LookedUp user jobs e)
      (fun _ => ⟨rfl, rfl⟩) (.inr ⟨unlisted, ?_⟩) fun _ h => h)
    rw [Entry.unsettled_iff] at hopen ⊢
    dsimp only
    split_ifs
    · simp
    · exact ⟨hopen, unknown, rfl⟩

end Commands
end TranspileBench.Lsf
