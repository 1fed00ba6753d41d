import TranspileBench.Lsf.Reaping
import TranspileBench.Lsf.Orchestration
import TranspileBench.Lsf.Playback
import TranspileBench.Coordinator.CostReplay

/-!
What a reap makes of a dead session whose jobs have all ended: it settles every entry with a
recorded job, except those that were given up and that no lookup by name finds again.
-/
namespace TranspileBench.Lsf
open Coordinator Evaluator

/-! ## One entry -/

section Entry
variable (user : String) (jobs : String → Option KnownJob)

/-- The reap asks for the entry's job by its id, or finds it by its name. -/
def Reached (e : Entry) : Prop := e.status = .submitted ∨ Listed user jobs e.name

/-- How far the reap has come with an entry that stood as `e₀` when it began. -/
inductive Progress (e₀ e : Entry) : Prop
  | same (before : e₀.unsettled = false) (eq : e = e₀)
  | settled (before : e₀.unsettled = true) (reached : Reached user jobs e₀)
      (status : e.status = .terminal) (own : e.job_id ≠ none → OwnEnd jobs e)
  | submitted (before : e₀.unsettled = true) (reached : Reached user jobs e₀)
      (status : e.status = .submitted)
      (recorded : ∀ id, e.job_id = some id → ∃ j, jobs id = some j ∧ j.ended = true)
  | unknown (before : e₀.unsettled = true) (unreached : e₀.status ≠ .submitted)
      (still : e.unsettled = true) (status : e.status ≠ .submitted) (job_id : e.job_id = e₀.job_id)

/-- Where the reap leaves an entry. -/
structure Final (e₀ e : Entry) : Prop where
  progress : Progress user jobs e₀ e
  asked : e.status = .submitted → e.job_id = none
  lost : e.unsettled = true → e.status ≠ .submitted → ¬ Listed user jobs e₀.name

end Entry

section Entry
variable {user : String} {jobs : String → Option KnownJob} {e₀ e : Entry}

theorem Final.of_settled (h : Progress user jobs e₀ e) (hs : e.unsettled = false) :
    Final user jobs e₀ e where
  progress := h
  asked hsub := by simp [Entry.unsettled, ACTIVE, hsub] at hs
  lost hopen := by rw [hs] at hopen; cases hopen

theorem Final.of_terminal (before : e₀.unsettled = true) (reached : Reached user jobs e₀)
    (status : e.status = .terminal) (own : e.job_id ≠ none → OwnEnd jobs e) :
    Final user jobs e₀ e :=
  .of_settled (.settled before reached status own) (by simp [Entry.unsettled, ACTIVE, status])

theorem OwnEnd.of_settled {e' : Entry} {s : JobStatus}
    (recorded : ∀ id, e.job_id = some id → ∃ j, jobs id = some j ∧ j.ended = true)
    (told : ∀ j, jobs (e.job_id.getD "") = some j → j.ended = true → s.state = j.state)
    (job_id : e'.job_id = e.job_id) (state : e'.scheduler.bind (·.state) = some s.state)
    (hid : e'.job_id ≠ none) : OwnEnd jobs e' := by
  rw [job_id] at hid
  obtain ⟨id, hid⟩ := Option.ne_none_iff_exists'.mp hid
  obtain ⟨j, hj, hend⟩ := recorded id hid
  rw [hid, Option.getD_some] at told
  exact ⟨id, j, job_id.trans hid, hj, hend, by rw [state, told j hj hend]⟩

/-- What is found by its name is as good as submitted. -/
theorem Progress.of_lookedUp {e' : Entry} (before : e₀.unsettled = true)
    (unreached : e₀.status ≠ .submitted) (name : e.name = e₀.name) (job_id : e.job_id = e₀.job_id)
    (h : LookedUp user jobs e e') : Progress user jobs e₀ e' := by
  rcases h with ⟨hlisted, hs, id, j, hid, hj, hend⟩ | ⟨-, hopen, hs, hid⟩
  · refine .submitted before (.inr (name ▸ hlisted)) hs fun id' hid' => ?_
    rw [hid] at hid'
    exact ⟨j, Option.some.inj hid' ▸ hj, hend⟩
  · exact .unknown before unreached hopen hs (hid.trans job_id)

/-- An open entry is submitted, or as unknown as it was. -/
theorem Progress.open_cases (h : Progress user jobs e₀ e) (hopen : e.unsettled = true) :
    e₀.unsettled = true ∧ ((e.status = .submitted ∧ Reached user jobs e₀ ∧
      ∀ id, e.job_id = some id → ∃ j, jobs id = some j ∧ j.ended = true) ∨
    (e.status ≠ .submitted ∧ e₀.status ≠ .submitted ∧ e.job_id = e₀.job_id)) := by
  cases h with
  | same before eq =>
      rw [eq, before] at hopen
      cases hopen
  | settled before reached status own => simp [Entry.unsettled, ACTIVE, status] at hopen
  | submitted before reached status recorded => exact ⟨before, .inl ⟨status, reached, recorded⟩⟩
  | unknown before unreached _ status job_id => exact ⟨before, .inr ⟨status, unreached, job_id⟩⟩

variable {N H Q : Type} {p : ℕ} {good : Q → Prop} {l : Ledger} {S : Scheduler Q} {key : String}

theorem reap_reconcileJob (truth : Truthful S user jobs good) (found : l.job key = some e)
    (name : e.name = e₀.name) (hopen : e.unsettled = true) (progress : Progress user jobs e₀ e)
    (ended : ∀ id j, jobs id = some j → j.name = e.name → j.user = user → j.ended = true) :
    (reapView good p).Runs (reconcileJob S user key : Prog (Cluster N H Q) Halt Unit) l
      fun _ l' => Becomes key e (Progress user jobs e₀) l l' := by
  have hkey := (Ledger.mem_of_job found).2
  obtain ⟨before, hcases⟩ := progress.open_cases hopen
  refine .bind (reap_entryOf found ?_)
  rcases hcases with ⟨hs, reached, recorded⟩ | ⟨hs, unreached, job_id⟩
  · rw [if_neg (not_not.mpr hs)]
    refine .andThen (reap_currentStatus truth) ?_
    rintro _ _ ⟨rfl, s, rfl, told, -⟩
    dsimp only
    split_ifs with hterminal
    · refine (reap_settle found hs).mono ?_
      rintro _ _ _ h
      refine h.mono fun e' _ _ ⟨hs', hid, hstate⟩ => .settled before reached hs' ?_
      exact OwnEnd.of_settled recorded told hid hstate
    · exact .pure _ (.same progress)
  · rw [if_pos hs]
    refine (reap_reconcileByName truth ended hopen hs).mono fun _ _ _ h => ?_
    rw [hkey] at h
    exact h.mono fun e' _ _ hl => .of_lookedUp before unreached name job_id hl

theorem reap_cancelChecked (truth : Truthful S user jobs good) (found : l.job key = some e)
    (hs : e.status = .submitted) (before : e₀.unsettled = true) (reached : Reached user jobs e₀)
    (recorded : ∀ id, e.job_id = some id → ∃ j, jobs id = some j ∧ j.ended = true)
    (ended : ∀ id j, jobs id = some j → j.name = e.name → j.user = user → j.ended = true) :
    (reapView good p).Runs (cancelChecked S user key e : Prog (Cluster N H Q) Halt Bool) l
      fun asked l' => asked = false ∧ Becomes key e (Final user jobs e₀) l l' := by
  refine .andThen (reap_currentStatus truth) ?_
  rintro _ _ ⟨rfl, s, rfl, told, known⟩
  dsimp only
  by_cases hterminal : s.terminal = true
  · rw [if_pos hterminal]
    refine .andThen (reap_settle found hs) fun _ l' h => .pure _ ⟨rfl, ?_⟩
    refine h.mono fun e' _ _ ⟨hs', hid, hstate⟩ => .of_terminal before reached hs' ?_
    exact OwnEnd.of_settled recorded told hid hstate
  · rw [if_neg hterminal]
    -- a recorded job has ended, so there is none
    have unrecorded : e.job_id = none := by
      by_contra hid
      obtain ⟨id, hid⟩ := Option.ne_none_iff_exists'.mp hid
      obtain ⟨j, hj, hend⟩ := recorded id hid
      rw [hid, Option.getD_some] at told
      exact hterminal ((KnownJob.ended_iff_terminal (told j hj hend)).trans hend)
    have foreign : s.name ≠ some e.name ∨ s.user ≠ some user := by
      rcases known with hname | hend | ⟨j, hj, -, hstate, hname, huser⟩
      · exact .inl (by simp [hname])
      · exact absurd hend hterminal
      · by_contra hmine
        obtain ⟨hn, hu⟩ := not_or.mp hmine
        rw [hname, not_not, Option.some.injEq] at hn
        rw [huser, not_not, Option.some.injEq] at hu
        exact hterminal ((KnownJob.ended_iff_terminal hstate).trans (ended _ j hj hn hu))
    rw [if_pos foreign]
    refine .pure _ ⟨rfl, .same ⟨.submitted before reached hs recorded, fun _ => unrecorded, ?_⟩⟩
    exact fun _ h => absurd hs h

theorem reap_cancelOne (truth : Truthful S user jobs good) (found : l.job key = some e)
    (name : e.name = e₀.name) (hopen : e.unsettled = true) (progress : Progress user jobs e₀ e)
    (ended : ∀ id j, jobs id = some j → j.name = e.name → j.user = user → j.ended = true) :
    (reapView good p).Runs (cancelOne S user key : Prog (Cluster N H Q) Halt Bool) l
      fun asked l' => asked = false ∧ Becomes key e (Final user jobs e₀) l l' := by
  have hkey := (Ledger.mem_of_job found).2
  obtain ⟨before, hcases⟩ := progress.open_cases hopen
  refine .bind (reap_entryOf found ?_)
  rcases hcases with ⟨hs, reached, recorded⟩ | ⟨hs, unreached, job_id⟩
  · rw [if_neg (not_not.mpr hs)]
    exact reap_cancelChecked truth found hs before reached recorded ended
  · rw [if_pos hs]
    refine .andThen (reap_reconcileByName truth ended hopen hs) fun _ l' h => ?_
    rw [hkey] at h
    obtain ⟨e', found', -, hname, hl⟩ := h.found found
    refine .bind (reap_entryOf found' ?_)
    have progress' := Progress.of_lookedUp before unreached name job_id hl
    rcases hl with ⟨hlisted, hs', id, j, hid, hj, hend⟩ | ⟨unlisted, hopen', hs', hid⟩
    · rw [if_neg (not_not.mpr hs')]
      have recorded : ∀ i, e'.job_id = some i → ∃ j, jobs i = some j ∧ j.ended = true := by
        intro i hi
        rw [hid] at hi
        exact ⟨j, Option.some.inj hi ▸ hj, hend⟩
      refine (reap_cancelChecked truth found' hs' before (.inr (name ▸ hlisted)) recorded
        (hname ▸ ended)).mono fun asked l'' _ hdone => ⟨hdone.1, ?_⟩
      refine h.andThen found fun e'' found'' _ _ _ => ?_
      rw [← Option.some.inj (found'.symm.trans found'')]
      exact hdone.2
    · rw [if_pos hs']
      refine .pure _ ⟨rfl, h.andThen found fun e'' found'' _ _ _ => ?_⟩
      rw [← Option.some.inj (found'.symm.trans found'')]
      refine .same ⟨progress', fun h => absurd h hs', fun _ _ => ?_⟩
      rw [← name]
      exact unlisted

end Entry

/-! ## The whole ledger -/

section Ledger
variable {P P' : Entry → Entry → Prop} {R : Entry → Prop} {l₀ l l' : Ledger} {key : String}
variable {e₀ e : Entry} {rest : List String}

/-- The ledger still has the entries it had, and `P` holds of each and what became of it. -/
structure Along (P : Entry → Entry → Prop) (l₀ l : Ledger) : Prop where
  keys : l.jobs.map (·.key) = l₀.jobs.map (·.key)
  entries : ∀ e₀ ∈ l₀.jobs, ∀ e ∈ l.jobs, e.key = e₀.key → e.name = e₀.name ∧ P e₀ e

theorem Along.before (h : Along P l₀ l) (he : e ∈ l.jobs) : ∃ e₀ ∈ l₀.jobs, e.key = e₀.key := by
  have hmem : e.key ∈ l.jobs.map (·.key) := List.mem_map_of_mem he
  rw [h.keys] at hmem
  obtain ⟨e₀, he₀, hkey⟩ := List.mem_map.mp hmem
  exact ⟨e₀, he₀, hkey.symm⟩

theorem Along.after (h : Along P l₀ l) (he₀ : e₀ ∈ l₀.jobs) : ∃ e ∈ l.jobs, e.key = e₀.key := by
  have hmem : e₀.key ∈ l₀.jobs.map (·.key) := List.mem_map_of_mem he₀
  rw [← h.keys] at hmem
  obtain ⟨e, he, hkey⟩ := List.mem_map.mp hmem
  exact ⟨e, he, hkey⟩

theorem Along.become (h : Along P l₀ l) (keyed : l₀.Keyed) (found : l.job key = some e)
    (becomes : Becomes key e R l l')
    (here : ∀ e₀ ∈ l₀.jobs, ∀ e', e.key = e₀.key → R e' → P' e₀ e')
    (other : ∀ x₀ x, x₀.key ≠ key → P x₀ x → P' x₀ x) : Along P' l₀ l' := by
  refine ⟨becomes.keys.trans h.keys, fun x₀ hx₀ x' hx' hkey => ?_⟩
  have keyed' : l.Keyed := by
    unfold Ledger.Keyed
    rw [h.keys]
    exact keyed
  obtain ⟨f, rfl, hf, hR⟩ := becomes
  obtain ⟨x, hx, rfl⟩ := Ledger.mem_update hx'
  obtain ⟨he, hekey⟩ := Ledger.mem_of_job found
  by_cases hxkey : x.key = key
  · obtain rfl : x = e := List.inj_on_of_nodup_map keyed' hx he (hxkey.trans hekey.symm)
    rw [if_pos hxkey] at hkey ⊢
    rw [(hf x).1] at hkey
    refine ⟨(hf x).2.trans (h.entries x₀ hx₀ x hx hkey).1, here x₀ hx₀ _ hkey hR⟩
  · rw [if_neg hxkey] at hkey ⊢
    obtain ⟨hname, hP⟩ := h.entries x₀ hx₀ x hx hkey
    exact ⟨hname, other x₀ x (hkey ▸ hxkey) hP⟩

/-- The jobs still to be looked at, each of them owned. -/
def Waiting (rest : List String) (l : Ledger) : Prop :=
  rest.Nodup ∧ ∀ k ∈ rest, ∃ e, l.job k = some e ∧ e.unsettled = true

theorem Waiting.next (h : Waiting (key :: rest) l) (becomes : Becomes key e R l l') :
    Waiting rest l' := by
  obtain ⟨hhead, htail⟩ := List.nodup_cons.mp h.1
  obtain ⟨f, rfl, hf, -⟩ := becomes
  refine ⟨htail, fun k hk => ?_⟩
  have hne : k ≠ key := by
    rintro rfl
    exact hhead hk
  rw [Ledger.job_update_of_ne (fun x => (hf x).1) hne]
  exact h.2 k (List.mem_cons_of_mem _ hk)

theorem Ledger.Keyed.job_of_mem (h : l.Keyed) (he : e ∈ l.jobs) : l.job e.key = some e := by
  have hsome : (l.job e.key).isSome = true := by
    rw [Ledger.job, List.find?_isSome]
    exact ⟨e, he, by simp⟩
  obtain ⟨x, hx⟩ := Option.isSome_iff_exists.mp hsome
  rw [hx, Custody.Keyed.job_eq h he hx]

theorem Ledger.Keyed.waiting (h : l.Keyed) (manager : Bool) :
    Waiting ((l.owned manager).map (·.key)) l := by
  have hnodup : ((l.owned manager).map (·.key)).Nodup := h.sublist (List.filter_sublist.map _)
  refine ⟨hnodup, fun k hk => ?_⟩
  obtain ⟨e, he, rfl⟩ := List.mem_map.mp hk
  obtain ⟨hmem, howned⟩ := List.mem_filter.mp he
  simp only [Bool.and_eq_true] at howned
  exact ⟨e, h.job_of_mem hmem, howned.1⟩

end Ledger

/-! ## The reap -/

section Reap
variable {N H Q : Type} {p : ℕ} {good : Q → Prop} {S : Scheduler Q} {user : String}
variable {jobs : String → Option KnownJob} {l₀ l : Ledger}

theorem Along.initial (keyed : l₀.Keyed) (ended : AllEnded l₀ user jobs) :
    Along (Progress user jobs) l₀ l₀ where
  keys := rfl
  entries e₀ he₀ e he hkey := by
    obtain rfl : e = e₀ := List.inj_on_of_nodup_map keyed he he₀ hkey
    refine ⟨rfl, ?_⟩
    cases hopen : e.unsettled with
    | false => exact .same hopen rfl
    | true =>
        by_cases hs : e.status = .submitted
        · exact .submitted hopen (.inl hs) hs (ended.recorded e he)
        · exact .unknown hopen hs hopen hs rfl

theorem Along.ended {P : Entry → Entry → Prop} (h : Along P l₀ l) (ended : AllEnded l₀ user jobs)
    {e : Entry} (he : e ∈ l.jobs) :
    ∀ id j, jobs id = some j → j.name = e.name → j.user = user → j.ended = true := by
  obtain ⟨e₀, he₀, hkey⟩ := h.before he
  intro id j hj hname
  exact ended.named e₀ he₀ id j hj (hname.trans (h.entries e₀ he₀ e he hkey).1)

theorem Along.keyed {P : Entry → Entry → Prop} (h : Along P l₀ l) (keyed : l₀.Keyed) : l.Keyed := by
  unfold Ledger.Keyed
  rw [h.keys]
  exact keyed

/-- The first pass settles what is submitted, and finds what is listed. -/
theorem reap_reconcile (truth : Truthful S user jobs good) (keyed : l₀.Keyed)
    (ended : AllEnded l₀ user jobs) :
    (reapView good p).Runs (reconcile S user : Prog (Cluster N H Q) Halt Unit) l₀
      fun _ l => Along (Progress user jobs) l₀ l := by
  refine .bind (reap_consult ?_)
  have start : Waiting ((l₀.owned false).map (·.key)) l₀ ∧ Along (Progress user jobs) l₀ l₀ :=
    ⟨keyed.waiting false, .initial keyed ended⟩
  refine (View.Runs.each (fun rest l => Waiting rest l ∧ Along (Progress user jobs) l₀ l) ?_
    start).mono fun _ _ _ h => h.2
  rintro key rest l ⟨hwaiting, halong⟩
  obtain ⟨e, found, hopen⟩ := hwaiting.2 key List.mem_cons_self
  obtain ⟨he, hkey⟩ := Ledger.mem_of_job found
  obtain ⟨e₀, he₀, hkey₀⟩ := halong.before he
  obtain ⟨hname, hprogress⟩ := halong.entries e₀ he₀ e he hkey₀
  refine (reap_reconcileJob truth found hname hopen hprogress (halong.ended ended he)).mono ?_
  intro _ l' _ hbecomes
  refine ⟨hwaiting.next hbecomes, halong.become keyed found hbecomes ?_ fun _ _ _ h => h⟩
  intro x₀ hx₀ e' hx hR
  rwa [List.inj_on_of_nodup_map keyed hx₀ he₀ (hx.symm.trans hkey₀)]

/-- The second pass settles what is found, kills nothing, and leaves the rest lost. -/
theorem reap_cancelOwned (truth : Truthful S user jobs good) (keyed : l₀.Keyed)
    (ended : AllEnded l₀ user jobs) (halong : Along (Progress user jobs) l₀ l) (rounds : ℕ) :
    (reapView good p).Runs (cancelOwned S user rounds true : Prog (Cluster N H Q) Halt Unit) l
      fun _ l' => Along (Final user jobs) l₀ l' := by
  refine .bind (reap_consult ?_)
  let Stand (rest : List String) (e₀ e : Entry) : Prop :=
    Progress user jobs e₀ e ∧ (e₀.key ∉ rest → Final user jobs e₀ e)
  have start : [] = ([] : List String) ∧ Waiting ((l.owned true).map (·.key)) l ∧
      Along (Stand ((l.owned true).map (·.key))) l₀ l := by
    refine ⟨rfl, (halong.keyed keyed).waiting true, halong.keys, fun e₀ he₀ e he hkey => ?_⟩
    obtain ⟨hname, hprogress⟩ := halong.entries e₀ he₀ e he hkey
    refine ⟨hname, hprogress, fun hnot => .of_settled hprogress ?_⟩
    by_contra hopen
    refine hnot (hkey ▸ List.mem_map_of_mem (List.mem_filter.mpr ⟨he, ?_⟩))
    simpa using hopen
  refine .andThen (View.Runs.fold (fun targets rest l => targets = [] ∧ Waiting rest l ∧
    Along (Stand rest) l₀ l) ?_ start) ?_
  · rintro targets key rest l ⟨rfl, hwaiting, halong⟩
    obtain ⟨e, found, hopen⟩ := hwaiting.2 key List.mem_cons_self
    obtain ⟨he, hkey⟩ := Ledger.mem_of_job found
    obtain ⟨e₀, he₀, hkey₀⟩ := halong.before he
    obtain ⟨hname, hprogress, -⟩ := halong.entries e₀ he₀ e he hkey₀
    refine .andThen (reap_cancelOne truth found hname hopen hprogress (halong.ended ended he)) ?_
    rintro _ l' ⟨rfl, hbecomes⟩
    refine .pure _ ⟨rfl, hwaiting.next hbecomes, halong.become keyed found hbecomes ?_ ?_⟩
    · intro x₀ hx₀ e' hx hR
      rw [List.inj_on_of_nodup_map keyed hx₀ he₀ (hx.symm.trans hkey₀)]
      exact ⟨hR.progress, fun _ => hR⟩
    · intro x₀ x hne hstand
      refine ⟨hstand.1, fun hnot => hstand.2 fun hmem => ?_⟩
      rcases List.mem_cons.mp hmem with h | h
      · exact hne h
      · exact hnot h
  · rintro _ l' ⟨rfl, -, halong⟩
    have done : Along (Final user jobs) l₀ l' := by
      refine ⟨halong.keys, fun e₀ he₀ e he hkey => ?_⟩
      obtain ⟨hname, hstand⟩ := halong.entries e₀ he₀ e he hkey
      exact ⟨hname, hstand.2 List.not_mem_nil⟩
    cases rounds <;> exact .pure _ done

/-- The session is recovered: no entry with a recorded job is open, and none makes a resume
refuse; what the reap settled, it settled on the end of the entry's own job. -/
structure Recovered (jobs : String → Option KnownJob) (l₀ l : Ledger) : Prop where
  closed : ∀ e ∈ l.jobs, e.job_id ≠ none → e.unsettled = false
  own : ∀ e₀ ∈ l₀.jobs, ∀ e ∈ l.jobs, e.key = e₀.key → e₀.unsettled = true → e.job_id ≠ none →
    e.status = .terminal ∧ OwnEnd jobs e
  resumable : ∀ e ∈ l.jobs, e.job_id ≠ none → ∀ session,
    (checkJobEnded session e : Prog (Site N H) Fault Unit) = pure ()

/-- Every open entry with a recorded job is submitted, or `bjobs` still lists its name. -/
def Recoverable (user : String) (jobs : String → Option KnownJob) (l : Ledger) : Prop :=
  ∀ e ∈ l.jobs, e.job_id ≠ none → e.unsettled = true → Reached user jobs e

/-- What the reap leaves is recovered exactly when everything could be reached. -/
theorem Along.recovered_iff (h : Along (Final user jobs) l₀ l) :
    Recovered (N := N) (H := H) jobs l₀ l ↔ Recoverable user jobs l₀ := by
  constructor
  · intro hrec e₀ he₀ hid hopen
    obtain ⟨e, he, hkey⟩ := h.after he₀
    cases (h.entries e₀ he₀ e he hkey).2.progress with
    | same before eq => simp [before] at hopen
    | settled _ reached _ _ => exact reached
    | submitted _ reached _ _ => exact reached
    | unknown _ _ still _ job_id =>
        rw [hrec.closed e he (job_id ▸ hid)] at still
        cases still
  · intro hreach
    -- an entry that is still open has no recorded job
    have closed : ∀ e ∈ l.jobs, e.job_id ≠ none → e.unsettled = false := by
      intro e he hid
      obtain ⟨e₀, he₀, hkey⟩ := h.before he
      obtain ⟨-, hfinal⟩ := h.entries e₀ he₀ e he hkey
      cases hfinal.progress with
      | same before eq => rw [eq, before]
      | settled _ _ status _ => simp [Entry.unsettled, ACTIVE, status]
      | submitted _ _ status _ => exact absurd (hfinal.asked status) hid
      | unknown before unreached still status job_id =>
          have hreached := hreach e₀ he₀ (job_id ▸ hid) before
          exact absurd (hreached.resolve_left unreached) (hfinal.lost still status)
    refine ⟨closed, fun e₀ he₀ e he hkey hopen hid => ?_, fun e he hid session => ?_⟩
    · have hclosed := closed e he hid
      cases (h.entries e₀ he₀ e he hkey).2.progress with
      | same before eq => simp [before] at hopen
      | settled _ _ status own => exact ⟨status, own hid⟩
      | submitted _ _ status _ => simp [Entry.unsettled, ACTIVE, status] at hclosed
      | unknown _ _ still _ _ => simp [still] at hclosed
    · simp [checkJobEnded, closed e he hid]

variable [Arith N] [DecidableEq N] [DecidableEq H] {platform : Platform N H}

/-- After a reap over jobs that have all ended, beside a scheduler that now answers truthfully,
the session is recovered exactly when every open entry with a recorded job is submitted or
still listed under its name: one that was given up is looked up by its name alone. -/
theorem reap_recovers_iff {c : Config (Cluster N H Q) Halt}
    (reachable : (orchestration S platform).Reachable c) {watch : Watch}
    (truth : Truthful S watch.user jobs good) (now : good c.world.queue)
    (ended : AllEnded c.world.ledger watch.user jobs) :
    (reap S watch p).wp (reaping good p)
      (fun _ w => Recovered (N := N) (H := H) jobs c.world.ledger w.ledger ↔
        Recoverable watch.user jobs c.world.ledger) (fun _ _ => True) c.world := by
  have sound : Sound c.world.notes := (orchestrationOutline.holds reachable).1
  have keyed : c.world.ledger.Keyed := List.pairwise_map.mpr (sound.ordered.imp (·.key))
  unfold reap
  rw [Prog.wp_bind]
  refine Prog.wp_fallible (fun _ => ⟨id, id⟩) ?_ fun _ _ _ _ _ => trivial
  rintro w₁ ⟨-, hledger, hgood⟩ - _ _ ⟨hfree, rfl⟩
  refine ⟨⟨fun h => by simp [hfree] at h, id⟩, trivial, ?_⟩
  have runs : (reapView good p).Runs (do
      reconcile S watch.user
      cancelOwned S watch.user watch.rounds true
      writeReport : Prog (Cluster N H Q) Halt Unit) c.world.ledger
      fun _ l => Along (Final watch.user jobs) c.world.ledger l :=
    .andThen (reap_reconcile truth keyed ended) fun _ _ halong =>
      .andThen (reap_cancelOwned truth keyed ended halong watch.rounds) fun _ _ h =>
        reap_writeReport h
  refine Prog.wp_mono (runs trivial _ ⟨rfl, hgood now⟩ hledger) ?_ fun _ _ _ => trivial
  rintro _ w' ⟨-, -, halong⟩
  exact halong.recovered_iff

end Reap

/-! ## A job that was given up -/

section Sample

/-- A scheduler that accepts job 5 and lists no job ever again; from some time on, its history
tells of the job's end. -/
def forgetful : Scheduler Bool where
  bsub q _ answer q' := answer = .accepted "5" ∧ q' = q
  bjobs _ id answer := answer = .ok ⟨id, .NOTFOUND, none, none, none, none⟩
  named _ _ answer := answer = .ok []
  bhist q id answer := answer = if q then some ⟨id, .DONE, some 0, none, none, none⟩ else none
  bkill q _ q' := q' = q

def compileKey : String := jobKey .compile none "n"

def compileEntry (status : EntryStatus) (job_id : Option String) : Entry :=
  ⟨compileKey, .compile, none, jobName "run" compileKey, 0, 0, status, job_id, none, none, none, 0⟩

/-- The compile job given up, after some lookups by its name. -/
def lostEntry (lookups : ℕ) : Entry :=
  { compileEntry .unreconciled (some "5") with name_lookups := lookups }

def endedJobs (id : String) : Option KnownJob :=
  if id = "5" then some ⟨jobName "run" compileKey, "ann", .DONE, false⟩ else none

def sampleWatch : Watch := ⟨⟨"baseline", "evolved", false, "store"⟩, "ann", 1, 1⟩

theorem job_single (e : Entry) : ({ jobs := [e] } : Ledger).job e.key = some e := by
  simp [Ledger.job]

theorem update_single (e : Entry) (f : Entry → Entry) :
    ({ jobs := [e] } : Ledger).update e.key f = { jobs := [f e] } := by
  simp [Ledger.update]

section Run
attribute [local instance] integerArith
variable {H : Type} {w : Cluster Int H Bool}

/-- Save a ledger of one job. -/
theorem exec_saveSingle {e e' : Entry} {f : Entry → Entry} (hw : w.ledger = { jobs := [e] })
    (hf : f e = e') :
    Exec (save (·.update e.key f) : Prog (Cluster Int H Bool) Halt Unit) w (some (.ok ()))
      (w.setLedger { jobs := [e'] }) := by
  have run := exec_save (w := w) (·.update e.key f)
  rwa [hw, update_single, hf] at run

/-- The first job of a session is reserved and accepted. -/
theorem exec_submitCompile (hw : w.ledger = {}) (hrun : w.site.launch.run_id = "run") :
    ∃ w', Exec (submit forgetful .compile none : Prog (Cluster Int H Bool) Halt _) w
        (some (.ok (.ok compileKey))) w' ∧
      w'.ledger = { jobs := [compileEntry .submitted (some "5")] } ∧ w'.lock = w.lock ∧
      w'.queue = w.queue := by
  let r : Request := ⟨compileKey, jobName "run" compileKey, .compile, none, []⟩
  have reserved : Exec (reserve r : Prog (Cluster Int H Bool) Halt Unit) w (some (.ok ()))
      (w.setLedger { jobs := [compileEntry .reserved none] }) := by
    refine Exec.bind (a := 0) (.answer trivial) ((exec_consult id).bind ?_)
    dsimp only [id]
    rw [hw]
    exact exec_save _
  let w₁ : Cluster Int H Bool := w.setLedger { jobs := [compileEntry .reserved none] }
  let w₂ : Cluster Int H Bool := { w₁ with
    site := { w₁.site with submitted := w₁.site.submitted ++ [(r.name, .accepted "5")] } }
  have submitted : Exec (submitReserved forgetful r MAX_REJECTIONS) w₁
      (some (.ok (.ok compileKey)))
      (w₂.setLedger { jobs := [compileEntry .submitted (some "5")] }) := by
    have asked : Exec (submitJob forgetful r) w₁ (some (.ok (ε := Halt) (.accepted "5"))) w₂ :=
      exec_submitJob ⟨rfl, rfl⟩
    refine asked.bind ?_
    exact (exec_saveSingle (w := w₂) (e := compileEntry .reserved none) rfl rfl).bind (.ret _ _)
  refine ⟨w₂.setLedger { jobs := [compileEntry .submitted (some "5")] }, ?_, rfl, rfl, rfl⟩
  refine Exec.bind (a := "n") (.answer trivial) ((exec_consult _).bind ((Exec.read _).bind ?_))
  refine Exec.bind (a := ()) (.request trivial) (Exec.bind (a := true) (exec_clock true) ?_)
  rw [hrun, if_pos rfl]
  exact reserved.bind submitted

/-- A job that neither `bjobs` nor `bhist` knows for too long is given up. -/
theorem exec_lost (hw : w.ledger = { jobs := [compileEntry .submitted (some "5")] })
    (hq : w.queue = false) :
    ∃ w', Exec (observe forgetful "ann" compileKey : Prog (Cluster Int H Bool) Halt Bool) w none
      w' ∧
      w'.ledger = { jobs := [compileEntry .unreconciled (some "5")] } ∧ w'.lock = w.lock := by
  have found : w.ledger.job compileKey = some (compileEntry .submitted (some "5")) := by
    rw [hw]
    exact job_single _
  let w₁ := (w.report "5" (some ⟨"5", .NOTFOUND, none, none, none, none⟩)).exchange
    (.queried "5" (.ok ⟨"5", .NOTFOUND, none, none, none, none⟩))
  let w₂ := (w₁.report "5" none).exchange (.recalled "5" none)
  have asked : Exec (queryJob forgetful "5") w
      (some (.ok (ε := Halt) (.ok ⟨"5", .NOTFOUND, none, none, none, none⟩))) w₁ :=
        exec_queryJob rfl
  have unheard : Exec (jobHistory forgetful "5") w₁ (some (.ok (ε := Halt) none)) w₂ := by
    refine exec_jobHistory ?_ (by simp)
    change none = if w.queue then _ else none
    rw [hq]
    rfl
  have saved := exec_saveSingle (w := w₂) (e := compileEntry .submitted (some "5"))
    (f := fun e => { e with status := .unreconciled }) hw rfl
  refine ⟨_, (exec_entryOf found).bind (asked.bind (unheard.bind
    (Exec.bind (a := true) (exec_clock true) (saved.bind (.stop _ _))))), rfl, rfl⟩

/-- A manager that gives its first job up and is killed. -/
theorem exec_givenUp (platform : Platform Int StageState) :
    ∃ w', Exec (manage forgetful sampleWatch platform 1) (Cluster.resting false {}) none w' ∧
      w'.ledger = { jobs := [compileEntry .unreconciled (some "5")] } ∧ w'.lock = some 1 := by
  -- the world in which the pipeline starts
  let w : Cluster Int StageState Bool := { Cluster.resting false {} with lock := some 1 }
  let w₁ := w.sight (.state .compile none none)
  obtain ⟨w₂, submitted, hledger, hlock, hqueue⟩ := exec_submitCompile (w := w₁) rfl rfl
  obtain ⟨w', lost, hlost, hlock'⟩ := exec_lost hledger hqueue
  have asked : Exec (stageJob forgetful .compile) w
      (some (.ok (ε := Halt) (some compileKey))) w₂ :=
    (exec_consult _).bind (Exec.bind (a := false) (Exec.bind (a := (none, none))
      (.fallible ⟨rfl, rfl⟩) (.ret false w₁)) (submitted.bind (.ret _ _)))
  have waiting : Exec (stageJobs forgetful sampleWatch [.compile]) w none w' := by
    have keys : Exec (Prog.fold (fun keys s => do
        let key ← stageJob forgetful s
        pure (keys ++ key.toList)) [] [Stage.compile]) w (some (.ok (ε := Halt) [compileKey])) w₂ :=
      Exec.bind (a := [compileKey]) (asked.bind (.ret _ _)) (.ret _ _)
    refine keys.bind (Exec.stopped ?_)
    have observed : Exec (observeAll forgetful "ann" [compileKey]) w₂ none w' :=
      Exec.stopped lost.stopped
    exact observed.stopped
  have working : Exec (work forgetful sampleWatch platform 1) w none w' :=
    Exec.bind (a := ()) ((exec_consult _).bind (.ret () w))
      (Exec.bind (a := ()) (Exec.bind (a := none) (.fallible ⟨rfl, rfl⟩) (.ret () w))
        (Exec.stopped waiting.stopped.tryCatch_stopped))
  refine ⟨w', ?_, hlost, hlock'.trans hlock⟩
  exact Exec.bind (a := ()) (.fallible ⟨rfl, rfl⟩) ((exec_save id).bind
    working.interrupted.attempt_stopped.stopped)

/-- No job is listed under the name, so an entry that was given up stays so. -/
theorem exec_unfound {n : ℕ} (hw : w.ledger = { jobs := [lostEntry n] }) :
    ∃ w', Exec (reconcileByName forgetful "ann" (lostEntry n) :
        Prog (Cluster Int H Bool) Halt Unit) w (some (.ok ())) w' ∧
      w'.ledger = { jobs := [lostEntry (n + 1)] } := by
  let w₁ := w.exchange (.found (lostEntry n).name (.ok []))
  refine ⟨w₁.setLedger { jobs := [lostEntry (n + 1)] }, ?_, rfl⟩
  refine (exec_findJobs [] rfl).bind (Exec.bind (a := false) (exec_clock false) ?_)
  refine exec_saveSingle (w := w₁) (e := lostEntry n) hw ?_
  simp [lostEntry, compileEntry]

/-- The reap of a session whose only job was given up. -/
theorem exec_reap (hw : w.ledger = { jobs := [lostEntry 0] }) (hlock : w.lock = none) :
    ∃ w', Exec (reap forgetful sampleWatch 1 : Prog (Cluster Int H Bool) Halt Unit) w
        (some (.ok ())) w' ∧ w'.ledger = { jobs := [lostEntry 2] } := by
  have owned : ∀ n manager, (({ jobs := [lostEntry n] } : Ledger).owned manager).map (·.key) =
      [compileKey] := by
    intro n manager
    cases manager <;> rfl
  have found : ∀ {w : Cluster Int H Bool} {n}, w.ledger = { jobs := [lostEntry n] } →
      w.ledger.job compileKey = some (lostEntry n) := by
    intro w n hw
    rw [hw]
    exact job_single _
  let w₁ : Cluster Int H Bool := { w with lock := some 1 }
  obtain ⟨w₂, first, hw₂⟩ := exec_unfound (w := w₁) hw
  obtain ⟨w₃, second, hw₃⟩ := exec_unfound hw₂
  have reconciled : Exec (reconcile forgetful "ann") w₁ (some (.ok (ε := Halt) ())) w₂ := by
    have hw₁ : w₁.ledger = { jobs := [lostEntry 0] } := hw
    refine (exec_consult _).bind ?_
    rw [hw₁, owned 0 false]
    exact Exec.bind ((exec_entryOf (found hw₁)).bind first) (.ret _ _)
  have cancelled : Exec (cancelOwned forgetful "ann" 1 true) w₂ (some (.ok (ε := Halt) ())) w₃ := by
    have asked : Exec (cancelOne forgetful "ann" compileKey) w₂ (some (.ok (ε := Halt) false)) w₃ :=
      (exec_entryOf (found hw₂)).bind (second.bind ((exec_entryOf (found hw₃)).bind (.ret _ _)))
    refine exec_cancelOwned_ended 1 ?_ asked
    rw [hw₂]
    exact owned 1 true
  refine ⟨w₃, ?_, hw₃⟩
  exact Exec.bind (a := ()) (.fallible ⟨hlock, rfl⟩)
    (reconciled.bind (cancelled.bind (.request trivial)))

/-- A session whose only job was given up, and whose scheduler tells the truth by now. -/
theorem reachable_lost : ∃ w : Cluster Int StageState Bool,
    (orchestration forgetful (Platform.unary sampleSetting)).Reachable ⟨w, fun _ => none⟩ ∧
      w.ledger = { jobs := [lostEntry 0] } ∧ w.lock = none ∧ w.queue = true := by
  obtain ⟨w, run, hledger, hlock⟩ := exec_givenUp (Platform.unary sampleSetting)
  have start : (orchestration forgetful (Platform.unary sampleSetting)).Reachable
      ⟨Cluster.resting false {}, fun _ => none⟩ := .init ⟨⟨rfl, rfl, rfl, rfl⟩, fun _ => rfl⟩
  have killed := System.Reachable.exec _ 1 start rfl ⟨.manage sampleWatch, rfl⟩ run
  let w₁ := (orchestration forgetful (Platform.unary sampleSetting)).release 1 w
  refine ⟨{ w₁ with queue := true }, .step killed (.env ⟨w₁.site.session, true, w₁.outcomes,
    w₁.invoker, rfl⟩), hledger, ?_, rfl⟩
  exact if_pos hlock

theorem forgetful_truthful : Truthful forgetful "ann" endedJobs (· = true) where
  bjobs q id answer _ h := by
    refine ⟨_, h, .inr ⟨rfl, rfl, fun j hj => ?_⟩⟩
    unfold endedJobs at hj
    split_ifs at hj
    rw [← Option.some.inj hj]
  named q name answer _ h := by
    refine ⟨[], h, by simp, fun id j hj hl => ?_⟩
    unfold endedJobs at hj
    split_ifs at hj
    rw [← Option.some.inj hj] at hl
    cases hl
  bhist q id answer hq h j hj _ := by
    obtain rfl := hq
    unfold endedJobs at hj
    split_ifs at hj
    exact ⟨_, h, by rw [← Option.some.inj hj]⟩
  bkill q id q' j hq _ _ h := h.trans hq

theorem lost_ended : AllEnded { jobs := [lostEntry 0] } "ann" endedJobs where
  recorded e he id hid := by
    obtain rfl := List.mem_singleton.mp he
    obtain rfl := Option.some.inj hid
    exact ⟨_, rfl, rfl⟩
  named e _ id j hj _ _ := by
    unfold endedJobs at hj
    split_ifs at hj
    rw [← Option.some.inj hj]
    rfl

theorem reap_recovers_iff_sample : ∃ c : Config (Cluster Int StageState Bool) Halt,
    c.world.ledger = { jobs := [lostEntry 0] } ∧
      (reap forgetful sampleWatch 1).wp (reaping (· = true) 1)
        (fun _ w => Recovered (N := Int) (H := StageState) endedJobs c.world.ledger w.ledger ↔
          Recoverable "ann" endedJobs c.world.ledger) (fun _ _ => True) c.world := by
  obtain ⟨w, reachable, hledger, -, hqueue⟩ := reachable_lost
  exact ⟨_, hledger, reap_recovers_iff reachable forgetful_truthful hqueue
    (by rw [hledger]; exact lost_ended)⟩

/-- The manager gave the job up while neither command knew it. By now its history tells of its
end, but the reap looks an entry that was given up only up by its name. -/
theorem reap_strands : ∃ (c : Config (Cluster Int StageState Bool) Halt)
    (w : Cluster Int StageState Bool),
    (orchestration forgetful (Platform.unary sampleSetting)).Reachable c ∧
      Truthful forgetful "ann" endedJobs (· = true) ∧ c.world.queue = true ∧
      AllEnded c.world.ledger "ann" endedJobs ∧
      Exec (reap forgetful sampleWatch 1) c.world (some (.ok ())) w ∧
      ¬ Recovered (N := Int) (H := StageState) endedJobs c.world.ledger w.ledger := by
  obtain ⟨w, reachable, hledger, hlock, hqueue⟩ := reachable_lost
  obtain ⟨w', run, hledger'⟩ := exec_reap hledger hlock
  refine ⟨_, w', reachable, forgetful_truthful, hqueue, by rw [hledger]; exact lost_ended, run, ?_⟩
  intro hrec
  have closed := hrec.closed (lostEntry 2) (by rw [hledger']; exact List.mem_singleton_self _)
    (fun h => by cases h)
  cases closed

end Run
end Sample
end TranspileBench.Lsf
