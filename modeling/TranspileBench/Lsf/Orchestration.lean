import TranspileBench.Lsf.PipelineSteps

/-!
Runs of the orchestration: every manager, `reap`, launch and resume takes only steps of the
ledger under the lock, so the invariant holds throughout, and with it what may never happen
while a job may still run.
-/
namespace TranspileBench.Lsf
open Coordinator Evaluator

variable {N H Q α : Type} {p : ℕ} {n : Notes}

/-! ## Programs of the launcher, which see only the site -/

/-- The notes of a site beside a history that it does not keep. -/
def Site.notes (past : Notes) (v : Site N H) : Notes :=
  { past with
    ledger := v.ledger
    run_id := v.launch.run_id
    submitted := v.submitted
    reports := v.reports }

def siteContract (past : Notes) : Contract (Site N H) where
  rely v v' := v'.notes past = v.notes past
  guar v v' := v'.notes past = v.notes past ∨ Step (v.notes past) (v'.notes past)
  inv v := Sound (v.notes past)
  rely_refl _ := rfl
  rely_trans h h' := h'.trans h

/-- The ledger and its history at a site whose lock is held. -/
def siteView (past : Notes) : View (siteContract (N := N) (H := H) past) Notes where
  held _ := True
  view := Site.notes past
  inv := Sound
  step := Step
  stable _ hrely _ := ⟨trivial, hrely⟩
  kept _ _ := trivial
  sound := id
  preserved hinv step := step.sound hinv
  allowed _ hinv _ hstep := by
    refine ⟨hstep, ?_⟩
    rcases hstep with heq | hstep
    · change Sound _
      rw [heq]
      exact hinv
    · exact hstep.sound hinv

section Site
variable {past : Notes} {R : α → Notes → Prop}

/-- A program on the site of a cluster, for the holder of the lock. -/
theorem runs_onSite {ε : Type} {prog : Prog (Site N H) ε α}
    (h : (siteView n).Runs prog n R) :
    (lockView p).Runs (prog.zoom (clusterLens (N := N) (H := H) (Q := Q))) n R := by
  rintro hinv w hw rfl
  refine Prog.wp_mono (Prog.wp_within clusterLens (D := siteContract w.notes)
    (fun w' : Cluster N H Q => w'.lock = some p ∧ w'.notes = w'.site.notes w.notes) ?_ ?_
    ⟨hw, rfl⟩ hinv (h hinv w.site trivial rfl)) ?_ ?_
  · rintro w₁ w₂ ⟨hw₁, hn₁⟩ _ hrely hinv₂
    obtain ⟨hw₂, hn₂⟩ := hrely hw₁
    have hsite : w₂.site.notes w.notes = w₁.site.notes w.notes :=
      congrArg (fun n : Notes =>
        { w.notes with
          ledger := n.ledger
          run_id := n.run_id
          submitted := n.submitted
          reports := n.reports }) hn₂
    have heq : w₂.notes = w₂.site.notes w.notes := hn₂.trans (hn₁.trans hsite.symm)
    exact ⟨⟨hw₂, heq⟩, hsite, (congrArg Sound heq).mp hinv₂⟩
  · rintro w₁ v ⟨hw₁, hn₁⟩ hinv₁ _ hguar hinv'
    have heq : Cluster.notes { w₁ with site := v } = v.notes w.notes :=
      congrArg (fun n : Notes =>
        { v.notes n with seen := n.seen, decided := n.decided, cleaned := n.cleaned }) hn₁
    refine ⟨⟨?_, .inl rfl⟩, (congrArg Sound heq).mpr hinv', hw₁, heq⟩
    rcases hguar with hsame | hstep
    · exact .inl (heq.trans (hsame.trans hn₁.symm))
    · refine .inr ⟨hw₁, ?_⟩
      rw [hn₁]
      exact (congrArg (Step _) heq).mpr hstep
  · rintro a w' ⟨⟨hw', hn'⟩, -, hsound, hQ⟩
    refine ⟨hw', ?_, ?_⟩
    · exact (congrArg Sound hn').mpr hsound
    · exact (congrArg (R a) hn').mpr hQ
  · rintro e w' ⟨⟨hw', hn'⟩, -, hsound⟩
    exact ⟨hw', (congrArg Sound hn').mpr hsound⟩

theorem runs_look {f : Site N H → α} (h : ∀ v : Site N H, v.notes past = n → R (f v) n) :
    (siteView past).Runs (look f) n R := by
  refine .fallible ?_
  rintro v _ _ - rfl ⟨rfl, rfl⟩
  exact ⟨trivial, .inl rfl, h _ rfl⟩

theorem runs_put {f : Site N H → Site N H} {R : Unit → Notes → Prop} (n' : Notes)
    (notes : ∀ v : Site N H, v.notes past = n → (f v).notes past = n')
    (step : n' = n ∨ Step n n') (h : R () n') : (siteView past).Runs (put f) n R := by
  refine .fallible ?_
  rintro v _ _ - hv rfl
  have heq : (siteView past).view (f v) = n' := notes v hv
  refine ⟨trivial, ?_, ?_⟩
  · rw [heq]
    exact step
  · rw [heq]
    exact h

theorem runs_query {id : String} {R : Except String JobStatus → Notes → Prop}
    (h : ∀ answer, R answer (n.reported id answer.toOption)) :
    (siteView past).Runs (query id : Prog (Site N H) Fault _) n R := by
  refine .perform ?_
  rintro v answer _ - rfl rfl
  exact ⟨trivial, .inr (.reported id _), h answer⟩

theorem runs_history {id : String} {R : Option JobStatus → Notes → Prop}
    (h : ∀ answer, R answer (n.reported id answer)) :
    (siteView past).Runs (history id : Prog (Site N H) Fault _) n R := by
  refine .perform ?_
  rintro v answer _ - rfl ⟨-, rfl⟩
  exact ⟨trivial, .inr (.reported id _), h answer⟩

/-! ## Resuming -/

theorem runs_statusOf {id : String} :
    (siteView past).Runs (statusOf id : Prog (Site N H) Fault _) n
      fun _ n' => n'.ledger = n.ledger ∧ n'.run_id = n.run_id := by
  refine .bind (runs_query fun answer => ?_)
  cases answer with
  | error text => exact .pure _ ⟨rfl, rfl⟩
  | ok status =>
      dsimp only
      split_ifs
      · exact .bind (runs_history fun ended => .pure _ ⟨rfl, rfl⟩)
      · exact .pure _ ⟨rfl, rfl⟩

theorem runs_findManager {e : Entry} :
    (siteView past).Runs (findManager e : Prog (Site N H) Fault _) n
      fun _ n' => n'.ledger = n.ledger ∧ n'.run_id = n.run_id := by
  unfold findManager
  cases e.job_id with
  | none => exact .answer fun _ _ => ⟨rfl, rfl⟩
  | some id => exact .andThen runs_statusOf fun _ _ h => .pure _ h

/-- A job that is checked has ended, unless it is a manager's. -/
theorem runs_checkJobEnded {session : String} {e : Entry} (found : n.ledger.job e.key = some e) :
    (siteView past).Runs (checkJobEnded session e : Prog (Site N H) Fault Unit) n
      fun _ n' => n'.run_id = n.run_id ∧ (e.stage ≠ .manager → e.unsettled = false) ∧
        (n'.ledger = n.ledger ∨
          ∃ f : Entry → Entry, e.stage = .manager ∧ (∀ x, (f x).identity = x.identity) ∧
            n'.ledger = n.ledger.update e.key f) := by
  unfold checkJobEnded
  by_cases hsettled : e.unsettled = false
  · rw [if_pos (by simp [hsettled])]
    exact .pure _ ⟨rfl, fun _ => hsettled, .inl rfl⟩
  rw [if_neg (by simpa using hsettled)]
  by_cases hmanager : e.stage = .manager
  · rw [if_neg (not_not.mpr hmanager)]
    refine .andThen runs_findManager ?_
    rintro answer n' ⟨hledger, hrun⟩
    cases answer with
    | error text => exact .throw _
    | ok listed =>
        dsimp only
        unfold checkManagerEnded
        split
        · exact .throw _
        · have found' : n'.ledger.job e.key = some e := hledger ▸ found
          refine runs_put (n'.update e.key (settleManager listed)) ?_ (.inr ?_) ?_
          · rintro v rfl
            rfl
          · exact .entry found' (.manager hmanager rfl)
          · refine ⟨hrun, fun h => absurd hmanager h,
              .inr ⟨settleManager listed, hmanager, fun _ => rfl, ?_⟩⟩
            change n'.ledger.update _ _ = _
            rw [hledger]
  · rw [if_pos hmanager]
    exact .throw _

/-- After the check no job but a manager's may still run. -/
theorem runs_checkJobsEnded {session : String} :
    (siteView past).Runs (checkJobsEnded session : Prog (Site N H) Fault Unit) n
      fun _ n' => n'.ledger.Quiet ∧ n'.run_id = n.run_id := by
  refine .sound fun hsound => .bind (runs_look (n := n) fun v hv => ?_)
  have hjobs : v.ledger.jobs = n.ledger.jobs := by
    rw [← hv]
    rfl
  rw [hjobs]
  -- what is left to check is as it was; the others have ended
  refine (View.Runs.each (fun rest n' => n'.run_id = n.run_id ∧
      (rest.Pairwise fun a b => a.key ≠ b.key) ∧ (∀ e ∈ rest, n'.ledger.job e.key = some e) ∧
      ∀ e ∈ n'.ledger.jobs, e.stage ≠ .manager → e ∈ rest ∨ e.unsettled = false) ?_
    ⟨rfl, (Sound.ordered hsound).imp (·.key), fun e he => Sound.job_of_mem hsound he,
      fun e he _ => .inl he⟩).mono ?_
  · rintro e rest n' ⟨hrun, hkeys, hfound, hended⟩
    obtain ⟨hhead, htail⟩ := List.pairwise_cons.mp hkeys
    have hhere := hfound e List.mem_cons_self
    refine .sound fun hsound' => (runs_checkJobEnded hhere).mono ?_
    rintro _ n'' _ ⟨hrun', hjob, hledger | ⟨f, hmanager, hf, hledger⟩⟩
    · rw [hledger]
      refine ⟨hrun'.trans hrun, htail, fun x hx => hfound x (List.mem_cons_of_mem _ hx),
        fun x hx hstage => ?_⟩
      rcases hended x hx hstage with hx | hx
      · rcases List.mem_cons.mp hx with rfl | hx
        · exact .inr (hjob hstage)
        · exact .inl hx
      · exact .inr hx
    · have hkey : ∀ x, (f x).key = x.key := fun x => congrArg (·.1) (hf x)
      have hfstage : ∀ x, (f x).stage = x.stage := fun x => congrArg (·.2.1) (hf x)
      rw [hledger]
      refine ⟨hrun'.trans hrun, htail, fun x hx => ?_, fun x hx hstage => ?_⟩
      · have apart := (Apart.update hkey : Apart e.key n' _) x.key (hhead x hx).symm
        exact apart.trans (hfound x (List.mem_cons_of_mem _ hx))
      · obtain ⟨y, hy, rfl⟩ := Ledger.mem_update hx
        by_cases hye : y.key = e.key
        · rw [if_pos hye, hfstage] at hstage
          rw [Sound.key_inj hsound' hy (Ledger.mem_of_job hhere).1 hye] at hstage
          exact absurd hmanager hstage
        · rw [if_neg hye] at hstage ⊢
          rcases hended y hy hstage with hy | hy
          · rcases List.mem_cons.mp hy with rfl | hy
            · exact absurd rfl hye
            · exact .inl hy
          · exact .inr hy
  · rintro _ n' _ ⟨hrun, -, -, hended⟩
    refine ⟨fun e he hstage => ?_, hrun⟩
    exact (hended e he hstage).resolve_left List.not_mem_nil

theorem runs_unfinished {launch : Launch} :
    (siteView past).Runs (unfinished launch : Prog (Site N H) Fault _) n
      fun _ n' => n' = n := by
  refine .bind (runs_look fun v _ => ?_)
  split_ifs
  · refine .fold (fun _ _ n' => n' = n) ?_ rfl
    rintro pending s rest _ rfl
    exact .bind (runs_look fun v _ => .pure _ rfl)
  · exact .pure _ rfl

/-- An amendment changes the session, not the ledger. -/
theorem runs_amendment {launcher : Launcher} {args : ResumeArgs} {launch : Launch} :
    (siteView past).Runs (amendment launcher args p launch : Prog (Site N H) Fault _) n
      fun _ n' => n' = n := by
  unfold amendment
  split_ifs
  · refine .map (.bind (runs_look fun v _ => ?_))
    split_ifs
    · refine .andThen (.keeps (Prog.Keeps.mapError (Prog.Keeps.zoom sessionLens ?_ ?_ _))) ?_
      · exact fun v v' hv hrely => ⟨trivial, Eq.trans hrely hv.2⟩
      · exact fun v s hinv hv => ⟨.inl rfl, hinv, trivial, hv.2⟩
      · rintro _ _ rfl
        exact runs_look fun v _ => rfl
    · exact .throw _
  · exact .pure _ rfl

theorem runs_lateChecks {launcher : Launcher} {args : ResumeArgs} {launch : Launch}
    {pending : List Stage} {index : Option ℕ} :
    (siteView past).Runs (lateChecks launcher args launch pending index : Prog (Site N H) Fault _)
      n fun _ n' => n' = n := by
  have checked : (siteView past).Runs
      (checkHarness launcher launch.session pending : Prog (Site N H) Fault Unit) n
      fun _ n' => n' = n := by
    refine .bind (runs_look fun v _ => ?_)
    split
    · exact .pure _ rfl
    · split
      · exact .pure _ rfl
      · exact .throw _
  refine .andThen checked ?_
  rintro _ _ rfl
  refine .bind ?_
  cases resolveLevel launcher args launch.log_level with
  | error e => exact .raise e
  | ok level => exact .ret level (.pure _ rfl)

theorem runs_checkResume {launcher : Launcher} {args : ResumeArgs} {launch : Launch} :
    (siteView past).Runs (checkResume launcher args p launch : Prog (Site N H) Fault _) n
      fun _ n' => n'.ledger.Quiet ∧ n'.run_id = n.run_id := by
  have cleaned : (siteView past).Runs
      (refuseCleanedSession launch.session : Prog (Site N H) Fault Unit) n fun _ n' => n' = n := by
    refine .bind (runs_look fun v _ => ?_)
    split_ifs
    · exact .throw _
    · exact .pure _ rfl
  refine .andThen cleaned ?_
  rintro _ _ rfl
  refine .andThen runs_checkJobsEnded ?_
  rintro _ n' hchecked
  refine .andThen runs_unfinished ?_
  rintro pending _ rfl
  refine .andThen runs_amendment ?_
  rintro index _ rfl
  refine runs_lateChecks.mono ?_
  rintro _ _ _ rfl
  exact hchecked

/-- The submission of a reserved manager and the record of its answer. -/
theorem runs_bsubManager {e : Entry} {rest : SubmitOutcome → Prog (Site N H) Fault Unit}
    (found : n.ledger.job e.key = some e) (reserved : e.status = .reserved)
    (manager : e.stage = .manager)
    (h : ∀ outcome n', (siteView past).Runs (rest outcome) n' fun _ _ => True) :
    (siteView past).Runs (do
      let outcome ← bsub e.name
      put (·.updateJob e.key outcome.record)
      rest outcome) n fun _ _ => True := by
  have mem := (Ledger.mem_of_job found).1
  have alone : e.stage = .clean →
      ∀ x ∈ n.ledger.jobs, x ≠ e → x.stage ≠ .manager → x.unsettled = false := by
    rw [manager]
    exact fun h => by cases h
  refine .bind (.perform ?_)
  rintro v outcome _ - rfl rfl
  refine ⟨trivial, .inr (.submitted mem reserved alone outcome), ?_⟩
  have step : EntryStep { Site.notes past v with
      submitted := v.submitted ++ [(e.name, outcome)] } e (outcome.record e) := by
    cases outcome <;> exact .manager manager rfl
  refine .bind (runs_put (Notes.update _ e.key outcome.record) ?_
    (.inr (.entry found step)) (h outcome _))
  intro v' hv'
  rw [← hv']
  rfl

theorem runs_submitManager {key : String} :
    (siteView past).Runs (submitManager n.run_id key : Prog (Site N H) Fault Unit) n
      fun _ _ => True := by
  refine .sound fun hsound => .bind (runs_look fun v hv => .bind (.answer fun reserved_at _ => ?_))
  have hledger : v.ledger = n.ledger := by
    rw [← hv]
    rfl
  rw [hledger]
  split
  · exact .throw _
  rename_i reserved hreserved
  have step : Step n { n with ledger := reserved } :=
    .reserve hreserved rfl ⟨rfl, rfl⟩ rfl (.inl rfl)
  have hsound' := step.sound hsound
  refine .bind (runs_put { n with ledger := reserved } ?_ (.inr step) ?_)
  · rintro v rfl
    rfl
  obtain ⟨-, hjobs⟩ := Ledger.reserve_eq hreserved
  have mem : { managerEntry n.run_id key reserved_at with epoch := n.ledger.epoch } ∈
      reserved.jobs := by
    rw [hjobs]
    exact List.mem_append_right _ List.mem_cons_self
  refine runs_bsubManager (hsound'.job_of_mem mem) rfl rfl fun outcome n' => ?_
  cases outcome with
  | accepted => exact .pure _ trivial
  | rejected => exact .throw _
  | ambiguous => exact .throw _

/-- A resume begins its epoch only where nothing may still run. -/
theorem runs_resumeLocked {launcher : Launcher} {args : ResumeArgs} :
    (siteView past).Runs (resumeLocked launcher args p : Prog (Site N H) Fault Unit) n
      fun _ _ => True := by
  refine .bind (runs_look fun v hv => ?_)
  have hrun : v.launch.run_id = n.run_id := by
    rw [← hv]
    rfl
  refine .andThen runs_checkResume ?_
  rintro ⟨pending, index, level⟩ n' ⟨hquiet, hrun'⟩
  refine .bind (runs_put n' ?_ (.inl rfl) (.bind (runs_look fun v' hv' => ?_)))
  · rintro v' rfl
    change { Site.notes past v' with run_id := v.launch.run_id } = Site.notes past v'
    rw [hrun, ← hrun']
  have hledger : v'.ledger = n'.ledger := by
    rw [← hv']
    rfl
  have step := Step.resume hquiet ("manager-r" ++ toString (v'.ledger.epoch + 1))
    (pending.map (·.name)) index
  refine .bind (runs_put _ ?_ (.inr step) ?_)
  · rintro v'' hv''
    rw [hledger, ← hv'']
    rfl
  · rw [hrun, ← hrun']
    exact runs_submitManager

end Site

/-! ## The commands -/

/-- A command that takes the lock first and then only steps of the ledger. -/
theorem wp_takeLock {rest : Unit → Prog (Cluster N H Q) Halt Unit} {w : Cluster N H Q}
    (h : ∀ n, (lockView p).Runs (rest ()) n fun _ _ => True) :
    (takeLock p >>= rest).wp (lockContract p) (fun _ _ => True) (fun _ _ => True) w := by
  rw [Prog.wp_bind]
  refine Prog.wp_fallible (fun _ => ⟨.inl rfl, .inl rfl⟩) ?_ fun _ _ _ _ _ => trivial
  rintro w₁ - hinv _ _ ⟨hfree, rfl⟩
  refine ⟨⟨.inl rfl, .inr ⟨hfree, rfl⟩⟩, hinv, ?_⟩
  exact Prog.wp_mono (h _ hinv _ rfl rfl) (fun _ _ _ => trivial) fun _ _ _ => trivial

section Commands
variable [Arith N] [DecidableEq N] [DecidableEq H] {S : Scheduler Q} {platform : Platform N H}

theorem wp_command (command : Command) (w : Cluster N H Q) :
    (command.program S platform p).wp (lockContract p) (fun _ _ => True) (fun _ _ => True) w := by
  cases command with
  | launch =>
      refine wp_takeLock fun n => .bind (.read fun w _ hw => ?_)
      have hrun : w.site.launch.run_id = n.run_id := by
        rw [← hw]
        rfl
      rw [hrun]
      exact .mapError (runs_onSite runs_submitManager)
  | manage watch => exact wp_takeLock fun n => runs_runManager
  | reap watch =>
      refine wp_takeLock fun n => .andThen runs_reconcile fun _ _ _ => ?_
      exact .andThen (runs_cancelOwned _ _) fun _ _ _ => runs_writeReport trivial
  | resume launcher args =>
      exact wp_takeLock fun n => .mapError (runs_onSite runs_resumeLocked)

/-- The ledger is sound where nothing was ever submitted. -/
theorem Sound.initial {w : Cluster N H Q} (h : (orchestration S platform).init w) :
    Sound w.notes := by
  obtain ⟨hledger, hsubmitted, hdecided, hcleaned⟩ := h
  have jobs : w.notes.ledger.jobs = [] := congrArg (·.jobs) hledger
  have submitted : w.notes.submitted = [] := hsubmitted
  have decided : w.notes.decided = [] := hdecided
  have cleaned : w.notes.cleaned = [] := hcleaned
  constructor <;> simp [jobs, submitted, decided, cleaned]

/-- The proof outline of the orchestration. -/
def orchestrationOutline : (orchestration (N := N) (H := H) S platform).Outline where
  inv w := Sound w.notes
  guar p := (lockContract p).guar
  rely p := (lockContract p).rely
  idle _ _ := True
  rely_refl p := (lockContract p).rely_refl
  rely_trans p := (lockContract p).rely_trans
  init w h := ⟨Sound.initial h, fun _ => trivial⟩
  compatible p q w w' hne _ hguar hq := by
    have hother : w.lock ≠ some p := by
      rw [hq]
      exact fun h => hne (Option.some.inj h).symm
    obtain ⟨hnotes, hlock⟩ := hguar
    have hfree : w.lock ≠ none := by simp [hq]
    exact ⟨(hlock.resolve_right fun h => hfree h.1).trans hq,
      hnotes.resolve_right fun h => hother h.1⟩
  release p w hinv := by
    refine ⟨hinv, trivial, fun q hne hq => ⟨?_, rfl⟩⟩
    change (if w.lock = some p then none else w.lock) = some q
    rw [hq, if_neg fun h => hne (Option.some.inj h)]
  env w w' hinv h := by
    obtain ⟨session, queue, outcomes, invoker, rfl⟩ := h
    exact ⟨hinv, fun q hq => ⟨hq, rfl⟩⟩
  idle_rely _ _ _ _ _ := trivial
  safe p prog w h _ _ := by
    obtain ⟨command, rfl⟩ := h
    exact wp_command command w

end Commands

end TranspileBench.Lsf
