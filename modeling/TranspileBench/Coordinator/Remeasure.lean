import TranspileBench.Coordinator.Bodies

/-!
A cost stage that is invoked again and again, each time completed, killed, contaminated or
failed. What a panel's saved bundles decide, later invocations and decisions repeat.
-/
namespace TranspileBench.Coordinator
open Evaluator Fallible

variable {N H : Type}

section Panel
variable [Arith N] [DecidableEq N] (s : Subject N) (t : Terms N)

/-- A bundle that `measure_panel` reuses. -/
def Admissible (bundle : Bundle N) : Prop :=
  validateBundle t.extension bundle t.policy s.estimator s.weights t.run_id t.requirement = .ok ()

instance (bundle : Bundle N) : Decidable (Admissible s t bundle) :=
  match h : validateBundle t.extension bundle t.policy s.estimator s.weights t.run_id
      t.requirement with
  | .ok () => .isTrue h
  | .error e => .isFalse fun hok => by simp [Admissible, h] at hok

/-- `results[-1]` of the regimes judged so far. -/
def lastOutcome : Option (CostResult N) → Except Exn (CostResult N)
  | some last => .ok last
  | none => .error (.lookup "list index out of range")

/-- What saved admissible bundles decide of the remaining regimes; `none` while one that
is needed is missing or inadmissible. -/
def savedOutcome (counts : Counts) (d : Directory N) (last : Option (CostResult N)) :
    List Regime → Option (Except Exn (CostResult N))
  | [] => some (lastOutcome last)
  | regime :: rest =>
      if (counts.get regime).isNone then savedOutcome counts d last rest
      else if regime = .rerun ∧ t.guarded = false then some (lastOutcome last)
      else
        match d regime with
        | none => none
        | some bundle =>
            if Admissible s t bundle then
              match judge s t bundle with
              | .error e => some (.error e)
              | .ok result =>
                  if (regime = .screen ∧ result.needs_full)
                      ∨ (regime = .normal ∧ result.needs_rerun) then
                    savedOutcome counts d (some result) rest
                  else some (.ok result)
            else none

/-- The outcome of a panel all of whose needed bundles exist. -/
def panelOutcome (d : Directory N) : Option (Except Exn (CostResult N)) :=
  match regimeCounts s.estimator t.policy.measurement_protocol with
  | .error _ => none
  | .ok counts => savedOutcome s t counts d none REGIMES

/-- Both full measurements breach, in sessions of their own. -/
def TwiceBreached (d : Directory N) : Prop :=
  ∃ first again r₁ r₂, d .normal = some first ∧ d .rerun = some again ∧
    first.session_id ≠ again.session_id ∧
    judge s t first = .ok r₁ ∧ r₁.candidate.breached = true ∧
    judge s t again = .ok r₂ ∧ r₂.candidate.breached = true

variable {s t} {d d' : Directory N}

theorem judge_failed {b : Bundle N} {result : CostResult N} (h : judge s t b = .ok result)
    (failed : result.result = .failed) :
    b.regime = .rerun ∧ result.candidate.breached = true := by
  unfold judge costGuard at h
  obtain ⟨_, -, h⟩ := bind_eq_ok.mp h
  obtain ⟨threshold, -, h⟩ := bind_eq_ok.mp h
  obtain ⟨estimates, -, h⟩ := bind_eq_ok.mp h
  cases h
  simp only at failed ⊢
  split at failed <;> simp_all

theorem judge_rerun {b : Bundle N} {result : CostResult N} (h : judge s t b = .ok result)
    (again : result.needs_rerun = true) : result.candidate.breached = true := by
  unfold judge costGuard at h
  obtain ⟨_, -, h⟩ := bind_eq_ok.mp h
  obtain ⟨threshold, -, h⟩ := bind_eq_ok.mp h
  obtain ⟨estimates, -, h⟩ := bind_eq_ok.mp h
  cases h
  exact (Bool.and_eq_true_iff.mp again).1

theorem Settled.twiceBreached {counts : Counts} {result : CostResult N} (h : Coherent s d)
    (settled : Settled s t counts d result) (failed : result.result = .failed) :
    TwiceBreached s t d := by
  have regime : ∀ {r : Regime} {x : CostResult N}, Judged s t d r x → x.result = .failed →
      r = .rerun := by
    rintro r x ⟨b, hb, hj⟩ hx
    exact (h.regime r b hb).symm.trans (judge_failed hj hx).1
  cases settled with
  | screen _ judged _ => exact absurd (regime judged failed) (by decide)
  | normal _ judged _ => exact absurd (regime judged failed) (by decide)
  | rerun _ judged again _ rejudged =>
      obtain ⟨b₁, hb₁, hj₁⟩ := judged
      obtain ⟨b₂, hb₂, hj₂⟩ := rejudged
      exact ⟨b₁, b₂, _, _, hb₁, hb₂, h.fresh _ _ _ _ hb₁ hb₂ (by decide), hj₁,
        judge_rerun hj₁ again, hj₂, (judge_failed hj₂ failed).2⟩

theorem checkBundle_ok {r : Regime} {previous : Option (Bundle N)} {b : Bundle N}
    {result : CostResult N} (h : checkBundle s t d r previous = .ok (b, result)) :
    d r = some b ∧ b.regime = r ∧ (∀ p ∈ previous, b.session_id ≠ p.session_id) ∧
      judge s t b = .ok result := by
  unfold checkBundle at h
  split at h
  · cases h
  · rename_i bundle hbundle
    split at h
    · cases h
    · rename_i hregime
      split at h
      · cases h
      · rename_i hsession
        have hj : judge s t bundle = .ok result ∧ bundle = b := by
          split at h
          · cases h
          · split at h
            · cases h
            · split at h
              · cases h
              · cases hj : judge s t bundle with
                | error e => simp [hj, Except.map] at h
                | ok r' => simp_all [Except.map]
        obtain ⟨hj, rfl⟩ := hj
        refine ⟨hbundle, by simpa using hregime, ?_, hj⟩
        rintro p rfl
        simpa using hsession

/-- A decision fails a panel only on two breaches of its own. -/
theorem replayRegimes_failed {counts : Counts} {result : CostResult N}
    (h : replayRegimes s t counts d = .ok result) (failed : result.result = .failed) :
    TwiceBreached s t d := by
  unfold replayRegimes at h
  obtain ⟨⟨b₁, r₁⟩, hfirst, h⟩ := bind_eq_ok.mp h
  have first : ∃ r previous, r ≠ .rerun ∧ checkBundle s t d r previous = .ok (b₁, r₁) := by
    unfold replayFirst at hfirst
    split_ifs at hfirst
    · obtain ⟨screen, hscreen, hfirst⟩ := bind_eq_ok.mp hfirst
      split_ifs at hfirst
      · exact ⟨.normal, _, by decide, hfirst⟩
      · cases hfirst
        exact ⟨.screen, _, by decide, hscreen⟩
    · exact ⟨.normal, _, by decide, hfirst⟩
  obtain ⟨r, previous, hne, hcheck⟩ := first
  obtain ⟨hb₁, hregime, -, hj₁⟩ := checkBundle_ok hcheck
  split_ifs at h with hrerun hnone
  · cases hagain : checkBundle s t d .rerun (some b₁) with
    | error e => simp [hagain, Except.map] at h
    | ok x =>
        obtain ⟨b₂, r₂⟩ := x
        simp only [hagain, Except.map, Except.ok.injEq] at h
        subst h
        obtain ⟨hb₂, -, hfresh, hj₂⟩ := checkBundle_ok hagain
        have again : r₁.needs_rerun = true := (Bool.and_eq_true_iff.mp hrerun).2
        have hnormal : r = .normal := hregime.symm.trans ((costGuard_regime hj₁).2.2 again)
        subst hnormal
        exact ⟨b₁, b₂, r₁, r₂, hb₁, hb₂, (hfresh b₁ rfl).symm, hj₁, judge_rerun hj₁ again, hj₂,
          (judge_failed hj₂ failed).2⟩
  · cases h
    exact absurd (hregime.symm.trans (judge_failed hj₁ failed).1) hne

theorem reusable_admissible {b : Bundle N} (h : Admissible s t b) :
    reusable s t (some b) = .ok (some b) := by
  simp only [reusable, show validateBundle t.extension b t.policy s.estimator s.weights t.run_id
    t.requirement = .ok () from h]

theorem safe_measureRegime {r : Regime} {b : Bundle N} (h : Admissible s t b) (regime : Regime) :
    Prog.Safe (Contract.alone (fun d : Directory N => d r = some b) fun _ _ => True)
      (fun _ => True) (measureRegime s t regime) := by
  intro d
  unfold measureRegime
  rw [Prog.wp_bind]
  refine Prog.wp_read (fun _ => trivial) ?_
  rintro _ rfl hd
  rw [Prog.wp_bind, wp_ofExcept]
  refine ⟨fun kept hkept => ?_, fun _ _ => trivial⟩
  rw [Prog.wp_bind]
  have obtained : (obtainBundle s t regime kept).wp
      (Contract.alone (fun d : Directory N => d r = some b) fun _ _ => True)
      (fun bundle d' => regime = r → bundle = b) (fun _ _ => True) d := by
    cases kept with
    | some bundle =>
        rintro rfl
        rw [hd, reusable_admissible h] at hkept
        simpa using hkept.symm
    | none =>
        have hne : regime ≠ r := by
          rintro rfl
          rw [hd, reusable_admissible h] at hkept
          cases hkept
        unfold obtainBundle collectPanel
        rw [Prog.wp_bind, wp_ofExcept]
        refine ⟨fun fixed _ => ?_, fun _ _ => trivial⟩
        refine Prog.wp_fallible (fun _ => trivial) ?_ fun _ _ _ _ _ => trivial
        rintro _ rfl hd' _ _ ⟨rfl, -⟩
        exact ⟨trivial, hd', fun hr => absurd hr hne⟩
  refine Prog.wp_mono obtained ?_ fun _ _ _ => trivial
  intro bundle d₁ hbundle
  rw [Prog.wp_bind]
  refine Prog.wp_fallible (fun _ => trivial) ?_ fun _ _ _ _ _ => trivial
  rintro _ rfl hd₁ _ _ rfl
  refine ⟨trivial, ?_, wp_ofExcept.mpr ⟨fun _ _ => trivial, fun _ _ => trivial⟩⟩
  change d₁.save regime bundle r = some b
  by_cases hr : r = regime
  · rw [hr, Directory.save_same, hbundle hr.symm]
  · exact (Directory.save_other _ _ hr).trans hd₁

theorem safe_measureRegimes {r : Regime} {b : Bundle N} (h : Admissible s t b) (counts : Counts)
    (rest : List Regime) (last : Option (CostResult N)) :
    Prog.Safe (Contract.alone (fun d : Directory N => d r = some b) fun _ _ => True)
      (fun _ => True) (measureRegimes s t counts last rest) := by
  have ending : ∀ last : Option (CostResult N),
      Prog.Safe (Contract.alone (fun d : Directory N => d r = some b) fun _ _ => True)
        (fun _ => True) (lastResult last) := by
    intro last
    cases last with
    | none => exact .throw trivial
    | some result => exact .pure result
  induction rest generalizing last with
  | nil => exact ending last
  | cons regime rest ih =>
      unfold measureRegimes
      split_ifs
      · exact ih last
      · exact ending last
      · refine .bind (safe_measureRegime h regime) fun result => ?_
        split_ifs
        · exact ih _
        · exact .pure result

/-- A measurement of the panel, however it ends, leaves every admissible bundle. -/
theorem measurePanel_keeps {o : Option (Except Exn (CostResult N))} {r : Regime} {b : Bundle N}
    (run : Exec (measurePanel s t) d o d') (hb : d r = some b) (h : Admissible s t b) :
    d' r = some b :=
  run.safe hb (.bind (safe_ofExcept fun _ _ => trivial) fun counts =>
    safe_measureRegimes h counts REGIMES none)

/-- A regime that is due is decided by its saved admissible bundle. -/
theorem savedOutcome_cons {counts : Counts} {last : Option (CostResult N)} {regime : Regime}
    {rest : List Regime} {out : Except Exn (CostResult N)}
    (h : savedOutcome s t counts d last (regime :: rest) = some out)
    (due : ¬ (counts.get regime).isNone) (paid : ¬ (regime = .rerun ∧ t.guarded = false)) :
    ∃ b, d regime = some b ∧ Admissible s t b ∧
      ((∃ e, judge s t b = .error e ∧ out = .error e) ∨ ∃ result, judge s t b = .ok result ∧
        if (regime = .screen ∧ result.needs_full) ∨ (regime = .normal ∧ result.needs_rerun) then
          savedOutcome s t counts d (some result) rest = some out
        else out = .ok result) := by
  unfold savedOutcome at h
  rw [if_neg due, if_neg paid] at h
  cases hd : d regime with
  | none => simp [hd] at h
  | some b =>
      simp only [hd] at h
      split at h
      · rename_i hadmissible
        refine ⟨b, rfl, hadmissible, ?_⟩
        cases hj : judge s t b with
        | error e =>
            simp only [hj, Option.some.injEq] at h
            exact .inl ⟨e, rfl, h.symm⟩
        | ok result =>
            simp only [hj] at h
            refine .inr ⟨result, rfl, ?_⟩
            split at h
            · rwa [if_pos ‹_›]
            · rw [if_neg ‹_›]
              exact (Option.some.inj h).symm
      · cases h

/-- What the bundles decide they go on to decide while the admissible ones are kept. -/
theorem savedOutcome_mono {counts : Counts} {last : Option (CostResult N)} {rest : List Regime}
    {out : Except Exn (CostResult N)}
    (keeps : ∀ r b, d r = some b → Admissible s t b → d' r = some b)
    (h : savedOutcome s t counts d last rest = some out) :
    savedOutcome s t counts d' last rest = some out := by
  induction rest generalizing last with
  | nil => exact h
  | cons regime rest ih =>
      by_cases due : (counts.get regime).isNone
      · unfold savedOutcome at h ⊢
        rw [if_pos due] at h ⊢
        exact ih h
      · by_cases paid : regime = .rerun ∧ t.guarded = false
        · unfold savedOutcome at h ⊢
          rwa [if_neg due, if_pos paid] at h ⊢
        · obtain ⟨b, hb, ha, hj⟩ := savedOutcome_cons h due paid
          unfold savedOutcome
          rw [if_neg due, if_neg paid]
          simp only [keeps regime b hb ha, if_pos ha]
          rcases hj with ⟨e, hj, rfl⟩ | ⟨result, hj, hrest⟩
          · simp only [hj]
          · simp only [hj]
            split at hrest
            · rw [if_pos ‹_›]
              exact ih hrest
            · rw [if_neg ‹_›, hrest]

/-- Something was measured before anything is decided. -/
theorem panelOutcome_saved {out : Except Exn (CostResult N)} (h : panelOutcome s t d = some out) :
    (REGIMES.all fun r => (d r).isNone) = false := by
  have found : ∀ {r b}, d r = some b → (REGIMES.all fun r => (d r).isNone) = false := by
    intro r b hb
    rw [List.all_eq_false]
    exact ⟨r, by cases r <;> simp [REGIMES], by simp [hb]⟩
  unfold panelOutcome at h
  split at h
  · cases h
  · rename_i counts _
    unfold REGIMES at h
    by_cases due : (counts.get .screen).isNone
    · unfold savedOutcome at h
      rw [if_pos due] at h
      obtain ⟨b, hb, -⟩ := savedOutcome_cons h (by simp [Counts.get]) (by simp)
      exact found hb
    · obtain ⟨b, hb, -⟩ := savedOutcome_cons h due (by simp)
      exact found hb

theorem panelOutcome_mono {out : Except Exn (CostResult N)}
    (keeps : ∀ r b, d r = some b → Admissible s t b → d' r = some b)
    (h : panelOutcome s t d = some out) : panelOutcome s t d' = some out := by
  unfold panelOutcome at h ⊢
  split at h
  · cases h
  · exact savedOutcome_mono keeps h

theorem wp_measureRegime_saved {regime : Regime} {b : Bundle N} (hb : d regime = some b)
    (h : Admissible s t b) :
    (measureRegime s t regime).wp (Contract.alone (· = d) fun _ _ => True)
      (fun result d' => d' = d ∧ judge s t b = .ok result)
      (fun e _ => judge s t b = .error e ∨ writeError e) d := by
  unfold measureRegime
  rw [Prog.wp_bind]
  refine Prog.wp_read (fun _ => trivial) ?_
  rintro _ rfl -
  rw [Prog.wp_bind, wp_ofExcept, hb, reusable_admissible h]
  refine ⟨?_, nofun⟩
  rintro _ ⟨⟩
  rw [Prog.wp_bind]
  change (_ >>= _ : Prog (Directory N) Exn (CostResult N)).wp _ _ _ d
  rw [Prog.wp_bind]
  refine Prog.wp_fallible (fun _ => trivial) ?_ fun _ _ _ e he => .inr he
  rintro _ rfl - _ _ rfl
  rw [Directory.save_self hb]
  exact ⟨trivial, rfl, wp_ofExcept.mpr ⟨fun result hj => ⟨rfl, hj⟩, fun e hj => .inl hj⟩⟩

/-- Measuring what the bundles decide gives just that, and leaves them as they are. -/
theorem wp_measureRegimes_saved {counts : Counts} {last : Option (CostResult N)}
    {rest : List Regime} {out : Except Exn (CostResult N)}
    (h : savedOutcome s t counts d last rest = some out) :
    (measureRegimes s t counts last rest).wp (Contract.alone (· = d) fun _ _ => True)
      (fun result _ => out = .ok result) (fun e _ => out = .error e ∨ writeError e) d := by
  have ending : ∀ last : Option (CostResult N), (lastResult last).wp
      (Contract.alone (· = d) fun _ _ => True) (fun result _ => lastOutcome last = .ok result)
      (fun e _ => lastOutcome last = .error e ∨ writeError e) d := by
    intro last
    cases last with
    | none => exact .inl rfl
    | some result => exact rfl
  induction rest generalizing last with
  | nil =>
      cases h
      exact ending last
  | cons regime rest ih =>
      unfold measureRegimes
      by_cases due : (counts.get regime).isNone
      · unfold savedOutcome at h
        rw [if_pos due] at h ⊢
        exact ih h
      · rw [if_neg due]
        by_cases paid : regime = .rerun ∧ t.guarded = false
        · unfold savedOutcome at h
          rw [if_neg due, if_pos paid] at h
          cases h
          rw [if_pos paid]
          exact ending last
        · obtain ⟨b, hb, ha, hj⟩ := savedOutcome_cons h due paid
          rw [if_neg paid, Prog.wp_bind]
          refine Prog.wp_mono (wp_measureRegime_saved hb ha) ?_ ?_
          · rintro result _ ⟨rfl, hresult⟩
            rcases hj with ⟨e, hj, -⟩ | ⟨result', hj, hrest⟩
            · rw [hj] at hresult
              cases hresult
            · obtain rfl := Except.ok.inj (hj.symm.trans hresult)
              split at hrest
              · rw [if_pos ‹_›]
                exact ih hrest
              · rw [if_neg ‹_›]
                exact hrest
          · rintro e _ (hresult | herror)
            · rcases hj with ⟨e', hj, rfl⟩ | ⟨result', hj, -⟩
              · exact .inl (by rw [Except.error.inj (hj.symm.trans hresult)])
              · rw [hj] at hresult
                cases hresult
            · exact .inr herror

/-- How a measurement ends that only repeats `out`; writing a bundle back may fail. -/
def Repeats (out : Except Exn (CostResult N)) (r : Option (Except Exn (CostResult N))) : Prop :=
  r = none ∨ r = some out ∨ ∃ e, writeError e ∧ r = some (.error e)

theorem measurePanel_repeats {out : Except Exn (CostResult N)}
    {o : Option (Except Exn (CostResult N))} (h : panelOutcome s t d = some out)
    (run : Exec (measurePanel s t) d o d') : d' = d ∧ Repeats out o := by
  unfold panelOutcome at h
  unfold measurePanel at run
  cases hcounts : regimeCounts s.estimator t.policy.measurement_protocol with
  | error e => simp [hcounts] at h
  | ok counts =>
      simp only [hcounts] at h run
      change Exec (measureRegimes s t counts none REGIMES) d o d' at run
      have start : (Contract.alone (· = d) fun _ _ => True).inv d := rfl
      obtain ⟨hd, hends⟩ := run.sound start (wp_measureRegimes_saved h)
      refine ⟨hd, ?_⟩
      rcases o with _ | (e | result)
      · exact .inl rfl
      · rcases hends with hout | herror
        · exact .inr (.inl (by rw [hout]))
        · exact .inr (.inr ⟨e, herror, rfl⟩)
      · exact .inr (.inl (congrArg some hends.symm))

/-- From the full measurement on, the replay walks where the bundles lead. -/
theorem replayNormal_saved {counts : Counts} {last : Option (CostResult N)}
    {out : Except Exn (CostResult N)} (previous : Option (Bundle N)) (h : Coherent s d)
    (saved : savedOutcome s t counts d last [.normal, .rerun] = some out)
    (hprevious : ∀ p, previous = some p → ∃ r', r' ≠ .normal ∧ d r' = some p)
    (first : replayFirst s t counts d = checkBundle s t d .normal previous) :
    replayRegimes s t counts d = out := by
  obtain ⟨b, hb, -, hj⟩ := savedOutcome_cons saved (by simp [Counts.get]) (by simp)
  have hcheck := checkBundle_coherent (t := t) h previous hb hprevious
  unfold replayRegimes
  rw [first, hcheck]
  rcases hj with ⟨e, hj, rfl⟩ | ⟨result, hj, hrest⟩
  · simp only [hj, Except.map, bind, Except.bind]
  · simp only [hj, Except.map, bind, Except.bind]
    by_cases again : result.needs_rerun
    · rw [if_pos (.inr ⟨rfl, again⟩)] at hrest
      by_cases guarded : t.guarded
      · obtain ⟨b₂, hb₂, -, hj₂⟩ := savedOutcome_cons hrest (by simp [Counts.get])
          (by simp [guarded])
        have hcheck₂ := checkBundle_coherent (t := t) h (some b) hb₂
          (by rintro p hp; cases hp; exact ⟨.normal, by decide, hb⟩)
        rw [if_pos (by simp [guarded, again]), hb₂, if_neg (by simp), hcheck₂]
        rcases hj₂ with ⟨e, hj₂, rfl⟩ | ⟨result₂, hj₂, hend⟩
        · rw [hj₂]
          rfl
        · rw [if_neg (by simp)] at hend
          rw [hj₂, hend]
          rfl
      · rw [if_neg (by simp [guarded])]
        unfold savedOutcome at hrest
        rw [if_neg (by simp [Counts.get]), if_pos (by simp [guarded])] at hrest
        exact Option.some.inj hrest
    · rw [if_neg (by simp [again])] at hrest ⊢
      exact hrest.symm

/-- A decision replays just what the bundles decide. -/
theorem replayRegimes_saved {counts : Counts} {out : Except Exn (CostResult N)}
    (h : Coherent s d) (saved : savedOutcome s t counts d none REGIMES = some out) :
    replayRegimes s t counts d = out := by
  unfold REGIMES at saved
  cases hscreen : counts.get .screen with
  | none =>
      unfold savedOutcome at saved
      rw [if_pos (by simp [hscreen])] at saved
      exact replayNormal_saved none h saved nofun (by simp [replayFirst, hscreen])
  | some count =>
      obtain ⟨b, hb, -, hj⟩ := savedOutcome_cons saved (by simp [hscreen]) (by simp)
      have hcheck := checkBundle_coherent (t := t) h none hb nofun
      rcases hj with ⟨e, hj, rfl⟩ | ⟨result, hj, hrest⟩
      · simp [replayRegimes, replayFirst, hscreen, hcheck, hj, Except.map, bind, Except.bind]
      · by_cases full : result.needs_full
        · rw [if_pos (.inl ⟨rfl, full⟩)] at hrest
          refine replayNormal_saved (some b) h hrest ?_ ?_
          · rintro p ⟨⟩
            exact ⟨.screen, by decide, hb⟩
          · simp [replayFirst, hscreen, hcheck, hj, Except.map, bind, Except.bind, full]
        · have hrerun : result.needs_rerun = false := by
            by_contra hne
            simpa using costResult_regime h ⟨b, hb, hj⟩ (by simpa using hne)
          rw [if_neg (by simp [full])] at hrest
          simp [replayRegimes, replayFirst, hscreen, hcheck, hj, Except.map, bind, Except.bind,
            full, hrerun, hrest]

end Panel
end TranspileBench.Coordinator
