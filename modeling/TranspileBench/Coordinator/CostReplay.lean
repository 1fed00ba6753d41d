import TranspileBench.Coordinator.Costs

/-!
Measuring a cost panel and replaying its directory agree. Every directory that
measurements leave behind, however they were cut short, is coherent: each bundle is
saved under its regime, describes the panel, and has a session of its own. On a
coherent directory the replay walks the regimes the measurement judged.
-/
namespace TranspileBench.Coordinator
open Evaluator Fallible

variable {N : Type}

/-- What every bundle of a panel's directory satisfies, and any two of them. -/
structure Coherent (s : Subject N) (d : Directory N) : Prop where
  regime : ∀ r b, d r = some b → b.regime = r
  hashes : ∀ r b, d r = some b → b.case_hashes = s.caseHashes
  arms : ∀ r b, d r = some b → ∀ arm ∈ MEASURED_ARMS,
    ∃ a, b.arms.lookup arm = some a ∧ a.build_id = s.buildId arm
  fresh : ∀ r r' b b', d r = some b → d r' = some b' → r ≠ r' → b.session_id ≠ b'.session_id

theorem Coherent.empty (s : Subject N) : Coherent s fun _ => none := by
  constructor <;> intro <;> simp_all

@[simp]
theorem Directory.save_same (d : Directory N) (r : Regime) (b : Bundle N) :
    d.save r b r = some b := by simp [Directory.save]

theorem Directory.save_other (d : Directory N) {r r' : Regime} (b : Bundle N) (h : r' ≠ r) :
    d.save r b r' = d r' := by simp [Directory.save, h]

/-- Saving a bundle that is already there changes nothing. -/
theorem Directory.save_self {d : Directory N} {r : Regime} {b : Bundle N} (h : d r = some b) :
    d.save r b = d := by
  funext r'
  by_cases hr : r' = r
  · rw [hr, Directory.save_same, h]
  · exact Directory.save_other d b hr

/-- A freshly measured bundle can be saved under its regime. -/
theorem Coherent.save {s : Subject N} {t : Terms N} {d : Directory N} (h : Coherent s d)
    {fixed : CostThresholds N} {regime : Regime} {session : String} {arm_id : String → String}
    {samples : String → List (String × Samples N)} {mode : String}
    (hfresh : ∀ r saved, d r = some saved → saved.session_id ≠ session) :
    Coherent s (d.save regime (newBundle s t fixed regime session arm_id samples mode)) := by
  set b := newBundle s t fixed regime session arm_id samples mode with hb
  have split : ∀ r b', d.save regime b r = some b' →
      (r = regime ∧ b' = b) ∨ (r ≠ regime ∧ d r = some b') := by
    intro r b' hr
    by_cases heq : r = regime
    · subst heq
      rw [Directory.save_same] at hr
      exact .inl ⟨rfl, (Option.some.inj hr).symm⟩
    · rw [Directory.save_other d b heq] at hr
      exact .inr ⟨heq, hr⟩
  constructor
  · intro r b' hr
    rcases split r b' hr with ⟨rfl, rfl⟩ | ⟨-, hr⟩
    · rfl
    · exact h.regime r b' hr
  · intro r b' hr
    rcases split r b' hr with ⟨rfl, rfl⟩ | ⟨-, hr⟩
    · rfl
    · exact h.hashes r b' hr
  · intro r b' hr
    rcases split r b' hr with ⟨rfl, rfl⟩ | ⟨-, hr⟩
    · intro arm harm
      simp only [MEASURED_ARMS, List.mem_cons, List.not_mem_nil, or_false] at harm
      rcases harm with rfl | rfl <;> exact ⟨_, rfl, rfl⟩
    · exact h.arms r b' hr
  · intro r r' b₁ b₂ h₁ h₂ hne
    rcases split r b₁ h₁ with ⟨rfl, rfl⟩ | ⟨-, h₁⟩ <;>
      rcases split r' b₂ h₂ with ⟨rfl, rfl⟩ | ⟨-, h₂⟩
    · exact absurd rfl hne
    · exact (hfresh r' b₂ h₂).symm
    · exact hfresh r b₁ ‹_›
    · exact h.fresh r r' b₁ b₂ h₁ h₂ hne

@[simp]
theorem wp_ofExcept {W ε α : Type} {C : Contract W} {x : Except ε α} {Q : α → W → Prop}
    {E : ε → W → Prop} {w : W} :
    (Prog.ofExcept x : Prog W ε α).wp C Q E w ↔
      (∀ a, x = .ok a → Q a w) ∧ ∀ e, x = .error e → E e w := by
  cases x with
  | ok a => simp [Prog.ofExcept]
  | error e => simp [Prog.ofExcept]

theorem exec_ofExcept {W ε α : Type} {x : Except ε α} {a : α} {w : W} (h : x = .ok a) :
    Exec (Prog.ofExcept x : Prog W ε α) w (some (.ok a)) w := by
  subst h
  exact .ret a w

theorem exec_ofExcept_error {W ε α : Type} {x : Except ε α} {e : ε} {w : W} (h : x = .error e) :
    Exec (Prog.ofExcept x : Prog W ε α) w (some (.error e)) w := by
  subst h
  exact .raise e w

/-- Measuring runs alone in its directory and keeps it coherent. -/
abbrev directoryContract (s : Subject N) : Contract (Directory N) :=
  Contract.alone (Coherent s) fun _ _ => True

/-- The bundle a regime is judged on leaves the directory coherent when it is saved. -/
theorem wp_obtainBundle {s : Subject N} {t : Terms N}
    {d : Directory N} {regime : Regime} {kept : Option (Bundle N)} (h : Coherent s d)
    (hkept : ∀ b, kept = some b → d regime = some b) :
    (obtainBundle s t regime kept).wp (directoryContract s)
      (fun b d' => d' = d ∧ Coherent s (d.save regime b)) (fun _ _ => True) d := by
  cases kept with
  | some b => exact ⟨rfl, by rw [Directory.save_self (hkept b rfl)]; exact h⟩
  | none =>
      unfold obtainBundle collectPanel
      rw [Prog.wp_bind, wp_ofExcept]
      refine ⟨fun fixed _ => ?_, fun _ _ => trivial⟩
      refine Prog.wp_fallible (fun _ => trivial) ?_ fun _ _ _ _ _ => trivial
      rintro _ rfl hinv b _ ⟨rfl, session, arm_id, samples, mode, hfresh, -, rfl⟩
      exact ⟨trivial, hinv, rfl, h.save hfresh⟩

section Measure
variable [Arith N] [DecidableEq N] {s : Subject N} {t : Terms N} {d : Directory N}

/-- `Judged s t d r result`: the bundle saved for regime `r` was judged to `result`. -/
def Judged (s : Subject N) (t : Terms N) (d : Directory N) (r : Regime) (result : CostResult N) :
    Prop := ∃ b, d r = some b ∧ judge s t b = .ok result

theorem Judged.save {r : Regime} {result : CostResult N} {d' : Directory N}
    (h : Judged s t d r result) (hsame : d' r = d r) : Judged s t d' r result := by
  obtain ⟨b, hb, hj⟩ := h
  exact ⟨b, hsame ▸ hb, hj⟩

/-- One regime: its bundle is judged as saved and no other bundle is touched. -/
theorem wp_measureRegime {regime : Regime} (h : Coherent s d) :
    (measureRegime s t regime).wp (directoryContract s)
      (fun result d' => Coherent s d' ∧ Judged s t d' regime result ∧
        ∀ r, r ≠ regime → d' r = d r)
      (fun _ _ => True) d := by
  unfold measureRegime
  rw [Prog.wp_bind]
  refine Prog.wp_read (fun _ => trivial) ?_
  rintro _ rfl -
  rw [Prog.wp_bind, wp_ofExcept]
  refine ⟨fun kept hkept => ?_, fun _ _ => trivial⟩
  have hsaved : ∀ b, kept = some b → d regime = some b := by
    rintro b rfl
    unfold reusable at hkept
    split at hkept
    · cases hkept
    · rename_i bundle hbundle
      split at hkept
      · cases hkept
        exact hbundle
      · cases hkept
      · cases hkept
  rw [Prog.wp_bind]
  refine Prog.wp_mono (wp_obtainBundle h hsaved) ?_ fun _ _ _ => trivial
  rintro bundle _ ⟨rfl, hcoherent⟩
  rw [Prog.wp_bind]
  refine Prog.wp_fallible (fun _ => trivial) ?_ fun _ _ _ _ _ => trivial
  rintro _ rfl - _ _ rfl
  refine ⟨trivial, hcoherent, ?_⟩
  rw [wp_ofExcept]
  refine ⟨fun result hresult => ⟨hcoherent, ⟨bundle, Directory.save_same _ _ _, hresult⟩, ?_⟩,
    fun _ _ => trivial⟩
  exact fun r hr => Directory.save_other _ _ hr

/-- What a finished measurement leaves: the last result it judged, and the unclear ones
that led there. -/
inductive Settled (s : Subject N) (t : Terms N) (counts : Counts) (d : Directory N) :
    CostResult N → Prop
  | screen {result : CostResult N} (screened : (counts.get .screen).isSome)
      (judged : Judged s t d .screen result) (clear : result.needs_full = false) :
      Settled s t counts d result
  | normal {result : CostResult N}
      (first : counts.get .screen = none ∨
        ∃ r, (counts.get .screen).isSome ∧ Judged s t d .screen r ∧ r.needs_full = true)
      (judged : Judged s t d .normal result)
      (clear : result.needs_rerun = false ∨ t.guarded = false) :
      Settled s t counts d result
  | rerun {result : CostResult N}
      (first : counts.get .screen = none ∨
        ∃ r, (counts.get .screen).isSome ∧ Judged s t d .screen r ∧ r.needs_full = true)
      {breach : CostResult N} (judged : Judged s t d .normal breach)
      (again : breach.needs_rerun = true) (guarded : t.guarded = true)
      (rejudged : Judged s t d .rerun result) : Settled s t counts d result

/-- From the full measurement on. -/
theorem wp_measureNormal {counts : Counts} {last : Option (CostResult N)} (h : Coherent s d)
    (first : counts.get .screen = none ∨
      ∃ r, (counts.get .screen).isSome ∧ Judged s t d .screen r ∧ r.needs_full = true) :
    (measureRegimes s t counts last [.normal, .rerun]).wp (directoryContract s)
      (fun result d' => Coherent s d' ∧ Settled s t counts d' result) (fun _ _ => True) d := by
  have carry : ∀ d' : Directory N, d' .screen = d .screen → counts.get .screen = none ∨
      ∃ r, (counts.get .screen).isSome ∧ Judged s t d' .screen r ∧ r.needs_full = true := by
    intro d' hsame
    rcases first with hnone | ⟨r, hsome, hjudged, hfull⟩
    · exact .inl hnone
    · exact .inr ⟨r, hsome, hjudged.save hsame, hfull⟩
  unfold measureRegimes
  rw [if_neg (by simp [Counts.get]), if_neg (by simp), Prog.wp_bind]
  refine Prog.wp_mono (wp_measureRegime h) ?_ fun _ _ _ => trivial
  rintro result d₁ ⟨hd₁, hjudged, hsame⟩
  have first₁ := carry d₁ (hsame .screen (by decide))
  cases hrerun : result.needs_rerun with
  | false =>
      rw [if_neg (by simp)]
      exact ⟨hd₁, .normal first₁ hjudged (.inl hrerun)⟩
  | true =>
      rw [if_pos (by simp)]
      unfold measureRegimes
      rw [if_neg (by simp [Counts.get])]
      cases hguarded : t.guarded with
      | false =>
          rw [if_pos (by simp)]
          exact ⟨hd₁, .normal first₁ hjudged (.inr hguarded)⟩
      | true =>
          rw [if_neg (by simp), Prog.wp_bind]
          refine Prog.wp_mono (wp_measureRegime hd₁) ?_ fun _ _ _ => trivial
          rintro result₂ d₂ ⟨hd₂, hjudged₂, hsame₂⟩
          have first₂ := carry d₂ ((hsame₂ .screen (by decide)).trans (hsame .screen (by decide)))
          rw [if_neg (by simp)]
          exact ⟨hd₂, .rerun first₂ (hjudged.save (hsame₂ .normal (by decide)))
            hrerun hguarded hjudged₂⟩

/-- A measurement keeps its directory coherent at every action and returns the result
its directory settles. -/
theorem wp_measurePanel (h : Coherent s d) :
    (measurePanel s t).wp (directoryContract s)
      (fun result d' => Coherent s d' ∧ ∃ counts,
        regimeCounts s.estimator t.policy.measurement_protocol = .ok counts ∧
          Settled s t counts d' result) (fun _ _ => True) d := by
  unfold measurePanel REGIMES
  rw [Prog.wp_bind, wp_ofExcept]
  refine ⟨fun counts hcounts => ?_, fun _ _ => trivial⟩
  suffices hsettled : (measureRegimes s t counts none [.screen, .normal, .rerun]).wp
      (directoryContract s) (fun result d' => Coherent s d' ∧ Settled s t counts d' result)
      (fun _ _ => True) d from
    Prog.wp_mono hsettled (fun _ _ hr => ⟨hr.1, counts, hcounts, hr.2⟩) fun _ _ => id
  unfold measureRegimes
  cases hscreen : counts.get .screen with
  | none =>
      rw [if_pos (by simp)]
      exact wp_measureNormal h (.inl hscreen)
  | some count =>
      rw [if_neg (by simp), if_neg (by simp), Prog.wp_bind]
      refine Prog.wp_mono (wp_measureRegime h) ?_ fun _ _ _ => trivial
      rintro result d₁ ⟨hd₁, hjudged, -⟩
      have hsome : (counts.get .screen).isSome := by simp [hscreen]
      cases hfull : result.needs_full with
      | false =>
          rw [if_neg (by simp)]
          exact ⟨hd₁, .screen hsome hjudged hfull⟩
      | true =>
          rw [if_pos (by simp)]
          exact wp_measureNormal hd₁ (.inr ⟨result, hsome, hjudged, hfull⟩)

/-- The directories that measurements of a panel leave, each begun where the one before
ended, stopped or raised; the policy, the requirement and whether the panel was guarded
may have been others. -/
inductive Saved (s : Subject N) : Directory N → Prop
  | empty : Saved s fun _ => none
  | measured {d d' : Directory N} (t : Terms N) {o : Option (Except Exn (CostResult N))}
      (before : Saved s d) (run : Exec (measurePanel s t) d o d') : Saved s d'

theorem Saved.coherent (h : Saved s d) : Coherent s d := by
  induction h with
  | empty => exact .empty s
  | measured t before run ih => exact (run.sound ih (wp_measurePanel ih)).1

theorem costResult_regime {r : Regime} {result : CostResult N} (h : Coherent s d)
    (judged : Judged s t d r result) : result.needs_rerun = true → r = .normal := by
  obtain ⟨b, hb, hj⟩ := judged
  intro hrerun
  exact (h.regime r b hb).symm.trans ((costGuard_regime hj).2.2 hrerun)

/-- On a coherent directory a bundle passes every check of the replay and is judged. -/
theorem checkBundle_coherent {r : Regime} {b : Bundle N} (h : Coherent s d)
    (previous : Option (Bundle N)) (hb : d r = some b)
    (hprevious : ∀ p, previous = some p → ∃ r', r' ≠ r ∧ d r' = some p) :
    checkBundle s t d r previous = (judge s t b).map fun result => (b, result) := by
  have harm := h.arms r b hb
  have hfresh : previous.any (fun p => b.session_id == p.session_id) = false := by
    cases previous with
    | none => rfl
    | some p =>
        obtain ⟨r', hne, hp⟩ := hprevious p rfl
        simpa using h.fresh r r' b p hb hp hne.symm
  have hpresent : (MEASURED_ARMS.find? fun arm => (b.arms.lookup arm).isNone) = none := by
    rw [List.find?_eq_none]
    intro arm hmem
    obtain ⟨a, ha, -⟩ := harm arm hmem
    simp [ha]
  have hbuilds : (MEASURED_ARMS.any fun arm =>
      (b.arms.lookup arm).any fun a => a.build_id != s.buildId arm) = false := by
    rw [List.any_eq_false]
    intro arm hmem
    obtain ⟨a, ha, hbuild⟩ := harm arm hmem
    simp [ha, hbuild]
  unfold checkBundle
  rw [hb]
  simp only [h.regime r b hb, h.hashes r b hb, hfresh, hpresent, hbuilds]
  simp

theorem checkBundle_judged {r : Regime} {result : CostResult N} (h : Coherent s d)
    (previous : Option (Bundle N)) (judged : Judged s t d r result)
    (hprevious : ∀ p, previous = some p → ∃ r', r' ≠ r ∧ d r' = some p) :
    ∃ b, d r = some b ∧ checkBundle s t d r previous = .ok (b, result) := by
  obtain ⟨b, hb, hj⟩ := judged
  refine ⟨b, hb, ?_⟩
  rw [checkBundle_coherent h previous hb hprevious, hj]
  rfl

/-- The replay of a settled directory walks the same regimes to the same result. -/
theorem replayRegimes_settled {counts : Counts} {result : CostResult N} (h : Coherent s d)
    (settled : Settled s t counts d result) : replayRegimes s t counts d = .ok result := by
  have normal : ∀ {r : CostResult N}, Judged s t d .normal r →
      (counts.get .screen = none ∨
        ∃ r, (counts.get .screen).isSome ∧ Judged s t d .screen r ∧ r.needs_full = true) →
      ∃ b, d .normal = some b ∧ replayFirst s t counts d = .ok (b, r) := by
    intro r hjudged first
    unfold replayFirst
    rcases first with hnone | ⟨r₀, hsome, hscreen, hfull⟩
    · obtain ⟨b, hb, hcheck⟩ := checkBundle_judged h none hjudged (by simp)
      exact ⟨b, hb, by simp [hnone, hcheck]⟩
    · obtain ⟨b₀, hb₀, hcheck₀⟩ := checkBundle_judged h none hscreen (by simp)
      obtain ⟨b, hb, hcheck⟩ := checkBundle_judged h (some b₀) hjudged
        (by rintro p hp; cases hp; exact ⟨.screen, by decide, hb₀⟩)
      exact ⟨b, hb, by simp [hsome, hcheck₀, bind, Except.bind, hfull, hcheck]⟩
  unfold replayRegimes
  cases settled with
  | screen screened judged clear =>
      obtain ⟨b, -, hcheck⟩ := checkBundle_judged h none judged (by simp)
      have hfirst : replayFirst s t counts d = .ok (b, result) := by
        simp [replayFirst, screened, hcheck, bind, Except.bind, clear]
      have hrerun : result.needs_rerun = false := by
        by_contra hne
        simpa using costResult_regime h judged (by simpa using hne)
      simp [hfirst, bind, Except.bind, hrerun]
  | normal first judged clear =>
      obtain ⟨b, -, hfirst⟩ := normal judged first
      rcases clear with hclear | hclear <;> simp [hfirst, bind, Except.bind, hclear]
  | rerun first judged again guarded rejudged =>
      obtain ⟨b, hb, hfirst⟩ := normal judged first
      obtain ⟨b₂, hb₂, hcheck⟩ := checkBundle_judged h (some b) rejudged
        (by rintro p hp; cases hp; exact ⟨.normal, by decide, hb⟩)
      simp [hfirst, bind, Except.bind, again, guarded, hb₂, hcheck, Except.map]

theorem replayPanel_measured {d' : Directory N} {result : CostResult N} {id : String}
    {row : Record N} (saved : Saved s d)
    (run : Exec (measurePanel s t) d (some (.ok result)) d')
    (recorded : measuredRecord id t.guarded (.ok result) = .ok row) :
    replayPanel s t id d' = .ok row := by
  obtain ⟨-, hcoherent, counts, hcounts, hsettled⟩ :=
    run.sound saved.coherent (wp_measurePanel saved.coherent)
  cases recorded
  unfold replayPanel
  rw [hcounts]
  simp only [bind, Except.bind, replayRegimes_settled hcoherent hsettled]
  split <;> simp_all

/-- A finished measurement leaves at least one bundle. -/
theorem Settled.saved {counts : Counts} {result : CostResult N} (h : Settled s t counts d result) :
    (REGIMES.all fun r => (d r).isNone) = false := by
  have some_bundle : ∀ {r : Regime} {x : CostResult N}, Judged s t d r x →
      (REGIMES.all fun r => (d r).isNone) = false := by
    rintro r x ⟨b, hb, -⟩
    rw [List.all_eq_false]
    exact ⟨r, by cases r <;> simp [REGIMES], by simp [hb]⟩
  cases h with
  | screen _ judged _ => exact some_bundle judged
  | normal _ judged _ => exact some_bundle judged
  | rerun _ judged _ _ _ => exact some_bundle judged

/-- Only a policy with thresholds judges anything. -/
theorem Settled.thresholds {counts : Counts} {result : CostResult N}
    (h : Settled s t counts d result) : t.policy.cost_thresholds ≠ none := by
  have judged : ∀ {r : Regime} {x : CostResult N}, Judged s t d r x →
      t.policy.cost_thresholds ≠ none := by
    rintro r x ⟨b, -, hj⟩ hnone
    unfold judge costGuard at hj
    obtain ⟨u, -, hj⟩ := bind_eq_ok.mp hj
    obtain ⟨threshold, hthreshold, -⟩ := bind_eq_ok.mp hj
    unfold Evaluator.thresholds at hthreshold
    obtain ⟨fixed, hfixed, -⟩ := bind_eq_ok.mp hthreshold
    simp [thresholdsId, hnone] at hfixed
  cases h with
  | screen _ hj _ => exact judged hj
  | normal _ hj _ => exact judged hj
  | rerun _ hj _ _ _ => exact judged hj

end Measure

/-- The panels of a scope have distinct names. -/
theorem costPanels_nodup {confirm : Bool} {scope : List Scope} {cases : List (Case N)}
    {panels : List (Panel N)} (h : costPanels confirm scope cases = .ok panels) :
    (panels.map (·.name)).Nodup := by
  have listed : ∀ xs : List (Panel N), xs.Sublist
      (["timing", "timing-basis", "preset", "confirm-timing", "memory"].map fun name =>
        (⟨name, cases.filter fun c => c.panel == some name,
          if name = "memory" then .memory else .timing⟩ : Panel N)) →
      (xs.map (·.name)).Nodup ∧ "companion" ∉ xs.map (·.name) := by
    intro xs hsub
    have hnames : (xs.map (·.name)).Sublist
        ["timing", "timing-basis", "preset", "confirm-timing", "memory"] := by
      simpa using hsub.map (·.name)
    exact ⟨hnames.nodup (by decide), fun hmem => absurd (hnames.subset hmem) (by decide)⟩
  have kept : ∀ keep : Bool, ∀ xs : List (Panel N),
      (if keep then xs else xs.filter (·.name != "timing-basis")).Sublist xs := by
    intro keep xs
    cases keep with
    | true => exact List.Sublist.refl _
    | false => exact List.filter_sublist
  unfold costPanels at h
  simp only at h
  split at h
  · obtain ⟨companion, -, h⟩ := bind_eq_ok.mp h
    cases h
    obtain ⟨hnodup, hfresh⟩ := listed _ ((kept _ _).trans List.filter_sublist)
    rw [List.map_append, List.nodup_append]
    refine ⟨hnodup, by simp, ?_⟩
    intro a ha b hb heq
    simp only [List.map_cons, List.map_nil, List.mem_singleton] at hb
    exact hfresh (hb ▸ heq ▸ ha)
  · cases h
    exact (listed _ ((kept _ _).trans List.filter_sublist)).1

theorem putRecord_same (evidence : List (Record N)) (row : Record N) :
    (putRecord evidence row).filter (·.id == row.id) = [row] := by
  simp only [putRecord, List.filter_append, List.filter_filter]
  have hnone : evidence.filter (fun r => r.id == row.id && r.id != row.id) = [] := by
    rw [List.filter_eq_nil_iff]
    intro r _
    simp
  simp [hnone]

theorem putRecord_other {evidence : List (Record N)} {row : Record N} {id : String}
    (h : row.id ≠ id) :
    (putRecord evidence row).filter (·.id == id) = evidence.filter (·.id == id) := by
  simp only [putRecord, List.filter_append, List.filter_filter]
  have hkeep : ∀ r : Record N, (r.id == id && r.id != row.id) = (r.id == id) := by
    intro r
    by_cases hr : r.id = id
    · simp [hr, Ne.symm h]
    · simp [hr]
  simp [hkeep, h]

section Replay
variable [Arith N] [DecidableEq N] {setting : Setting N} {run : Run N} {guarded : List String}
  {bundles : String → Directory N}

theorem replayPanel_id {s : Subject N} {t : Terms N} {id : String} {d : Directory N}
    {row : Record N} (h : replayPanel s t id d = .ok row) : row.id = id := by
  unfold replayPanel at h
  obtain ⟨counts, -, h⟩ := bind_eq_ok.mp h
  split at h
  · split at h <;> cases h <;> rfl
  · cases h
    rfl
  · cases h

/-- A panel's replay leaves the records of every other id alone. -/
theorem replayStep_other {evidence out : List (Record N)} {panel : Panel N} {id : String}
    (h : replayStep setting run guarded bundles evidence panel = .ok out)
    (hid : run.prefix_ ++ "5/" ++ panel.name ≠ id) :
    out.filter (·.id == id) = evidence.filter (·.id == id) := by
  unfold replayStep at h
  simp only at h
  split at h
  · cases h
    rfl
  · split at h
    · cases h
    · obtain ⟨s, -, h⟩ := bind_eq_ok.mp h
      obtain ⟨row, hrow, h⟩ := bind_eq_ok.mp h
      cases h
      exact putRecord_other (replayPanel_id hrow ▸ hid)

theorem replaySteps_other {panels : List (Panel N)} {id : String}
    (hid : ∀ panel ∈ panels, run.prefix_ ++ "5/" ++ panel.name ≠ id) :
    ∀ {evidence out : List (Record N)},
      panels.foldlM (replayStep setting run guarded bundles) evidence = .ok out →
        out.filter (·.id == id) = evidence.filter (·.id == id) := by
  induction panels with
  | nil =>
      intro evidence out h
      cases h
      rfl
  | cons panel rest ih =>
      intro evidence out h
      rw [List.foldlM_cons] at h
      obtain ⟨mid, hmid, h⟩ := bind_eq_ok.mp h
      rw [ih (fun p hp => hid p (List.mem_cons_of_mem _ hp)) h]
      exact replayStep_other hmid (hid panel (List.mem_cons_self))

theorem panel_id_inj {pre a b : String} (h : pre ++ "5/" ++ a = pre ++ "5/" ++ b) : a = b := by
  have hlist := congrArg String.toList h
  simp only [String.toList_append, List.append_assoc, List.append_cancel_left_eq] at hlist
  exact String.toList_inj.mp hlist

/-- A panel without bundles and records is passed over; any other is replayed, and its
record is the only one under its id. -/
theorem replayStep_cases {evidence out : List (Record N)} {panel : Panel N} {s : Subject N}
    (hs : panelSubject setting run panel = .ok s)
    (h : replayStep setting run guarded bundles evidence panel = .ok out) :
    (REGIMES.all (fun r => (bundles panel.name r).isNone) = true ∧
        out.filter (·.id == run.prefix_ ++ "5/" ++ panel.name) = []) ∨
      ∃ row, replayPanel s (panelTerms setting run guarded panel)
          (run.prefix_ ++ "5/" ++ panel.name) (bundles panel.name) = .ok row ∧
        out.filter (·.id == run.prefix_ ++ "5/" ++ panel.name) = [row] := by
  unfold replayStep at h
  simp only at h
  split at h
  · rename_i hnone
    rw [Bool.and_eq_true] at hnone
    cases h
    refine .inl ⟨hnone.1, ?_⟩
    simpa [List.filter_eq_nil_iff] using hnone.2
  · split at h
    · cases h
    · obtain ⟨s', hs', h⟩ := bind_eq_ok.mp h
      obtain rfl := Except.ok.inj (hs.symm.trans hs')
      obtain ⟨row, hrow, h⟩ := bind_eq_ok.mp h
      cases h
      refine .inr ⟨row, hrow, ?_⟩
      rw [← replayPanel_id hrow]
      exact putRecord_same evidence row

/-- What the whole replay ends with under a panel's id is what the panel's step put there. -/
theorem replayCosts_cases {evidence out : List (Record N)} {scope : List Scope}
    {panels : List (Panel N)} {panel : Panel N} {s : Subject N}
    (hscope : run.scope = some scope)
    (hguarded : requiredCostPanels run.profile.manifest.confirm scope run.changed_paths
      run.profile.manifest.cases = .ok guarded)
    (hpanels : costPanels run.profile.manifest.confirm scope run.profile.manifest.cases
      = .ok panels)
    (hpanel : panel ∈ panels) (hs : panelSubject setting run panel = .ok s)
    (h : replayCosts setting run bundles evidence = .ok out) :
    (REGIMES.all (fun r => (bundles panel.name r).isNone) = true ∧
        out.filter (·.id == run.prefix_ ++ "5/" ++ panel.name) = []) ∨
      ∃ row, replayPanel s (panelTerms setting run guarded panel)
          (run.prefix_ ++ "5/" ++ panel.name) (bundles panel.name) = .ok row ∧
        out.filter (·.id == run.prefix_ ++ "5/" ++ panel.name) = [row] := by
  have hnodup := costPanels_nodup hpanels
  unfold replayCosts at h
  rw [hscope] at h
  simp only [hguarded, hpanels, bind, Except.bind] at h
  obtain ⟨pre, post, rfl⟩ := List.append_of_mem hpanel
  rw [List.foldlM_append] at h
  obtain ⟨mid, -, h⟩ := bind_eq_ok.mp h
  rw [List.foldlM_cons] at h
  obtain ⟨after, hstep, h⟩ := bind_eq_ok.mp h
  rw [replaySteps_other ?_ h]
  · exact replayStep_cases hs hstep
  intro other hother heq
  rw [List.map_append, List.map_cons, List.nodup_append] at hnodup
  have hnot := (List.nodup_cons.mp hnodup.2.1).1
  exact hnot (panel_id_inj heq ▸ List.mem_map_of_mem hother)

/-- Measurement and replay of a cost panel agree: whenever measuring returns, on a
directory that earlier measurements of the panel left in any state, the replay of the
bundles it leaves makes the record that was recorded, whatever the evidence held before. -/
theorem measurement_replayed {scope : List Scope} {panels : List (Panel N)} {panel : Panel N}
    {s : Subject N} {d d' : Directory N} {result : CostResult N} {row : Record N}
    (hscope : run.scope = some scope)
    (hguarded : requiredCostPanels run.profile.manifest.confirm scope run.changed_paths
      run.profile.manifest.cases = .ok guarded)
    (hpanels : costPanels run.profile.manifest.confirm scope run.profile.manifest.cases
      = .ok panels)
    (hpanel : panel ∈ panels) (hsubject : panelSubject setting run panel = .ok s)
    (saved : Saved s d)
    (measured : Exec (measurePanel s (panelTerms setting run guarded panel)) d
      (some (.ok result)) d')
    (recorded : measuredRecord (run.prefix_ ++ "5/" ++ panel.name)
      (guarded.contains panel.name) (.ok result) = .ok row)
    (left : bundles panel.name = d') :
    (∀ evidence, replayStep setting run guarded bundles evidence panel
      = .ok (putRecord evidence row)) ∧
    ∀ evidence out, replayCosts setting run bundles evidence = .ok out →
      out.filter (·.id == row.id) = [row] := by
  have hrow := replayPanel_measured saved measured recorded
  obtain ⟨-, -, counts, -, hsettled⟩ :=
    measured.sound saved.coherent (wp_measurePanel saved.coherent)
  have hthresholds : run.profile.policy.cost_thresholds ≠ none := hsettled.thresholds
  have step : ∀ evidence, replayStep setting run guarded bundles evidence panel
      = .ok (putRecord evidence row) := by
    intro evidence
    unfold replayStep
    simp only [left, hsettled.saved, Bool.false_and, Bool.false_eq_true, if_false,
      if_neg hthresholds, hsubject, bind, Except.bind, hrow]
    rfl
  refine ⟨step, fun evidence out h => ?_⟩
  rw [replayPanel_id hrow]
  rcases replayCosts_cases hscope hguarded hpanels hpanel hsubject h with
    ⟨hnone, -⟩ | ⟨row', h', hout⟩
  · rw [left, hsettled.saved] at hnone
    cases hnone
  · rw [left] at h'
    rw [hout, Except.ok.inj (h'.symm.trans hrow)]

end Replay

section Playback
variable [Arith N] [DecidableEq N] {s : Subject N} {t : Terms N} {d : Directory N}
  {bundle : Bundle N} {result : CostResult N}

/-- A panel without a screen that its normal bundle settles. -/
theorem exec_judged_once (counts : Counts) (kept : Option (Bundle N))
    (hcounts : regimeCounts s.estimator t.policy.measurement_protocol = .ok counts)
    (unscreened : (counts.get .screen).isNone = true)
      (counted : (counts.get .normal).isNone = false)
    (hkept : reusable s t (d .normal) = .ok kept)
    (obtained : Exec (obtainBundle s t .normal kept) d (some (.ok bundle)) d)
    (judged : judge s t bundle = .ok result) (settled : result.needs_rerun = false) :
    Exec (measurePanel s t) d (some (.ok result)) (d.save .normal bundle) := by
  refine (exec_ofExcept hcounts).bind ?_
  rw [REGIMES, measureRegimes, unscreened, if_pos rfl, measureRegimes, counted,
    if_neg Bool.false_ne_true, if_neg (fun h => nomatch h.1)]
  have regime : Exec (measureRegime s t .normal) d (some (.ok result)) (d.save .normal bundle) := by
    refine Exec.bind (a := d .normal) (.act ⟨rfl, rfl⟩ (.ret _ _)) ?_
    refine (exec_ofExcept hkept).bind (obtained.bind ?_)
    exact Exec.bind (a := ()) (Exec.fallible rfl) (exec_ofExcept judged)
  refine regime.bind ?_
  rw [if_neg (by simp [settled])]
  exact .ret _ _

/-- It is measured in a directory without bundles. -/
theorem exec_measured_once (counts : Counts) {fixed : CostThresholds N}
    (hcounts : regimeCounts s.estimator t.policy.measurement_protocol = .ok counts)
    (unscreened : (counts.get .screen).isNone = true)
      (counted : (counts.get .normal).isNone = false)
    (hfixed : thresholdsId t.policy = .ok fixed)
    (made : ∃ session arm_id samples mode, arm_id "baseline" ≠ arm_id "evolved" ∧
      bundle = newBundle s t fixed .normal session arm_id samples mode)
    (judged : judge s t bundle = .ok result) (settled : result.needs_rerun = false) :
    Exec (measurePanel s t) (fun _ => none) (some (.ok result))
      (Directory.save (fun _ => none) .normal bundle) := by
  refine exec_judged_once counts none hcounts unscreened counted rfl ?_ judged settled
  obtain ⟨session, arm_id, samples, mode, harms, hbundle⟩ := made
  refine (exec_ofExcept hfixed).bind (Exec.fallible ⟨rfl, session, arm_id, samples, mode,
    fun r saved h => ?_, harms, hbundle⟩)
  cases h

/-- A panel whose outcome is recorded. -/
theorem exec_measureStep {setting : Setting N} {run : Run N} {guarded : List String}
    {panel : Panel N} {files : CostFiles N} {d' : Directory N} {out : Except Exn (CostResult N)}
    {row : Record N} (subject : panelSubject setting run panel = .ok s)
    (measured : Exec (measurePanel s (panelTerms setting run guarded panel))
      (files.bundles panel.name) (some out) d')
    (recorded : measuredRecord (run.prefix_ ++ "5/" ++ panel.name)
      (panelTerms setting run guarded panel).guarded out = .ok row) :
    Exec (measureStep setting run guarded panel) files (some (.ok ()))
      { (directoryLens panel.name).set files d' with evidence := putRecord files.evidence row } :=
        by
  have zoomed := measured.zoom (directoryLens panel.name) (w := files) rfl
  exact (exec_ofExcept subject).bind (zoomed.attempt.bind
    ((exec_ofExcept recorded).bind (Exec.fallible rfl)))

end Playback

section Sample

attribute [local instance] integerArith

def sampleCase : Case Int where
  case_id := "timing/qft"
  role := .timing
  panel := some "timing"
  seeds_per_block := 0
  weight := 1
  family := "qft"
  optimization_level := 2
  size_band := "small"
  topology := "line"
  native_basis := "cz"
  input_group := "qft"
  modes := ["timing_reuse"]
  expected _ := none
  circuit_sha256 := "c"
  target_sha256 := "t"
  reference_sha256 := none
  clifford_sha256 := none
  input_domain := "all_inputs"
  logical_qubits := 4

def samplePolicy : Policy Int where
  required_ids := ["IA1/stage-coverage", "IA2/improvement", "IA5/timing", "IA6/completeness"]
  quality_prerequisites := []
  practical_ratio := 1
  improvement_multiplier := 2
  guard_multiplier := 3
  quality_cap := 1
  iterations_groups := []
  bootstrap_replicates := 1
  rng_seed := 20260924
  measurement_protocol := ⟨25, none, some 1, none, none, none⟩
  cost_thresholds := some ⟨2, 1, 2, 0, 0⟩

def sampleRun : Run Int where
  run_id := "run"
  profile := ⟨⟨false, [sampleCase]⟩, samplePolicy, by decide⟩
  coordinator := "coordinator"
  implementation := none
  baseline_source := "main"
  evolved_source := "candidate"
  store := some "store"
  builds := ⟨some ⟨"a", some "k"⟩, some ⟨"b", none⟩⟩
  changed_paths := []
  scope := some []
  cost_evidence := none
  amendments := []

def sampleSetting : Setting Int := ⟨fun _ _ _ _ _ => .ok (), fun _ => "hash"⟩

def samplePanel : Panel Int := ⟨"timing", [sampleCase], .timing⟩

def sampleSubject : Subject Int := ⟨[sampleCase], .timing, "a", "b", fun _ => "hash"⟩

def sampleTerms : Terms Int := panelTerms sampleSetting sampleRun ["timing"] samplePanel

def sampleBundle : Bundle Int :=
  newBundle sampleSubject sampleTerms ⟨2, 1, 2, 0, 0⟩ .normal "session" id
    (fun _ => [("timing/qft", .timing [[5]])]) "machine"

def sampleResult : CostResult Int where
  result := .passed
  regime := .normal
  count := 1
  threshold := ⟨1, 1, 2, 0⟩
  candidate := ⟨0, [("timing/qft", 1)], [], false⟩
  needs_full := false
  needs_rerun := false

theorem sampleBundle_judged : judge sampleSubject sampleTerms sampleBundle = .ok sampleResult :=
  rfl

/-- Measuring the panel in an empty directory, with equal samples in both arms. -/
theorem sample_measured : Exec (measurePanel sampleSubject sampleTerms) (fun _ => none)
    (some (.ok sampleResult))
    (Directory.save (fun _ => none) .normal sampleBundle : Directory Int) :=
  exec_measured_once ⟨0, 1, 2⟩ rfl rfl rfl rfl
    ⟨"session", id, _, "machine", by decide, rfl⟩ sampleBundle_judged rfl

theorem measurement_replayed_sample :
    (∀ evidence, replayStep sampleSetting sampleRun ["timing"]
      (fun _ => Directory.save (fun _ => none) .normal sampleBundle) evidence samplePanel
      = .ok (putRecord evidence
          { id := "IA5/timing", kind := .cost, result := .passed,
            details := .cost sampleResult.toCostDetails none })) ∧
    ∀ evidence out, replayCosts sampleSetting sampleRun
      (fun _ => Directory.save (fun _ => none) .normal sampleBundle) evidence = .ok out →
      out.filter (·.id == "IA5/timing") =
        [{ id := "IA5/timing", kind := .cost, result := .passed,
           details := .cost sampleResult.toCostDetails none }] :=
  have hpanels : costPanels false [] [sampleCase] = .ok [samplePanel] := rfl
  measurement_replayed rfl rfl hpanels (List.mem_singleton.mpr rfl) rfl .empty sample_measured
    rfl rfl

end Sample
end TranspileBench.Coordinator
