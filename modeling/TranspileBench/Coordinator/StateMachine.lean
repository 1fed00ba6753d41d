import TranspileBench.Coordinator.Sessions

/-!
The stage state machine, over whole runs of a session: what the invariant and the steps
say of any two moments of any interleaving.
-/
namespace TranspileBench.Coordinator
open Evaluator

variable {N H : Type}

/-- An invocation of stage `s` is live: it is between the stage's lock and its release. -/
def World.Live (w : World N H) (p : Nat) (s : Stage) : Prop :=
  w.phase p = .inside s ∨ ∃ view, w.phase p = .body s view

section Laws
variable [Arith N] [DecidableEq N] [DecidableEq H]

/-- The laws of the stages of a session, over its whole run. -/
structure StateMachine (platform : Platform N H) (r : (sessionSystem platform).Run) : Prop where
  /-- A complete or skipped state never changes again. -/
  final : ∀ i j, i ≤ j → ∀ s st, ((r.config i).world.stages s).state = some st → st.status ∈ FINAL →
    ((r.config j).world.stages s).state = some st
  /-- A body runs only behind final prerequisites. -/
  prerequisites : ∀ i p s view, (r.config i).world.phase p = .body s view →
    ∀ q ∈ PREREQUISITES s, (r.config i).world.Final q
  live : ∀ i p q s, (r.config i).world.Live p s → (r.config i).world.Live q s → p = q
  /-- Once `clean.json` exists no stage is written. -/
  cleaned : ∀ i j, i ≤ j → (r.config i).world.clean ≠ none →
    (r.config j).world.stages = (r.config i).world.stages
  /-- A gated body runs only behind a complete quality stage whose gate is not closed. -/
  gated : ∀ i p s view, (r.config i).world.phase p = .body s view → s ∈ GATED →
    ∃ st gate, ((r.config i).world.stages .quality).state = some st ∧ st.status = .complete ∧
      st.gate = some gate ∧ gate.1 ≠ .closed
  /-- The cost body runs only when cost is due on the committed evidence, in the
  `run.json` that its invocation opened. -/
  cost : ∀ i p view, (r.config i).world.phase p = .body .cost view →
    (r.config i).world.status .correctness = some .complete ∧
      (∃ run, (r.config i).world.run = some run ∧ view.profile = run.profile) ∧
      ∃ due, (r.config i).world.costDue platform view = .ok (some due)

end Laws

section Steps
variable [Arith N] {platform : Platform N H} {p q : Nat} {s : Stage} {w w' : World N H}

theorem Inv.live (h : Inv platform w) (hp : w.Live p s) : w.stageLock s = some p :=
  hp.elim (h.inside p s) fun ⟨view, hview⟩ => (h.body p s view hview).1

/-- One lock, one live invocation. -/
theorem Inv.live_unique (h : Inv platform w) (hp : w.Live p s) (hq : w.Live q s) : p = q :=
  Option.some.inj ((h.live hp).symm.trans (h.live hq))

/-- An open gate is a recorded one. -/
theorem Inv.gate (h : Inv platform w) (gate : w.GateOpen) :
    ∃ st gate, (w.stages .quality).state = some st ∧ st.status = .complete ∧ st.gate = some gate ∧
      gate.1 ≠ .closed := by
  obtain ⟨st, hst, hcomplete, hopen⟩ := gate
  obtain ⟨-, -, -, gate, -, -, -, -, -, hgate, -⟩ := (h.stage .quality).complete st hst hcomplete
  refine ⟨st, gate, hst, hcomplete, hgate, fun hclosed => hopen gate.2 ?_⟩
  rw [hgate, ← hclosed]

/-- What a cleaned session keeps from one moment to a later one. -/
def Cleaned (w w' : World N H) : Prop :=
  w.clean ≠ none → w'.clean ≠ none ∧ w'.stages = w.stages

/-- No step writes a stage of a cleaned session. -/
theorem Effect.cleaned (step : Effect platform p w w') : Cleaned w w' := by
  intro hclean
  refine ⟨step.extends.cleaned hclean, ?_⟩
  cases step with
  | write s f step => exact absurd step.clean hclean
  | _ => rfl

end Steps

section Runs
variable [Arith N] [DecidableEq N] [DecidableEq H]

theorem state_machine (platform : Platform N H) (r : (sessionSystem platform).Run) :
    StateMachine platform r where
  final i j hij s st hst hfinal := by
    have hext : Extends (r.config i).world (r.config j).world :=
      (sessionOutline platform).run_induction r .refl (fun _ _ _ => .trans)
        (fun _ _ _ _ _ step => step.extends) (fun p w _ => .release platform w p)
        (fun _ _ _ h => h.elim) hij
    rw [hext.final s ⟨st.status, hfinal, by simp [World.status, hst]⟩, hst]
  prerequisites i p s view hbody :=
    ((session_inv platform (r.reachable _ i)).body p s view hbody).2.startable.prerequisites
  live i p q s := (session_inv platform (r.reachable _ i)).live_unique
  cleaned i j hij hclean := by
    have h : Cleaned (r.config i).world (r.config j).world :=
      (sessionOutline platform).run_induction r (fun _ h => ⟨h, rfl⟩)
        (fun _ _ _ h h' hclean => ⟨(h' (h hclean).1).1, (h' (h hclean).1).2.trans (h hclean).2⟩)
        (fun _ _ _ _ _ step => step.cleaned) (fun _ _ _ h => ⟨h, rfl⟩) (fun _ _ _ h => h.elim) hij
    exact (h hclean).2
  gated i p s view hbody hs := by
    have hinv := session_inv platform (r.reachable _ i)
    exact hinv.gate ((hinv.body p s view hbody).2.startable.gate hs)
  cost i p view hbody := by
    have hinv := session_inv platform (r.reachable _ i)
    have hin := (hinv.body p .cost view hbody).2
    exact ⟨hin.startable.cost rfl, hin.opened, hin.due rfl⟩

end Runs

/-! ## What a complete quality stage leaves -/

/-- The rows are those of the manifest: one for each case of the quality stage, each revision
and each seed of the case, and no others. -/
structure Exactly (profile : Profile N) (rows : List (Observation N)) : Prop where
  row : ∀ row ∈ rows, ∃ case ∈ qualityCases profile.manifest, row.case_id = case.case_id
    ∧ row.seed < case.seeds_per_block
  once : ∀ case ∈ qualityCases profile.manifest, ∀ revision, ∀ seed < case.seeds_per_block,
    (rows.map (·.key)).count (case.case_id, revision, seed) = 1

section Complete
variable [Arith N] {platform : Platform N H} {w : World N H} {run : Run N}

/-- A complete stage holds every wanted row, and the file holds no row twice. -/
theorem Inv.exactly (h : Inv platform w) (hrun : w.run = some run)
    (hcomplete : w.status .quality = some .complete) :
    ∃ rows, readRows platform (w.stages .quality).observations = .ok rows
      ∧ Observed platform run.profile w.torn (w.stages .quality) rows
      ∧ Exactly run.profile rows := by
  obtain ⟨rows, hobserved⟩ := h.observed run hrun
  have hread : readRows platform (w.stages .quality).observations = .ok rows := by
    rw [readRows, hobserved.file.readRecords]
  refine ⟨rows, hread, hobserved, ?_, ?_⟩
  · intro row hrow
    obtain ⟨case, hcase, hid, hseed⟩ := (hobserved.row row hrow).wanted
    exact ⟨case, hcase, hid, hseed⟩
  · intro case hcase revision seed hseed
    apply List.count_eq_one_of_mem hobserved.nodup
    obtain ⟨st, hst, hstatus⟩ := Option.map_eq_some_iff.mp hcomplete
    obtain ⟨found, _, rows', _, hfound, _, hrows', hwanted, _⟩ :=
      (h.stage .quality).complete st hst hstatus
    obtain rfl : found = run := Option.some.inj (hfound.symm.trans hrun)
    obtain rfl : rows' = rows := Except.ok.inj (hrows'.symm.trans hread)
    exact hwanted _ ⟨case, hcase, rfl, hseed⟩

/-- A complete quality stage has one row for each case, revision and seed, and no other row. -/
def World.QualityExact (platform : Platform N H) (w : World N H) : Prop :=
  ∀ run, w.run = some run → w.status .quality = some .complete →
    ∃ rows, readRows platform (w.stages .quality).observations = .ok rows
      ∧ Exactly run.profile rows

end Complete

/-- However the quality stage was killed, crashed and resumed, once it is complete the file of
observations holds every row that was wanted exactly once. -/
theorem quality_exactly_once [Arith N] [DecidableEq N] [DecidableEq H] (platform : Platform N H)
    (r : (sessionSystem platform).Run) (i : ℕ) : (r.config i).world.QualityExact platform := by
  intro run hrun hcomplete
  obtain ⟨rows, hread, _, hexactly⟩ :=
    (session_inv platform (r.reachable _ i)).exactly hrun hcomplete
  exact ⟨rows, hread, hexactly⟩

end TranspileBench.Coordinator
