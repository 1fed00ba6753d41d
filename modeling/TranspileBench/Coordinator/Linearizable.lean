import TranspileBench.Lib.Passage
import TranspileBench.Coordinator.FailureRows
import Mathlib

/-!
`decide` among the other processes of a session. It reads five states, the evidence behind
them and the states once more, without any lock that the stages mind; a stage's states never
come back, and its files change only while it runs, so that what it decides on is the
session of one moment.
-/
namespace TranspileBench.Coordinator
open Evaluator Fallible

variable {N H : Type}

/-! ## The order of a stage's states -/

def StageStatus.order : StageStatus → Nat
  | .running => 0
  | .complete | .failed | .noisy => 1
  | .skipped => 2

/-- Where a state stands among those of its stage: by its attempt, then by how far that is. -/
def stateOrder : Option StageState → Nat
  | none => 0
  | some st => 3 * st.attempts + st.status.order

def isRunning (state : Option StageState) : Bool := state.any (·.status == .running)

/-- The files of a stage, now and later: a state that is left never comes back, and under
one that is not running nothing changes. -/
inductive Moves (f f' : StageFiles N) : Prop
  | same (h : f' = f)
  | runs (state : f'.state = f.state) (running : isRunning f.state = true)
  | on (later : stateOrder f.state < stateOrder f'.state)

theorem Moves.refl (f : StageFiles N) : Moves f f := .same rfl

theorem Moves.le {f f' : StageFiles N} (h : Moves f f') :
    stateOrder f.state ≤ stateOrder f'.state := by
  cases h with
  | same h => rw [h]
  | runs state running => rw [state]
  | on later => exact Nat.le_of_lt later

theorem Moves.trans {f f' f'' : StageFiles N} (h : Moves f f') (h' : Moves f' f'') :
    Moves f f'' := by
  cases h with
  | same h => exact h ▸ h'
  | on later => exact .on (Nat.lt_of_lt_of_le later h'.le)
  | runs state running =>
      cases h' with
      | same h' => exact .runs (h' ▸ state) running
      | runs state' running' => exact .runs (state'.trans state) running
      | on later => exact .on (state ▸ later)

/-- Between two moments with one state there is no other state, and no other file unless the
stage runs. -/
theorem Moves.between {f f' f'' : StageFiles N} (h : Moves f f') (h' : Moves f' f'')
    (same : f''.state = f.state) :
    f'.state = f.state ∧ (isRunning f.state = false → f' = f) := by
  have hle := h'.le
  rw [same] at hle
  cases h with
  | same h => exact ⟨by rw [h], fun _ => h⟩
  | runs state running => exact ⟨state, fun hnot => absurd running (by simp [hnot])⟩
  | on later => omega

/-- Each state that is written comes after the one before. -/
theorem Succeeds.later {old : Option StageState} {st : StageState} (h : Succeeds old st)
    (live : isFinal old = false) : stateOrder old < stateOrder (some st) := by
  have bound : stateOrder old ≤ 3 * attemptsOf old + 1 := by
    cases old with
    | none => simp [stateOrder]
    | some st =>
        obtain ⟨status, attempts, gate, reason⟩ := st
        cases status <;> simp [stateOrder, attemptsOf, StageStatus.order, isFinal, FINAL] at live ⊢
  rcases h with ⟨hstatus, hattempts⟩ | ⟨hstatus, hattempts⟩ | ⟨running, rfl, hrunning,
    hstatus, hattempts⟩
  · rw [stateOrder, hattempts]
    omega
  · rw [stateOrder, hattempts, hstatus, StageStatus.order]
    omega
  · have hended : st.status.order = 1 := by
      rcases hstatus with h | h | h <;> rw [h] <;> rfl
    rw [stateOrder, stateOrder, hattempts, hended, hrunning, StageStatus.order]
    omega

/-! ## What the others do -/

/-- How a session goes on beside process `p`. -/
structure Advances (p : Nat) (w w' : World N H) : Prop where
  extend : Extends w w'
  stages : ∀ s, Moves (w.stages s) (w'.stages s)
  shared : w.shared p = true → w'.shared p = true
  run : w.shared p = true → w.Final .compile → w'.run = w.run

theorem Advances.refl (p : Nat) (w : World N H) : Advances p w w :=
  ⟨.refl w, fun _ => .refl _, id, fun _ _ => rfl⟩

theorem Advances.trans {p : Nat} {w w' w'' : World N H} (h : Advances p w w')
    (h' : Advances p w' w'') : Advances p w w'' where
  extend := h.extend.trans h'.extend
  stages s := (h.stages s).trans (h'.stages s)
  shared := h'.shared ∘ h.shared
  run hshared hfinal :=
    (h'.run (h.shared hshared) (h.extend.keeps hfinal)).trans (h.run hshared hfinal)

theorem final_of_isComplete {w : World N H} {s : Stage} (h : isComplete (w.stages s).state = true) :
    w.Final s := by
  refine World.final_of_status ?_
  cases hst : (w.stages s).state with
  | none => simp [hst, isComplete] at h
  | some st => simpa [hst, isComplete, World.status] using h

section Steps
variable [Arith N] {platform : Platform N H} {p q : Nat} {w w' : World N H}

theorem StageStep.moves {s : Stage} {f : StageFiles N} (h : StageStep platform w p s f) :
    Moves (w.stages s) f := by
  rcases h.next with ⟨hstate, hrunning⟩ | ⟨-, -, st, hstate, hnext⟩
  · refine .runs hstate ?_
    cases hst : (w.stages s).state with
    | none => simp [World.status, hst] at hrunning
    | some st => simpa [World.status, hst, isRunning] using hrunning
  · have live : isFinal (w.stages s).state = false := by
      have h := h.live
      rwa [World.final_iff, Bool.not_eq_true] at h
    exact .on (by rw [hstate]; exact hnext.later live)

theorem Effect.moves (h : Effect platform p w w') (s : Stage) :
    Moves (w.stages s) (w'.stages s) := by
  cases h with
  | write t f step =>
      by_cases hs : s = t
      · subst hs
        rw [World.setStage_same]
        exact step.moves
      · rw [World.setStage_other w f hs]
        exact .refl _
  | _ => exact .refl _

/-- `run.json` changes under the shared lock of another process only until compile is
final. -/
theorem Effect.run_kept (h : Effect platform p w w') (hinv : Inv platform w)
    (shared : w.shared q = true) (final : w.Final .compile) : w'.run = w.run := by
  cases h with
  | save run held live same => exact absurd final live
  | amend run amendments held found =>
      rw [hinv.exclusive p held q] at shared
      cases shared
  | _ => rfl

theorem Effect.advances (h : Effect platform q w w') (hinv : Inv platform w) (hqp : q ≠ p) :
    Advances p w w' where
  extend := h.extends
  stages := h.moves
  shared hshared := ((h.undisturbed hinv hqp).shared).trans hshared
  run := h.run_kept hinv

end Steps

/-! ## Reading -/

section Reading
variable {platform : Platform N H} {p : Nat} {β : Type} {c c' : Config (World N H) Exn}
  {ws : List (World N H)}

theorem looks_readFile (f : World N H → β) : (readFile f).Looks :=
  .fallible fun _ _ _ h => h.2

theorem looks_eachStage {start : β} {read : Stage → Prog (World N H) Exn β}
    (h : ∀ s, (read s).Looks) : (eachStage start read).Looks :=
  .fold (fun _ s => (h s).map _) _

theorem looks_snapshotEvidence (states : Stage → Option StageState) (s : Stage) :
    (snapshotEvidence states s : Prog (World N H) Exn _).Looks := by
  unfold snapshotEvidence
  split_ifs
  · exact (looks_readFile _).map _
  · exact .pure _

variable [DecidableEq H]

theorem looks_snapshotPass : (snapshotPass platform).Looks :=
  .bind (looks_eachStage fun _ => looks_readFile _) fun states =>
    .bind (looks_eachStage fun s => looks_snapshotEvidence states s) fun _ =>
      .bind (looks_eachStage fun _ => looks_readFile _) fun _ => .pure _

theorem looks_snapshot (passes : Nat) : (snapshot platform passes).Looks := by
  induction passes with
  | zero => exact .throw _
  | succ passes ih =>
      refine .bind looks_snapshotPass fun found => ?_
      cases found with
      | some view => exact .pure _
      | none => exact ih

variable [Arith N] [DecidableEq N]

/-- What was read was there at some moment of the passage. -/
theorem passage_readFile {f : World N H → β} {b : β}
    (h : (sessionSystem platform).Passage p (readFile f) c ws (.ok b) c') :
    ∃ w ∈ ws, b = f w := by
  obtain ⟨c₁, w, ws₁, ws₂, -, ⟨hb, -⟩, -, rfl⟩ := System.Passage.fallible_ok h
  exact ⟨c₁.world, by simp, hb⟩

theorem passage_eachStage {start : β} {read : Stage → Prog (World N H) Exn β} {found : Stage → β}
    (h : (sessionSystem platform).Passage p (eachStage start read) c ws (.ok found) c')
    (s : Stage) :
    ∃ c₁ ws₁ c₂, (sessionSystem platform).Passage p (read s) c₁ ws₁ (.ok (found s)) c₂ ∧
      ws₁ ⊆ ws :=
  (System.Passage.fold_update (by decide) h).2 s (by cases s <;> decide)

/-- Every change that the others make is one a session can go through. -/
theorem changes_advances {w w' : World N H} (hinv : Inv platform w)
    (h : (sessionOutline platform).Changes p w w') : Advances p w w' := by
  rcases h with rfl | ⟨q, hq, step⟩ | ⟨q, hq, rfl⟩ | henv
  · exact .refl p w'
  · exact Effect.advances step hinv hq
  · exact ⟨.release platform w q, fun s => .refl _,
      fun hp => ((release_undisturbed platform w hq).shared).trans hp, fun _ _ => rfl⟩
  · exact henv.elim

/-- While a process only looks, the session advances past each world it passes. -/
theorem advances_passage {prog : Prog (World N H) Exn β} {r : Except Exn β}
    (around : (sessionOutline platform).Around p c) (looks : prog.Looks)
    (h : (sessionSystem platform).Passage p prog c ws r c') :
    (sessionOutline platform).Around p c' ∧ Advances p c.world c'.world ∧
      ∀ w ∈ ws, Inv platform w ∧ Advances p c.world w ∧ Advances p w c'.world :=
  around.passage (Advances.refl p) (fun _ _ _ => Advances.trans)
    (fun _ _ hinv _ => changes_advances hinv) looks h

theorem advances_moment {prog : Prog (World N H) Exn β} {r : Except Exn β} {w : World N H}
    {before after : List (World N H)} (around : (sessionOutline platform).Around p c)
    (looks : prog.Looks) (h : (sessionSystem platform).Passage p prog c ws r c')
    (moment : ws ++ [c'.world] = before ++ w :: after) :
    Inv platform w ∧ Advances p c.world w ∧ Advances p w c'.world := by
  obtain ⟨around', advances, between⟩ := advances_passage around looks h
  have hw : w ∈ ws ++ [c'.world] := by simp [moment]
  rcases List.mem_append.mp hw with hw | hw
  · exact between w hw
  · obtain rfl := List.mem_singleton.mp hw
    exact ⟨around'.inv, advances, .refl p _⟩

theorem isRunning_of_committed {state : Option StageState} (h : isCommitted state = true) :
    isRunning state = false := by
  cases state with
  | none => rfl
  | some st =>
      obtain ⟨status, attempts, gate, reason⟩ := st
      cases status <;> simp [isCommitted, isRunning] at h ⊢

theorem passage_snapshotEvidence {states : Stage → Option StageState} {s : Stage}
    {rows : List (Record N)}
    (h : (sessionSystem platform).Passage p (snapshotEvidence states s) c ws (.ok rows) c') :
    (isCommitted (states s) = false ∧ rows = []) ∨ (isCommitted (states s) = true ∧
      ∃ w ∈ ws, rows = committedRows s (states s) (w.stages s).evidence) := by
  unfold snapshotEvidence at h
  split_ifs at h with committed
  · obtain ⟨evidence, c₁, ws₁, ws₂, reads, rfl, -, rfl⟩ := System.Passage.map_ok h
    obtain ⟨w, hw, rfl⟩ := passage_readFile reads
    exact .inr ⟨committed, w, List.mem_append_left _ hw, rfl⟩
  · obtain ⟨hrows, -⟩ := System.Passage.ret_cases h
    exact .inl ⟨by simpa using committed, Except.ok.inj hrows⟩

/-- The view of a pass is the session at one moment of it. -/
theorem snapshotPass_view (around : (sessionOutline platform).Around p c) {view : Snapshot N H}
    (h : (sessionSystem platform).Passage p (snapshotPass platform) c ws (.ok (some view)) c') :
    ∃ before w after, ws ++ [c'.world] = before ++ w :: after ∧ view = w.snapshot platform := by
  obtain ⟨states, c₁, ws₁, wsr, first, h₁, rfl⟩ := System.Passage.bind_ok h
  obtain ⟨rest, hrest⟩ := h₁.starts
  refine ⟨ws₁, c₁.world, rest, by rw [List.append_assoc, hrest], ?_⟩
  obtain ⟨evidence, c₂, ws₂, wsr', second, h₂, rfl⟩ := System.Passage.bind_ok h₁
  obtain ⟨current, c₃, ws₃, ws₄, third, h₃, rfl⟩ := System.Passage.bind_ok h₂
  obtain ⟨hview, -⟩ := System.Passage.ret_cases h₃
  obtain ⟨around₁, -, between₁⟩ := advances_passage around
    (looks_eachStage fun _ => looks_readFile _) first
  obtain ⟨around₂, advances₂, between₂⟩ := advances_passage around₁
    (looks_eachStage fun s => looks_snapshotEvidence states s) second
  obtain ⟨-, -, between₃⟩ := advances_passage around₂
    (looks_eachStage fun _ => looks_readFile _) third
  split_ifs at hview with hall
  · obtain rfl := Option.some.inj (Except.ok.inj hview)
    have found : ∀ s, states s = (c₁.world.stages s).state ∧
        evidence s = c₁.world.committed s := by
      intro s
      obtain ⟨d, wss, d', reads, hwss⟩ := passage_eachStage first s
      obtain ⟨w, hw, hstate⟩ := passage_readFile reads
      obtain ⟨d, wse, d', reads, hwse⟩ := passage_eachStage second s
      obtain ⟨d, wsl, d', last, hwsl⟩ := passage_eachStage third s
      obtain ⟨w', hw', hcurrent⟩ := passage_readFile last
      have same : (w'.stages s).state = (w.stages s).state := by
        have hhash : (states s).map platform.sha256 = current s :=
          beq_iff_eq.mp (List.all_eq_true.mp hall s (by cases s <;> decide))
        rw [hcurrent, hstate] at hhash
        exact (Option.map_injective platform.sha256_injective hhash).symm
      have before := (between₁ w (hwss hw)).2.2.stages s
      have after := (advances₂.trans (between₃ w' (hwsl hw')).2.1).stages s
      obtain ⟨state₁, files₁⟩ := before.between after same
      refine ⟨hstate.trans state₁.symm, ?_⟩
      rcases passage_snapshotEvidence reads with ⟨committed, hrows⟩ | ⟨committed, w₂, hw₂, hrows⟩
      · rw [hrows, World.committed, state₁, ← hstate, committedRows_eq_nil committed]
      · obtain ⟨-, to₂, from₂⟩ := between₂ w₂ (hwse hw₂)
        obtain ⟨-, files₂⟩ := (before.trans (to₂.stages s)).between
          ((from₂.trans (between₃ w' (hwsl hw')).2.1).stages s) same
        have idle := isRunning_of_committed (hstate ▸ committed)
        rw [hrows, World.committed, hstate, files₁ idle, files₂ idle]
    have hstates : states = fun s => (c₁.world.stages s).state := funext fun s => (found s).1
    have hevidence : evidence = c₁.world.committed := funext fun s => (found s).2
    rw [World.snapshot, hstates, hevidence]
  · cases hview

/-- So is the view that the loop returns, however many passes it takes. -/
theorem snapshot_view (passes : Nat)
    (around : (sessionOutline platform).Around p c) {view : Snapshot N H}
    (h : (sessionSystem platform).Passage p (snapshot platform passes) c ws (.ok view) c') :
    ∃ before w after, ws ++ [c'.world] = before ++ w :: after ∧ view = w.snapshot platform := by
  induction passes generalizing c ws with
  | zero => exact absurd h System.Passage.raise_not_ok
  | succ passes ih =>
      obtain ⟨found, c₁, ws₁, ws₂, pass, rest, rfl⟩ := System.Passage.bind_ok h
      cases found with
      | some stable =>
          obtain ⟨before, w, after, hws, hview⟩ := snapshotPass_view around pass
          obtain ⟨hok, others⟩ := System.Passage.ret_cases rest
          obtain rfl := Except.ok.inj hok
          obtain ⟨later, hlater⟩ := others.starts
          exact ⟨before, w, after ++ later,
            System.moment_of_part [] hws hlater, hview⟩
      | none =>
          obtain ⟨before, w, after, hws, hview⟩ :=
            ih (advances_passage around looks_snapshotPass pass).1 rest
          exact ⟨ws₁ ++ before, w, after, by rw [List.append_assoc, hws, List.append_assoc], hview⟩

/-! ## The decision -/

omit [Arith N] [DecidableEq N] [DecidableEq H] in
theorem looks_ofExcept (result : Except Exn β) :
    (Prog.ofExcept result : Prog (World N H) Exn β).Looks := by
  cases result with
  | error e => exact .throw e
  | ok b => exact .pure b

omit [Arith N] [DecidableEq N] [DecidableEq H] in
theorem looks_committedEvidence (s : Stage) :
    (committedEvidence s : Prog (World N H) Exn _).Looks := by
  refine .bind (looks_readFile _) fun state => ?_
  split_ifs
  · exact .bind (looks_readFile _) fun _ => .pure _
  · exact .pure _

omit [DecidableEq N] [DecidableEq H] in
theorem looks_costDue (run : Run N) : (costDue platform run).Looks :=
  .bind (looks_readFile _) fun _ => .bind (looks_ofExcept _) fun _ =>
    .bind (looks_committedEvidence _) fun _ => .bind (looks_committedEvidence _) fun _ =>
    .bind (looks_committedEvidence _) fun _ => looks_ofExcept _

omit [DecidableEq H] in
theorem looks_decideView (run : Run N) (view : Snapshot N H) :
    (decideView platform run view).Looks := by
  have gated : (readGated platform run view).Looks := by
    unfold readGated readCost
    split_ifs
    · exact .bind (.bind (looks_costDue run) fun _ => .pure _) fun _ => .pure _
    · exact .bind (.pure _) fun _ => .pure _
    · exact .pure _
  exact .bind gated fun _ => .bind (looks_ofExcept _) fun _ =>
    .bind (looks_readFile _) fun _ => .bind (looks_ofExcept _) fun _ =>
    .bind (looks_readFile _) fun _ => .bind (looks_ofExcept _) fun _ =>
    .bind (looks_readFile _) fun _ => .bind (looks_ofExcept _) fun _ => looks_ofExcept _

omit [Arith N] [DecidableEq N] [DecidableEq H] in
theorem passage_ofExcept {S : System (World N H) Exn} {α : Type} {result : Except Exn α} {a : α}
    (h : S.Passage p (Prog.ofExcept result) c ws (.ok a) c') : result = .ok a := by
  cases result with
  | error e => exact absurd h System.Passage.raise_not_ok
  | ok b => exact (System.Passage.ret_cases h).1.symm

section Later
variable {w w' : World N H}

omit [Arith N] [DecidableEq N] [DecidableEq H] in
theorem decidedRows_later (later : Extends w w') (broken : Bool) :
    decidedRows platform broken (w.snapshot platform) w' =
      decidedRows platform broken (w.snapshot platform) w := by
  by_cases hquality : isComplete (w.stages .quality).state = true
  · rw [decidedRows, decidedRows, later.final .quality (final_of_isComplete hquality)]
  · simp only [decidedRows, World.snapshot, hquality, Bool.false_eq_true, if_false]

omit [DecidableEq H] in
theorem replayedEvidence_later (later : Extends w w') (run : Run N) (evidence : List (Record N)) :
    replayedEvidence platform run (w.snapshot platform) w' evidence =
      replayedEvidence platform run (w.snapshot platform) w evidence := by
  unfold replayedEvidence
  split_ifs with hcost
  · rw [later.final .cost (final_of_isComplete hcost)]
  · rfl

omit [Arith N] [DecidableEq N] [DecidableEq H] in
theorem coveredEvidence_later (later : Extends w w') (run : Run N) (broken : Bool)
    (rows : List (Observation N)) (evidence : List (Record N)) :
    coveredEvidence run broken (w.snapshot platform) w' rows evidence =
      coveredEvidence run broken (w.snapshot platform) w rows evidence := by
  unfold coveredEvidence
  split_ifs with hcovered
  · rw [later.final .correctness (final_of_isComplete hcovered.2.2)]
  · rfl

theorem passage_committedEvidence {s : Stage} {rows : List (Record N)}
    (later : ∀ w' ∈ ws, Extends w w') (final : w.Final s)
    (h : (sessionSystem platform).Passage p (committedEvidence s) c ws (.ok rows) c') :
    rows = w.committed s := by
  obtain ⟨state, c₁, ws₁, wsr, reads, rest, rfl⟩ := System.Passage.bind_ok h
  obtain ⟨w₁, hw₁, rfl⟩ := passage_readFile reads
  rw [(later w₁ (List.mem_append_left _ hw₁)).final s final] at rest
  split_ifs at rest with committed
  · obtain ⟨evidence, c₂, ws₂, ws₃, reads', last, rfl⟩ := System.Passage.bind_ok rest
    obtain ⟨w₂, hw₂, rfl⟩ := passage_readFile reads'
    obtain ⟨hrows, -⟩ := System.Passage.ret_cases last
    obtain rfl := Except.ok.inj hrows
    have hlater := later w₂ (List.mem_append_right _ (List.mem_append_left _ hw₂))
    rw [hlater.final s final, World.committed]
  · obtain ⟨hrows, -⟩ := System.Passage.ret_cases rest
    obtain rfl := Except.ok.inj hrows
    rw [World.committed, committedRows_eq_nil (Bool.eq_false_iff.mpr committed)]

theorem passage_costDue {run : Run N} {due : Option CostDue}
    (later : ∀ w' ∈ ws, Extends w w') (compile : w.Final .compile) (quality : w.Final .quality)
    (correctness : w.Final .correctness)
    (h : (sessionSystem platform).Passage p (costDue platform run) c ws (.ok due) c') :
    w.costDue platform run = .ok due := by
  obtain ⟨file, c₁, ws₁, wsr₁, reads, h₁, rfl⟩ := System.Passage.bind_ok h
  obtain ⟨w₁, hw₁, rfl⟩ := passage_readFile reads
  obtain ⟨rows, c₂, ws₂, wsr₂, parsed, h₂, rfl⟩ := System.Passage.bind_ok h₁
  obtain ⟨evidence₁, c₃, ws₃, wsr₃, first, h₃, rfl⟩ := System.Passage.bind_ok h₂
  obtain ⟨evidence₂, c₄, ws₄, wsr₄, second, h₄, rfl⟩ := System.Passage.bind_ok h₃
  obtain ⟨evidence₃, c₅, ws₅, wsr₅, third, graded, rfl⟩ := System.Passage.bind_ok h₄
  have parsed := passage_ofExcept parsed
  rw [(later w₁ (by simp [hw₁])).final .quality quality] at parsed
  obtain rfl := passage_committedEvidence (fun w' hw' => later w' (by simp [hw'])) compile first
  obtain rfl := passage_committedEvidence (fun w' hw' => later w' (by simp [hw'])) quality second
  obtain rfl := passage_committedEvidence (fun w' hw' => later w' (by simp [hw'])) correctness third
  rw [World.costDue]
  exact bind_eq_ok.mpr ⟨rows, parsed, passage_ofExcept graded⟩

theorem passage_readGated {run : Run N} {gated : List Stage} (hinv : Inv platform w)
    (later : ∀ w' ∈ ws, Extends w w')
    (h : (sessionSystem platform).Passage p (readGated platform run (w.snapshot platform)) c ws
      (.ok gated) c') :
    requiredGated platform run (w.snapshot platform) w = .ok gated := by
  unfold readGated at h
  unfold requiredGated
  split_ifs at h ⊢ with hgate
  · obtain ⟨cost, c₁, ws₁, wsr, reads, last, rfl⟩ := System.Passage.bind_ok h
    obtain ⟨hgated, -⟩ := System.Passage.ret_cases last
    refine bind_eq_ok.mpr ⟨cost, ?_, hgated.symm⟩
    unfold readCost at reads
    unfold requiredCost
    split_ifs at reads ⊢ with hcorrect
    · obtain ⟨due, c₂, ws₂, wsr₂, asked, last', rfl⟩ := System.Passage.bind_ok reads
      obtain ⟨hcost, -⟩ := System.Passage.ret_cases last'
      have hfinal := final_of_isComplete hcorrect
      obtain ⟨hcompile, hquality⟩ := final_before hinv.stage hfinal
      have hdue := passage_costDue (fun w' hw' => later w' (by simp [hw'])) hcompile hquality hfinal
        asked
      exact bind_eq_ok.mpr ⟨due, hdue, hcost.symm⟩
    · exact (System.Passage.ret_cases reads).1.symm
  · exact (System.Passage.ret_cases h).1.symm

/-- What `decide` reads besides its view is of stages that are complete in the view, whose
files do not change any more. -/
theorem passage_decideView {run : Run N} {d : Decision N H} (hinv : Inv platform w)
    (later : ∀ w' ∈ ws, Extends w w')
    (h : (sessionSystem platform).Passage p (decideView platform run (w.snapshot platform)) c ws
      (.ok d) c') :
    decideOn platform run (w.snapshot platform) w = .ok d := by
  obtain ⟨gated, c₁, ws₁, wsr₁, asked, h₁, rfl⟩ := System.Passage.bind_ok h
  obtain ⟨merged, c₂, ws₂, wsr₂, seen, h₂, rfl⟩ := System.Passage.bind_ok h₁
  obtain ⟨foundRows, c₃, ws₃, wsr₃, readsRows, h₃, rfl⟩ := System.Passage.bind_ok h₂
  obtain ⟨rows, c₄, ws₄, wsr₄, someRows, h₄, rfl⟩ := System.Passage.bind_ok h₃
  obtain ⟨foundCosts, c₅, ws₅, wsr₅, readsCosts, h₅, rfl⟩ := System.Passage.bind_ok h₄
  obtain ⟨replayed, c₆, ws₆, wsr₆, someCosts, h₆, rfl⟩ := System.Passage.bind_ok h₅
  obtain ⟨foundCover, c₇, ws₇, wsr₇, readsCover, h₇, rfl⟩ := System.Passage.bind_ok h₆
  obtain ⟨evidence, c₈, ws₈, wsr₈, someCover, graded, rfl⟩ := System.Passage.bind_ok h₇
  obtain ⟨w₃, hw₃, rfl⟩ := passage_readFile readsRows
  obtain ⟨w₅, hw₅, rfl⟩ := passage_readFile readsCosts
  obtain ⟨w₇, hw₇, rfl⟩ := passage_readFile readsCover
  have hrows := passage_ofExcept someRows
  have hreplayed := passage_ofExcept someCosts
  have hcovered := passage_ofExcept someCover
  rw [decidedRows_later (later w₃ (by simp [hw₃]))] at hrows
  rw [replayedEvidence_later (later w₅ (by simp [hw₅]))] at hreplayed
  rw [coveredEvidence_later (later w₇ (by simp [hw₇]))] at hcovered
  have hgated := passage_readGated hinv (fun w' hw' => later w' (by simp [hw'])) asked
  have required : requiredStages platform run (w.snapshot platform) w = .ok ([.compile, .quality]
      ++ gated ++ requiredTests ((w.snapshot platform).states .unit_tests)) :=
    bind_eq_ok.mpr ⟨gated, hgated, rfl⟩
  exact bind_eq_ok.mpr ⟨_, required, bind_eq_ok.mpr ⟨merged, passage_ofExcept seen,
    bind_eq_ok.mpr ⟨rows, hrows, bind_eq_ok.mpr ⟨replayed, hreplayed,
      bind_eq_ok.mpr ⟨evidence, hcovered, passage_ofExcept graded⟩⟩⟩⟩⟩

end Later

end Reading

section Decide
variable [Arith N] [DecidableEq N] [DecidableEq H] {platform : Platform N H} {p : Nat}
  {c c' : Config (World N H) Exn} {ws : List (World N H)} {d : Decision N H}

/-- `decide` under the lifecycle lock: a decision on the session of one moment. -/
theorem decideSession_view {passes : Nat}
    (around : (sessionOutline platform).Around p c) (shared : c.world.shared p = true)
    (h : (sessionSystem platform).Passage p (decideSession platform passes) c ws (.ok d) c') :
    ∃ before w after run, ws ++ [c'.world] = before ++ w :: after ∧
      decideOn platform (effective run) (w.snapshot platform) w = .ok d ∧
      ∃ w₀ ∈ before, w₀.run = some run ∧ (w₀.Final .compile → w.run = some run) := by
  obtain ⟨found, c₁, ws₁, wsr, reads, rest, rfl⟩ := System.Passage.bind_ok h
  obtain ⟨w₀, hw₀, rfl⟩ := passage_readFile reads
  obtain ⟨around₁, -, between₁⟩ := advances_passage around (looks_readFile _) reads
  cases hrun : w₀.run with
  | none =>
      rw [hrun] at rest
      exact absurd rest System.Passage.raise_not_ok
  | some run =>
      rw [hrun] at rest
      obtain ⟨view, c₂, ws₂, wsr₂, taken, rest₂, rfl⟩ := System.Passage.bind_ok rest
      obtain ⟨before, w, after, moment, rfl⟩ := snapshot_view passes around₁ taken
      obtain ⟨hinv, sofar, onward⟩ := advances_moment around₁ (looks_snapshot passes) taken moment
      obtain ⟨around₂, -, -⟩ := advances_passage around₁ (looks_snapshot passes) taken
      obtain ⟨later, hlater⟩ := rest₂.starts
      obtain ⟨decision, c₃, ws₃, wsr₃, decides, rest₃, rfl⟩ := System.Passage.bind_ok rest₂
      obtain ⟨-, -, between₃⟩ := advances_passage around₂ (looks_decideView _ _) decides
      obtain ⟨u, c₄, ws₄, wsr₄, -, last, rfl⟩ := System.Passage.bind_ok rest₃
      obtain ⟨hd, -⟩ := System.Passage.ret_cases last
      obtain rfl := Except.ok.inj hd
      have decided := passage_decideView hinv
        (fun w₁ hw₁ => (onward.trans (between₃ w₁ hw₁).2.1).extend) decides
      refine ⟨ws₁ ++ before, w, after ++ later, run, System.moment_of_part _ moment hlater, decided,
        w₀, List.mem_append_left _ hw₀, hrun, fun hfinal => ?_⟩
      obtain ⟨-, before₀, after₀⟩ := between₁ w₀ hw₀
      rw [(after₀.trans sofar).run (before₀.shared shared) hfinal, hrun]

/-- `decide` is linearizable: among whatever the other processes do, its verdict is that of
one moment of its run. -/
theorem decide_linearizable {passes : Nat}
    (reached : (sessionSystem platform).Reachable c) (free : c.thread p = none)
    (h : (sessionSystem platform).Passage p (runDecide platform p passes) c ws (.ok d) c') :
    ∃ before w after run, ws ++ [c'.world] = before ++ w :: after ∧
      decideOn platform (effective run) (w.snapshot platform) w = .ok d ∧
      ∃ w₀ ∈ before, w₀.run = some run ∧ (w₀.Final .compile → w.run = some run) := by
  obtain ⟨u, c₁, ws₁, wsr, locks, rest, rfl⟩ := System.Passage.bind_ok h
  obtain ⟨cₗ, w, wsₗ, wsₗ', waits, ⟨unlocked, rfl⟩, others, rfl⟩ :=
    System.Passage.fallible_ok locks
  have looks : (Prog.ret () : Prog (World N H) Exn Unit).Looks := trivial
  obtain ⟨around, -, -⟩ :=
    advances_passage (((sessionOutline platform).holds reached).around free) looks waits
  have step : Effect platform p cₗ.world (cₗ.world.takeShared p) := .takeShared _ unlocked
  have own := around.own (step.inv around.inv) fun q hq =>
    (sessionOutline platform).compatible p q _ _ hq.symm around.inv step
  obtain ⟨around₁, advances, -⟩ := advances_passage own looks others
  obtain ⟨result, c₂, ws₂, wsr₂, decides, rest₂, rfl⟩ := System.Passage.bind_ok rest
  obtain ⟨later, hlater⟩ := rest₂.starts
  obtain ⟨u', c₃, ws₃, wsr₃, -, last, rfl⟩ := System.Passage.bind_ok rest₂
  obtain rfl := passage_ofExcept last
  obtain ⟨before, w, after, run, moment, decided, w₀, hw₀, hrun⟩ :=
    decideSession_view around₁
      (advances.shared (by simp [World.takeShared])) decides.attempt_ok
  exact ⟨_, w, after ++ later, run, System.moment_of_part _ moment hlater, decided, w₀,
    List.mem_append_right _ hw₀, hrun⟩

end Decide

/-! ## A decision alone -/

section Alone
variable [Arith N] [DecidableEq N] [DecidableEq H] {platform : Platform N H} {p : Nat} {β : Type}
  {w : World N H} {run : Run N} {d : Decision N H}

omit [Arith N] [DecidableEq N] [DecidableEq H] in
theorem exec_eachStage {start : β} {read : Stage → Prog (World N H) Exn β} {f : Stage → β}
    (h : ∀ s, Exec (read s) w (some (.ok (f s))) w) :
    Exec (eachStage start read) w (some (.ok f)) w := by
  have step : ∀ (found : Stage → β) (s : Stage) (rest : List Stage) (w' : World N H),
      (w' = w ∧ ∀ t, t ∉ s :: rest → found t = f t) →
      ∃ found' w'', (w'' = w ∧ ∀ t, t ∉ rest → found' t = f t) ∧
        Exec ((fun b => Function.update found s b) <$> read s) w' (some (.ok found')) w'' := by
    rintro found s rest w' ⟨rfl, hfound⟩
    refine ⟨Function.update found s (f s), w', ⟨rfl, fun t ht => ?_⟩, (h s).bind (.ret _ w')⟩
    by_cases hts : t = s
    · rw [hts, Function.update_self]
    · rw [Function.update_of_ne hts, hfound t (by simp [hts, ht])]
  obtain ⟨found, w', ⟨rfl, hfound⟩, done⟩ : ∃ found w', (w' = w ∧ ∀ t, t ∉ [] → found t = f t) ∧
      Exec (eachStage start read) w (some (.ok found)) w' :=
    Exec.fold (fun (found : Stage → β) (rest : List Stage) (w' : World N H) =>
        w' = w ∧ ∀ t, t ∉ rest → found t = f t)
      step ⟨rfl, fun s hs => absurd (by cases s <;> decide) hs⟩
  obtain rfl : found = f := funext fun s => hfound s (by simp)
  exact done

omit [Arith N] [DecidableEq N] in
theorem exec_snapshot (passes : Nat) :
    Exec (snapshot platform (passes + 1)) w (some (.ok (w.snapshot platform))) w := by
  have states : Exec (eachStage none readState) w (some (.ok (w.snapshot platform).states)) w :=
    exec_eachStage fun s => .fallible ⟨rfl, rfl⟩
  have evidence : Exec (eachStage [] (snapshotEvidence (w.snapshot platform).states)) w
      (some (.ok w.committed)) w := by
    refine exec_eachStage fun s => ?_
    unfold snapshotEvidence
    split_ifs with committed
    · exact Exec.bind (.fallible ⟨rfl, rfl⟩) (.ret _ w)
    · have uncommitted : isCommitted (w.stages s).state = false := Bool.eq_false_iff.mpr committed
      rw [World.committed, committedRows_eq_nil uncommitted]
      exact .ret [] w
  have current : Exec (eachStage none (stateHash platform)) w
      (some (.ok (w.snapshot platform).hashes)) w :=
    exec_eachStage fun s => .fallible ⟨rfl, rfl⟩
  have same : (STAGE_ORDER.all fun s =>
      ((w.snapshot platform).states s).map platform.sha256 == (w.snapshot platform).hashes s)
        = true :=
    List.all_eq_true.mpr fun s _ => beq_self_eq_true _
  have pass : Exec (snapshotPass platform) w (some (.ok (some (w.snapshot platform)))) w := by
    refine states.bind (evidence.bind (current.bind ?_))
    rw [if_pos same]
    exact .ret _ w
  exact pass.bind (.ret _ w)

omit [DecidableEq N] [DecidableEq H] in
theorem exec_readGated {view : Snapshot N H} {gated : List Stage}
    (h : requiredGated platform run view w = .ok gated) :
    Exec (readGated platform run view) w (some (.ok gated)) w := by
  unfold requiredGated at h
  unfold readGated
  split_ifs at h ⊢
  · obtain ⟨cost, hcost, h⟩ := bind_eq_ok.mp h
    cases h
    refine Exec.bind (a := cost) ?_ (.ret _ w)
    unfold requiredCost at hcost
    unfold readCost
    split_ifs at hcost ⊢
    · obtain ⟨due, hdue, hcost⟩ := bind_eq_ok.mp hcost
      cases hcost
      exact (exec_costDue hdue).bind (.ret _ w)
    · cases hcost
      exact .ret _ w
  · cases h
    exact .ret _ w

omit [DecidableEq H] in
theorem exec_decideView {view : Snapshot N H} (h : decideOn platform run view w = .ok d) :
    Exec (decideView platform run view) w (some (.ok d)) w := by
  obtain ⟨required, hrequired, h⟩ := bind_eq_ok.mp h
  obtain ⟨merged, hmerged, h⟩ := bind_eq_ok.mp h
  obtain ⟨rows, hrows, h⟩ := bind_eq_ok.mp h
  obtain ⟨replayed, hreplayed, h⟩ := bind_eq_ok.mp h
  obtain ⟨evidence, hevidence, h⟩ := bind_eq_ok.mp h
  obtain ⟨gated, hgated, hrequired⟩ := bind_eq_ok.mp hrequired
  cases hrequired
  exact (exec_readGated hgated).bind ((exec_ofExcept hmerged).bind
    ((Exec.fallible ⟨rfl, rfl⟩).bind ((exec_ofExcept hrows).bind
    ((Exec.fallible ⟨rfl, rfl⟩).bind ((exec_ofExcept hreplayed).bind
    ((Exec.fallible ⟨rfl, rfl⟩).bind ((exec_ofExcept hevidence).bind (exec_ofExcept h))))))))

/-- Without the others `decide` returns the verdict of the session as it is. -/
theorem exec_runDecide (found : w.run = some run) (free : w.exclusive = none)
    (decided : decideOn platform (effective run) (w.snapshot platform) w = .ok d)
    (passes : Nat) :
    ∃ w', Exec (runDecide platform p (passes + 1)) w (some (.ok d)) w' := by
  have graded : decideOn platform (effective run) ((w.takeShared p).snapshot platform)
      (w.takeShared p) = .ok d := decided
  have body : ∃ w', Exec (decideSession platform (passes + 1)) (w.takeShared p) (some (.ok d)) w' :=
    ⟨_, Exec.bind (a := some run) (.fallible ⟨found.symm, rfl⟩)
      (Exec.bind (exec_snapshot passes) ((exec_decideView graded).bind
        (Exec.bind (a := ()) (.fallible rfl) (.ret d _))))⟩
  obtain ⟨w', body⟩ := body
  exact ⟨_, Exec.bind (a := ()) (.fallible ⟨free, rfl⟩) (body.attempt.bind
    (Exec.bind (a := ()) (.modify _) (.ret d _)))⟩

end Alone

/-! ## A session that has compiled -/

section Sample
attribute [local instance] integerArith
variable {w : World Int StageState}

def compiledState : StageState := { status := .complete, attempts := 1 }

/-- The view of a session that has compiled and not measured. -/
def compiledView : Snapshot Int StageState where
  states
    | .compile => some compiledState
    | _ => none
  hashes
    | .compile => some compiledState
    | _ => none
  evidence
    | .compile => [roundtripRecord]
    | _ => []

theorem World.Resting.snapshot (h : w.Resting canaryRun compiledFiles) :
    w.snapshot (Platform.unary sampleSetting) = compiledView := by
  have states : (fun s => (w.stages s).state) = compiledView.states := by
    funext s
    rw [h.stages]
    cases s <;> rfl
  have evidence : w.committed = compiledView.evidence := by
    funext s
    rw [World.committed, h.stages]
    cases s <;> rfl
  have hashes : (fun s => (w.stages s).state.map (Platform.unary sampleSetting).sha256)
      = compiledView.hashes := by
    funext s
    rw [h.stages]
    cases s <;> rfl
  rw [World.snapshot, states, evidence, hashes]

theorem decided_compiled (h : w.Resting canaryRun compiledFiles) :
    ∃ d, decideOn (Platform.unary sampleSetting) (effective canaryRun)
      (w.snapshot (Platform.unary sampleSetting)) w = .ok d := by
  rw [h.snapshot]
  have graded : ((evaluateQuality (effective canaryRun).profile.manifest
      (effective canaryRun).profile.policy [] [roundtripRecord]).bind fun out =>
        (guardedPanels (effective canaryRun)).bind fun panels =>
          verdict out.1 (requiredIds (effective canaryRun) out.2.1 panels
            [.compile, .quality])).isOk = true := by
    decide +kernel
  obtain ⟨status, hstatus⟩ := isOk_iff.mp graded
  obtain ⟨out, hout, hpanels⟩ := bind_eq_ok.mp hstatus
  obtain ⟨panels, hpanels, hverdict⟩ := bind_eq_ok.mp hpanels
  exact ⟨_, bind_eq_ok.mpr ⟨_, rfl, bind_eq_ok.mpr ⟨_, rfl, bind_eq_ok.mpr ⟨_, rfl,
    bind_eq_ok.mpr ⟨_, rfl, bind_eq_ok.mpr ⟨_, rfl, bind_eq_ok.mpr ⟨_, hout,
      bind_eq_ok.mpr ⟨_, hpanels, bind_eq_ok.mpr ⟨_, hverdict, rfl⟩⟩⟩⟩⟩⟩⟩⟩⟩

/-- A process decides a session that has compiled beside one that begins its quality stage. -/
theorem decide_linearizable_compiled :
    ∃ (c c' : Config (World Int StageState) Exn) (ws : List (World Int StageState))
      (d : Decision Int StageState),
      (sessionSystem (Platform.unary sampleSetting)).Passage 0
        (runDecide (Platform.unary sampleSetting) 0 1) c ws (.ok d) c' ∧
      ∃ before w after run, ws ++ [c'.world] = before ++ w :: after ∧
        decideOn (Platform.unary sampleSetting) (effective run)
          (w.snapshot (Platform.unary sampleSetting)) w = .ok d ∧
        ∃ w₀ ∈ before, w₀.run = some run ∧ (w₀.Final .compile → w.run = some run) := by
  obtain ⟨w, reached, hrest, -⟩ := reachable_compile (Platform.unary sampleSetting) canaryInputs
    [] [] ⟨"a", some "k"⟩ ⟨"a", none⟩
  obtain ⟨d, decided⟩ := decided_compiled hrest
  obtain ⟨w', alone⟩ := exec_runDecide (p := 0) hrest.found hrest.exclusive decided 0
  have begins := System.Step.start (S := sessionSystem (Platform.unary sampleSetting))
    (c := ⟨w, fun _ => none⟩) 1 _ rfl ⟨.stage .quality canaryInputs.harness, rfl⟩
  obtain ⟨ws, passage⟩ := System.Exec.passage alone 0 _
  have run := System.Passage.beside begins rfl passage
  exact ⟨_, _, _, d, run, decide_linearizable reached rfl run⟩

end Sample

end TranspileBench.Coordinator
