import TranspileBench.Evaluator.Verdict
import TranspileBench.Metrics.Replay
import TranspileBench.Lib.Keyed
import Mathlib.Data.Rat.Floor
import Mathlib.Tactic.Linarith

/-!
C5: one pass over a schedule with the last end of every wire, against what it is for:
on each wire by itself the operations are in order, and on each qubit they leave no gap.
-/
namespace TranspileBench.Verifier
open Metrics

/-- A number of a schedule, or an infinity or NaN. -/
inductive Number
  | finite (value : ℚ)
  | nonfinite
  deriving DecidableEq

/-- Python's `round`: halves go to the even integer. -/
def roundHalfEven (x : ℚ) : Int :=
  let rest := x - ⌊x⌋
  if rest < 1 / 2 ∨ (rest = 1 / 2 ∧ ⌊x⌋ % 2 = 0) then ⌊x⌋ else ⌊x⌋ + 1

/-- Python's `%`. -/
def modulo (x y : ℚ) : ℚ := x - y * ⌊x / y⌋

/-- Python's `/`. -/
def divide (x y : ℚ) : Except Exn ℚ :=
  if y = 0 then .error (.other "ZeroDivisionError") else .ok (x / y)

structure TimingConstraints where
  acquire_alignment : ℚ
  pulse_alignment : ℚ
  granularity : ℚ
  min_length : ℚ
  acquire_pos : 0 < acquire_alignment
  pulse_pos : 0 < pulse_alignment
  granularity_pos : 0 < granularity

/-- `properties` of an instruction, on one tuple of qubits. -/
structure Property where
  qargs : Option (List Int)
  duration : Option ℚ

structure TimedInstruction where
  name : String
  properties : List Property

/-- What C5 reads of a target. -/
structure TimedTarget where
  dt : Option ℚ
  timing_constraints : TimingConstraints
  instructions : List TimedInstruction

/-- `support.get(name, {}).get(tuple(qs))`: a later entry replaces an earlier one. -/
def TimedTarget.support (target : TimedTarget) (name : String) (qs : List Int) :
    Option Property :=
  (target.instructions.reverse.find? (·.name == name)).bind fun spec =>
    spec.properties.reverse.find? (·.qargs == some qs)

/-- The rounded duration in `dt`, if the target fixes one. -/
def TimedTarget.fixedDuration (target : TimedTarget) {Value : Type} (op : Operation Value) :
    Option (Except Exn Int) :=
  match (target.support op.name op.qubits).bind (·.duration), target.dt with
  | some duration, some dt => some ((divide duration dt).map roundHalfEven)
  | _, _ => none

/-- The texts of the checks that failed. -/
def faults (checks : List (Bool × String)) : List String :=
  (checks.filter (·.1)).map (·.2)

structure Ends where
  errors : List String
  ends : AList fun _ : Wire => ℚ

/-- `ends.get(wire, 0)`. -/
def Ends.get (st : Ends) (w : Wire) : ℚ := (st.ends.lookup w).getD 0

section Check
variable {Value : Type} (target : TimedTarget)

def alignment (name : String) : ℚ :=
  if name = "measure" then target.timing_constraints.acquire_alignment
  else target.timing_constraints.pulse_alignment

/-- The checks of one entry against the ends before it, in their order. -/
def checkEntry (st : Ends) (op : Operation Value) (start duration : ℚ) : List String :=
  let constraints := target.timing_constraints
  faults [
    (decide (start < 0 ∨ duration < 0), "Negative start or duration"),
    (op.wires.any fun w => decide (start < st.get w), "Overlap or dependency violation"),
    ((op.qubits.map Wire.q).any fun w => decide (st.get w < start), "Idle gap without delay"),
    (!(["barrier", "delay"].contains op.name) && modulo start (alignment target op.name) != 0,
      "Alignment violation"),
    (!(["barrier", "delay", "measure"].contains op.name) && duration != 0
        && (modulo duration constraints.granularity != 0
          || decide (duration < constraints.min_length)),
      "Pulse duration violates granularity or minimum length")]

/-- How long the operation occupies its wires, and whether its duration differs. -/
def occupied (op : Operation Value) (duration : ℚ) : Except Exn (ℚ × List String) :=
  match target.fixedDuration op with
  | none => .ok (duration, [])
  | some fixed => do
      let fixed ← fixed
      pure (fixed, faults [(decide (1 / 10 ^ 8 < |duration - (fixed : ℚ)|),
        "Duration input differs from target")])

def scheduleStep (st : Ends) : Operation Value × Number × Number → Except Exn Ends
  | (op, .finite start, .finite duration) => do
      let (length, differs) ← occupied target op duration
      pure { errors := st.errors ++ checkEntry target st op start duration ++ differs
             ends := Keyed.assign st.ends op.wires (start + length) }
  | _ => .ok { st with errors := st.errors ++ ["Non-finite schedule value"] }

structure ScheduleResult where
  status : Status
  oracle : Option String
  errors : List String
  makespan : Option ℚ

def verifySchedule (operations : List (Operation Value)) (starts durations : List Number) :
    Except Exn ScheduleResult :=
  if operations.length ≠ starts.length ∨ starts.length ≠ durations.length then
    .ok ⟨.mismatch, none, ["Missing schedule entries"], none⟩
  else do
    let st ← (operations.zip (starts.zip durations)).foldlM (scheduleStep target) ⟨[], ∅⟩
    pure { status := if st.errors ≠ [] then .mismatch else .verified
           oracle := some "C5"
           errors := st.errors
           makespan := some ((st.ends.entries.map (·.2)).max?.getD 0) }

end Check

/-! ## What the pass is for -/

structure Entry (Value : Type) where
  op : Operation Value
  start : ℚ
  duration : ℚ

section Legal
variable {Value : Type} (target : TimedTarget)

def scheduleOf (operations : List (Operation Value)) (starts durations : List ℚ) :
    List (Entry Value) :=
  (operations.zip (starts.zip durations)).map fun (op, start, duration) => ⟨op, start, duration⟩

/-- An operation ends after the target's duration where the target fixes one, else after
its own. -/
def Entry.finish (e : Entry Value) : ℚ :=
  match target.fixedDuration e.op with
  | some (.ok fixed) => e.start + fixed
  | _ => e.start + e.duration

def Entry.span (e : Entry Value) : ℚ × ℚ := (e.start, e.finish target)

/-- `x` is a multiple of `y`. -/
def Multiple (x y : ℚ) : Prop := ∃ k : Int, x = k * y

/-- The spans of the operations on a wire. -/
def onWire (w : Wire) (schedule : List (Entry Value)) : List (ℚ × ℚ) :=
  Keyed.track (fun e : Entry Value => e.op.wires) (Entry.span target) w schedule

structure Legal (schedule : List (Entry Value)) : Prop where
  nonneg : ∀ e ∈ schedule, 0 ≤ e.start ∧ 0 ≤ e.duration
  /-- On a qubit every operation starts when the one before it ends, the first at zero. -/
  tiled : ∀ q, Keyed.Follows (fun t start => start = t) 0 (onWire target (.q q) schedule)
  /-- On a classical bit no operation starts before the one before it ends. -/
  ordered : ∀ c, Keyed.Follows (fun t start => t ≤ start) 0 (onWire target (.c c) schedule)
  aligned : ∀ e ∈ schedule, e.op.name ≠ "barrier" → e.op.name ≠ "delay" →
    Multiple e.start (alignment target e.op.name)
  pulses : ∀ e ∈ schedule, e.op.name ≠ "barrier" → e.op.name ≠ "delay" → e.op.name ≠ "measure" →
    e.duration ≠ 0 → Multiple e.duration target.timing_constraints.granularity ∧
      target.timing_constraints.min_length ≤ e.duration
  /-- A duration that the target fixes is the target's. -/
  fixed : ∀ e ∈ schedule, ∀ duration, target.fixedDuration e.op = some duration →
    ∃ d, duration = .ok d ∧ |e.duration - (d : ℚ)| ≤ 1 / 10 ^ 8

end Legal

theorem faults_eq_nil {checks : List (Bool × String)} :
    faults checks = [] ↔ ∀ check ∈ checks, check.1 = false := by
  simp [faults]

theorem modulo_eq_zero {x y : ℚ} (hy : 0 < y) : modulo x y = 0 ↔ Multiple x y := by
  constructor
  · intro h
    exact ⟨⌊x / y⌋, by rw [modulo] at h; linarith⟩
  · rintro ⟨k, rfl⟩
    rw [modulo, mul_div_cancel_right₀ _ hy.ne', Int.floor_intCast]
    ring

theorem alignment_pos (target : TimedTarget) (name : String) : 0 < alignment target name := by
  unfold alignment
  split
  · exact target.timing_constraints.acquire_pos
  · exact target.timing_constraints.pulse_pos

/-- How a start follows the last end on a wire: only a qubit's gap needs a delay. -/
def After : Wire → ℚ → ℚ → Prop
  | .q _, t, start => start = t
  | .c _, t, start => t ≤ start

section Pass
variable {Value : Type} {target : TimedTarget} {st st' : Ends} {e : Entry Value}
  {schedule : List (Entry Value)}

/-- What is legal of an operation by itself. -/
structure Fits (target : TimedTarget) (e : Entry Value) : Prop where
  nonneg : 0 ≤ e.start ∧ 0 ≤ e.duration
  aligned : e.op.name ≠ "barrier" → e.op.name ≠ "delay" →
    Multiple e.start (alignment target e.op.name)
  pulses : e.op.name ≠ "barrier" → e.op.name ≠ "delay" → e.op.name ≠ "measure" →
    e.duration ≠ 0 → Multiple e.duration target.timing_constraints.granularity ∧
      target.timing_constraints.min_length ≤ e.duration
  fixed : ∀ duration, target.fixedDuration e.op = some duration →
    ∃ d, duration = .ok d ∧ |e.duration - (d : ℚ)| ≤ 1 / 10 ^ 8

/-- The two wire checks together are exactness on qubits and order on bits. -/
theorem wires_checked :
    ((e.op.wires.any fun w => decide (e.start < st.get w)) = false ∧
      ((e.op.qubits.map Wire.q).any fun w => decide (st.get w < e.start)) = false) ↔
    ∀ w ∈ e.op.wires, After w (st.get w) e.start := by
  simp only [List.any_eq_false, decide_eq_true_eq, not_lt, Operation.wires, List.mem_append]
  constructor
  · rintro ⟨late, exact_⟩ w (hw | hw)
    · obtain ⟨q, hq, rfl⟩ := List.mem_map.mp hw
      exact le_antisymm (exact_ _ hw) (late _ (.inl hw))
    · obtain ⟨c, hc, rfl⟩ := List.mem_map.mp hw
      exact late _ (.inr hw)
  · intro h
    refine ⟨fun w hw => ?_, fun w hw => ?_⟩
    · rcases hw with hw | hw
      · obtain ⟨q, hq, rfl⟩ := List.mem_map.mp hw
        exact (h _ (.inl hw)).ge
      · obtain ⟨c, hc, rfl⟩ := List.mem_map.mp hw
        exact h _ (.inr hw)
    · obtain ⟨q, hq, rfl⟩ := List.mem_map.mp hw
      exact (h _ (.inl hw)).le

theorem checkEntry_eq_nil :
    checkEntry target st e.op e.start e.duration = [] ↔
      (0 ≤ e.start ∧ 0 ≤ e.duration) ∧ (∀ w ∈ e.op.wires, After w (st.get w) e.start) ∧
      (e.op.name ≠ "barrier" → e.op.name ≠ "delay" →
        Multiple e.start (alignment target e.op.name)) ∧
      (e.op.name ≠ "barrier" → e.op.name ≠ "delay" → e.op.name ≠ "measure" → e.duration ≠ 0 →
        Multiple e.duration target.timing_constraints.granularity ∧
          target.timing_constraints.min_length ≤ e.duration) := by
  rw [← wires_checked, ← modulo_eq_zero (alignment_pos target e.op.name),
    ← modulo_eq_zero target.timing_constraints.granularity_pos]
  simp only [checkEntry, faults_eq_nil, List.forall_mem_cons, List.not_mem_nil, false_implies,
    implies_true, and_true]
  grind

/-- What an entry leaves on the wires, and which errors it adds. -/
theorem scheduleStep_ok (st : Ends) {length : ℚ} {differs : List String}
    (h : occupied target e.op e.duration = .ok (length, differs)) :
    ∃ st', scheduleStep target st (e.op, .finite e.start, .finite e.duration) = .ok st' ∧
      st'.errors = st.errors ++ checkEntry target st e.op e.start e.duration ++ differs ∧
      st'.get = Keyed.occupy (fun e : Entry Value => e.op.wires)
        (fun e => (e.start, e.start + length)) st.get e := by
  refine ⟨_, by rw [scheduleStep, h]; rfl, rfl, ?_⟩
  funext w
  exact Keyed.getD_assign st.ends e.op.wires (e.start + length) 0 w

theorem occupied_cases (target : TimedTarget) (e : Entry Value) :
    (target.fixedDuration e.op = none ∧ occupied target e.op e.duration = .ok (e.duration, [])) ∨
    (∃ fault, target.fixedDuration e.op = some (.error fault) ∧
      occupied target e.op e.duration = .error fault) ∨
    ∃ d differs, target.fixedDuration e.op = some (.ok d) ∧
      occupied target e.op e.duration = .ok ((d : ℚ), differs) ∧
      (differs = [] ↔ |e.duration - (d : ℚ)| ≤ 1 / 10 ^ 8) := by
  cases hfixed : target.fixedDuration e.op with
  | none => exact .inl ⟨rfl, by rw [occupied, hfixed]⟩
  | some fixed =>
      cases fixed with
      | error fault => exact .inr (.inl ⟨fault, rfl, by rw [occupied, hfixed]; rfl⟩)
      | ok d =>
          exact .inr (.inr ⟨d, _, rfl, by rw [occupied, hfixed]; rfl, by simp [faults_eq_nil]⟩)

/-- The last ends behind an entry. -/
theorem scheduleStep_get
    (h : scheduleStep target st (e.op, .finite e.start, .finite e.duration) = .ok st') :
    st'.get = Keyed.occupy (fun e : Entry Value => e.op.wires) (Entry.span target) st.get e := by
  have ends : ∀ {length : ℚ} {differs : List String},
      occupied target e.op e.duration = .ok (length, differs) → e.finish target = e.start + length →
      st'.get = Keyed.occupy (fun e : Entry Value => e.op.wires) (Entry.span target)
        st.get e := by
    intro length differs hocc hfinish
    obtain ⟨st'', hst'', -, hget⟩ := scheduleStep_ok st hocc
    obtain rfl : st' = st'' := Except.ok.inj (h.symm.trans hst'')
    rw [hget]
    funext w
    simp only [Keyed.occupy, Entry.span, hfinish]
  rcases occupied_cases target e with
    ⟨hnone, hocc⟩ | ⟨fault, -, hocc⟩ | ⟨d, differs, hd, hocc, -⟩
  · exact ends hocc (by simp [Entry.finish, hnone])
  · rw [scheduleStep, hocc] at h
    cases h
  · exact ends hocc (by simp [Entry.finish, hd])

/-- An entry passes the checks when it fits by itself and after the last ends of its wires. -/
theorem scheduleStep_fits (target : TimedTarget) (st : Ends) (e : Entry Value) :
    (∃ st', scheduleStep target st (e.op, .finite e.start, .finite e.duration) = .ok st' ∧
      st'.errors = []) ↔
    st.errors = [] ∧ Fits target e ∧ ∀ w ∈ e.op.wires, After w (st.get w) e.start := by
  have fits : ∀ {length : ℚ} {differs : List String},
      occupied target e.op e.duration = .ok (length, differs) →
      (differs = [] ↔ ∀ duration, target.fixedDuration e.op = some duration →
        ∃ d, duration = .ok d ∧ |e.duration - (d : ℚ)| ≤ 1 / 10 ^ 8) →
      ((∃ st', scheduleStep target st (e.op, .finite e.start, .finite e.duration) = .ok st' ∧
        st'.errors = []) ↔
      st.errors = [] ∧ Fits target e ∧ ∀ w ∈ e.op.wires, After w (st.get w) e.start) := by
    intro length differs hocc hdiffers
    obtain ⟨st', hst', herrors, -⟩ := scheduleStep_ok st hocc
    have hresult : (∃ st', scheduleStep target st (e.op, .finite e.start, .finite e.duration) =
        .ok st' ∧ st'.errors = []) ↔ st'.errors = [] := by simp [hst']
    rw [hresult, herrors, List.append_eq_nil_iff, List.append_eq_nil_iff, checkEntry_eq_nil,
      hdiffers]
    constructor
    · rintro ⟨⟨hst, hnonneg, hafter, haligned, hpulses⟩, hfixed⟩
      exact ⟨hst, ⟨hnonneg, haligned, hpulses, hfixed⟩, hafter⟩
    · rintro ⟨hst, ⟨hnonneg, haligned, hpulses, hfixed⟩, hafter⟩
      exact ⟨⟨hst, hnonneg, hafter, haligned, hpulses⟩, hfixed⟩
  rcases occupied_cases target e with
    ⟨hnone, hocc⟩ | ⟨fault, hfault, hocc⟩ | ⟨d, differs, hd, hocc, hdiffers⟩
  · exact fits hocc (by simp [hnone])
  · constructor
    · rintro ⟨st', hst', -⟩
      rw [scheduleStep, hocc] at hst'
      cases hst'
    · rintro ⟨-, hfits, -⟩
      obtain ⟨d, hd, -⟩ := hfits.fixed _ hfault
      cases hd
  · exact fits hocc (by rw [hdiffers]; simp [hd])

/-- The row of an entry, as the lists of the call give it. -/
def Entry.row (e : Entry Value) : Operation Value × Number × Number :=
  (e.op, .finite e.start, .finite e.duration)

/-- The whole pass, from any state: every entry fits, and the pass over the wires succeeds. -/
theorem scheduleLoop_fits :
    (∃ st', (schedule.map Entry.row).foldlM (scheduleStep target) st = .ok st' ∧
      st'.errors = []) ↔
    st.errors = [] ∧ (∀ e ∈ schedule, Fits target e) ∧
      Keyed.Passes (fun e : Entry Value => e.op.wires) (Entry.span target) After st.get
        schedule := by
  induction schedule generalizing st with
  | nil => simp [Keyed.Passes, pure, Except.pure]
  | cons e schedule ih =>
      have hstep := scheduleStep_fits target st e
      rw [List.map_cons, List.foldlM_cons, List.forall_mem_cons, Keyed.Passes]
      constructor
      · rintro ⟨st', hst', herrors⟩
        cases hst₁ : scheduleStep target st e.row with
        | error fault => rw [hst₁] at hst'; cases hst'
        | ok st₁ =>
            rw [hst₁] at hst'
            obtain ⟨hnil, hfits, hpasses⟩ := ih.mp ⟨st', hst', herrors⟩
            obtain ⟨hst, hfit, hafter⟩ := hstep.mp ⟨st₁, hst₁, hnil⟩
            rw [scheduleStep_get hst₁] at hpasses
            exact ⟨hst, ⟨hfit, hfits⟩, hafter, hpasses⟩
      · rintro ⟨hst, ⟨hfit, hfits⟩, hafter, hpasses⟩
        obtain ⟨st₁, hst₁, hnil⟩ := hstep.mpr ⟨hst, hfit, hafter⟩
        rw [← scheduleStep_get hst₁] at hpasses
        obtain ⟨st', hst', herrors⟩ := ih.mpr ⟨hnil, hfits, hpasses⟩
        exact ⟨st', by rw [Entry.row, hst₁]; exact hst', herrors⟩

theorem legal_iff : Legal target schedule ↔ (∀ e ∈ schedule, Fits target e) ∧
    ∀ w, Keyed.Follows (After w) 0 (onWire target w schedule) := by
  constructor
  · intro h
    refine ⟨fun e he => ⟨h.nonneg e he, h.aligned e he, h.pulses e he, h.fixed e he⟩, fun w => ?_⟩
    cases w with
    | q q => exact h.tiled q
    | c c => exact h.ordered c
  · rintro ⟨hfits, hfollows⟩
    exact ⟨fun e he => (hfits e he).nonneg, fun q => hfollows (.q q), fun c => hfollows (.c c),
      fun e he => (hfits e he).aligned, fun e he => (hfits e he).pulses,
      fun e he => (hfits e he).fixed⟩

theorem verifySchedule_rows (target : TimedTarget) (schedule : List (Entry Value)) :
    (∃ result, verifySchedule target (schedule.map (·.op))
        ((schedule.map (·.start)).map .finite) ((schedule.map (·.duration)).map .finite) =
          .ok result ∧ result.status = .verified) ↔
    ∃ st', (schedule.map Entry.row).foldlM (scheduleStep target) ⟨[], ∅⟩ = .ok st' ∧
      st'.errors = [] := by
  have hzip : (schedule.map (·.op)).zip (((schedule.map (·.start)).map Number.finite).zip
      ((schedule.map (·.duration)).map Number.finite)) = schedule.map Entry.row := by
    induction schedule with
    | nil => rfl
    | cons e schedule ih => simp only [List.map_cons, List.zip_cons_cons, ih, Entry.row]
  rw [verifySchedule, if_neg (by simp), hzip]
  cases (schedule.map Entry.row).foldlM (scheduleStep target) ⟨[], ∅⟩ with
  | error fault => simp [bind, Except.bind]
  | ok st => by_cases herrors : st.errors
      = [] <;> simp [bind, Except.bind, pure, Except.pure, herrors]

theorem scheduleOf_lists {operations : List (Operation Value)} {starts durations : List ℚ}
    (hstarts : starts.length = operations.length)
    (hdurations : durations.length = operations.length) :
    (scheduleOf operations starts durations).map (·.op) = operations ∧
      (scheduleOf operations starts durations).map (·.start) = starts ∧
      (scheduleOf operations starts durations).map (·.duration) = durations := by
  have hnumbers : (starts.zip durations).length = operations.length := by
    rw [List.length_zip]
    omega
  have hsnd : (operations.zip (starts.zip durations)).map Prod.snd = starts.zip durations :=
    List.map_snd_zip hnumbers.le
  have hstart := congrArg (List.map Prod.fst) hsnd
  have hduration := congrArg (List.map Prod.snd) hsnd
  rw [List.map_map, List.map_fst_zip (by omega)] at hstart
  rw [List.map_map, List.map_snd_zip (by omega)] at hduration
  simp only [scheduleOf, List.map_map]
  exact ⟨List.map_fst_zip hnumbers.ge, hstart, hduration⟩

/-- C5 accepts exactly the legal schedules. -/
theorem verifySchedule_verified_iff (target : TimedTarget) (operations : List (Operation Value))
    (starts durations : List ℚ) (hstarts : starts.length = operations.length)
    (hdurations : durations.length = operations.length) :
    (∃ result, verifySchedule target operations (starts.map .finite) (durations.map .finite) =
        .ok result ∧ result.status = .verified) ↔
      Legal target (scheduleOf operations starts durations) := by
  obtain ⟨hops, hstart, hduration⟩ := scheduleOf_lists hstarts hdurations
  have hrows := verifySchedule_rows target (scheduleOf operations starts durations)
  rw [hops, hstart, hduration] at hrows
  rw [hrows, scheduleLoop_fits, legal_iff, Keyed.passes_iff]
  exact and_iff_right rfl

end Pass

/-- One qubit, one gate of ten units. -/
def sampleTarget : TimedTarget where
  dt := some 1
  timing_constraints := ⟨1, 1, 1, 1, by decide, by decide, by decide⟩
  instructions := [⟨"x", [⟨some [0], some 10⟩]⟩]

def sampleOperations : List (Operation Unit) :=
  [⟨"x", [0], [], [], none⟩, ⟨"delay", [0], [], [()], none⟩, ⟨"x", [0], [], [], none⟩]

theorem sample_legal :
    Legal sampleTarget (scheduleOf sampleOperations [0, 10, 20] [10, 10, 10]) := by
  refine (verifySchedule_verified_iff sampleTarget sampleOperations _ _ rfl rfl).mp ⟨_, rfl, ?_⟩
  decide +kernel

/-- An unexplained gap is refused. -/
example : (verifySchedule sampleTarget (sampleOperations.eraseIdx 1)
    [.finite 0, .finite 20] [.finite 10, .finite 10]).map (·.errors) =
      .ok ["Idle gap without delay"] := by
  decide +kernel

end TranspileBench.Verifier
