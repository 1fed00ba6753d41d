import TranspileBench.Evaluator.Grading
import TranspileBench.Lsf.EvidenceSound
import TranspileBench.Lsf.WorkerHooks

/-!
One worker process under the monitor's hooks. Its record is admissible exactly when no
window was left open for longer than the validator allows, which depends on nothing but
when the hooks were called.
-/
namespace TranspileBench.Lsf
open Fallible (bind_eq_ok)

/-- A window as the monitor records it: its counters are consistent and, when it is
decisive, they pass check A. -/
structure Produced (t : Thresholds) (w : Window) (c : Counters) : Prop where
  counters : w.counters = some c
  positive : 0 < c.seconds
  length : c.seconds = c.stop - c.start
  busy : 0 ≤ c.busy_s
  cpu : 0 ≤ c.worker_cpu_s
  foreign : c.foreign_s = c.busy_s - c.worker_cpu_s
  clean : w.decisive = true → (checkA c.foreign_s c.seconds t).1 = true

/-- Recorded windows that run from one reading of the clock to another. -/
def Chained (t : Thresholds) : ℚ → ℚ → List Window → Prop
  | a, b, [] => a = b
  | a, b, w :: rest => ∃ c, Produced t w c ∧ c.start = a ∧ Chained t c.stop b rest

theorem Chained.append {t : Thresholds} {a b : ℚ} {ws : List Window} (h : Chained t a b ws)
    {w : Window} {c : Counters} (hw : Produced t w c) (hstart : c.start = b) :
    Chained t a c.stop (ws ++ [w]) := by
  induction ws generalizing a with
  | nil =>
      have hab : a = b := h
      exact ⟨c, hw, hstart.trans hab.symm, rfl⟩
  | cons x rest ih =>
      obtain ⟨d, hd, ha, hrest⟩ := h
      exact ⟨d, hd, ha, ih hrest⟩

/-- When windows end. -/
def stops (ws : List Window) : List ℚ := ws.filterMap (·.stop)

/-- Recorded windows are admissible when none is too long. -/
theorem Chained.admissible_iff {t : Thresholds} {a b : ℚ} {ws : List Window}
    (h : Chained t a b ws) {previous : Option Counters} (hp : ∀ p ∈ previous, p.stop = a) :
    WindowsAdmissible t previous ws ↔
      (a :: stops ws).IsChain fun x y => y - x ≤ t.window_s * 2 + 1 := by
  induction ws generalizing a previous with
  | nil => simp [WindowsAdmissible, stops]
  | cons w rest ih =>
      obtain ⟨c, hc, rfl, hrest⟩ := h
      have hstop : w.stop = some c.stop := (Window.span_eq hc.counters).2.1
      have hmeets : ∀ p ∈ previous, |c.start - p.stop| ≤ TOLERANCE_S := by
        intro p hmem
        simp [hp p hmem, TOLERANCE_S]
      have hcounters : c.Admissible t previous w.decisive ↔ c.seconds ≤ t.window_s * 2 + 1 :=
        ⟨fun hok => hok.bounded, fun hbounded => {
          positive := hc.positive
          busy := hc.busy
          cpu := hc.cpu
          meets := hmeets
          length := by simp [hc.length, TOLERANCE_S]
          foreign := by simp [hc.foreign, TOLERANCE_S]
          bounded := hbounded
          clean := hc.clean }⟩
      have hnext : ∀ p ∈ some c, p.stop = c.stop := by
        rintro p ⟨⟩
        rfl
      simp only [WindowsAdmissible, hc.counters, Option.some.injEq, exists_eq_left', hcounters,
        ih hrest hnext, stops, List.filterMap_cons, hstop, List.isChain_cons_cons, hc.length]

theorem Chained.of_lt {t : Thresholds} {a b : ℚ} {ws : List Window} (h : Chained t a b ws)
    (hlt : a < b) : ws ≠ [] := by
  rintro rfl
  exact absurd h hlt.ne

theorem Chained.head {t : Thresholds} {a b : ℚ} {ws : List Window} (h : Chained t a b ws)
    (hne : ws ≠ []) : ∃ w, ws.head? = some w ∧ w.start = some a := by
  cases ws with
  | nil => exact absurd rfl hne
  | cons w rest =>
      obtain ⟨c, hc, rfl, -⟩ := h
      exact ⟨w, rfl, (Window.span_eq hc.counters).1⟩

theorem Chained.last {t : Thresholds} {a b : ℚ} {ws : List Window} (h : Chained t a b ws)
    (hne : ws ≠ []) : ∃ w, ws.getLast? = some w ∧ w.stop = some b := by
  induction ws generalizing a with
  | nil => exact absurd rfl hne
  | cons w rest ih =>
      obtain ⟨c, hc, -, hrest⟩ := h
      cases rest with
      | nil =>
          have hstop : c.stop = b := hrest
          exact ⟨w, rfl, hstop ▸ (Window.span_eq hc.counters).2.1⟩
      | cons w' rest =>
          obtain ⟨x, hx, hstop⟩ := ih hrest (by simp)
          exact ⟨x, by simpa using hx, hstop⟩

theorem Chained.meets {t : Thresholds} {a b : ℚ} {ws : List Window} (h : Chained t a b ws) :
    ws.IsChain fun x y => x.stop = y.start := by
  induction ws generalizing a with
  | nil => exact .nil
  | cons w rest ih =>
      obtain ⟨c, hc, -, hrest⟩ := h
      cases rest with
      | nil => exact .singleton _
      | cons w' rest =>
          obtain ⟨c', hc', hstart, -⟩ := id hrest
          refine List.isChain_cons_cons.mpr ⟨?_, ih hrest⟩
          rw [(Window.span_eq hc.counters).2.1, (Window.span_eq hc'.counters).1, hstart]

/-- An interval that the windows tagged with it run through is covered. -/
theorem Chained.covered {t : Thresholds} {a b : ℚ} {ws : List Window} {index : ℕ}
    (h : Chained t a b (ws.filter (Window.tagged index))) (hlt : a < b) :
    IntervalCovered ws index ⟨some a, some b⟩ := by
  have hne := h.of_lt hlt
  obtain ⟨first, hfirst, hstart⟩ := h.head hne
  obtain ⟨last, hlast, hstop⟩ := h.last hne
  exact {
    bounds := ⟨a, b, rfl, rfl, hlt⟩
    first := ⟨first, a, hfirst, hstart, by simp [TOLERANCE_S]⟩
    last := ⟨last, b, hlast, hstop, by simp [TOLERANCE_S]⟩
    unbroken := h.meets }

theorem judged_ok {h h' : Hooks} {r : Reading} {final : Bool} (hok : h.judged r final = .ok h') :
    ∃ c end_, h' = h.recorded c end_ final ∧ end_.time = r.time ∧ c.start = h.window.time
      ∧ c.stop = r.time ∧ h.window.time < r.time
      ∧ Produced h.thresholds (c.window h.record.windows.length final h.measuring) c := by
  obtain ⟨end_, hend, hok⟩ := bind_eq_ok.mp hok
  obtain ⟨c, hclose, hok⟩ := bind_eq_ok.mp hok
  have htime : end_.time = r.time := by
    unfold sampleOf at hend
    split at hend
    · cases hend
      rfl
    · cases hend
  unfold Hooks.close at hclose
  simp only at hclose
  split_ifs at hclose with hseconds hbackwards
  obtain ⟨hbusy, -⟩ := not_or.mp hbackwards
  cases hclose
  simp only at hok
  split_ifs at hok with hclean
  cases hok
  have hpositive : 0 < end_.time - h.window.time := not_le.mp hseconds
  refine ⟨_, end_, rfl, htime, rfl, htime, by linarith, rfl, hpositive, rfl, not_lt.mp hbusy,
    le_max_right _ _, rfl, ?_⟩
  intro hdecisive
  rcases hclean with hnil | hnone
  · exact judge_eq_nil.mp hnil
  · simp [Window.decisive, Counters.window, hnone] at hdecisive

@[simp] theorem Counters.window_tagged (c : Counters) (n i : ℕ) (final : Bool)
    (measuring : Option ℕ) :
    (c.window n final measuring).tagged i = decide (measuring = some i) := by
  cases measuring <;> simp [Counters.window, Window.tagged, Tag.is]

theorem Chained.lt {t : Thresholds} {a b : ℚ} {ws : List Window} (h : Chained t a b ws)
    (hne : ws ≠ []) : a < b := by
  induction ws generalizing a with
  | nil => exact absurd rfl hne
  | cons w rest ih =>
      obtain ⟨c, hc, rfl, hrest⟩ := h
      have hlt : c.start < c.stop := by linarith [hc.positive, hc.length]
      cases rest with
      | nil =>
          have hstop : c.stop = b := hrest
          exact hstop ▸ hlt
      | cons w' rest => exact hlt.trans (ih hrest (by simp))

/-- What holds of a process that is being watched since `start`: its windows run up to the
last reading, and those tagged with an interval run through it. -/
structure Watching (header : WorkerRecord) (t : Thresholds) (start : ℚ) (h : Hooks) : Prop where
  thresholds : h.thresholds = t
  job : h.record.job = header.job
  launched : h.record.launched = header.launched
  aborted : h.record.aborted = header.aborted
  cpus : h.record.cpus = header.cpus
  chained : Chained t start h.window.time h.record.windows
  running : ∀ w ∈ h.record.windows, w.final = false
  closed : ∀ i interval, h.record.measurements[i]? = some interval → h.measuring ≠ some i →
    ∃ a b, interval = ⟨some a, some b⟩ ∧ a < b
      ∧ Chained t a b (h.record.windows.filter (Window.tagged i))
  opened : ∀ i, h.measuring = some i → i + 1 = h.record.measurements.length
    ∧ ∃ a, h.record.measurements[i]? = some ⟨some a, none⟩
      ∧ Chained t a h.window.time (h.record.windows.filter (Window.tagged i))
  fresh : ∀ i, h.record.measurements.length ≤ i →
    h.record.windows.filter (Window.tagged i) = []

section Watching
variable {header : WorkerRecord} {t : Thresholds} {start : ℚ} {h h' : Hooks}

/-- The windows tagged with `i` after another window. -/
theorem Hooks.recorded_tagged (h : Hooks) (c : Counters) (end_ : Sample) (i : ℕ) :
    (h.recorded c end_ false).record.windows.filter (Window.tagged i)
      = h.record.windows.filter (Window.tagged i)
        ++ if h.measuring = some i then [c.window h.record.windows.length false h.measuring]
          else [] := by
  by_cases hi : h.measuring = some i <;> simp [Hooks.recorded, hi]

theorem Watching.recorded (hw : Watching header t start h) {c : Counters} {end_ : Sample}
    (hc : Produced t (c.window h.record.windows.length false h.measuring) c)
    (hstart : c.start = h.window.time) (hstop : end_.time = c.stop) :
    Watching header t start (h.recorded c end_ false) where
  thresholds := hw.thresholds
  job := hw.job
  launched := hw.launched
  aborted := hw.aborted
  cpus := hw.cpus
  chained := by
    have hchained := hw.chained.append hc hstart
    rwa [← hstop] at hchained
  running := by
    intro w hmem
    rcases List.mem_append.mp hmem with hold | hnew
    · exact hw.running w hold
    · cases List.mem_singleton.mp hnew
      rfl
  closed := by
    intro i interval hi hm
    have hnot : h.measuring ≠ some i := hm
    rw [Hooks.recorded_tagged, if_neg hnot, List.append_nil]
    exact hw.closed i interval hi hnot
  opened := by
    intro i hm
    have hmeasuring : h.measuring = some i := hm
    obtain ⟨hlen, a, ha, hchained⟩ := hw.opened i hmeasuring
    refine ⟨hlen, a, ha, ?_⟩
    rw [Hooks.recorded_tagged, if_pos hmeasuring]
    have happend := hchained.append hc hstart
    rwa [← hstop] at happend
  fresh := by
    intro i hi
    have hnot : h.measuring ≠ some i := by
      intro hm
      have hlen := (hw.opened i hm).1
      have hle : h.record.measurements.length ≤ i := hi
      omega
    rw [Hooks.recorded_tagged, if_neg hnot, List.append_nil]
    exact hw.fresh i hi

theorem Watching.begin (hw : Watching header t start h) (hm : h.measuring = none) :
    Watching header t start (h.begin h.window.time) where
  thresholds := hw.thresholds
  job := hw.job
  launched := hw.launched
  aborted := hw.aborted
  cpus := hw.cpus
  chained := hw.chained
  running := hw.running
  closed := by
    intro i interval hi hne
    have hold : h.record.measurements[i]? = some interval := by
      have hi : (h.record.measurements ++ [⟨some h.window.time, none⟩])[i]? = some interval := hi
      have hlen : i ≠ h.record.measurements.length := by
        rintro rfl
        exact hne rfl
      have hlt : i < h.record.measurements.length := by
        have := (List.getElem?_eq_some_iff.mp hi).1
        simp only [List.length_append, List.length_singleton] at this
        omega
      rwa [List.getElem?_append_left hlt] at hi
    exact hw.closed i interval hold (by simp [hm])
  opened := by
    intro i hi
    cases hi
    refine ⟨by simp [Hooks.begin], h.window.time, by simp [Hooks.begin], ?_⟩
    have hfresh := hw.fresh h.record.measurements.length (le_refl _)
    exact hfresh ▸ rfl
  fresh := by
    intro i hi
    simp only [Hooks.begin, List.length_append, List.length_singleton] at hi
    exact hw.fresh i (by omega)

theorem Watching.finish (hw : Watching header t start h) {index : ℕ}
    (hm : h.measuring = some index)
    (hne : h.record.windows.filter (Window.tagged index) ≠ []) :
    Watching header t start (h.finish index h.window.time) where
  thresholds := hw.thresholds
  job := hw.job
  launched := hw.launched
  aborted := hw.aborted
  cpus := hw.cpus
  chained := hw.chained
  running := hw.running
  closed := by
    intro i interval hi _
    have hi : (h.record.measurements.modify index fun i =>
        { i with stop := some h.window.time })[i]? = some interval := hi
    rw [List.getElem?_modify] at hi
    by_cases heq : index = i
    · cases heq
      obtain ⟨-, a, ha, hchained⟩ := hw.opened index hm
      simp only [ha, if_true, Option.map_eq_map, Option.map_some, Option.some.injEq] at hi
      exact ⟨a, h.window.time, hi.symm, hchained.lt hne, hchained⟩
    · simp only [heq, if_false, Option.map_eq_map, Option.map_id'] at hi
      exact hw.closed i interval hi (by simp [hm, heq])
  opened := by
    intro i hi
    cases hi
  fresh := by
    intro i hi
    simp only [Hooks.finish, List.length_modify] at hi
    exact hw.fresh i hi

/-- The readings of the clock at which a process's windows end before its exit. -/
def boundaries (t : Thresholds) : ℚ → List Call → List ℚ
  | _, [] => []
  | last, .progress r :: rest =>
    if r.time - last < t.window_s then boundaries t last rest
    else r.time :: boundaries t r.time rest
  | last, .measurement _ r :: rest =>
    if last < r.time then r.time :: boundaries t r.time rest else boundaries t last rest

/-- The windows that are recorded and those still to come. -/
def Hooks.endings (h : Hooks) (rest : List Call) : List ℚ :=
  stops h.record.windows ++ boundaries h.thresholds h.window.time rest

theorem Watching.judged (hw : Watching header t start h) {r : Reading}
    (hok : h.judged r false = .ok h') :
    Watching header t start h' ∧ h'.window.time = r.time ∧ h'.measuring = h.measuring
      ∧ h'.record.measurements = h.record.measurements
      ∧ stops h'.record.windows = stops h.record.windows ++ [r.time]
      ∧ ∀ i, h.measuring = some i → h'.record.windows.filter (Window.tagged i) ≠ [] := by
  obtain ⟨c, end_, rfl, hend, hstart, hstop, -, hc⟩ := judged_ok hok
  rw [hw.thresholds] at hc
  refine ⟨hw.recorded hc hstart (hend.trans hstop.symm), hend, rfl, rfl, ?_, ?_⟩
  · simp [stops, Hooks.recorded, Counters.window, hstop]
  · intro i hi
    simp [Hooks.recorded_tagged, hi]

theorem split_ok {r : Reading} (hlt : h.window.time < r.time) (hok : h.split r = .ok h') :
    h.judged r false = .ok h' := by
  obtain ⟨_, -, hok⟩ := bind_eq_ok.mp hok
  obtain ⟨_, -, hok⟩ := bind_eq_ok.mp hok
  rwa [if_pos hlt] at hok

theorem Watching.progress (hw : Watching header t start h) {r : Reading} (rest : List Call)
    (hok : h.progress r = .ok h') :
    Watching header t start h' ∧ (h'.window.time = h.window.time ∨ h'.window.time = r.time)
      ∧ h'.measuring = h.measuring
      ∧ h'.record.measurements.length = h.record.measurements.length
      ∧ h'.endings rest = h.endings (.progress r :: rest) := by
  unfold Hooks.progress at hok
  by_cases hshort : r.time - h.window.time < h.thresholds.window_s
  · rw [if_pos hshort] at hok
    cases hok
    exact ⟨hw, .inl rfl, rfl, rfl, by simp [Hooks.endings, boundaries, hshort]⟩
  · rw [if_neg hshort] at hok
    obtain ⟨_, -, hok⟩ := bind_eq_ok.mp hok
    obtain ⟨hw', htime, hmeasuring, hlen, hstops, -⟩ := hw.judged hok
    refine ⟨hw', .inr htime, hmeasuring, congrArg List.length hlen, ?_⟩
    rw [hw.thresholds] at hshort
    simp [Hooks.endings, boundaries, hshort, hstops, htime, hw.thresholds, hw'.thresholds]

/-- The boundaries a worker has yet to write, after `measuring`. -/
def remaining (measuring : Option ℕ) (entries : ℕ) : List Boundary :=
  if measuring.isSome then .E :: workerEvents entries else workerEvents entries

theorem workerEvents_succ (n : ℕ) : workerEvents (n + 1) = .B :: .E :: workerEvents n := by
  simp [workerEvents, List.replicate_succ]

theorem Watching.measurement (hw : Watching header t start h) {event : Boundary} {r : Reading}
    (rest : List Call) (hlt : h.window.time < r.time) (hok : h.measurement event r = .ok h')
    {events : List Boundary} {entries : ℕ}
    (hevents : event :: events = remaining h.measuring entries) :
    Watching header t start h' ∧ h'.window.time = r.time
      ∧ (∃ left, events = remaining h'.measuring left
        ∧ h'.record.measurements.length + left = h.record.measurements.length + entries)
      ∧ h'.endings rest = h.endings (.measurement event r :: rest) := by
  unfold Hooks.measurement at hok
  cases hm : h.measuring with
  | none =>
      cases entries with
      | zero => simp [remaining, hm, workerEvents] at hevents
      | succ left =>
          simp only [remaining, hm, workerEvents_succ, Option.isSome_none, Bool.false_eq_true,
            if_false, List.cons.injEq] at hevents
          obtain ⟨rfl, hevents⟩ := hevents
          simp only [hm] at hok
          obtain ⟨split, hsplit, hok⟩ := bind_eq_ok.mp hok
          cases hok
          obtain ⟨hw', htime, hmeasuring, hlen, hstops, -⟩ := hw.judged (split_ok hlt hsplit)
          have hbegin := hw'.begin (hmeasuring.trans hm)
          rw [htime] at hbegin
          refine ⟨hbegin, htime, ⟨left, hevents, ?_⟩, ?_⟩
          · simp [Hooks.begin, hlen]
            omega
          · simp [Hooks.endings, Hooks.begin, boundaries, hlt, hstops, htime, hw.thresholds,
              hw'.thresholds]
  | some index =>
      simp only [remaining, hm, Option.isSome_some, if_true, List.cons.injEq] at hevents
      obtain ⟨rfl, hevents⟩ := hevents
      simp only [hm] at hok
      obtain ⟨split, hsplit, hok⟩ := bind_eq_ok.mp hok
      cases hok
      obtain ⟨hw', htime, hmeasuring, hlen, hstops, hne⟩ := hw.judged (split_ok hlt hsplit)
      have hfinish := hw'.finish (hmeasuring.trans hm) (hne index hm)
      rw [htime] at hfinish
      refine ⟨hfinish, htime, ⟨entries, hevents, ?_⟩, ?_⟩
      · simp [Hooks.finish, hlen]
      · simp [Hooks.endings, Hooks.finish, boundaries, hlt, hstops, htime, hw.thresholds,
          hw'.thresholds]

def Call.boundary : Call → Option Boundary
  | .progress _ => none
  | .measurement event _ => some event

/-- A whole run of the hooks, by induction on the calls: with the clock ahead of the last
window at every call, and the boundaries a worker writes. -/
theorem Watching.run {calls : List Call} (hw : Watching header t start h) {entries : ℕ}
    (hclock : (h.window.time :: calls.map Call.time).Pairwise (· < ·))
    (hevents : calls.filterMap Call.boundary = remaining h.measuring entries)
    (hok : calls.foldlM Hooks.step h = .ok h') :
    Watching header t start h' ∧ h'.measuring = none
      ∧ h'.record.measurements.length = h.record.measurements.length + entries
      ∧ stops h'.record.windows = h.endings calls := by
  induction calls generalizing h entries with
  | nil =>
      have heq : h = h' := Except.ok.inj hok
      subst heq
      cases hm : h.measuring with
      | none =>
          cases entries with
          | zero => exact ⟨hw, rfl, rfl, by simp [Hooks.endings, boundaries]⟩
          | succ n => simp [remaining, hm, workerEvents_succ] at hevents
      | some i => simp [remaining, hm] at hevents
  | cons call rest ih =>
      rw [List.foldlM_cons] at hok
      obtain ⟨mid, hmid, hfold⟩ := bind_eq_ok.mp hok
      obtain ⟨hfirst, hrest⟩ := List.pairwise_cons.mp hclock
      have hskip : (h.window.time :: rest.map Call.time).Pairwise (· < ·) :=
        List.pairwise_cons.mpr ⟨fun x hx => hfirst x (List.mem_cons_of_mem _ hx),
          (List.pairwise_cons.mp hrest).2⟩
      cases call with
      | progress r =>
          obtain ⟨hw', htime, hmeasuring, hlen, hendings⟩ := hw.progress rest hmid
          have hclock' : (mid.window.time :: rest.map Call.time).Pairwise (· < ·) := by
            rcases htime with htime | htime
            · rw [htime]
              exact hskip
            · rw [htime]
              exact hrest
          rw [← hmeasuring] at hevents
          obtain ⟨hw'', hnone, hcount, hstops⟩ := ih hw' hclock' hevents hfold
          exact ⟨hw'', hnone, hlen ▸ hcount, hendings ▸ hstops⟩
      | measurement event r =>
          obtain ⟨hw', htime, ⟨left, hleft, hlen⟩, hendings⟩ :=
            hw.measurement rest (hfirst r.time (by simp [Call.time])) hmid hevents
          have hclock' : (mid.window.time :: rest.map Call.time).Pairwise (· < ·) := by
            rw [htime]
            exact hrest
          obtain ⟨hw'', hnone, hcount, hstops⟩ := ih hw' hclock' hleft hfold
          exact ⟨hw'', hnone, by omega, hendings ▸ hstops⟩

end Watching

/-- No window of the process is left open for longer than the validator allows: a condition
on when the hooks were called. -/
def Timely (t : Thresholds) {entries : ℕ} (run : JobRun entries) : Prop :=
  (run.launch.time :: (boundaries t run.launch.time run.calls ++ [run.exit.time])).IsChain
    fun x y => y - x ≤ t.window_s * 2 + 1

instance (t : Thresholds) {entries : ℕ} (run : JobRun entries) : Decidable (Timely t run) := by
  unfold Timely
  infer_instance

theorem JobRun.calls_boundary {entries : ℕ} (run : JobRun entries) :
    run.calls.filterMap Call.boundary = workerEvents entries := by
  have hpoll : ∀ polls : List Poll, (polls.flatMap Poll.calls).filterMap Call.boundary
      = polls.filterMap fun p => p.boundary.map (·.1) := by
    intro polls
    induction polls with
    | nil => rfl
    | cons p rest ih =>
        cases hp : p.boundary <;>
          simp [Poll.calls, List.filterMap_cons, Call.boundary, hp, ih]
  exact (hpoll run.polls).trans run.complete

theorem launched_ok {m : CostMonitor} {layout : Layout} {label : String} {process pid : ℕ}
    {r : Reading} {h : Hooks} (hok : launched m layout label process pid r = .ok h) :
    Watching h.record m.thresholds r.time h ∧ h.measuring = none ∧ h.record.measurements = []
      ∧ h.record.windows = [] ∧ h.window.time = r.time ∧ h.record.job = some label
      ∧ h.record.launched = some r.time ∧ h.record.aborted = false
      ∧ h.record.cpus = layout.worker := by
  obtain ⟨_, -, hok⟩ := bind_eq_ok.mp hok
  obtain ⟨window, hwindow, hok⟩ := bind_eq_ok.mp hok
  cases hok
  have htime : window.time = r.time := by
    unfold sampleOf at hwindow
    split at hwindow
    · cases hwindow
      rfl
    · cases hwindow
  refine ⟨?_, rfl, rfl, rfl, htime, rfl, rfl, rfl, rfl⟩
  exact {
    thresholds := rfl
    job := rfl
    launched := rfl
    aborted := rfl
    cpus := rfl
    chained := htime.symm
    running := by simp
    closed := by simp
    opened := by simp
    fresh := by simp }

/-- The record of a process that the monitor let finish. -/
theorem runWorker_ok {m : CostMonitor} {layout : Layout} {label : String} {process : ℕ}
    {entries : ℕ} {run : JobRun entries} {record : WorkerRecord}
    (hclock : run.times.Pairwise (· < ·))
    (hok : runWorker m layout label process run = .ok record) :
    record.job = some label ∧ record.measurements.length = entries
      ∧ (RecordAdmissible m.thresholds layout.worker record ↔ Timely m.thresholds run) := by
  obtain ⟨h₀, hlaunch, hok⟩ := bind_eq_ok.mp hok
  obtain ⟨h₁, hcalls, hok⟩ := bind_eq_ok.mp hok
  obtain ⟨h₂, hfinal, hok⟩ := bind_eq_ok.mp hok
  cases hok
  obtain ⟨hw₀, hm₀, hmeasurements, hwindows, htime, hjob, hlaunched, haborted, hcpus⟩ :=
    launched_ok hlaunch
  have hevents : run.calls.filterMap Call.boundary = remaining h₀.measuring entries := by
    rw [run.calls_boundary, hm₀]
    rfl
  have hcalled : (h₀.window.time :: run.calls.map Call.time).Pairwise (· < ·) := by
    rw [htime]
    exact (List.pairwise_append.mp hclock).1
  obtain ⟨hw, hm, hlen, hstops⟩ := hw₀.run hcalled hevents hcalls
  obtain ⟨c, end_, rfl, hend, hstart, hstop, -, hc⟩ := judged_ok hfinal
  rw [hw.thresholds] at hc
  have hchained := hw.chained.append hc hstart
  rw [hstop] at hchained
  have hends : stops (h₁.record.windows
      ++ [c.window h₁.record.windows.length true h₁.measuring])
      = boundaries m.thresholds run.launch.time run.calls ++ [run.exit.time] := by
    have hall := hstops
    simp only [Hooks.endings, hwindows, hw₀.thresholds, htime, stops, List.filterMap_nil,
      List.nil_append] at hall
    simp [stops, Counters.window, hstop, hall]
  refine ⟨hw.job.trans hjob, ?_, ?_⟩
  · simpa [Hooks.recorded, hmeasurements] using hlen
  · have hadmissible : WindowsAdmissible m.thresholds none _ ↔ _ :=
      hchained.admissible_iff (by simp)
    rw [hends] at hadmissible
    refine ⟨fun hrecord => hadmissible.mp hrecord.windows, fun htimely => ?_⟩
    obtain ⟨first, hfirst, hfirststart⟩ := hchained.head (by simp)
    exact {
      completed := hw.aborted.trans haborted
      cpus := congrArg List.toFinset (hw.cpus.trans hcpus)
      returned := rfl
      launched := ⟨run.launch.time, first, run.launch.time, hw.launched.trans hlaunched, hfirst,
        hfirststart, by simp [TOLERANCE_S]⟩
      exited := ⟨run.exit.time, c.window h₁.record.windows.length true h₁.measuring,
        run.exit.time, rfl, by simp [Hooks.recorded], by simp [Counters.window, hstop],
        by simp [TOLERANCE_S]⟩
      final := by simp [Hooks.recorded, Counters.window]
      single := by simpa [Hooks.recorded] using hw.running
      windows := hadmissible.mpr htimely
      intervals := by
        intro interval index hmem
        have hget : h₁.record.measurements[index]? = some interval :=
          List.mk_mem_zipIdx_iff_getElem?.mp hmem
        obtain ⟨a, b, rfl, hlt, hcovers⟩ := hw.closed index interval hget (by simp [hm])
        apply Chained.covered (t := m.thresholds) ?_ hlt
        simpa [Hooks.recorded, hm] using hcovers }

/-- Calls that are never further apart than a window and a second keep a run timely: a
window that a poll left open had not reached its length. -/
theorem timely_of_gaps {t : Thresholds} {entries : ℕ} {run : JobRun entries}
    (hwindow : 0 ≤ t.window_s)
    (hgaps : run.times.IsChain fun x y => y - x ≤ t.window_s + 1) : Timely t run := by
  have hcalls : ∀ (calls : List Call) (last now exit : ℚ), now - last ≤ t.window_s →
      (now :: (calls.map Call.time ++ [exit])).IsChain (fun x y => y - x ≤ t.window_s + 1) →
      (last :: (boundaries t last calls ++ [exit])).IsChain
        fun x y => y - x ≤ t.window_s * 2 + 1 := by
    intro calls
    induction calls with
    | nil =>
        intro last now exit hopen hchain
        have hstep := (List.isChain_cons_cons.mp hchain).1
        exact List.isChain_cons_cons.mpr ⟨by linarith, .singleton _⟩
    | cons call rest ih =>
        intro last now exit hopen hchain
        obtain ⟨hstep, hrest⟩ := List.isChain_cons_cons.mp hchain
        have hclosed : (last :: (call.time :: boundaries t call.time rest ++ [exit])).IsChain
            fun x y => y - x ≤ t.window_s * 2 + 1 :=
          List.isChain_cons_cons.mpr
            ⟨by linarith, ih call.time call.time exit (by linarith) hrest⟩
        cases call with
        | progress r =>
            have hstep : r.time - now ≤ t.window_s + 1 := hstep
            by_cases hshort : r.time - last < t.window_s
            · simpa [boundaries, hshort] using ih last r.time exit hshort.le hrest
            · simpa [boundaries, hshort, Call.time] using hclosed
        | measurement event r =>
            by_cases hlt : last < r.time
            · simpa [boundaries, hlt, Call.time] using hclosed
            · have hle : r.time - last ≤ t.window_s := by linarith
              simpa [boundaries, hlt] using ih last r.time exit hle hrest
  exact hcalls run.calls run.launch.time run.launch.time run.exit.time (by linarith) hgaps

end TranspileBench.Lsf
