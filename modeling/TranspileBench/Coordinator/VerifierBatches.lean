import Mathlib.Algebra.Order.Archimedean.Basic
import Mathlib.Logic.Relation
import Mathlib.Tactic.Linarith
import TranspileBench.Coordinator.Transparent
import TranspileBench.Lib.Tally

/-!
The batches of the verifier, process by process: one process for a chunk of jobs, watched by
the results that appear, and a fresh one for the jobs behind the one that stopped it. Whatever
the processes do, and however they end, every job gets one result.
-/
namespace TranspileBench.Coordinator.OracleBatch

/-- One turn of the loop: whether the process has exited, which directories have a result
when they are counted, and the clock then and when the timeout is checked. -/
structure Poll where
  exited : Bool
  present : ℕ → Bool
  counted : ℚ
  checked : ℚ

/-- A verifier process, as the coordinator sees it. -/
structure Process where
  started : ℚ
  poll : ℕ → Poll
  /-- The results in the directories once the process is gone. -/
  result : ℕ → Option OracleResult
  returncode : ℤ
  log : String

def IDLE_TIMEOUT : ℕ := 300

/-- The loop over the results that appear: whether the process timed out. It has no result
while it is still watching. -/
def watch (outs : List ℕ) (process : Process) :
    (fuel k done : ℕ) → (last : ℚ) → Option Bool
  | 0, _, _, _ => none
  | fuel + 1, k, done, last =>
      let now := process.poll k
      if now.exited then some false
      else
        let count := (outs.drop done).countP now.present + done
        if done < count then watch outs process fuel (k + 1) count now.counted
        else if IDLE_TIMEOUT < now.checked - last then some true
        else watch outs process fuel (k + 1) done last

/-- `run_verifier_batch`: a reason when the process stopped before it was done. -/
def run_verifier_batch (outs : List ℕ) (process : Process) (fuel : ℕ) :
    Option (Option String) :=
  (watch outs process fuel 0 0 process.started).map fun timed_out =>
    if outs.all fun out => (process.result out).isSome then none
    else if timed_out then
      some ("Verifier timed out after " ++ toString IDLE_TIMEOUT ++ " s; log: " ++ process.log)
    else some ("Verifier exited " ++ toString process.returncode ++ "; log: " ++ process.log)

variable {K : Type}

/-- One batch of a chunk: the how-manieth process, and the jobs it is given. -/
structure Batch (K : Type) where
  number : ℕ
  entries : List (OracleEntry K)

section Batches
variable (processes : ℕ → Process)

def Batch.written (b : Batch K) : List (K × OracleResult) :=
  b.entries.filterMap fun e =>
    ((processes b.number).result e.directory).map fun r => (e.key, r)

def Batch.missing (b : Batch K) : List (OracleEntry K) :=
  b.entries.filter fun e => ((processes b.number).result e.directory).isNone

def Batch.run (b : Batch K) (fuel : ℕ) : Option (Option String) :=
  run_verifier_batch (b.entries.map (·.directory)) (processes b.number) fuel

/-- `verify_chunk`: the first job without a result has stopped the process; the rest get a
fresh one. -/
def verify_chunk : (fuel : ℕ) → Batch K → Option (List (K × OracleResult))
  | 0, _ => none
  | fuel + 1, b =>
      if b.entries = [] then some []
      else
        match b.run processes fuel with
        | none => none
        | some problem =>
            match b.missing processes with
            | [] => some (b.written processes)
            | first :: rest =>
                (verify_chunk fuel ⟨b.number + 1, rest⟩).map fun more =>
                  b.written processes ++ (first.key, unverified first.oracle problem) :: more

end Batches

section Call
variable [DecidableEq K]

/-- The jobs in directories of their own. -/
def entriesOf (directory : ℕ → ℕ) (pending : List (K × JsonObject)) : List (OracleEntry K) :=
  pending.zipIdx.map fun entry =>
    ⟨entry.1.1, directory entry.2, (entry.1.2.lookup "oracle").getD "null"⟩

def batchSize (workers entries : ℕ) : ℕ := max 1 (min 50 ((entries + workers - 1) / workers))

def chunks (workers : ℕ) (directory : ℕ → ℕ) (pending : List (K × JsonObject)) :
    List (List (OracleEntry K)) :=
  chunksOf (batchSize workers pending.length) (entriesOf directory pending)

/-- `merged.update(results)`. -/
def update (merged : AList fun _ : K => OracleResult) (results : List (K × OracleResult)) :
    AList fun _ : K => OracleResult :=
  results.foldl (fun merged entry => merged.insert entry.1 entry.2) merged

/-- `run_verifier`: the chunks run side by side, each with processes of its own, and are
merged in their order. -/
def run_verifier (workers : ℕ) (directory : ℕ → ℕ) (processes : ℕ → ℕ → Process) (fuel : ℕ)
    (pending : List (K × JsonObject)) : Option (AList fun _ : K => OracleResult) :=
  ((chunks workers directory pending).zipIdx.mapM fun chunk =>
    verify_chunk (processes chunk.2) fuel ⟨0, chunk.1⟩).map (·.foldl update ∅)

end Call

/-! ## One process -/

/-- The monotonic clock passes every time. -/
def Process.Ticks (process : Process) : Prop := ∀ t k, ∃ d, t < (process.poll (k + d)).checked

section Watching
variable {outs : List ℕ} {process : Process}

theorem watch_more {fuel more k done : ℕ} {last : ℚ} {timed_out : Bool} (hle : fuel ≤ more)
    (h : watch outs process fuel k done last = some timed_out) :
    watch outs process more k done last = some timed_out := by
  induction fuel generalizing more k done last with
  | zero => cases h
  | succ fuel ih =>
      obtain ⟨more, rfl⟩ : ∃ m, more = m + 1 := ⟨more - 1, by omega⟩
      rw [watch] at h ⊢
      dsimp only at h ⊢
      by_cases hexited : (process.poll k).exited
      · rwa [if_pos hexited] at h ⊢
      · rw [if_neg hexited] at h ⊢
        by_cases hnew : done < (outs.drop done).countP (process.poll k).present + done
        · rw [if_pos hnew] at h ⊢
          exact ih (by omega) h
        · rw [if_neg hnew] at h ⊢
          by_cases hlate : (IDLE_TIMEOUT : ℚ) < (process.poll k).checked - last
          · rwa [if_pos hlate] at h ⊢
          · rw [if_neg hlate] at h ⊢
            exact ih (by omega) h

/-- The loop comes to an end from here. -/
def Watched (outs : List ℕ) (process : Process) (k done : ℕ) (last : ℚ) : Prop :=
  ∃ fuel timed_out, watch outs process fuel k done last = some timed_out

/-- One turn: the process has exited, or there is a new result, or it has timed out, or
neither. -/
theorem watched_step {k done : ℕ} {last : ℚ} (hdone : done ≤ outs.length)
    (hmore : ∀ count last', done < count → count ≤ outs.length →
      Watched outs process (k + 1) count last')
    (hsame : (process.poll k).checked ≤ last + IDLE_TIMEOUT →
      Watched outs process (k + 1) done last) :
    Watched outs process k done last := by
  by_cases hexited : (process.poll k).exited
  · exact ⟨1, false, by simp [watch, hexited]⟩
  · by_cases hnew : done < (outs.drop done).countP (process.poll k).present + done
    · have hcount : (outs.drop done).countP (process.poll k).present + done ≤ outs.length := by
        have hle := List.countP_le_length (p := (process.poll k).present) (l := outs.drop done)
        rw [List.length_drop] at hle
        omega
      obtain ⟨fuel, timed_out, h⟩ := hmore _ (process.poll k).counted hnew hcount
      refine ⟨fuel + 1, timed_out, ?_⟩
      rw [watch]
      dsimp only
      rw [if_neg hexited, if_pos hnew, h]
    · by_cases hlate : (IDLE_TIMEOUT : ℚ) < (process.poll k).checked - last
      · refine ⟨1, true, ?_⟩
        rw [watch]
        dsimp only
        rw [if_neg hexited, if_neg hnew, if_pos hlate]
      · obtain ⟨fuel, timed_out, h⟩ := hsame (by linarith)
        refine ⟨fuel + 1, timed_out, ?_⟩
        rw [watch]
        dsimp only
        rw [if_neg hexited, if_neg hnew, if_neg hlate, h]

/-- Each new result is one of the batch, and while there is none the clock runs out. -/
theorem watched (outs : List ℕ) (hticks : process.Ticks) (k done : ℕ) (last : ℚ)
    (hdone : done ≤ outs.length) :
    Watched outs process k done last := by
  induction hleft : outs.length - done using Nat.strong_induction_on generalizing k done last with
  | _ left ih =>
      have hmore : ∀ k count last', done < count → count ≤ outs.length →
          Watched outs process (k + 1) count last' := by
        intro k count last' hnew hcount
        exact ih _ (by omega) (k + 1) count last' hcount rfl
      obtain ⟨d, hd⟩ := hticks (last + IDLE_TIMEOUT) k
      induction d generalizing k with
      | zero => exact watched_step hdone (hmore k) fun h => absurd hd (not_lt.mpr h)
      | succ d ihd =>
          apply watched_step hdone (hmore k)
          intro _
          apply ihd (k + 1)
          rwa [Nat.add_right_comm]

end Watching

/-- A process that leaves results for these jobs only says so when it left all of them. -/
theorem run_verifier_batch_none {outs : List ℕ} {process : Process} {fuel : ℕ}
    {problem : Option String} (h : run_verifier_batch outs process fuel = some problem) :
    problem = none ↔ ∀ out ∈ outs, (process.result out).isSome := by
  obtain ⟨timed_out, _, rfl⟩ := Option.map_eq_some_iff.mp h
  by_cases hall : outs.all fun out => (process.result out).isSome
  · rw [if_pos hall]
    exact iff_of_true rfl (List.all_eq_true.mp hall)
  · rw [if_neg hall]
    apply iff_of_false
    · cases timed_out <;> simp
    · exact mt List.all_eq_true.mpr hall

/-! ## The batches of a chunk -/

section Chunk
variable {processes : ℕ → Process}

/-- The batch behind one that stopped: the missing jobs but the first. -/
def Batch.Next (processes : ℕ → Process) (b c : Batch K) : Prop :=
  ∃ first next rest, b.missing processes = first :: next :: rest
    ∧ c = ⟨b.number + 1, next :: rest⟩

/-- The batches that are run for a chunk. -/
abbrev Batch.Starts (processes : ℕ → Process) : Batch K → Batch K → Prop :=
  Relation.ReflTransGen (Batch.Next processes)

/-- How watching a batch ends. -/
def Batch.Stops (processes : ℕ → Process) (b : Batch K) (problem : Option String) : Prop :=
  ∃ fuel, ∀ fuel' ≥ fuel, b.run processes fuel' = some problem

theorem Batch.stops (hticks : ∀ n, (processes n).Ticks) (b : Batch K) :
    ∃ problem, b.Stops processes problem
      ∧ (problem = none ↔ b.missing processes = []) := by
  obtain ⟨fuel, timed_out, h⟩ := watched (b.entries.map (·.directory))
    (hticks b.number) 0 0 (processes b.number).started (Nat.zero_le _)
  have hrun : ∀ fuel' ≥ fuel, ∃ problem, b.run processes fuel' = some problem
      ∧ b.run processes fuel = some problem := by
    intro fuel' hle
    rw [Batch.run, Batch.run, OracleBatch.run_verifier_batch, OracleBatch.run_verifier_batch,
      watch_more hle h, h]
    exact ⟨_, rfl, rfl⟩
  obtain ⟨problem, hproblem, _⟩ := hrun fuel (Nat.le_refl _)
  refine ⟨problem, ⟨fuel, fun fuel' hle => ?_⟩, ?_⟩
  · obtain ⟨problem', hproblem', hsame⟩ := hrun fuel' hle
    rw [hproblem', ← hsame, hproblem]
  · rw [run_verifier_batch_none hproblem, Batch.missing, List.filter_eq_nil_iff,
      List.forall_mem_map]
    apply forall₂_congr
    intro e _
    rw [Option.isNone_iff_eq_none]
    exact Option.isSome_iff_ne_none

theorem starts_cases {b c : Batch K} (h : b.Starts processes c) :
    c = b ∨ ∃ d, b.Next processes d ∧ d.Starts processes c := by
  cases Relation.ReflTransGen.cases_head h with
  | inl heq => exact .inl heq.symm
  | inr hnext => exact .inr hnext

/-- The results and the missing jobs are the jobs of the batch. -/
theorem Batch.keys_perm (b : Batch K) (processes : ℕ → Process) :
    ((b.written processes).map (·.1) ++ (b.missing processes).map (·.key)).Perm
      (b.entries.map (·.key)) := by
  let done : OracleEntry K → Bool := fun e => ((processes b.number).result e.directory).isSome
  have hwritten : (b.written processes).map (·.1) = (b.entries.filter done).map (·.key) := by
    rw [Batch.written]
    induction b.entries with
    | nil => rfl
    | cons e rest ih =>
        cases hresult : (processes b.number).result e.directory with
        | none => simp [done, hresult, ih]
        | some r => simp [done, hresult, ih]
  have hmissing : b.missing processes = b.entries.filter fun e => !done e := by
    apply List.filter_congr
    intro e _
    cases h : (processes b.number).result e.directory <;> simp [done, h]
  rw [hwritten, hmissing, ← List.map_append]
  exact (List.filter_append_perm done b.entries).map _

theorem Batch.mem_written {b : Batch K} {entry : K × OracleResult} :
    entry ∈ b.written processes
      ↔ ∃ e ∈ b.entries, (processes b.number).result e.directory = some entry.2
        ∧ e.key = entry.1 := by
  rw [Batch.written, List.mem_filterMap]
  constructor
  · intro h
    obtain ⟨e, he, hmap⟩ := h
    obtain ⟨r, hr, heq⟩ := Option.map_eq_some_iff.mp hmap
    exact ⟨e, he, heq ▸ hr, congrArg Prod.fst heq⟩
  · intro h
    obtain ⟨e, he, hr, hkey⟩ := h
    exact ⟨e, he, Option.map_eq_some_iff.mpr ⟨entry.2, hr, Prod.ext hkey rfl⟩⟩

/-- An entry that a stopped batch marks: the first of its jobs without a result. -/
def Batch.Marks (processes : ℕ → Process) (b : Batch K) (entry : K × OracleResult) : Prop :=
  ∃ first rest reason, b.missing processes = first :: rest ∧ b.Stops processes (some reason)
    ∧ entry = (first.key, unverified first.oracle (some reason))

/-- The results of a chunk: one for each job, which is the one its process left whenever it
left one, and a mark for each batch that stopped. -/
structure Settles (processes : ℕ → Process) (b : Batch K) (results : List (K × OracleResult)) :
    Prop where
  keys : (results.map (·.1)).Perm (b.entries.map (·.key))
  written : ∀ c, b.Starts processes c → ∀ entry ∈ c.written processes, entry ∈ results
  marked : ∀ c, b.Starts processes c → c.missing processes ≠ [] →
    ∃ entry ∈ results, c.Marks processes entry
  others : ∀ entry ∈ results, ∃ c, b.Starts processes c
    ∧ (entry ∈ c.written processes ∨ c.Marks processes entry)

/-- A batch that was not stopped. -/
theorem settles_done {b : Batch K} (hnone : b.missing processes = []) :
    Settles processes b (b.written processes) := by
  have honly : ∀ c, b.Starts processes c → c = b := by
    intro c hc
    cases starts_cases hc with
    | inl heq => exact heq
    | inr hnext =>
        obtain ⟨d, ⟨first, next, rest, hmissing, _⟩, _⟩ := hnext
        rw [hnone] at hmissing
        cases hmissing
  constructor
  · have hkeys := b.keys_perm processes
    rwa [hnone, List.map_nil, List.append_nil] at hkeys
  · intro c hc entry hentry
    rwa [honly c hc] at hentry
  · intro c hc hmissing
    rw [honly c hc] at hmissing
    exact absurd hnone hmissing
  · intro entry hentry
    exact ⟨b, .refl, .inl hentry⟩

/-- A batch that was stopped, with the results of the batches behind it. -/
theorem settles_stopped {b : Batch K} {first : OracleEntry K} {rest : List (OracleEntry K)}
    {reason : String} {more : List (K × OracleResult)}
    (hmissing : b.missing processes = first :: rest) (hstops : b.Stops processes (some reason))
    (hmore : Settles processes ⟨b.number + 1, rest⟩ more) :
    Settles processes b
      (b.written processes ++ (first.key, unverified first.oracle (some reason)) :: more) := by
  have hmark : b.Marks processes (first.key, unverified first.oracle (some reason)) :=
    ⟨first, rest, reason, hmissing, hstops, rfl⟩
  have hbehind : ∀ c, b.Starts processes c →
      c = b ∨ Batch.Starts processes ⟨b.number + 1, rest⟩ c := by
    intro c hc
    cases starts_cases hc with
    | inl heq => exact .inl heq
    | inr hnext =>
        obtain ⟨d, ⟨first', next, rest', hmissing', rfl⟩, hd⟩ := hnext
        obtain ⟨_, rfl⟩ := List.cons.inj (hmissing.symm.trans hmissing')
        exact .inr hd
  constructor
  · have hkeys := b.keys_perm processes
    rw [hmissing, List.map_cons] at hkeys
    rw [List.map_append, List.map_cons]
    exact ((hmore.keys.cons first.key).append_left _).trans hkeys
  · intro c hc entry hentry
    cases hbehind c hc with
    | inl heq => exact List.mem_append_left _ (heq ▸ hentry)
    | inr hd =>
        exact List.mem_append_right _ (List.mem_cons_of_mem _ (hmore.written c hd entry hentry))
  · intro c hc hstopped
    cases hbehind c hc with
    | inl heq => exact ⟨_, List.mem_append_right _ List.mem_cons_self, heq ▸ hmark⟩
    | inr hd =>
        obtain ⟨entry, hentry, hmarks⟩ := hmore.marked c hd hstopped
        exact ⟨entry, List.mem_append_right _ (List.mem_cons_of_mem _ hentry), hmarks⟩
  · intro entry hentry
    cases List.mem_append.mp hentry with
    | inl hown => exact ⟨b, .refl, .inl hown⟩
    | inr hlater =>
        cases List.mem_cons.mp hlater with
        | inl heq => exact ⟨b, .refl, .inr (heq ▸ hmark)⟩
        | inr hin =>
            -- a job behind the first is in a batch of its own
            obtain ⟨c, hc, hsettled⟩ := hmore.others entry hin
            cases rest with
            | nil =>
                have hnone : more = [] := by
                  have hlen := hmore.keys.length_eq
                  rw [List.length_map] at hlen
                  exact List.length_eq_zero_iff.mp hlen
                rw [hnone] at hin
                exact absurd hin List.not_mem_nil
            | cons next rest => exact ⟨c, .head ⟨first, next, rest, hmissing, rfl⟩ hc, hsettled⟩

/-- Every chunk comes to an end: each stopped batch takes the job that stopped it away. -/
theorem verify_chunk_settles (hticks : ∀ n, (processes n).Ticks) (b : Batch K) :
    ∃ results, Settles processes b results
      ∧ ∃ fuel, ∀ fuel' ≥ fuel, verify_chunk processes fuel' b = some results := by
  induction hlength : b.entries.length using Nat.strong_induction_on generalizing b with
  | _ length ih =>
      obtain ⟨problem, hstops, hproblem⟩ := b.stops hticks
      cases hmissing : b.missing processes with
      | nil =>
          refine ⟨_, settles_done hmissing, ?_⟩
          obtain ⟨fuel, hrun⟩ := hstops
          refine ⟨fuel + 1, fun fuel' hle => ?_⟩
          obtain ⟨fuel', rfl⟩ : ∃ m, fuel' = m + 1 := ⟨fuel' - 1, by omega⟩
          rw [verify_chunk]
          by_cases hempty : b.entries = []
          · rw [if_pos hempty, Batch.written, hempty]
            rfl
          · rw [if_neg hempty, hrun fuel' (by omega), hmissing]
      | cons first rest =>
          have hstopped : problem ≠ none := fun hnone => by
            rw [hproblem.mp hnone] at hmissing
            cases hmissing
          obtain ⟨reason, rfl⟩ := Option.ne_none_iff_exists'.mp hstopped
          have hfewer : rest.length < length := by
            have hle : (b.missing processes).length ≤ b.entries.length := List.length_filter_le _ _
            rw [hmissing, List.length_cons, hlength] at hle
            omega
          obtain ⟨more, hmore, later, hreturns⟩ := ih rest.length hfewer ⟨b.number + 1, rest⟩ rfl
          refine ⟨_, settles_stopped hmissing hstops hmore, ?_⟩
          obtain ⟨fuel, hrun⟩ := hstops
          refine ⟨fuel + later + 1, fun fuel' hle => ?_⟩
          obtain ⟨fuel', rfl⟩ : ∃ m, fuel' = m + 1 := ⟨fuel' - 1, by omega⟩
          have hsome : b.entries ≠ [] := by
            intro hempty
            rw [Batch.missing, hempty] at hmissing
            cases hmissing
          rw [verify_chunk, if_neg hsome, hrun fuel' (by omega), hmissing]
          simp only [hreturns fuel' (by omega), Option.map_some]

end Chunk

/-! ## The chunks together -/

theorem flatten_chunks {α : Type} (size n : ℕ) (entries : List α) :
    ((List.range n).map fun i => (entries.drop (i * size)).take size).flatten
      = entries.take (n * size) := by
  induction n with
  | zero => simp
  | succ n ih =>
      rw [List.range_succ, List.map_append, List.flatten_append, ih, Nat.succ_mul, List.take_add]
      simp

/-- The chunks are the entries, in order. -/
theorem chunksOf_flatten {α : Type} {size : ℕ} (hsize : 0 < size) (entries : List α) :
    (chunksOf size entries).flatten = entries := by
  rw [chunksOf, flatten_chunks]
  apply List.take_of_length_le
  have hdiv := Nat.div_add_mod (entries.length + size - 1) size
  have hmod := Nat.mod_lt (entries.length + size - 1) hsize
  rw [Nat.mul_comm] at hdiv
  omega

theorem mapM_fuel {α β : Type} {R : α → β → Prop} {f : ℕ → α → Option β} (xs : List α)
    (h : ∀ x ∈ xs, ∃ y, R x y ∧ ∃ fuel, ∀ fuel' ≥ fuel, f fuel' x = some y) :
    ∃ ys, List.Forall₂ R xs ys ∧ ∃ fuel, ∀ fuel' ≥ fuel, xs.mapM (f fuel') = some ys := by
  induction xs with
  | nil => exact ⟨[], .nil, 0, fun fuel' _ => rfl⟩
  | cons x xs ih =>
      obtain ⟨y, hy, fuel, hfirst⟩ := h x List.mem_cons_self
      obtain ⟨ys, hys, later, hrest⟩ := ih fun x' hx' => h x' (List.mem_cons_of_mem x hx')
      refine ⟨y :: ys, .cons hy hys, fuel + later, fun fuel' hle => ?_⟩
      rw [List.mapM_cons, hfirst fuel' (by omega), hrest fuel' (by omega)]
      rfl

theorem forall₂_right {α β : Type} {R : α → β → Prop} {xs : List α} {ys : List β}
    (h : List.Forall₂ R xs ys) {x : α} (hx : x ∈ xs) : ∃ y ∈ ys, R x y := by
  induction h with
  | nil => exact absurd hx List.not_mem_nil
  | cons hfirst _ ih =>
      cases List.mem_cons.mp hx with
      | inl heq => exact ⟨_, List.mem_cons_self, heq ▸ hfirst⟩
      | inr hrest =>
          obtain ⟨y, hy, hR⟩ := ih hrest
          exact ⟨y, List.mem_cons_of_mem _ hy, hR⟩

theorem forall₂_left {α β : Type} {R : α → β → Prop} {xs : List α} {ys : List β}
    (h : List.Forall₂ R xs ys) {y : β} (hy : y ∈ ys) : ∃ x ∈ xs, R x y :=
  forall₂_right h.flip hy

section Verifier
variable [DecidableEq K] {workers : ℕ} {directory : ℕ → ℕ} {processes : ℕ → ℕ → Process}
  {pending : List (K × JsonObject)}

omit [DecidableEq K] in
theorem chunks_keys :
    (chunks workers directory pending).flatten.map (·.key) = pending.map (·.1) := by
  have hsize : 0 < batchSize workers pending.length := by
    rw [batchSize]
    omega
  rw [chunks, chunksOf_flatten hsize, entriesOf, List.map_map]
  have hfst : (fun e : OracleEntry K => e.key) ∘ (fun entry : (K × JsonObject) × ℕ =>
      (⟨entry.1.1, directory entry.2, (entry.1.2.lookup "oracle").getD "null"⟩ : OracleEntry K))
        = Prod.fst ∘ Prod.fst := rfl
  rw [hfst, ← List.map_map, List.zipIdx_map_fst]

omit [DecidableEq K] in
/-- The results of the chunks have the keys of the pending jobs. -/
theorem results_keys {chunks : List (List (OracleEntry K) × ℕ)}
    {results : List (List (K × OracleResult))}
    (h : List.Forall₂ (fun chunk results => Settles (processes chunk.2) ⟨0, chunk.1⟩ results)
      chunks results) :
    (results.flatten.map (·.1)).Perm ((chunks.map (·.1)).flatten.map (·.key)) := by
  induction h with
  | nil => exact List.Perm.refl _
  | cons hfirst _ ih =>
      rw [List.flatten_cons, List.map_append, List.map_cons, List.flatten_cons, List.map_append]
      exact hfirst.keys.append ih

/-- The verifier comes to an end with one result for each key. The result is the one written
for the key's own job whenever a process left one; a batch that was stopped marks the first of
its jobs without a result, and the ones behind it are in the next batch; and there are no
other results. -/
theorem run_verifier_settles (hkeys : (pending.map (·.1)).Nodup)
    (hticks : ∀ i n, (processes i n).Ticks) :
    ∃ result : AList fun _ : K => OracleResult,
      (∃ fuel, ∀ fuel' ≥ fuel, run_verifier workers directory processes fuel' pending = some result)
      ∧ (∀ key, (∃ r, result.lookup key = some r) ↔ key ∈ pending.map (·.1))
      ∧ (∀ i chunk, (chunks workers directory pending)[i]? = some chunk →
          ∀ b, Batch.Starts (processes i) ⟨0, chunk⟩ b →
            (∀ e ∈ b.entries, ∀ r, (processes i b.number).result e.directory = some r →
              result.lookup e.key = some r)
            ∧ ∀ first rest, b.missing (processes i) = first :: rest →
              (∃ reason, b.Stops (processes i) (some reason)
                ∧ result.lookup first.key = some (unverified first.oracle (some reason)))
              ∧ (rest ≠ [] → Batch.Starts (processes i) ⟨0, chunk⟩ ⟨b.number + 1, rest⟩))
      ∧ ∀ key r, result.lookup key = some r →
          ∃ i chunk b, (chunks workers directory pending)[i]? = some chunk
            ∧ Batch.Starts (processes i) ⟨0, chunk⟩ b
            ∧ ((key, r) ∈ b.written (processes i) ∨ b.Marks (processes i) (key, r)) := by
  obtain ⟨results, hresults, fuel, hruns⟩ := mapM_fuel
    (f := fun fuel (chunk : List (OracleEntry K) × ℕ) =>
      verify_chunk (processes chunk.2) fuel ⟨0, chunk.1⟩)
    ((chunks workers directory pending).zipIdx)
    fun chunk _ => verify_chunk_settles (hticks chunk.2) ⟨0, chunk.1⟩
  have hperm := results_keys hresults
  rw [List.zipIdx_map_fst, chunks_keys] at hperm
  have hnodup : (results.flatten.map (·.1)).Nodup := hperm.nodup_iff.mpr hkeys
  have hlookup : ∀ key r, (results.foldl update ∅).lookup key = some r
      ↔ (key, r) ∈ results.flatten := by
    intro key r
    rw [← Tally.lookup_insert_nodup hnodup, List.foldl_flatten]
    rfl
  have hchunk : ∀ i chunk, (chunks workers directory pending)[i]? = some chunk →
      ∃ rs ∈ results, Settles (processes i) ⟨0, chunk⟩ rs := by
    intro i chunk hi
    have hmem : (chunk, i) ∈ (chunks workers directory pending).zipIdx :=
      List.mk_mem_zipIdx_iff_getElem?.mpr hi
    obtain ⟨rs, hrs, hsettles⟩ := forall₂_right hresults hmem
    exact ⟨rs, hrs, hsettles⟩
  refine ⟨results.foldl update ∅, ⟨fuel, fun fuel' hle => ?_⟩, fun key => ?_,
    fun i chunk hi b hb => ⟨fun e he r hr => ?_, fun first rest hmissing => ⟨?_, fun hrest => ?_⟩⟩,
    fun key r hr => ?_⟩
  · rw [run_verifier, hruns fuel' hle]
    rfl
  · rw [← hperm.mem_iff, List.mem_map]
    constructor
    · intro h
      obtain ⟨r, hr⟩ := h
      exact ⟨(key, r), (hlookup key r).mp hr, rfl⟩
    · intro h
      obtain ⟨entry, hentry, rfl⟩ := h
      exact ⟨entry.2, (hlookup entry.1 entry.2).mpr hentry⟩
  · obtain ⟨rs, hrs, hsettles⟩ := hchunk i chunk hi
    apply (hlookup e.key r).mpr
    apply List.mem_flatten.mpr
    exact ⟨rs, hrs, hsettles.written b hb _ (Batch.mem_written.mpr ⟨e, he, hr, rfl⟩)⟩
  · obtain ⟨rs, hrs, hsettles⟩ := hchunk i chunk hi
    have hstopped : b.missing (processes i) ≠ [] := by
      rw [hmissing]
      exact List.cons_ne_nil _ _
    obtain ⟨entry, hentry, first', rest', reason, hmissing', hstops, heq⟩ :=
      hsettles.marked b hb hstopped
    obtain ⟨rfl, _⟩ := List.cons.inj (hmissing.symm.trans hmissing')
    refine ⟨reason, hstops, (hlookup _ _).mpr ?_⟩
    exact List.mem_flatten.mpr ⟨rs, hrs, heq ▸ hentry⟩
  · obtain ⟨next, rest', rfl⟩ := List.exists_cons_of_ne_nil hrest
    exact hb.tail ⟨first, next, rest', hmissing, rfl⟩
  · obtain ⟨rs, hrs, hentry⟩ := List.mem_flatten.mp ((hlookup key r).mp hr)
    obtain ⟨chunk, hchunk, hsettles⟩ := forall₂_left hresults hrs
    obtain ⟨b, hb, hsettled⟩ := hsettles.others _ hentry
    exact ⟨chunk.2, chunk.1, b, List.mk_mem_zipIdx_iff_getElem?.mp hchunk, hb, hsettled⟩

end Verifier

/-! ## A verifier that hangs on every job but those in even directories -/

def sampleResult : OracleResult := ⟨some "verified", []⟩

def hangingVerifier : Process where
  started := 0
  poll k := ⟨false, fun _ => false, k, k⟩
  result out := if out % 2 = 0 then some sampleResult else none
  returncode := -9
  log := "verifier.log"

theorem hangingVerifier_ticks : hangingVerifier.Ticks := by
  intro t k
  obtain ⟨n, hn⟩ := exists_nat_gt t
  refine ⟨n, lt_of_lt_of_le hn ?_⟩
  simp [hangingVerifier]

def samplePending : List (ℕ × JsonObject) := [(10, []), (11, []), (12, []), (13, [])]

theorem run_verifier_settles_hanging :
    ∃ result : AList fun _ : ℕ => OracleResult,
      (∃ fuel, ∀ fuel' ≥ fuel,
        run_verifier 1 id (fun _ _ => hangingVerifier) fuel' samplePending = some result)
      ∧ (∀ key, (∃ r, result.lookup key = some r) ↔ key ∈ samplePending.map (·.1))
      ∧ (∀ (i : ℕ) chunk, (chunks 1 id samplePending)[i]? = some chunk →
          ∀ b, Batch.Starts (fun _ => hangingVerifier) ⟨0, chunk⟩ b →
            (∀ e ∈ b.entries, ∀ r, hangingVerifier.result e.directory = some r →
              result.lookup e.key = some r)
            ∧ ∀ first rest, b.missing (fun _ => hangingVerifier) = first :: rest →
              (∃ reason, b.Stops (fun _ => hangingVerifier) (some reason)
                ∧ result.lookup first.key = some (unverified first.oracle (some reason)))
              ∧ (rest ≠ [] →
                Batch.Starts (fun _ => hangingVerifier) ⟨0, chunk⟩ ⟨b.number + 1, rest⟩))
      ∧ ∀ key r, result.lookup key = some r →
          ∃ (i : ℕ) (chunk : List (OracleEntry ℕ)) (b : Batch ℕ),
            (chunks 1 id samplePending)[i]? = some chunk
            ∧ Batch.Starts (fun _ => hangingVerifier) ⟨0, chunk⟩ b
            ∧ ((key, r) ∈ b.written (fun _ => hangingVerifier)
              ∨ b.Marks (fun _ => hangingVerifier) (key, r)) :=
  run_verifier_settles (by decide) fun _ _ => hangingVerifier_ticks

/-- One step of the session's files does what a process does that answers its jobs in order:
the results it leaves are those of the first jobs, and its reason says whether any is
missing. -/
theorem batch_refines (v : Verifier K) {chunk : List (OracleEntry K)} {n fuel : ℕ}
    {w w' : VerifierFiles K} {process : Process} {problem : Option String} [DecidableEq K]
    (hw : w' = ((chunk.take n).map (·.directory)).foldl v.answer w)
    (hresult : ∀ e ∈ chunk, process.result e.directory = (w'.jobs e.directory).bind (·.result))
    (h : run_verifier_batch (chunk.map (·.directory)) process fuel = some problem) :
    Exec (Coordinator.run_verifier_batch v chunk) w (some (.ok problem)) w' := by
  apply Exec.perform
  refine ⟨n, hw, ?_⟩
  rw [run_verifier_batch_none h, List.forall_mem_map]
  apply forall₂_congr
  intro e he
  rw [hresult e he]

end TranspileBench.Coordinator.OracleBatch
