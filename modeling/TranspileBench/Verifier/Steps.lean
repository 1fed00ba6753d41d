import Mathlib
import TranspileBench.Lib.Fallible
import TranspileBench.Verifier.Dynamic

/-!
How many operations an execution runs, whatever the bound. Executions are derived from the
circuit alone, and one can be cut short anywhere, so that an execution without an end has a
derivation of every length. A bounded run gives what they say.
-/
namespace TranspileBench.Verifier
open Amplitudes Fallible

variable {P K : Type} [CommRing K] [StarRing K] [DecidableEq K] {n m : Nat}

/-- What an execution comes to, or that it was cut short. -/
inductive Outcome (n : Nat) (K : Type)
  | ended (branches : List (Branch n K))
  | failed (stop : Stop)
  | cut

/-- What is executed: a circuit, one of its operations on some branches or on one, and the
block of a `for` loop at the indices that are left. -/
inductive Task (P K : Type) [CommRing K] [StarRing K] (n m : Nat)
  | circuit {q c : Nat} (circuit : Circuit P K q c) (branches : List (Branch n K))
      (qmap : Fin q ↪ Fin n) (cmap : Fin c → Fin m)
  | each {q c : Nat} (op : Op P K q c) (branches : List (Branch n K))
      (qmap : Fin q ↪ Fin n) (cmap : Fin c → Fin m)
  | one {q c : Nat} (op : Op P K q c) (branch : Branch n K)
      (qmap : Fin q ↪ Fin n) (cmap : Fin c → Fin m)
  | indices {k l : Nat} (indices : List Int) (parameter : Option P) (body : Circuit P K k l)
      (branches : List (Branch n K)) (qmap : Fin k ↪ Fin n) (cmap : Fin l → Fin m)

/-- Tasks that are over at once. -/
inductive Task.Ends (assign : Assign P K) : Task P K n m → Outcome n K → Prop
  | done {q c : Nat} (phase : unitary K) (branches : List (Branch n K)) (qmap : Fin q ↪ Fin n)
      (cmap : Fin c → Fin m) :
      Task.Ends assign (.circuit (.done phase) branches qmap cmap) (.ended branches)
  | noBranch {q c : Nat} (op : Op P K q c) (qmap : Fin q ↪ Fin n) (cmap : Fin c → Fin m) :
      Task.Ends assign (.each op [] qmap cmap) (.ended [])
  | noIndex {k l : Nat} (parameter : Option P) (body : Circuit P K k l)
      (branches : List (Branch n K)) (qmap : Fin k ↪ Fin n) (cmap : Fin l → Fin m) :
      Task.Ends assign (.indices [] parameter body branches qmap cmap) (.ended branches)
  | unbound {k l : Nat} {index : Int} (indices : List Int) {parameter : Option P}
      {body : Circuit P K k l} (branches : List (Branch n K)) (qmap : Fin k ↪ Fin n)
      (cmap : Fin l → Fin m) (h : blockAt assign parameter body index = none) :
      Task.Ends assign (.indices (index :: indices) parameter body branches qmap cmap)
        (.failed .qiskit)
  | gate {q c k : Nat} (name : String) (U : Isometry (BitVec k) K) (qs : Fin k ↪ Fin q)
      (cs : List (Fin c)) (branch : Branch n K) (qmap : Fin q ↪ Fin n) (cmap : Fin c → Fin m) :
      Task.Ends assign (.one (.gate name (some U) qs cs) branch qmap cmap)
        (.ended [(evolve U (qs.trans qmap) branch.1, branch.2)])
  | refused {q c k : Nat} (name : String) (qs : Fin k ↪ Fin q) (cs : List (Fin c))
      (branch : Branch n K) (qmap : Fin q ↪ Fin n) (cmap : Fin c → Fin m) :
      Task.Ends assign (.one (.gate name none qs cs) branch qmap cmap)
        (.failed (.unsupported ("Dynamic operation unsupported: " ++ name)))
  | barrier {q c : Nat} (branch : Branch n K) (qmap : Fin q ↪ Fin n) (cmap : Fin c → Fin m) :
      Task.Ends assign (.one .barrier branch qmap cmap) (.ended [branch])
  | measure {q c : Nat} (wire : Fin q) (bit : Fin c) (branch : Branch n K)
      (qmap : Fin q ↪ Fin n) (cmap : Fin c → Fin m) :
      Task.Ends assign (.one (.measure wire bit) branch qmap cmap)
        (.ended ((outcomes (qmap wire) branch.1).map fun part =>
          (part.2, setBit branch.2 (cmap bit) part.1)))
  | reset {q c : Nat} (wire : Fin q) (branch : Branch n K) (qmap : Fin q ↪ Fin n)
      (cmap : Fin c → Fin m) :
      Task.Ends assign (.one (.reset wire) branch qmap cmap)
        (.ended ((outcomes (qmap wire) branch.1).map fun part =>
          (if part.1 then flipWire (qmap wire) part.2 else part.2, branch.2)))
  | noBlock {q c k l : Nat} {condition : Condition c} (body : Circuit P K k l) (qs : Fin k ↪ Fin q)
      (cs : Fin l → Fin c) {branch : Branch n K} (qmap : Fin q ↪ Fin n) {cmap : Fin c → Fin m}
      (fails : condition.test cmap branch.2 = false) :
      Task.Ends assign (.one (.ifThen condition body qs cs) branch qmap cmap) (.ended [branch])
  | noLoop {q c k l : Nat} {condition : Condition c} (body : Circuit P K k l) (qs : Fin k ↪ Fin q)
      (cs : Fin l → Fin c) {branch : Branch n K} (qmap : Fin q ↪ Fin n) {cmap : Fin c → Fin m}
      (fails : condition.test cmap branch.2 = false) :
      Task.Ends assign (.one (.whileLoop condition body qs cs) branch qmap cmap)
        (.ended [branch])

/-- Tasks that are another one: the block of a branch or of a loop over indices. -/
inductive Task.Enters : Task P K n m → Task P K n m → Prop
  | thenBlock {q c k l : Nat} {condition : Condition c} (body : Circuit P K k l)
      (qs : Fin k ↪ Fin q) (cs : Fin l → Fin c) {branch : Branch n K} (qmap : Fin q ↪ Fin n)
      {cmap : Fin c → Fin m} (holds : condition.test cmap branch.2 = true) :
      Task.Enters (.one (.ifThen condition body qs cs) branch qmap cmap)
        (.circuit body [branch] (qs.trans qmap) (cmap ∘ cs))
  | ifBlock {q c k l : Nat} {condition : Condition c} (body orelse : Circuit P K k l)
      (qs : Fin k ↪ Fin q) (cs : Fin l → Fin c) {branch : Branch n K} (qmap : Fin q ↪ Fin n)
      {cmap : Fin c → Fin m} (holds : condition.test cmap branch.2 = true) :
      Task.Enters (.one (.ifElse condition body orelse qs cs) branch qmap cmap)
        (.circuit body [branch] (qs.trans qmap) (cmap ∘ cs))
  | elseBlock {q c k l : Nat} {condition : Condition c} (body orelse : Circuit P K k l)
      (qs : Fin k ↪ Fin q) (cs : Fin l → Fin c) {branch : Branch n K} (qmap : Fin q ↪ Fin n)
      {cmap : Fin c → Fin m} (fails : condition.test cmap branch.2 = false) :
      Task.Enters (.one (.ifElse condition body orelse qs cs) branch qmap cmap)
        (.circuit orelse [branch] (qs.trans qmap) (cmap ∘ cs))
  | forLoop {q c k l : Nat} (indices : List Int) (parameter : Option P) (body : Circuit P K k l)
      (qs : Fin k ↪ Fin q) (cs : Fin l → Fin c) (branch : Branch n K) (qmap : Fin q ↪ Fin n)
      (cmap : Fin c → Fin m) :
      Task.Enters (.one (.forLoop indices parameter body qs cs) branch qmap cmap)
        (.indices indices parameter body [branch] (qs.trans qmap) (cmap ∘ cs))

/-- Tasks in two parts: what comes first, what follows the branches that it ends with, how
many operations are run before both, and whether the branches of both parts are kept. -/
inductive Task.Splits (assign : Assign P K) :
    Task P K n m → Task P K n m → (List (Branch n K) → Task P K n m) → Nat → Bool → Prop
  | operation {q c : Nat} (op : Op P K q c) (rest : Circuit P K q c)
      (branches : List (Branch n K)) (qmap : Fin q ↪ Fin n) (cmap : Fin c → Fin m) :
      Task.Splits assign (.circuit (.cons op rest) branches qmap cmap)
        (.each op branches qmap cmap) (fun mid => .circuit rest mid qmap cmap) 1 false
  | branch {q c : Nat} (op : Op P K q c) (branch : Branch n K) (branches : List (Branch n K))
      (qmap : Fin q ↪ Fin n) (cmap : Fin c → Fin m) :
      Task.Splits assign (.each op (branch :: branches) qmap cmap) (.one op branch qmap cmap)
        (fun _ => .each op branches qmap cmap) 0 true
  | again {q c k l : Nat} {condition : Condition c} (body : Circuit P K k l) (qs : Fin k ↪ Fin q)
      (cs : Fin l → Fin c) {branch : Branch n K} (qmap : Fin q ↪ Fin n) {cmap : Fin c → Fin m}
      (holds : condition.test cmap branch.2 = true) :
      Task.Splits assign (.one (.whileLoop condition body qs cs) branch qmap cmap)
        (.circuit body [branch] (qs.trans qmap) (cmap ∘ cs))
        (fun parts => .circuit (.cons (.whileLoop condition body qs cs) (.done 1)) parts qmap cmap)
        0 false
  | index {k l : Nat} {index : Int} (indices : List Int) {parameter : Option P}
      {body block : Circuit P K k l} (branches : List (Branch n K)) (qmap : Fin k ↪ Fin n)
      (cmap : Fin l → Fin m) (h : blockAt assign parameter body index = some block) :
      Task.Splits assign (.indices (index :: indices) parameter body branches qmap cmap)
        (.circuit block branches qmap cmap)
        (fun parts => .indices indices parameter body parts qmap cmap) 0 false

/-- The outcome of two parts by that of the second. -/
def Outcome.join (keeps : Bool) (first : List (Branch n K)) : Outcome n K → Outcome n K
  | .ended following => .ended (if keeps then first ++ following else following)
  | outcome => outcome

/-- An execution comes to an outcome after some operations. -/
inductive Executes (assign : Assign P K) : Task P K n m → Outcome n K → Nat → Prop
  | cut (task : Task P K n m) : Executes assign task .cut 0
  | ends {task : Task P K n m} {outcome : Outcome n K} (h : task.Ends assign outcome) :
      Executes assign task outcome 0
  | enters {task block : Task P K n m} {outcome : Outcome n K} {k : Nat} (h : task.Enters block)
      (run : Executes assign block outcome k) : Executes assign task outcome k
  | both {task first : Task P K n m} {second : List (Branch n K) → Task P K n m} {i j k : Nat}
      {keeps : Bool} {mid : List (Branch n K)} {outcome : Outcome n K}
      (h : task.Splits assign first second i keeps) (before : Executes assign first (.ended mid) j)
      (after : Executes assign (second mid) outcome k) :
      Executes assign task (outcome.join keeps mid) (i + j + k)
  | first {task first : Task P K n m} {second : List (Branch n K) → Task P K n m} {i j : Nat}
      {keeps : Bool} {outcome : Outcome n K} (h : task.Splits assign first second i keeps)
      (before : Executes assign first outcome j) (stops : ∀ mid, outcome ≠ .ended mid) :
      Executes assign task outcome (i + j)

/-! ## The bounded run -/

/-- A task under a bound. -/
def Task.run (assign : Assign P K) (max_steps fuel : Nat) :
    Task P K n m → Nat → Except Stop (List (Branch n K) × Nat)
  | .circuit data branches qmap cmap, steps =>
      Verifier.run assign max_steps fuel _ _ data steps branches qmap cmap
  | .each op branches qmap cmap, steps =>
      eachBranch (exec assign (Verifier.run assign max_steps fuel) qmap cmap op) branches steps
  | .one op branch qmap cmap, steps =>
      exec assign (Verifier.run assign max_steps fuel) qmap cmap op branch steps
  | .indices values parameter body branches qmap cmap, steps =>
      eachIndex (fun index steps parts =>
        match blockAt assign parameter body index with
        | some block => Verifier.run assign max_steps fuel _ _ block steps parts qmap cmap
        | none => .error .qiskit)
        values steps branches

section Bounded
variable {assign : Assign P K} {max_steps fuel steps : Nat} {task block first : Task P K n m}
  {second : List (Branch n K) → Task P K n m} {outcome : Outcome n K}

/-- The result of an outcome that was not cut short. -/
def Outcome.result (steps : Nat) : Outcome n K → Except Stop (List (Branch n K) × Nat)
  | .ended branches => .ok (branches, steps)
  | .failed stop => .error stop
  | .cut => .error exceeded

theorem Task.Ends.run (h : task.Ends assign outcome) :
    outcome ≠ .cut ∧ task.run assign max_steps fuel steps = outcome.result steps := by
  cases h with
  | done phase => exact ⟨nofun, by rw [Task.run, Verifier.run]; rfl⟩
  | unbound indices branches qmap cmap h =>
      refine ⟨nofun, ?_⟩
      simp only [Task.run, eachIndex, h]
      rfl
  | noBlock body qs cs qmap fails => exact ⟨nofun, by simp [Task.run, exec, fails, Outcome.result]⟩
  | noLoop body qs cs qmap fails => exact ⟨nofun, by simp [Task.run, exec, fails, Outcome.result]⟩
  | _ => exact ⟨nofun, rfl⟩

theorem Task.Enters.run (h : task.Enters block) :
    task.run assign max_steps fuel steps = block.run assign max_steps fuel steps := by
  cases h with
  | thenBlock body qs cs qmap holds => simp only [Task.run, exec, holds, if_true]
  | ifBlock body orelse qs cs qmap holds => simp only [Task.run, exec, holds, if_true]
  | elseBlock body orelse qs cs qmap fails =>
      simp only [Task.run, exec, fails, Bool.false_eq_true, if_false]
  | forLoop indices parameter body qs cs branch qmap cmap => rfl

/-- The two parts one after the other, from the steps on that are counted before. -/
def inParts (assign : Assign P K) (max_steps fuel : Nat) (first : Task P K n m)
    (second : List (Branch n K) → Task P K n m) (keeps : Bool) (steps : Nat) :
    Except Stop (List (Branch n K) × Nat) := do
  let mid ← first.run assign max_steps fuel steps
  let following ← (second mid.1).run assign max_steps fuel mid.2
  pure (if keeps then mid.1 ++ following.1 else following.1, following.2)

/-- With fuel for the steps that are left, a task is run in its parts. -/
theorem Task.Splits.run {i : Nat} {keeps : Bool} (h : task.Splits assign first second i keeps)
    (hfuel : max_steps < steps + fuel) (hle : steps ≤ max_steps) :
    max_steps < steps + i + (fuel - i) ∧ task.run assign max_steps fuel steps =
      if max_steps < steps + i then .error exceeded
      else inParts assign max_steps (fuel - i) first second keeps (steps + i) := by
  cases h with
  | operation op rest branches qmap cmap =>
      obtain ⟨fuel', rfl⟩ : ∃ fuel', fuel = fuel' + 1 := ⟨fuel - 1, by omega⟩
      refine ⟨by omega, ?_⟩
      rw [Task.run, Verifier.run, countStep, Nat.add_sub_cancel]
      split
      · rfl
      · simp only [inParts, Task.run, Bool.false_eq_true, if_false, Prod.mk.eta, bind_pure]
        rfl
  | branch op branch branches qmap cmap =>
      refine ⟨hfuel, ?_⟩
      rw [Nat.add_zero, if_neg (not_lt.mpr hle)]
      rfl
  | again body qs cs qmap holds =>
      refine ⟨hfuel, ?_⟩
      rw [Nat.add_zero, if_neg (not_lt.mpr hle), Nat.sub_zero]
      simp only [inParts, Task.run, exec, holds, if_true, Bool.false_eq_true, if_false,
        Prod.mk.eta, bind_pure]
  | index indices branches qmap cmap h =>
      refine ⟨hfuel, ?_⟩
      rw [Nat.add_zero, if_neg (not_lt.mpr hle), Nat.sub_zero]
      simp only [inParts, Task.run, eachIndex, h, Bool.false_eq_true, if_false, Prod.mk.eta,
        bind_pure]

/-- What a bound makes of an execution. -/
def Bounded (max_steps steps : Nat) (outcome : Outcome n K) (k : Nat)
    (result : Except Stop (List (Branch n K) × Nat)) : Prop :=
  (max_steps < steps + k → result = .error exceeded) ∧
    (steps + k ≤ max_steps → outcome ≠ .cut → result = outcome.result (steps + k))

/-- An execution that takes more steps than are left is refused, and one that is over before
gives its outcome. -/
theorem Executes.bounded {k : Nat} (h : Executes assign task outcome k)
    (hfuel : max_steps < steps + fuel) (hle : steps ≤ max_steps) :
    Bounded max_steps steps outcome k (task.run assign max_steps fuel steps) := by
  induction h generalizing fuel steps with
  | cut task => exact ⟨fun h => absurd h (by omega), fun _ h => absurd rfl h⟩
  | ends h => exact ⟨fun h => absurd h (by omega), fun _ _ => h.run.2⟩
  | enters h run ih =>
      rw [h.run]
      exact ih hfuel hle
  | @both task first second i j k keeps mid outcome h before after ihbefore ihafter =>
      obtain ⟨hfuel', hrun⟩ := h.run hfuel hle
      rw [hrun]
      by_cases hcount : max_steps < steps + i
      · rw [if_pos hcount]
        exact ⟨fun _ => rfl, fun h => absurd h (by omega)⟩
      rw [if_neg hcount]
      obtain ⟨hlong, hshort⟩ := ihbefore hfuel' (by omega)
      by_cases hmid : max_steps < steps + i + j
      · rw [inParts, hlong hmid]
        exact ⟨fun _ => rfl, fun h => absurd h (by omega)⟩
      obtain ⟨hlong', hshort'⟩ := @ihafter (fuel - i) (steps + i + j) (by omega) (by omega)
      rw [inParts, hshort (by omega) nofun]
      constructor
      · intro hmany
        simp only [Outcome.result, bind, Except.bind, hlong' (by omega)]
      · intro hfew hcut
        simp only [Outcome.result, bind, Except.bind]
        rw [hshort' (by omega) (by rintro rfl; exact hcut rfl)]
        cases outcome with
        | ended following =>
            simp only [Outcome.join, Outcome.result, add_assoc]
            rfl
        | failed stop => rfl
        | cut => exact absurd rfl hcut
  | @first task first second i j keeps outcome h before stops ihbefore =>
      obtain ⟨hfuel', hrun⟩ := h.run hfuel hle
      rw [hrun]
      by_cases hcount : max_steps < steps + i
      · rw [if_pos hcount]
        exact ⟨fun _ => rfl, fun h => absurd h (by omega)⟩
      rw [if_neg hcount]
      obtain ⟨hlong, hshort⟩ := ihbefore hfuel' (by omega)
      constructor
      · intro hmany
        rw [inParts, hlong (by omega)]
        rfl
      · intro hfew hcut
        rw [inParts, hshort (by omega) hcut]
        cases outcome with
        | ended mid => exact absurd rfl (stops mid)
        | failed stop => rfl
        | cut => exact absurd rfl hcut

/-! ## Every bounded run is of an execution -/

/-- The result is that of an execution which was over within the bound, or which was cut short
one step after it. -/
def Gave (max_steps steps : Nat) (result : Except Stop (List (Branch n K) × Nat)) (k : Nat) :
    Outcome n K → Prop
  | .ended branches => result = .ok (branches, steps + k) ∧ steps + k ≤ max_steps
  | .failed stop => result = .error stop ∧ steps + k ≤ max_steps
  | .cut => result = .error exceeded ∧ steps + k = max_steps + 1

/-- A task under a bound gives what one of its executions does. -/
def Explained (assign : Assign P K) (max_steps fuel : Nat) (task : Task P K n m) (steps : Nat) :
    Prop :=
  ∃ outcome k, Executes assign task outcome k ∧
    Gave max_steps steps (task.run assign max_steps fuel steps) k outcome

theorem Task.Ends.explained (h : task.Ends assign outcome) (hle : steps ≤ max_steps) :
    Explained assign max_steps fuel task steps := by
  refine ⟨outcome, 0, .ends h, ?_⟩
  obtain ⟨hcut, hrun⟩ := @Task.Ends.run _ _ _ _ _ _ _ assign max_steps fuel steps task outcome h
  rw [hrun]
  cases outcome with
  | ended branches => exact ⟨rfl, hle⟩
  | failed stop => exact ⟨rfl, hle⟩
  | cut => exact absurd rfl hcut

theorem Task.Enters.explained (h : task.Enters block)
    (hblock : Explained assign max_steps fuel block steps) :
    Explained assign max_steps fuel task steps := by
  obtain ⟨outcome, k, hexec, hgave⟩ := hblock
  exact ⟨outcome, k, .enters h hexec, h.run ▸ hgave⟩

/-- A task in two parts, the second from where the first got. -/
theorem Task.Splits.explained {i : Nat} {keeps : Bool}
    (h : task.Splits assign first second i keeps) (hfuel : max_steps < steps + fuel)
    (hle : steps ≤ max_steps)
    (hfirst : steps + i ≤ max_steps → Explained assign max_steps (fuel - i) first (steps + i))
    (hsecond : ∀ mid after, steps + i ≤ after → after ≤ max_steps →
      Explained assign max_steps (fuel - i) (second mid) after) :
    Explained assign max_steps fuel task steps := by
  obtain ⟨-, hrun⟩ := h.run hfuel hle
  by_cases hcount : max_steps < steps + i
  · refine ⟨.cut, i + 0, .first h (.cut first) nofun, by rw [hrun, if_pos hcount], ?_⟩
    -- an operation counts one step
    have : i ≤ 1 := by cases h <;> decide
    omega
  rw [if_neg hcount] at hrun
  obtain ⟨outcome, j, hexec, hgave⟩ := hfirst (by omega)
  cases outcome with
  | failed stop =>
      refine ⟨.failed stop, i + j, .first h hexec nofun, ?_, by have := hgave.2; omega⟩
      rw [hrun, inParts, hgave.1]
      rfl
  | cut =>
      refine ⟨.cut, i + j, .first h hexec nofun, ?_, by have := hgave.2; omega⟩
      rw [hrun, inParts, hgave.1]
      rfl
  | ended mid =>
      obtain ⟨outcome, k, hexec', hgave'⟩ := hsecond mid (steps + i + j) (by omega) hgave.2
      refine ⟨outcome.join keeps mid, i + j + k, .both h hexec hexec', ?_⟩
      have hparts : inParts assign max_steps (fuel - i) first second keeps (steps + i) =
          (do
          let following ← (second mid).run assign max_steps (fuel - i) (steps + i + j)
          pure (if keeps then mid ++ following.1 else following.1, following.2)) := by
        rw [inParts, hgave.1]
        rfl
      rw [hrun, hparts]
      cases outcome with
      | ended following =>
          rw [hgave'.1]
          refine ⟨?_, by have := hgave'.2; omega⟩
          simp only [add_assoc]
          rfl
      | failed stop =>
          rw [hgave'.1]
          exact ⟨rfl, by have := hgave'.2; omega⟩
      | cut =>
          rw [hgave'.1]
          exact ⟨rfl, by have := hgave'.2; omega⟩

section Circuits
variable {base : Nat} (hcircuits : ∀ {q c : Nat} (circuit : Circuit P K q c)
  (branches : List (Branch n K)) (qmap : Fin q ↪ Fin n) (cmap : Fin c → Fin m) {steps : Nat},
  base ≤ steps → steps ≤ max_steps →
    Explained assign max_steps fuel (.circuit circuit branches qmap cmap) steps)
  (hfuel : max_steps < base + fuel)
include hcircuits hfuel

theorem indices_explained {k l : Nat} (indices : List Int) (parameter : Option P)
    (body : Circuit P K k l) (branches : List (Branch n K)) (qmap : Fin k ↪ Fin n)
    (cmap : Fin l → Fin m) (hbase : base ≤ steps) (hle : steps ≤ max_steps) :
    Explained assign max_steps fuel (.indices indices parameter body branches qmap cmap) steps := by
  induction indices generalizing branches steps with
  | nil => exact (Task.Ends.noIndex parameter body branches qmap cmap).explained hle
  | cons index indices ih =>
      cases hblock : blockAt assign parameter body index with
      | none => exact (Task.Ends.unbound indices branches qmap cmap hblock).explained hle
      | some block =>
          refine (Task.Splits.index indices branches qmap cmap hblock).explained (by omega) hle
            (fun _ => hcircuits block branches qmap cmap hbase hle) fun mid after hafter hlast => ?_
          exact ih mid (hbase.trans hafter) hlast

/-- With circuits explained from `base` on, so is one operation on one branch. -/
theorem one_explained {q c : Nat} (op : Op P K q c) (branch : Branch n K)
    (qmap : Fin q ↪ Fin n) (cmap : Fin c → Fin m) (hbase : base ≤ steps) (hle : steps ≤ max_steps) :
    Explained assign max_steps fuel (.one op branch qmap cmap) steps := by
  cases op with
  | gate name matrix qs cs =>
      cases matrix with
      | none => exact (Task.Ends.refused name qs cs branch qmap cmap).explained hle
      | some U => exact (Task.Ends.gate name U qs cs branch qmap cmap).explained hle
  | barrier => exact (Task.Ends.barrier branch qmap cmap).explained hle
  | measure wire bit => exact (Task.Ends.measure wire bit branch qmap cmap).explained hle
  | reset wire => exact (Task.Ends.reset wire branch qmap cmap).explained hle
  | ifThen condition body qs cs =>
      cases htest : condition.test cmap branch.2 with
      | true =>
          exact (Task.Enters.thenBlock body qs cs qmap htest).explained
            (hcircuits _ _ _ _ hbase hle)
      | false => exact (Task.Ends.noBlock body qs cs qmap htest).explained hle
  | ifElse condition body orelse qs cs =>
      cases htest : condition.test cmap branch.2 with
      | true =>
          exact (Task.Enters.ifBlock body orelse qs cs qmap htest).explained
            (hcircuits _ _ _ _ hbase hle)
      | false =>
          exact (Task.Enters.elseBlock body orelse qs cs qmap htest).explained
            (hcircuits _ _ _ _ hbase hle)
  | whileLoop condition body qs cs =>
      cases htest : condition.test cmap branch.2 with
      | false => exact (Task.Ends.noLoop body qs cs qmap htest).explained hle
      | true =>
          refine (Task.Splits.again body qs cs qmap htest).explained (by omega) hle
            (fun _ => hcircuits _ _ _ _ hbase hle) fun parts after hafter hlast => ?_
          exact hcircuits _ _ _ _ (hbase.trans hafter) hlast
  | forLoop indices parameter body qs cs =>
      refine (Task.Enters.forLoop indices parameter body qs cs branch qmap cmap).explained ?_
      exact indices_explained hcircuits hfuel indices parameter body _ _ _ hbase hle

theorem each_explained {q c : Nat} (op : Op P K q c) (branches : List (Branch n K))
    (qmap : Fin q ↪ Fin n) (cmap : Fin c → Fin m) (hbase : base ≤ steps) (hle : steps ≤ max_steps) :
    Explained assign max_steps fuel (.each op branches qmap cmap) steps := by
  induction branches generalizing steps with
  | nil => exact (Task.Ends.noBranch op qmap cmap).explained hle
  | cons branch branches ih =>
      refine (Task.Splits.branch op branch branches qmap cmap).explained (by omega) hle
        (fun _ => one_explained hcircuits hfuel op branch qmap cmap hbase hle)
        fun _ after hafter hlast => ?_
      exact ih (hbase.trans hafter) hlast

end Circuits

/-- With fuel for the steps that are left, a run of a circuit gives what one of its executions
does: every operation takes a step. -/
theorem circuit_explained {q c : Nat} (circuit : Circuit P K q c) (branches : List (Branch n K))
    (qmap : Fin q ↪ Fin n) (cmap : Fin c → Fin m) (hfuel : max_steps < steps + fuel)
    (hle : steps ≤ max_steps) :
    Explained assign max_steps fuel (.circuit circuit branches qmap cmap) steps := by
  induction fuel generalizing q c circuit branches qmap cmap steps with
  | zero => exact absurd hfuel (by omega)
  | succ fuel ih =>
      cases circuit with
      | done phase => exact (Task.Ends.done phase branches qmap cmap).explained hle
      | cons op rest =>
          have hcircuits : ∀ {q c : Nat} (circuit : Circuit P K q c)
              (branches : List (Branch n K)) (qmap : Fin q ↪ Fin n) (cmap : Fin c → Fin m)
              {after : Nat}, steps + 1 ≤ after → after ≤ max_steps →
                Explained assign max_steps fuel (.circuit circuit branches qmap cmap) after :=
            fun circuit branches qmap cmap _ hafter hlast =>
              ih circuit branches qmap cmap (by omega) hlast
          exact (Task.Splits.operation op rest branches qmap cmap).explained hfuel hle
            (fun hcount => each_explained hcircuits (by omega) op branches qmap cmap le_rfl hcount)
            fun mid after hafter hlast => hcircuits rest mid qmap cmap hafter hlast

end Bounded

end TranspileBench.Verifier
