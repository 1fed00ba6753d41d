import TranspileBench.Lsf.Manager

/-!
Runs of the manager's commands: where they can get to from a given moment.
-/
namespace TranspileBench.Lsf
open Coordinator Evaluator

/-- A session before it is compiled, under a ledger. -/
def Cluster.resting {H Q : Type} (q : Q) (l : Ledger) : Cluster Int H Q where
  site := ⟨World.empty, ⟨"run", "session", true, ⟨none, some 56⟩, "python", "project",
    "lsf", "INFO"⟩,
    l, [], []⟩
  queue := q
  outcomes _ := none
  invoker _ := none
  lock := none
  seen := []
  decided := []
  cleaned := []
  exchanges := []

section Playback
variable {N H Q α : Type} {S : Scheduler Q} {w : Cluster N H Q} {key : String} {e : Entry}

theorem exec_consult (f : Ledger → α) :
    Exec (consult f : Prog (Cluster N H Q) Halt α) w (some (.ok (f w.ledger))) w := .read _

theorem exec_entryOf (found : w.ledger.job key = some e) :
    Exec (entryOf key : Prog (Cluster N H Q) Halt Entry) w (some (.ok e)) w := by
  refine (exec_consult _).bind ?_
  rw [found]
  exact .ret e w

theorem exec_save (f : Ledger → Ledger) :
    Exec (save f : Prog (Cluster N H Q) Halt Unit) w (some (.ok ()))
      (w.setLedger (f w.ledger)) := by
  have step : (w.setLedger (f w.ledger) = w.setLedger (f w.ledger) ∨
      (.ok () : Except Halt Unit) ≠ .ok () ∧ w.setLedger (f w.ledger) = w) ∧
      ∀ e, (.ok () : Except Halt Unit) = .error e → broken e := ⟨.inl rfl, fun _ h => by cases h⟩
  exact Exec.act (b := Except.ok ()) step (.ret () _)

theorem exec_clock (b : Bool) :
    Exec (clock : Prog (Cluster N H Q) Halt Bool) w (some (.ok b)) w := .answer trivial

theorem exec_submitJob {r : Request} {answer : SubmitOutcome} {q : Q}
    (h : S.bsub w.queue r answer q) :
    Exec (submitJob S r : Prog (Cluster N H Q) Halt _) w (some (.ok answer)) { w with
      queue := q
      site := { w.site with submitted := w.site.submitted ++ [(r.name, answer)] } } :=
  .perform ⟨q, h, rfl⟩

theorem exec_queryJob {id : String} {answer : Except String JobStatus}
    (h : S.bjobs w.queue id answer) :
    Exec (queryJob S id : Prog (Cluster N H Q) Halt _) w (some (.ok answer))
      ((w.report id answer.toOption).exchange (.queried id answer)) :=
  .perform ⟨h, rfl⟩

theorem exec_jobHistory {id : String} {answer : Option JobStatus} (h : S.bhist w.queue id answer)
    (terminal : ∀ s ∈ answer, s.terminal = true) :
    Exec (jobHistory S id : Prog (Cluster N H Q) Halt _) w (some (.ok answer))
      ((w.report id answer).exchange (.recalled id answer)) :=
  .perform ⟨h, terminal, rfl⟩

theorem exec_findJobs {name : String} (listed : List JobStatus)
    (h : S.named w.queue name (.ok listed)) :
    Exec (findJobs S name : Prog (Cluster N H Q) Halt _) w
      (some (.ok (.ok (listed.filter (·.state != .NOTFOUND)))))
      (w.exchange (.found name (.ok (listed.filter (·.state != .NOTFOUND))))) :=
  .perform ⟨rfl, .ok listed, h, rfl⟩

/-- A job that is still listed. -/
theorem exec_currentStatus {id : String} {s : JobStatus} (h : S.bjobs w.queue id (.ok s))
    (listed : s.state ≠ .NOTFOUND) :
    Exec (currentStatus S id : Prog (Cluster N H Q) Halt _) w (some (.ok (.ok s)))
      ((w.report id (some s)).exchange (.queried id (.ok s))) := by
  refine (exec_queryJob h).bind ?_
  dsimp only
  rw [if_neg listed]
  exact .ret _ _

/-- What a job without an outcome record is settled as. -/
def unrecordedKind (e : Entry) (status : Option JobStatus) (lost : Bool) : OutcomeKind :=
  if lost ∨ e.status = .unreconciled then .lost
  else if status.any (·.state == .EXIT) then .killed else .unknown

theorem exec_settle {status : Option JobStatus} {lost cancelled : Bool}
    (found : w.ledger.job key = some e) (unrecorded : w.outcomes key = none) :
    Exec (settle key status lost cancelled : Prog (Cluster N H Q) Halt Unit) w (some (.ok ()))
      ((w.sight (.record key none)).setLedger (w.ledger.update key
        (Entry.settled status none (cancelledKind cancelled (unrecordedKind e status lost))))) := by
  refine (exec_entryOf found).bind (Exec.bind (a := none) (.fallible ⟨unrecorded.symm, rfl⟩) ?_)
  refine Exec.bind (a := unrecordedKind e status lost) ?_ ((exec_save _).bind (.request trivial))
  unfold classify unrecordedKind
  split_ifs <;> exact .ret _ _

/-- A submitted job that has ended is settled, not killed. -/
theorem exec_cancelOne_ended {user : String} {s : JobStatus} (found : w.ledger.job key = some e)
    (submitted : e.status = .submitted) (h : S.bjobs w.queue (e.job_id.getD "") (.ok s))
    (terminal : s.terminal = true) (unrecorded : w.outcomes key = none) :
    Exec (cancelOne S user key : Prog (Cluster N H Q) Halt Bool) w (some (.ok false))
      (((((w.report (e.job_id.getD "") (some s)).exchange
        (.queried (e.job_id.getD "") (.ok s))).sight (.record key none))).setLedger
        (w.ledger.update key (Entry.settled (some s) none
          (cancelledKind true (unrecordedKind e (some s) false))))) := by
  have listed : s.state ≠ .NOTFOUND := by
    intro hs
    simp [JobStatus.terminal, hs] at terminal
  refine (exec_entryOf found).bind ?_
  rw [if_neg (not_not.mpr submitted)]
  refine (exec_currentStatus h listed).bind ?_
  dsimp only
  rw [if_pos terminal]
  refine Exec.bind (exec_settle (e := e) ?_ ?_) (.ret false _)
  · exact found
  · exact unrecorded

/-- When one job is owned and it has ended, nothing is killed and nothing is waited for. -/
theorem exec_cancelOwned_ended {user : String} {manager : Bool} (rounds : ℕ)
    (owned : (w.ledger.owned manager).map (·.key) = [key]) {w' : Cluster N H Q}
    (settled : Exec (cancelOne S user key : Prog (Cluster N H Q) Halt Bool) w
    (some (.ok false)) w') :
    Exec (cancelOwned S user rounds manager : Prog (Cluster N H Q) Halt Unit) w
      (some (.ok ())) w' := by
  refine (exec_consult _).bind ?_
  rw [owned]
  refine Exec.bind (a := []) (Exec.bind (a := []) (settled.bind (.ret [] w')) (.ret [] w')) ?_
  cases rounds <;> exact .ret () w'

end Playback
end TranspileBench.Lsf
