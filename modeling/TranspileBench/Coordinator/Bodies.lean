import TranspileBench.Coordinator.Effects
import TranspileBench.Coordinator.CostReplay

/-!
The stage bodies on their own files: every record they write keeps to its stage, and
only the cost stage can end contaminated.
-/
namespace TranspileBench.Coordinator
open Evaluator

variable {N H : Type}

/-- What a body keeps of its stage's files. -/
structure BodyInv (platform : Platform N H) (profile : Profile N) (torn : Prop) (s : Stage)
    (st : StageState) (f : StageFiles N) : Prop where
  state : f.state = some st
  records : ∀ r ∈ f.evidence, StageRecord profile.manifest.prefix_ s r
  observed : s = .quality → ∃ rows, Observed platform profile torn f rows

/-- The contract of a body, on files nobody else writes. -/
def bodyContract (platform : Platform N H) (profile : Profile N) (torn : Prop) (s : Stage)
    (st : StageState) : Contract (StageFiles N) :=
  Contract.alone (BodyInv platform profile torn s st) fun _ _ => True

section Ids
variable {manifest : Manifest N} {s : Stage} {r : Record N}

/-- An id of no profile: its second letter is not that of a profile prefix. -/
theorem StageRecord.foreign (hid : r.id.toList[1]? ≠ some 'A')
    (hkind : r.kind ≠ .cost ∧ r.kind ≠ .improvement) :
    StageRecord manifest.prefix_ s r := by
  have hpre : ∀ rest, r.id ≠ manifest.prefix_ ++ rest := by
    intro rest heq
    rw [heq] at hid
    cases hconfirm : manifest.confirm <;> simp [Manifest.prefix_, hconfirm] at hid
  refine ⟨hpre _, fun _ => ⟨hkind.1, ?_⟩, fun _ => hkind.2⟩
  rintro ⟨rest, heq⟩
  exact hpre ("5" ++ "/" ++ rest) (by rw [heq, String.append_assoc])

/-- An id of the profile outside section 5 and stage coverage. -/
theorem StageRecord.own {k : String} (hid : r.id = manifest.prefix_ ++ k)
    (section_ : k.toList[0]? ≠ some '5') (name : k.toList[2]? ≠ some 's')
    (hkind : r.kind ≠ .cost ∧ r.kind ≠ .improvement) : StageRecord manifest.prefix_ s r := by
  have cancel : ∀ {k' : String}, r.id = manifest.prefix_ ++ k' → k = k' := by
    intro k' heq
    have hlist := congrArg String.toList (hid.symm.trans heq)
    simp only [String.toList_append, List.append_cancel_left_eq] at hlist
    exact String.toList_injective hlist
  refine ⟨fun heq => ?_, fun _ => ⟨hkind.1, ?_⟩, fun _ => hkind.2⟩
  · rw [cancel heq] at name
    simp at name
  · rintro ⟨rest, heq⟩
    rw [cancel (heq.trans String.append_assoc)] at section_
    simp at section_

theorem errorRecord_record (s : Stage) (e : Exn) :
    StageRecord manifest.prefix_ s (errorRecord s e : Record N) :=
  .foreign (by simp [errorRecord, Stage.errorId]) (by simp [errorRecord])

end Ids

section Safe
variable {platform : Platform N H} {profile : Profile N} {torn : Prop} {s : Stage}
  {st : StageState}

theorem mem_putRecord {evidence : List (Record N)} {row r : Record N} :
    r ∈ putRecord evidence row ↔ (r ∈ evidence ∧ r.id ≠ row.id) ∨ r = row := by
  simp [putRecord]

/-- A record of the stage may be written; in quality it must not pose as a failure record. -/
theorem BodyInv.putRecord {f : StageFiles N} {row : Record N}
    (h : BodyInv platform profile torn s st f) (hrow : StageRecord profile.manifest.prefix_ s row)
    (hid : s = .quality → ∀ id, row.id ≠ "failure/" ++ id) :
    BodyInv platform profile torn s st { f with evidence := putRecord f.evidence row } := by
  refine ⟨h.state, fun r hr => ?_, fun hs => ?_⟩
  · rcases mem_putRecord.mp hr with ⟨hr, -⟩ | rfl
    · exact h.records r hr
    · exact hrow
  · obtain ⟨rows, hrows⟩ := h.observed hs
    refine ⟨rows, hrows.file, hrows.row, hrows.nodup, hrows.agree.imp_right fun agree =>
      ⟨fun x hx hbad => ?_, fun r hr id hrid => ?_⟩⟩
    · exact mem_putRecord.mpr (.inl ⟨agree.recorded x hx hbad, Ne.symm (hid hs x.id)⟩)
    · rcases mem_putRecord.mp hr with ⟨hr, -⟩ | rfl
      · exact agree.committed r hr id hrid
      · exact absurd hrid (hid hs id)

theorem wp_putEvidence {f : StageFiles N} {row : Record N}
    (hrow : StageRecord profile.manifest.prefix_ s row)
    (hid : s = .quality → ∀ id, row.id ≠ "failure/" ++ id) :
    (putEvidence row).wp (bodyContract platform profile torn s st)
      (fun _ g => row ∈ g.evidence) (fun e _ => crash e) f := by
  unfold putEvidence
  rw [Prog.wp_bind]
  refine Prog.wp_fallible (fun _ => trivial) ?_ fun _ _ _ _ he => he.crash
  rintro _ rfl hinv _ _ rfl
  refine ⟨trivial, hinv.putRecord hrow hid, ?_⟩
  refine Prog.wp_fallible (fun _ => trivial) ?_ fun _ _ _ _ he => he.crash
  rintro _ rfl hinv _ _ rfl
  exact ⟨trivial, hinv, mem_putRecord.mpr (.inr rfl)⟩

/-- A body outside quality may write any record of its stage. -/
theorem safe_putEvidence {row : Record N} (hs : s ≠ .quality)
    (hrow : StageRecord profile.manifest.prefix_ s row) :
    Prog.Safe (bodyContract platform profile torn s st) crash (putEvidence row) :=
  fun _ => Prog.wp_mono (wp_putEvidence hrow fun h => absurd h hs) (fun _ _ _ => trivial)
    fun _ _ he => he

theorem safe_resetEvidence (hs : s ≠ .quality) :
    Prog.Safe (bodyContract platform profile torn s st) crash resetEvidence := by
  refine .fallible (fun _ => trivial) ?_ fun _ => id
  rintro f _ _ hinv rfl
  exact ⟨trivial, hinv.state, by simp, fun h => absurd h hs⟩

theorem safe_putIf {c : Bool} {row : Record N} (hs : s ≠ .quality)
    (hrow : StageRecord profile.manifest.prefix_ s row) :
    Prog.Safe (bodyContract platform profile torn s st) crash (putIf c row) := by
  unfold putIf
  split
  · exact safe_putEvidence hs hrow
  · exact .pure _

theorem safe_appendClifford (hs : s ≠ .quality) (row : CliffordRow) :
    Prog.Safe (bodyContract platform profile torn s st) crash (appendClifford row) := by
  refine .fallible (fun _ => trivial) ?_ fun _ => id
  rintro f _ _ hinv rfl
  exact ⟨trivial, hinv.state, hinv.records, fun h => absurd h hs⟩

theorem safe_request {β : Type} (P : β → Prop) :
    Prog.Safe (bodyContract platform profile torn s st) crash
      (Prog.request crash P : Prog (StageFiles N) Exn β) :=
  .request (fun _ => trivial) fun _ => id

theorem safe_behaviorChecks (hs : s ≠ .quality) (revision : Revision) :
    Prog.Safe (bodyContract platform profile torn s st) crash
      (behaviorChecks profile.manifest.prefix_ revision) := by
  refine .bind (safe_request _) fun checks => .bind (safe_request _) fun api => ?_
  refine .bind (.each fun check _ => safe_putIf hs (.foreign ?_ ?_)) fun _ => ?_
  · cases revision <;> simp [behaviorFailure]
  · simp [behaviorFailure]
  refine .bind (.each fun entry _ => safe_putIf hs (.foreign ?_ ?_)) fun _ => ?_
  · cases revision <;> simp [apiFailure]
  · simp [apiFailure]
  refine .bind (safe_putEvidence hs (.own String.append_assoc ?_ ?_ ?_)) fun _ => ?_
  · simp
  · simp
  · simp
  refine .bind (.read fun _ => trivial) fun records => ?_
  exact safe_putEvidence hs (.own rfl (by simp) (by simp) (by simp))

theorem safe_cliffordChecks (hs : s ≠ .quality) (revision : Revision) :
    Prog.Safe (bodyContract platform profile torn s st) crash
      (cliffordChecks profile.manifest.prefix_ revision) := by
  refine .bind (safe_request _) fun checks => ?_
  refine .bind (.each fun entry _ => .bind (safe_appendClifford hs _) fun _ =>
    safe_putIf hs (.foreign ?_ ?_)) fun _ => ?_
  · simp [cliffordFailure]
  · simp [cliffordFailure]
  refine .bind (.read fun _ => trivial) fun rows => ?_
  exact safe_putEvidence hs (.own rfl (by simp) (by simp) (by simp))

/-- What the store replays of a correctness half belongs to the correctness stage. -/
theorem baselineCorrectness_record {manifest : Manifest N} {r : Record N}
    (h : isBaselineCorrectness manifest.prefix_ r.id = true) (hkind : r.kind = .correctness) :
    StageRecord manifest.prefix_ s r := by
  have head : ∀ pre : String, 2 ≤ pre.toList.length → startsWith r.id pre = true →
      r.id.toList[1]? = pre.toList[1]? := by
    intro pre hlen hpre
    obtain ⟨rest, hrest⟩ := List.isPrefixOf_iff_prefix.mp hpre
    rw [← hrest, List.getElem?_append_left (by omega)]
  simp only [isBaselineCorrectness, List.any_cons, List.any_nil, Bool.or_false, Bool.or_eq_true,
    beq_iff_eq] at h
  have hk : r.kind ≠ .cost ∧ r.kind ≠ .improvement := by simp [hkind]
  rcases h with ((h | h | h) | h) | h
  · exact .foreign (by rw [head _ (by decide) h]; decide) hk
  · exact .foreign (by rw [head _ (by decide) h]; decide) hk
  · exact .foreign (by rw [head _ (by decide) h]; decide) hk
  · exact .own h (by simp) (by simp) hk
  · exact .foreign (by rw [h]; decide) hk

theorem safe_correctnessBody :
    Prog.Safe (bodyContract platform profile torn .correctness st) crash
      (correctnessBody profile.manifest.prefix_) := by
  have hs : Stage.correctness ≠ .quality := by decide
  refine .bind (.fallible (fun _ => trivial) ?_ fun _ => id) fun _ => ?_
  · rintro f _ _ hinv rfl
    exact ⟨trivial, hinv.state, hinv.records, fun h => absurd h hs⟩
  refine .bind (safe_resetEvidence hs) fun _ => .bind (safe_request _) fun stored => ?_
  refine .bind ?_ fun _ => .bind (.read fun _ => trivial) fun preflight => ?_
  · cases stored with
    | some stored =>
        refine .bind (.each fun row _ => safe_appendClifford hs row) fun _ => .each fun r hr => ?_
        exact safe_putEvidence hs (baselineCorrectness_record (stored.baseline r hr)
          (stored.kind r hr))
    | none =>
        refine .bind (safe_behaviorChecks hs _) fun _ => .bind (safe_cliffordChecks hs _) fun _ =>
          .bind (.read fun _ => trivial) fun bad => ?_
        exact .bind (safe_putEvidence hs (.foreign (by simp) (by simp))) fun _ => safe_request _
  · cases preflight with
    | none => exact .throw (by simp [crash])
    | some preflight =>
        change Prog.Safe _ _ (if _ then _ else _)
        split
        · exact .pure _
        · exact .bind (safe_behaviorChecks hs _) fun _ => safe_cliffordChecks hs _

theorem suiteRecords_record {manifest : Manifest N} {suite : String}
    {baseline evolved : SuiteResult} {r : Record N}
    (h : r ∈ suiteRecords manifest.prefix_ suite baseline evolved) :
    StageRecord manifest.prefix_ s r := by
  have own : ∀ name, r.id = manifest.prefix_ ++ "1/upstream/" ++ suite ++ name →
      r.kind = .correctness → StageRecord manifest.prefix_ s r := by
    intro name hid hkind
    rw [String.append_assoc, String.append_assoc] at hid
    exact .own hid (by simp) (by simp) (by simp [hkind])
  simp only [suiteRecords, List.mem_cons, List.not_mem_nil, or_false] at h
  rcases h with rfl | rfl
  · exact own "baseline" rfl rfl
  · exact own "evolved" rfl rfl

theorem safe_unitTestsBody :
    Prog.Safe (bodyContract platform profile torn .unit_tests st) crash
      (unitTestsBody profile.manifest.prefix_) := by
  have hs : Stage.unit_tests ≠ .quality := by decide
  refine .bind (safe_resetEvidence hs) fun _ => .bind (safe_request _) fun python =>
    .bind (safe_request _) fun rust => ?_
  refine .bind (.each fun r hr => safe_putEvidence hs ?_) fun _ => .bind (safe_request _) fun _ =>
    .bind (.read fun _ => trivial) fun evidence => ?_
  · exact (List.mem_append.mp hr).elim suiteRecords_record suiteRecords_record
  · exact safe_putEvidence hs (.own rfl (by simp) (by simp) (by simp))

end Safe

theorem safe_ofExcept {W α : Type} {C : Contract W} {E : Exn → Prop} {x : Except Exn α}
    (h : ∀ e, x = .error e → E e) : Prog.Safe C E (Prog.ofExcept x) :=
  fun _ => wp_ofExcept.mpr ⟨fun _ _ => trivial, h⟩

theorem keeps_ofExcept {W α : Type} {C : Contract W} {A : W → Prop} (x : Except Exn α) :
    Prog.Keeps C A (Prog.ofExcept x) :=
  fun _ hw => wp_ofExcept.mpr ⟨fun _ _ => hw, fun _ _ => hw⟩

theorem measuredRecord_id {id : String} {guarded : Bool} {measured : Except Exn (CostResult N)}
    {r : Record N} (h : measuredRecord id guarded measured = .ok r) : r.id = id := by
  unfold measuredRecord at h
  split at h
  · cases h; rfl
  · split at h <;> cases h
    rfl
  · cases h

/-- The evidence of a cost stage while it measures. -/
def CostFiles.Kept (pre : String) (files : CostFiles N) : Prop :=
  ∀ r ∈ files.evidence, StageRecord pre .cost r

theorem panelId_record {manifest : Manifest N} {name : String} {r : Record N}
    (h : r.id = manifest.prefix_ ++ "5/" ++ name) : StageRecord manifest.prefix_ .cost r := by
  refine ⟨fun heq => ?_, fun hne => absurd rfl hne, fun hne => absurd rfl hne⟩
  have hlist := congrArg String.toList (h.symm.trans heq)
  rw [String.append_assoc, String.toList_append, String.toList_append, String.toList_append,
    List.append_cancel_left_eq] at hlist
  simp at hlist

section Cost
variable [Arith N] [DecidableEq N] {setting : Setting N} {run : Run N}

theorem safe_measureCosts :
    Prog.Safe (Contract.alone (CostFiles.Kept run.prefix_) fun _ _ => True) (fun _ => True)
      (measureCosts setting run) := by
  unfold measureCosts
  split
  · exact .throw trivial
  · refine .bind (safe_ofExcept fun _ _ => trivial) fun guarded =>
      .bind (safe_ofExcept fun _ _ => trivial) fun panels => .each fun panel _ => ?_
    unfold measureStep
    refine .bind (safe_ofExcept fun _ _ => trivial) fun subject => .bind (.attempt
      (.zoom _ (fun _ _ => trivial) (fun files d hfiles _ _ => ⟨trivial, hfiles⟩)
        (.trivially _))) fun measured => ?_
    intro w
    rw [Prog.wp_bind, wp_ofExcept]
    refine ⟨fun row hrow => ?_, fun _ _ => trivial⟩
    refine Prog.wp_fallible (fun _ => trivial) ?_ fun _ _ _ _ _ => trivial
    rintro files rfl hfiles _ _ rfl
    refine ⟨trivial, fun r hr => ?_, trivial⟩
    rcases mem_putRecord.mp hr with ⟨hr, -⟩ | rfl
    · exact hfiles r hr
    · exact panelId_record (measuredRecord_id hrow)

end Cost

end TranspileBench.Coordinator
